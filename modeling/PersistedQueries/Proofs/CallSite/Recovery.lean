import PersistedQueries.Proofs.CallSite.Rendering
import PersistedQueries.Proofs.CallSite.Searching

/-!
# Finding the calls that were written

Calls that are written into a text, one behind the other with other code between them, are found again:
all of them, nothing else, each with what was written and at the very characters that it takes. The
search takes the first place where a call can be read, so a call would be missed if another one could be
read that begins in front of it. And a call would be dropped if the walk over comments and literals did
not come to it.

- `Separator`, `Piece`, `codeOf`: a text that is made of calls and of code between them. `located`: the
  offsets of its calls.
- `scans_codeOf`: the walk over comments and literals comes through calls and the code between them.
- `Rendering.match?_append_eq_none`: no call can be read that begins in front of a written one.
- `allFrom_codeOf`: the calls of such a text.
- `extract_codeOf`: its call sites.
-/

namespace PersistedQueries.CallSite

open GraphQL (Ends ends_cons takeWhile_append_of_ends)
open Text (isBlank occursIn_iff)

/-! ## Texts with calls -/

/-- Code between calls: it has no quote of any kind, no slash, and no tag with a parenthesis behind it. -/
structure Separator where
  text : Text
  isPlain_of_mem : ∀ c ∈ text, IsPlain c
  not_infix : ¬ tagCall <:+: text

/-- A call with the code in front of it. If there is any, it ends with a space, a line end or another
character that is not taken for a part of the name. -/
structure Piece where
  between : Separator
  isNameChar_of_getLast? : ∀ c, between.text.getLast? = some c → isNameChar c = false
  call : Rendering

/-- A text of calls with code in front of each and behind the last. -/
def codeOf (last : Separator) : List Piece → Text
  | [] => last.text
  | piece :: pieces => piece.between.text ++ (piece.call.text ++ codeOf last pieces)

/-- The calls of a text with the offsets at which they begin. `offset` is the number of characters in
front of the text. -/
def located (offset : Nat) : List Piece → List (Nat × Rendering)
  | [] => []
  | piece :: pieces =>
    (offset + piece.between.text.length, piece.call) ::
      located (offset + piece.between.text.length + piece.call.text.length) pieces

/-- The call site of a call that begins at an offset. -/
def Rendering.siteAt (file : Option String) (start : Nat) (call : Rendering) : CallSite where
  name := String.ofList call.name.text
  source := String.ofList call.template.text
  span := ⟨start, start + call.text.length⟩
  dependsOn := .ofList (call.dependencies.map String.ofList)
  file := file

/-- Each call of a text stands at its offset, behind the calls and the code in front of it. -/
theorem exists_of_mem_located {offset start : Nat} {call : Rendering} {pieces : List Piece}
    (last : Separator) (h : (start, call) ∈ located offset pieces) :
    ∃ (before : List Piece) (between : Separator) (after : List Piece),
      start = offset + (codeOf between before).length ∧
      codeOf last pieces = codeOf between before ++ (call.text ++ codeOf last after) := by
  induction pieces generalizing offset with
  | nil => cases h
  | cons piece pieces ih =>
    rcases List.mem_cons.1 h with heq | h
    · obtain ⟨rfl, rfl⟩ := Prod.mk.inj heq
      exact ⟨[], piece.between, pieces, rfl, rfl⟩
    · obtain ⟨before, between, after, rfl, hcode⟩ := ih h
      refine ⟨piece :: before, between, after, ?_, ?_⟩
      · simp only [codeOf, List.length_append]
        omega
      · rw [codeOf, hcode, codeOf]
        simp only [List.append_assoc]

/-! ## The walk over comments and literals -/

/-- The end of a call is made of white space, names, commas, brackets and its parenthesis. -/
theorem Rendering.not_mem_ending {c : Char} (hblank : isBlank c = false) (hname : isNameChar c = false)
    (hmark : c ∉ ",[])".toList) (call : Rendering) : c ∉ call.ending := by
  have hcomma : c ≠ ',' := fun h => hmark (h ▸ by decide)
  have hopen : c ≠ '[' := fun h => hmark (h ▸ by decide)
  have hclose : c ≠ ']' := fun h => hmark (h ▸ by decide)
  have hparen : c ≠ ')' := fun h => hmark (h ▸ by decide)
  have hspace (blanks : Blanks) : c ∉ blanks.1 := fun hc => by
    cases hblank.symm.trans (blanks.2 c hc)
  have hclosing : c ∉ call.closing.1 ++ [')'] := by
    rw [List.mem_append, List.mem_singleton]
    rintro (hc | hc)
    · have htrailer := call.closing.2 c hc
      simp [isTrailer, hblank, hcomma] at htrailer
    · exact hparen hc
  rw [ending, List.mem_append]
  rintro (hc | hc)
  · cases hlist : call.list with
    | none =>
      rw [hlist] at hc
      cases hc
    | some list =>
      have hinterior := list.not_mem_interior hblank hname hcomma
      rw [hlist] at hc
      simp [DependencyList.text, hspace, hcomma, hopen, hclose, hinterior] at hc
  · exact hclosing hc

theorem Rendering.isPlain_of_mem_ending (call : Rendering) : ∀ c ∈ call.ending, IsPlain c := by
  intro c hc
  refine ⟨?_, ?_, ?_, ?_⟩ <;> rintro rfl <;>
    exact call.not_mem_ending (by decide) (by decide) (by decide) hc

/-- The text of a call up to its template, which is code. -/
def Rendering.opening (call : Rendering) : Text :=
  call.name.text ++ (call.gap.1 ++ ('=' :: (call.gap'.1 ++ (tagCall ++ call.lead.1))))

theorem Rendering.text_eq_opening (call : Rendering) : call.text =
    call.opening ++ ('\x60' :: ((call.template.text ++ ['\x60']) ++ call.ending)) := by
  simp [text, opening]

theorem Rendering.isPlain_of_mem_opening (call : Rendering) : ∀ c ∈ call.opening, IsPlain c :=
  call.front.isPlain_of_mem_code

/-- The walk comes through a written call, of which only the template is a literal. -/
theorem Rendering.scans (call : Rendering) (before rest : Text) : Scans before call.text rest := by
  rw [text_eq_opening]
  refine (scans_of_isPlain call.isPlain_of_mem_opening).append (.token ?_
    (scans_of_isPlain call.isPlain_of_mem_ending))
  rw [Splice.tokenTail?_backtick, List.append_assoc, List.singleton_append,
    call.template.isSealed.literalLength_eq, List.length_append, List.length_singleton]

/-- The walk comes through calls and the code between them. -/
theorem scans_codeOf (last : Separator) (pieces : List Piece) (before rest : Text) :
    Scans before (codeOf last pieces) rest := by
  induction pieces generalizing before with
  | nil => exact scans_of_isPlain last.isPlain_of_mem
  | cons piece pieces ih =>
    exact (scans_of_isPlain piece.between.isPlain_of_mem).append ((piece.call.scans _ _).append (ih _))

/-! ## The search -/

theorem CallShape.allFrom_append {front text : Text}
    (h : ∀ first more, front = first ++ more → more ≠ [] → CallShape.match? (more ++ text) = none)
    (offset : Nat) :
    CallShape.allFrom offset (front ++ text) = CallShape.allFrom (offset + front.length) text := by
  rw [CallShape.allFrom_eq, CallShape.allFrom_eq, findFrom_append h]

theorem CallShape.allFrom_of_match? {text : Text} {shape : CallShape}
    (h : CallShape.match? text = some shape) (offset : Nat) :
    CallShape.allFrom offset text = (⟨offset, offset + shape.length⟩, shape) ::
      CallShape.allFrom (offset + shape.length) (text.drop shape.length) := by
  rw [CallShape.allFrom_eq, findFrom_of_read? CallShape.reads h, List.map_cons, ← CallShape.allFrom_eq]
  rfl

/-- What stands in front of the longest run of some characters at the end of a text is determined by the
text. -/
theorem eq_of_append_runs {p : Char → Bool} {text other run run' : Text}
    (h : text ++ run = other ++ run') (hrun : ∀ c ∈ run, p c = true) (hrun' : ∀ c ∈ run', p c = true)
    (htext : Ends p text.reverse) (hother : Ends p other.reverse) : text = other := by
  have hback : ∀ {text run : Text}, (∀ c ∈ run, p c = true) → Ends p text.reverse →
      (text ++ run).reverse.dropWhile p = text.reverse := by
    intro text run hrun htext
    rw [List.reverse_append]
    exact dropWhile_append_of_ends (fun c hc => hrun c (List.mem_reverse.1 hc)) htext
  have hdrop := hback hrun htext
  rw [h, hback hrun' hother] at hdrop
  exact (List.reverse_injective hdrop).symm

theorem isGap_of_isNameChar {c : Char} (h : isNameChar c = true) : isGap c = false := by
  by_contra hgap
  rw [isNameChar_of_isGap (by simpa using hgap)] at h
  cases h

/-- A text that ends with a name does not end with a gap. -/
theorem ends_isGap_reverse {name : Text} (hne : name ≠ []) (hname : ∀ c ∈ name, isNameChar c = true)
    (front : Text) : Ends isGap (front ++ name).reverse := by
  rw [List.reverse_append]
  refine ends_append_of_ne_nil (by simpa using hne) (fun c hc => ?_) _
  exact isGap_of_isNameChar (hname c (List.mem_reverse.1 hc))

/-- What stands in front of the last equals sign, and of the gap before it, is determined by the text. -/
theorem eq_of_assigned {text name gap gap₁ gap' gap₁' : Text}
    (h : text ++ (gap₁ ++ '=' :: gap₁') = name ++ (gap ++ '=' :: gap'))
    (htext : Ends isGap text.reverse) (hname : Ends isGap name.reverse)
    (hgap : ∀ c ∈ gap, isGap c = true) (hgap₁ : ∀ c ∈ gap₁, isGap c = true)
    (hgap' : ∀ c ∈ gap', isGap c = true) (hgap₁' : ∀ c ∈ gap₁', isGap c = true) : text = name := by
  have hequals (front : Text) : Ends isGap (front ++ ['=']).reverse := by
    rw [List.reverse_append]
    exact ends_cons.2 (by decide)
  have hassigned : (text ++ gap₁) ++ ['='] = (name ++ gap) ++ ['='] :=
    eq_of_append_runs (by simpa using h) hgap₁' hgap' (hequals _) (hequals _)
  exact eq_of_append_runs (List.append_cancel_right hassigned) hgap₁ hgap htext hname

theorem takeWhile_parenthesis {front : Text} (h : '(' ∉ front) (rest : Text) :
    (front ++ '(' :: rest).takeWhile (fun c => decide (c ≠ '(')) = front := by
  have hend : Ends (fun c => decide (c ≠ '(')) ('(' :: rest) := ends_cons.2 (by decide)
  refine takeWhile_append_of_ends (fun c hc => ?_) hend
  rw [decide_eq_true_eq]
  rintro rfl
  exact h hc

theorem tagCall_eq : tagCall = tagName ++ ['('] := by decide

/-- What stands in front of the first parenthesis of an assigned call. -/
theorem takeWhile_assigned {name gap gap' : Text} (hname : ∀ c ∈ name, isNameChar c = true)
    (hgap : ∀ c ∈ gap, isGap c = true) (hgap' : ∀ c ∈ gap', isGap c = true) (rest : Text) :
    (name ++ (gap ++ '=' :: (gap' ++ (tagCall ++ rest)))).takeWhile (fun c => decide (c ≠ '(')) =
      (name ++ (gap ++ '=' :: gap')) ++ tagName := by
  have hsplit : name ++ (gap ++ '=' :: (gap' ++ (tagCall ++ rest))) =
      ((name ++ (gap ++ '=' :: gap')) ++ tagName) ++ '(' :: rest := by
    rw [tagCall_eq]
    simp
  rw [hsplit]
  refine takeWhile_parenthesis ?_ rest
  simp only [List.mem_append, List.mem_cons]
  rintro ((hc | hc | hc | hc) | hc)
  · cases hname _ hc
  · cases hgap _ hc
  · cases hc
  · cases hgap' _ hc
  · exact absurd hc (by decide)

/-- No call can be read that begins in code in front of a written one. Without a tag of its own such a
call would share the tag, the equals sign and the end of the name with the written one, and its name would
begin in the code. -/
theorem Rendering.match?_append_eq_none {front : Text} (hne : front ≠ [])
    (hends : ∀ c, front.getLast? = some c → isNameChar c = false) (htag : ¬ tagCall <:+: front)
    (call : Rendering) (rest : Text) : CallShape.match? (front ++ (call.text ++ rest)) = none := by
  refine Option.eq_none_iff_forall_ne_some.2 fun shape hshape => ?_
  obtain ⟨gap, gap', behind, hread, hname, hgap, hgap', ⟨more, rfl⟩⟩ :=
    CallShape.match?_assigned hshape
  have hfront := takeWhile_assigned hname hgap hgap' more
  rw [← hread] at hfront
  by_cases hparen : '(' ∈ front
  · -- the parenthesis of the call that is read stands in front of the written call, and so does its tag
    obtain ⟨before, after, rfl, hbefore⟩ := List.eq_append_cons_of_mem hparen
    rw [List.append_assoc, List.cons_append, takeWhile_parenthesis hbefore] at hfront
    refine htag ⟨shape.name ++ (gap ++ '=' :: gap'), after, ?_⟩
    rw [hfront, tagCall_eq]
    simp
  · -- both calls have the same parenthesis
    have hcall : call.text ++ rest = call.name.text ++ (call.gap.1 ++ '=' :: (call.gap'.1 ++
        (tagCall ++ (call.lead.1 ++ '\x60' :: (call.template.text ++ '\x60' ::
          (call.ending ++ rest)))))) := by simp [text]
    have hplain : ∀ c ∈ front, decide (c ≠ '(') = true := by
      intro c hc
      rw [decide_eq_true_eq]
      rintro rfl
      exact hparen hc
    rw [List.takeWhile_append_of_pos hplain, hcall,
      takeWhile_assigned call.name.isNameChar_of_mem call.gap.2 call.gap'.2, ← List.append_assoc]
      at hfront
    have hassigned := List.append_cancel_right hfront
    rw [← List.append_assoc] at hassigned
    have hwhole : front ++ call.name.text = shape.name := by
      obtain ⟨_, _, -, hspells, -⟩ := CallShape.match?_eq_some hshape
      exact eq_of_assigned hassigned
        (ends_isGap_reverse call.name.ne_nil call.name.isNameChar_of_mem front)
        (ends_isGap_reverse hspells.name hname []) hgap call.gap.2 hgap' call.gap'.2
    -- so the name that is read would take in the end of the code in front
    have hlast := List.getLast?_eq_some_getLast hne
    have hin : front.getLast hne ∈ shape.name :=
      hwhole ▸ List.mem_append_left _ (List.getLast_mem hne)
    cases (hends _ hlast).symm.trans (hname _ hin)

/-- No call can be read in code without a call of the tag. -/
theorem match?_eq_none_of_not_infix {text : Text} (h : ¬ tagCall <:+: text) :
    CallShape.match? text = none := by
  refine Option.eq_none_iff_forall_ne_some.2 fun shape hshape => ?_
  obtain ⟨gap, gap', behind, rfl, -, -, -, htag⟩ := CallShape.match?_assigned hshape
  refine h (htag.isInfix.trans (List.IsSuffix.isInfix ⟨shape.name ++ (gap ++ '=' :: gap'), ?_⟩))
  simp

/-- The call sites of a text are its calls that do not begin within a comment or a literal, also where the
text is not searched because it lacks the word of the tag. -/
theorem extract_eq (code : Text) (file : Option String) :
    extract code file = ((CallShape.all code).filter fun (span, _) =>
      !inRanges span.start (ignoredRanges code)).map fun (span, shape) => ofShape file span shape := by
  unfold extract
  split
  · rfl
  · next hword =>
    have hnone : CallShape.all code = [] := by
      refine List.eq_nil_iff_forall_not_mem.2 ?_
      rintro ⟨span, shape⟩ hmem
      obtain ⟨front, rest, rfl, -, hread⟩ := CallShape.exists_of_mem_all hmem
      refine Option.ne_none_iff_exists'.2 ⟨shape, hread⟩ <| match?_eq_none_of_not_infix fun htag => ?_
      refine hword (occursIn_iff.2 (List.IsInfix.trans ?_ (List.suffix_append front rest).isInfix))
      exact (tagCall_eq ▸ List.prefix_append tagName ['(']).isInfix.trans htag
    rw [hnone]
    rfl

theorem Separator.not_infix_of_eq {first more : Text} (between : Separator)
    (heq : between.text = first ++ more) : ¬ tagCall <:+: more := by
  intro h
  refine between.not_infix (h.trans ?_)
  rw [heq]
  exact (List.suffix_append first more).isInfix

/-- The calls that the search finds in a text are those that were written into it. -/
theorem allFrom_codeOf (last : Separator) (pieces : List Piece) (offset : Nat) :
    CallShape.allFrom offset (codeOf last pieces) = (located offset pieces).map
      fun (start, call) => (⟨start, start + call.text.length⟩, call.shape) := by
  induction pieces generalizing offset with
  | nil =>
    have hnone : ∀ first more, last.text = first ++ more → more ≠ [] →
        CallShape.match? (more ++ []) = none := by
      intro first more heq _
      rw [List.append_nil]
      exact match?_eq_none_of_not_infix (last.not_infix_of_eq heq)
    rw [codeOf, ← List.append_nil last.text, CallShape.allFrom_append hnone, CallShape.allFrom]
    rfl
  | cons piece pieces ih =>
    have hnone : ∀ first more, piece.between.text = first ++ more → more ≠ [] →
        CallShape.match? (more ++ (piece.call.text ++ codeOf last pieces)) = none := by
      intro first more heq hmore
      refine piece.call.match?_append_eq_none hmore (fun c hc => ?_)
        (piece.between.not_infix_of_eq heq) _
      refine piece.isNameChar_of_getLast? c ?_
      rw [heq, List.getLast?_append, hc]
      rfl
    rw [codeOf, CallShape.allFrom_append hnone,
      CallShape.allFrom_of_match? (piece.call.match?_text _), Rendering.shape, List.drop_left, ih]
    rfl

/-- What is made of a written call at its offset. -/
theorem Rendering.ofShape_shape (file : Option String) (start : Nat) (call : Rendering) :
    ofShape file ⟨start, start + call.text.length⟩ call.shape = call.siteAt file start := by
  have hnames : dependencyNames (call.list.map DependencyList.interior) =
      .ofList (call.dependencies.map String.ofList) := by
    rw [dependencies]
    cases call.list with
    | none => rfl
    | some list =>
      show NameSet.ofList ((entriesOf list.interior).map String.ofList) = _
      rw [entriesOf_interior]
      rfl
  rw [siteAt, ← hnames]
  rfl

/-- No comment and no literal holds the beginning of a written call. -/
theorem inRanges_of_mem_located {start : Nat} {call : Rendering} {pieces : List Piece}
    (last : Separator) (h : (start, call) ∈ located 0 pieces) :
    inRanges start (ignoredRanges (codeOf last pieces)) = false := by
  obtain ⟨before, between, after, rfl, hcode⟩ := exists_of_mem_located last h
  obtain ⟨c, name, hname⟩ := List.exists_cons_of_ne_nil call.name.ne_nil
  have hc : IsPlain c :=
    isPlain_of_isNameChar (call.name.isNameChar_of_mem c (hname ▸ List.mem_cons_self))
  rw [hcode, Nat.zero_add, Rendering.text, hname]
  exact inRanges_of_scans (scans_codeOf between before [] _) hc

/-- A text with a written call has the word of the tag. -/
theorem occursIn_tagName (last : Separator) (piece : Piece) (pieces : List Piece) :
    Text.occursIn tagName (codeOf last (piece :: pieces)) = true := by
  rw [occursIn_iff, codeOf, Rendering.text, tagCall_eq]
  refine ⟨piece.between.text ++ (piece.call.name.text ++ (piece.call.gap.1 ++
    ('=' :: piece.call.gap'.1))), '(' :: (piece.call.lead.1 ++ ('\x60' :: (piece.call.template.text ++
      ('\x60' :: piece.call.ending))) ++ codeOf last pieces), ?_⟩
  simp only [List.append_assoc, List.cons_append, List.nil_append]

/-- **Written calls.** From a text of written calls, with code in front of each and behind the last, the
calls are extracted that were written, in their order and no others. Each has the name, the document and
the set of dependencies that were written, whatever the document looks like and however the call is laid
out, and its span begins at its name and ends behind its parenthesis. -/
theorem extract_codeOf (last : Separator) (pieces : List Piece) (file : Option String) :
    extract (codeOf last pieces) file =
      (located 0 pieces).map fun (start, call) => call.siteAt file start := by
  cases pieces with
  | nil =>
    unfold extract
    rw [CallShape.all, allFrom_codeOf]
    split <;> rfl
  | cons piece pieces =>
    unfold extract
    rw [if_pos (occursIn_tagName last piece pieces), CallShape.all, allFrom_codeOf]
    dsimp only
    rw [List.filter_eq_self.2, List.map_map]
    · refine List.map_congr_left ?_
      rintro ⟨start, call⟩ -
      exact call.ofShape_shape file start
    · -- no call is dropped, since the walk comes to each of them
      rw [List.forall_mem_map]
      rintro ⟨start, call⟩ hcall
      dsimp only
      rw [inRanges_of_mem_located last hcall]
      rfl

end PersistedQueries.CallSite
