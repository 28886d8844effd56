import PersistedQueries.Proofs.CallSite.Braces
import PersistedQueries.Proofs.CallSite.Noted
import PersistedQueries.Proofs.CallSite.Recognised

/-!
# What comments in a list change

Comments within the brackets of a call or within the braces of an import statement should not matter. For
what stands around the list they do not: the call or the statement goes on up to the same closing mark, and
whatever else is found is found again. But the names of the list itself are cut out of its text, comments
and all.

- `ListSpot`: a list in a text, the interior of which is exchanged.
- `ListSpot.exists_steady_of_scans`, `ListSpot.exists_steady_of_literal`: the walk over comments and
  literals around the list.
- `exchange_notes`: what is extracted and imported when comments are put into a list.
- `not_exchange_notes`: it is not the same in general.
-/

namespace PersistedQueries.CallSite

open Splice (Sealed tokenTail?_backtick)

/-! ## Lists in a text -/

/-- The two kinds of lists: the dependencies of a call, and the names of an import statement. -/
inductive ListKind where
  | brackets
  | braces
  deriving DecidableEq

/-- The mark that opens a list. -/
def ListKind.opening : ListKind → Char
  | .brackets => '['
  | .braces => '\x7b'

/-- The mark that closes a list. -/
def ListKind.closing : ListKind → Char
  | .brackets => ']'
  | .braces => '\x7d'

/-- A text around the interior of a list. -/
structure ListSpot where
  kind : ListKind
  front : Text
  back : Text

namespace ListSpot

variable (spot : ListSpot)

/-- The text, when the list has some interior. -/
def text (list : Text) : Text := spot.front ++ spot.kind.opening :: (list ++ spot.kind.closing :: spot.back)

/-- The text up to the interior of the list. -/
def before : Text := spot.front ++ [spot.kind.opening]

/-- The text from the interior of the list on. -/
def behind : Text := spot.kind.closing :: spot.back

/-- The list stands in a span, with the marks around it. -/
def Within (list : Text) (span : Span) : Prop :=
  span.start ≤ spot.front.length ∧ spot.front.length + list.length + 2 ≤ span.stop

theorem text_eq (list : Text) : spot.text list = spot.before ++ (list ++ spot.behind) := by
  simp [text, before, behind]

theorem length_before : spot.before.length = spot.front.length + 1 := List.length_append

theorem getLast?_before (c : Char) (h : spot.before.getLast? = some c) : c = spot.kind.opening := by
  rw [before, List.getLast?_concat] at h
  exact (Option.some.inj h).symm

variable {spot} {names list : Text}

/-! ## Calls and statements around a list -/

theorem callSeam (spot : ListSpot) (names : Text) : Seam CallShape.match? CallShape.length CallShape.name
    spot.kind.opening (Noted names) spot.behind := by
  have hsilent {gap : Text} (hgap : Noted names gap) (first more : Text) (heq : gap = first ++ more)
      (_ : more ≠ []) : CallShape.match? (more ++ spot.behind) = none := by
    have hbacktick : '\x60' ∉ more := fun hmem =>
      hgap.not_mem (by decide) (by decide) (heq ▸ List.mem_append_right first hmem)
    rw [behind]
    cases spot.kind <;>
      exact CallShape.match?_eq_none hbacktick (by decide) (by decide) (by decide) spot.back
  have hfits {gap : Text} (hgap : Noted names gap) : '\x60' ∉ gap ∧ ']' ∉ gap :=
    ⟨hgap.not_mem (by decide) (by decide), hgap.not_mem (by decide) (by decide)⟩
  cases hkind : spot.kind <;> exact CallShape.seam (by decide) (by decide) (by decide) hfits hsilent

/-- A list with comments may stand in a statement behind its opening mark. -/
theorem passable (kind : ListKind) (h : Noted names list) : Passable kind.opening list where
  isNameChar_eq := by cases kind <;> decide
  isBlank_eq := by cases kind <;> decide
  isQuote_eq := by cases kind <;> decide
  not_mem_marks := by cases kind <;> decide
  not_mem := h.not_mem (by decide) (by decide)
  isQuote_of_mem c hc := by
    have hquote : ∀ quote, isQuote quote = true → quote ∉ list := by
      intro quote hquote
      simp only [isQuote, Bool.or_eq_true, decide_eq_true_eq] at hquote
      rcases hquote with rfl | rfl <;> exact h.not_mem (by decide) (by decide)
    by_contra hc'
    exact hquote c (by simpa using hc') hc

theorem statementSeam (spot : ListSpot) (names : Text) : Seam ImportShape.match? ImportShape.length
    (fun _ => ()) spot.kind.opening (Noted names) spot.behind := by
  refine ImportShape.seam (passable spot.kind) fun {gap} hgap first more heq _ => ?_
  have hmore : ∀ d ∈ more, d ≠ '\x7b' ∧ isQuote d = false := by
    intro d hd
    have hmem : d ∈ gap := heq ▸ List.mem_append_right first hd
    refine ⟨fun h => hgap.not_mem (by decide) (by decide) (h ▸ hmem), ?_⟩
    exact (passable spot.kind hgap).isQuote_of_mem d hmem
  rw [behind]
  cases spot.kind <;>
    exact ImportShape.match?_eq_none hmore (by decide) (by decide) (by decide) spot.back

/-! ## Comments and literals around a list -/

theorem contains_shifted (shift n : Nat) (range : Span) :
    (shifted shift range).Contains (n + shift) ↔ range.Contains n := by
  simp only [shifted, Span.Contains]
  omega

/-- The walk comes to the same places around a gap when it finds the same in front of it and behind it, and
what it finds in between covers the same of what stands in front and behind. -/
theorem exists_steady {Fits : Text → Prop} {front behind : Text} {earlier : List Span} (later : List Span)
    (p q : Nat → Prop) (hearlier : ∀ range ∈ earlier, range.stop ≤ front.length)
    (h : ∀ gap, Fits gap → ∃ own, ignoredRanges (front ++ (gap ++ behind)) =
        earlier ++ (own ++ later.map (shifted (front.length + gap.length))) ∧
      (∀ start < front.length, (∃ range ∈ own, range.Contains start) ↔ p start) ∧
      ∀ n, (∃ range ∈ own, range.Contains (n + (front.length + gap.length))) ↔ q n) :
    ∃ inFront inBehind, Steady Fits front behind inFront inBehind := by
  classical
  -- what is found in front of the gap covers nothing behind it, and the other way round
  refine ⟨fun start => decide ((∃ range ∈ earlier, range.Contains start) ∨ p start),
    fun n => decide (q n ∨ ∃ range ∈ later, range.Contains n), ?_, ?_⟩
  · intro gap hgap start hstart
    obtain ⟨own, hranges, hp, -⟩ := h gap hgap
    have hlater : ¬ ∃ range ∈ later.map (shifted (front.length + gap.length)), range.Contains start := by
      rintro ⟨_, hmem, hcontains⟩
      obtain ⟨range, -, rfl⟩ := List.mem_map.1 hmem
      simp only [shifted, Span.Contains] at hcontains
      omega
    rw [Bool.eq_iff_iff, inRanges_ignoredRanges_iff, decide_eq_true_eq, hranges, ← hp start hstart]
    simp only [List.mem_append, or_and_right, exists_or, hlater, or_false]
  · intro gap hgap n
    obtain ⟨own, hranges, -, hq⟩ := h gap hgap
    have hfront : ¬ ∃ range ∈ earlier, range.Contains (n + (front.length + gap.length)) := by
      rintro ⟨range, hmem, hcontains⟩
      have := hearlier range hmem
      have := hcontains.2
      omega
    have hlater : (∃ range ∈ later.map (shifted (front.length + gap.length)),
        range.Contains (n + (front.length + gap.length))) ↔ ∃ range ∈ later, range.Contains n := by
      simp [contains_shifted]
    rw [Bool.eq_iff_iff, inRanges_ignoredRanges_iff, decide_eq_true_eq, hranges, ← hq n, ← hlater]
    simp only [List.mem_append, or_and_right, exists_or, hfront, false_or]

/-- Behind the closing mark of a list it does not matter what stands in the list or in front of it, except
for the offsets. -/
theorem rangesFrom_behind (spot : ListSpot) {n : Nat} (hn : 0 < n) (before : Text) (offset : Nat) :
    rangesFrom ((spot.behind.take n).reverse ++ before) (offset + n) (spot.behind.drop n) =
      (rangesFrom (spot.behind.take n).reverse n (spot.behind.drop n)).map (shifted offset) := by
  obtain ⟨m, rfl⟩ := Nat.exists_eq_add_one.2 hn
  have halike : SlashAlike ((spot.behind.take (m + 1)).reverse ++ before)
      ((spot.behind.take (m + 1)).reverse ++ []) := by
    rw [behind, List.take_succ_cons, List.reverse_cons, List.append_assoc, List.append_assoc]
    refine SlashAlike.append ?_ _
    refine slashAlike_cons ?_ ?_ before []
    · cases spot.kind <;> decide
    · cases spot.kind <;> decide +kernel
  rw [rangesFrom_of_slashAlike halike, List.append_nil, Nat.add_comm offset, rangesFrom_shift]

/-- The walk around a list to which it comes as code. -/
theorem exists_steady_of_scans (names : Text)
    (h : Scans [] spot.front (spot.kind.opening :: (list ++ spot.behind))) :
    ∃ inFront inBehind, Steady (Noted names) spot.before spot.behind inFront inBehind := by
  have hopening : ∀ c ∈ [spot.kind.opening], IsPlain c :=
    List.forall_mem_singleton.2 (by cases spot.kind <;> decide)
  have hclosing : ∀ c ∈ [spot.kind.closing], IsPlain c :=
    List.forall_mem_singleton.2 (by cases spot.kind <;> decide)
  have hlength := spot.length_before
  obtain ⟨earlier, hstops, hranges⟩ := h.exists_ranges 0
  refine exists_steady (rangesFrom (spot.behind.take 1).reverse 1 (spot.behind.drop 1))
    (fun _ => False) (fun _ => False) (fun range (hrange : range ∈ earlier) => ?_) fun gap hgap => ?_
  · have := hstops range hrange
    omega
  have hfront : ignoredRanges (spot.before ++ (gap ++ spot.behind)) = earlier ++
      rangesFrom (spot.kind.opening :: spot.front.reverse) spot.before.length (gap ++ spot.behind) := by
    have halike : Alike (spot.kind.opening :: (list ++ spot.behind))
        (spot.kind.opening :: (gap ++ spot.behind)) := alike_cons (by cases spot.kind <;> decide) _ _
    rw [hlength, before, List.append_assoc, ignoredRanges, List.singleton_append,
      hranges _ (.inr halike), ← List.singleton_append, rangesFrom_append_plain hopening]
    simp
  have hbehind (before : Text) (offset : Nat) : rangesFrom before offset spot.behind =
      (rangesFrom (spot.behind.take 1).reverse 1 (spot.behind.drop 1)).map (shifted offset) := by
    rw [← rangesFrom_behind spot Nat.one_pos before offset]
    exact rangesFrom_append_plain hclosing before offset spot.back
  obtain ⟨own, hown, hends⟩ :=
    (hgap.scans (spot.kind.opening :: spot.front.reverse) spot.behind).rangesFrom_eq spot.before.length
  refine ⟨own, ?_, fun start hstart => iff_of_false ?_ not_false, fun n => iff_of_false ?_ not_false⟩
  · rw [hfront, hown, hbehind]
  · -- what is found in the list begins behind its opening mark
    rintro ⟨range, hrange, hcontains⟩
    have hbegins := (mem_rangesFrom (hown ▸ List.mem_append_left _ hrange)).1
    have := hcontains.1
    omega
  · rintro ⟨range, hrange, hcontains⟩
    have := hends range hrange
    have := hcontains.2
    omega

/-- The walk around a list within a template. -/
theorem exists_steady_of_literal (names : Text) {first inside : Text} (hfront : spot.front = first ++ '\x60' :: inside)
    (hsealed : Sealed (inside ++ [spot.kind.opening])) (h : Scans [] first ('\x60' :: list)) :
    ∃ inFront inBehind, Steady (Noted names) spot.before spot.behind inFront inBehind := by
  obtain ⟨n, hn⟩ : ∃ n, n = literalLength '\x60' spot.behind := ⟨_, rfl⟩
  have hpos : 0 < n := hn ▸ literalLength_backtick_pos (List.cons_ne_nil _ _)
  have hbefore : spot.before = first ++ '\x60' :: (inside ++ [spot.kind.opening]) := by
    rw [before, hfront, List.append_assoc, List.cons_append]
  have hlength : spot.before.length = first.length + 1 + (inside ++ [spot.kind.opening]).length := by
    rw [hbefore, List.length_append, List.length_cons]
    omega
  obtain ⟨earlier, hstops, hranges⟩ := h.exists_ranges 0
  refine exists_steady (rangesFrom (spot.behind.take n).reverse n (spot.behind.drop n))
    (fun start => first.length ≤ start) (fun m => m < n) (fun range (hrange : range ∈ earlier) => ?_)
    fun gap hgap => ?_
  · have := hstops range hrange
    omega
  obtain ⟨interior, hinterior⟩ : ∃ interior, interior = (inside ++ [spot.kind.opening]) ++ gap := ⟨_, rfl⟩
  have hliteral : literalLength '\x60' (interior ++ spot.behind) = interior.length + n := by
    rw [hn, hinterior]
    exact literalLength_append (sealed_append hsealed hgap.isSealed) spot.behind
  have hstop : spot.before.length + gap.length + n = first.length + 1 + (interior.length + n) := by
    simp only [hlength, hinterior, List.length_append]
    omega
  refine ⟨[⟨first.length, spot.before.length + gap.length + n⟩], ?_, fun start hstart => ?_, fun m => ?_⟩
  · have halike : Alike ('\x60' :: list) ('\x60' :: (interior ++ spot.behind)) := alike_cons (by decide) _ _
    have htext : spot.before ++ (gap ++ spot.behind) = first ++ '\x60' :: (interior ++ spot.behind) := by
      rw [hbefore, hinterior]
      simp
    rw [htext, ignoredRanges, hranges _ (.inr halike), rangesFrom, tokenTail?_backtick, hliteral]
    dsimp only
    rw [List.take_length_add_append, List.drop_length_add_append, Nat.zero_add, ← hstop, List.reverse_append,
      List.append_assoc, rangesFrom_behind spot hpos]
    rfl
  · simp only [List.mem_singleton, exists_eq_left, Span.Contains]
    omega
  · simp only [List.mem_singleton, exists_eq_left, Span.Contains]
    omega

end ListSpot

/-! ## Calls -/

/-- The text of a list behind a template up to its opening bracket. -/
def Listing.comma (list : Listing) : Text := list.behind.1 ++ ',' :: list.lead.1

theorem Listing.isPlain_of_mem_comma (list : Listing) : ∀ c ∈ list.comma, IsPlain c ∧ c ≠ '\\' := by
  have hspace (blanks : Blanks) : ∀ c ∈ blanks.1, IsPlain c ∧ c ≠ '\\' := fun c hc =>
    ⟨isPlain_of_isBlank (blanks.2 c hc), by rintro rfl; cases blanks.2 _ hc⟩
  rw [comma, List.forall_mem_append, List.forall_mem_cons]
  exact ⟨hspace list.behind, by decide, hspace list.lead⟩

/-- The walk around a list behind a template. When an odd number of backslashes stands at the end of the
document, the list is a part of the literal that begins with the template. -/
theorem exists_steady_of_template {spot : ListSpot} {first source : Text} {list : Listing}
    (hkind : spot.kind = .brackets) (hfront : spot.front = first ++ '\x60' :: (source ++ '\x60' :: list.comma))
    (hsource : '\x60' ∉ source) (h : Scans [] first ('\x60' :: (source ++ '\x60' :: (list.comma ++
      '[' :: (list.interior ++ spot.behind))))) (names : Text) :
    ∃ inFront inBehind, Steady (Noted names) spot.before spot.behind inFront inBehind := by
  have hopening : spot.kind.opening = '[' := by rw [hkind]; rfl
  by_cases heven : backslashesAtEnd source % 2 = 0
  · have hscan : Scans (first.reverse ++ []) ('\x60' :: ((source ++ ['\x60']) ++ list.comma))
        ('[' :: (list.interior ++ spot.behind)) := by
      refine .token ?_ (scans_of_isPlain fun c hc => (list.isPlain_of_mem_comma c hc).1)
      rw [tokenTail?_backtick, List.append_assoc, List.singleton_append,
        (sealed_of_even hsource heven).literalLength_eq, List.length_append, List.length_singleton]
    have hall : Scans [] spot.front (spot.kind.opening :: (list.interior ++ spot.behind)) := by
      rw [hfront, hopening, ← List.singleton_append (l := list.comma), ← List.append_assoc source]
      exact Scans.append (by simpa using h) hscan
    exact ListSpot.exists_steady_of_scans names hall
  · have hsealed : Sealed ((source ++ '\x60' :: list.comma) ++ [spot.kind.opening]) := by
      have hodd := sealed_of_odd hsource (Nat.mod_two_ne_zero.1 heven)
      have hcomma : Sealed (list.comma ++ ['[']) := .of_forall fun c hc => by
        rcases List.mem_append.1 hc with hc | hc
        · exact ⟨(list.isPlain_of_mem_comma c hc).2, (list.isPlain_of_mem_comma c hc).1.2.2.2⟩
        · rw [List.mem_singleton.1 hc]
          decide
      rw [hopening]
      simpa using sealed_append hodd hcomma
    exact ListSpot.exists_steady_of_literal names hfront hsealed h

/-- A call with a list of dependencies stands around that list, and is read in the same way when there is
another list. The walk comes to the same places around the list. -/
theorem exists_brackets {code list : Text} {start : Nat} {shape : CallShape} (h : (start, shape) ∈ calls code)
    (hlist : shape.dependencies = some list) : ∃ spot : ListSpot, spot.kind = .brackets ∧
      spot.text list = code ∧ spot.Within list (spanned (start, shape)).1 ∧
      (∀ names, ∃ inFront inBehind, Steady (Noted names) spot.before spot.behind inFront inBehind) ∧
      ∀ other, ']' ∉ other → ∃ length, CallShape.match? ((spot.text other).drop start) =
        some ⟨shape.name, shape.source, some other, length⟩ := by
  obtain ⟨front, rest, rfl, rfl, hread, hkept⟩ := exists_of_mem_recognised CallShape.reads h
  obtain ⟨opening, ending, behind, rfl, rfl⟩ := CallShape.match?_eq_some_iff.1 hread
  obtain ⟨listing, hlisting, rfl⟩ := Option.map_eq_some_iff.1 hlist
  obtain ⟨spot, hspot⟩ : ∃ spot : ListSpot, spot = ⟨.brackets, (front ++ opening.code) ++ '\x60' ::
    (ending.source ++ '\x60' :: listing.comma), ending.closing.1 ++ ')' :: behind⟩ := ⟨_, rfl⟩
  have htext (other : Text) (hother : ']' ∉ other) : spot.text other = front ++ (opening.text ++
      (Ending.text { ending with list := some { listing with interior := other, not_mem := hother } } ++
        behind)) := by
    simp [hspot, ListSpot.text, ListKind.opening, ListKind.closing, Opening.text, Ending.text, Ending.back,
      Listing.text, Listing.opening, Listing.comma]
  have hcode : spot.text listing.interior = front ++ (opening.text ++ (ending.text ++ behind)) := by
    rw [htext _ listing.not_mem, ← hlisting]
  refine ⟨spot, hspot ▸ rfl, hcode, ?_, ?_, fun other hother => ?_⟩
  · have hlength := congrArg List.length hcode
    have hback : behind.length ≤ spot.back.length := by
      rw [hspot, List.length_append, List.length_cons]
      omega
    have hle : front.length ≤ spot.front.length := by simp [hspot]
    simp only [ListSpot.text, List.length_append, List.length_cons] at hlength
    simp only [ListSpot.Within, spanned, shapeOf, List.length_append]
    omega
  · have hsplit : front ++ (opening.text ++ (ending.text ++ behind)) =
        front ++ (opening.code ++ ('\x60' :: (ending.source ++ '\x60' :: (listing.comma ++
          '[' :: (listing.interior ++ spot.behind))))) := by
      rw [← hcode]
      simp [hspot, ListSpot.text, ListSpot.behind, ListKind.opening]
    rw [hsplit] at hkept
    exact exists_steady_of_template (hspot ▸ rfl) (hspot ▸ rfl) ending.not_mem (scans_opening hkept)
  · rw [htext other hother, List.drop_left, CallShape.match?_append]
    exact ⟨_, rfl⟩

/-! ## What call sites say -/

/-- What a call site says, wherever it stands: its name, its document and the names it depends on. -/
def content (site : CallSite) : String × String × NameSet := (site.name, site.source, site.dependsOn)

/-- What a call says. -/
def CallShape.content (shape : CallShape) : String × String × NameSet :=
  (String.ofList shape.name, String.ofList shape.source, dependencyNames shape.dependencies)

theorem map_content_extract (code : Text) (file : Option String) :
    (extract code file).map content = ((calls code).map Prod.snd).map CallShape.content := by
  rw [extract_eq_calls, List.map_map, List.map_map]
  rfl

/-- Behind a call with a list the same call sites are found, whatever comments the list has, and so are those
in front of it. -/
theorem ListSpot.exists_map_content {spot : ListSpot} {names list : Text} {start : Nat} {shape : CallShape}
    {inFront inBehind : Nat → Bool} (hmem : (start, shape) ∈ calls (spot.text list))
    (hwithin : spot.Within list (spanned (start, shape)).1)
    (hsteady : Steady (Noted names) spot.before spot.behind inFront inBehind) (hnoted : Noted names list)
    (hread : ∀ other, ']' ∉ other → ∃ length, CallShape.match? ((spot.text other).drop start) =
      some ⟨shape.name, shape.source, some other, length⟩) :
    ∃ before after, ∀ other, Noted names other → ∀ file, (extract (spot.text other) file).map content =
      before ++ (String.ofList shape.name, String.ofList shape.source, dependencyNames (some other)) :: after := by
  obtain ⟨hstart, hstop⟩ : start ≤ spot.front.length ∧
    spot.front.length + list.length + 2 ≤ start + shape.length := hwithin
  have hlength := spot.length_before
  rw [text_eq] at hmem
  obtain ⟨earlier, later, haround⟩ := exists_recognised_of_mem CallShape.reads (spot.callSeam names)
    spot.getLast?_before hsteady hnoted hmem (by omega) (by omega)
  refine ⟨earlier.map fun found => found.2.content, later.map fun found => found.2.content,
    fun other hother file => ?_⟩
  obtain ⟨found, hfound, hcalls⟩ := haround other hother
  obtain ⟨length, hread⟩ := hread other (hother.not_mem (by decide) (by decide))
  rw [← text_eq, hread] at hfound
  obtain rfl := Option.some.inj hfound
  rw [map_content_extract, calls, text_eq, hcalls, List.map_append, List.map_append, List.map_cons,
    List.map_cons, List.map_map, List.map_map, List.map_map]
  rfl

/-- When no call reaches over a list, comments in it do not change what the call sites say. -/
theorem ListSpot.map_content_eq {spot : ListSpot} {names list other : Text} {inFront inBehind : Nat → Bool}
    (hsteady : Steady (Noted names) spot.before spot.behind inFront inBehind) (hlist : Noted names list)
    (hother : Noted names other)
    (hover : ∀ found ∈ calls (spot.text list), ¬ (spanned found).1.Contains spot.front.length)
    (file : Option String) :
    (extract (spot.text other) file).map content = (extract (spot.text list) file).map content := by
  have hlength := spot.length_before
  rw [text_eq] at hover
  have hcalls := recognised_of_not_over CallShape.reads (spot.callSeam names) spot.getLast?_before hsteady hlist
    (fun found hmem hreach => hover found hmem (by simp only [spanned, Span.Contains]; omega)) hother
  rw [map_content_extract, map_content_extract, calls, calls, text_eq, text_eq, hcalls]

/-! ## Import statements -/

theorem isPlain_of_isLoose {c : Char} (h : isLoose c = true) : IsPlain c := by
  refine ⟨?_, ?_, ?_, ?_⟩ <;> rintro rfl <;> cases h

/-- A statement with a braced list stands around that list, and is read in the same way when there are other
comments in the list. The walk comes to the list as code. -/
theorem exists_spot_of_statement {code : Text} {start : Nat} {shape : ImportShape}
    (h : (start, shape) ∈ statements code) (hbrace : '\x7b' ∈ shape.clause) :
    ∃ (spot : ListSpot) (leading list : Text), spot.kind = .braces ∧ spot.text list = code ∧
      spot.Within list ⟨start, start + shape.length⟩ ∧ shape.clause = braced leading list ∧
      '\x7b' ∉ leading ∧ Scans [] spot.front (spot.kind.opening :: (list ++ spot.behind)) ∧
      ∀ names other, Noted names list → Noted names other → ∃ length,
        ImportShape.match? ((spot.text other).drop start) =
          some ⟨braced leading other, shape.specifier, length⟩ := by
  obtain ⟨front, rest, rfl, rfl, hread, hkept⟩ := exists_of_mem_recognised ImportShape.reads h
  obtain ⟨lead, leading, list, back, rfl, hlead, hleading, hclause, hlength⟩ :=
    ImportShape.exists_braces hread hbrace
  have hnone : '\x7b' ∉ lead := not_mem_of_forall (by decide) hlead
  refine ⟨⟨.braces, front ++ lead, back⟩, leading, list, rfl, ?_, ?_, hclause,
    fun hmem => hnone (hleading.subset hmem), ?_, fun names other hlist hother => ?_⟩
  · simp [ListSpot.text, ListKind.opening, ListKind.closing]
  · simp only [ListSpot.Within, List.length_append]
    omega
  · exact (scans_of_inRanges hkept).append (scans_of_isPlain fun c hc => isPlain_of_isLoose (hlead c hc))
  · obtain ⟨leading', shape', hclause', hread', hother', hspecifier⟩ := ImportShape.match?_exchange hnone
      (ListSpot.passable .braces hlist) (ListSpot.passable .braces hother) hread hbrace
    obtain rfl : leading' = leading := List.append_cancel_right (hclause'.symm.trans hclause)
    obtain ⟨clause, specifier, length⟩ := shape'
    obtain rfl : clause = _ := hother'
    obtain rfl : specifier = _ := hspecifier
    refine ⟨length, hread' ▸ ?_⟩
    simp [ListSpot.text, ListKind.opening, ListKind.closing]

/-- The names that a statement binds, each with the specifier. -/
def ImportShape.bindings (shape : ImportShape) : List (String × String) :=
  (localNames shape.clause).map fun name => (String.ofList name, String.ofList shape.specifier)

theorem parseImports_eq_bindings (code : Text) :
    parseImports code = .ofList (((statements code).map Prod.snd).flatMap ImportShape.bindings) := by
  rw [parseImports_eq_statements, List.flatMap_map]
  rfl

/-- Around a statement with a braced list the same names are bound, whatever comments the list has. Those of
the list are cut out of its text, comments and all. -/
theorem ListSpot.exists_parseImports {spot : ListSpot} {names list leading : Text} {start : Nat}
    {shape : ImportShape} {inFront inBehind : Nat → Bool} (hmem : (start, shape) ∈ statements (spot.text list))
    (hwithin : spot.Within list ⟨start, start + shape.length⟩) (hleading : '\x7b' ∉ leading)
    (hsteady : Steady (Noted names) spot.before spot.behind inFront inBehind) (hnoted : Noted names list)
    (hread : ∀ other, Noted names other → ∃ length, ImportShape.match? ((spot.text other).drop start) =
      some ⟨braced leading other, shape.specifier, length⟩) :
    ∃ before after, ∀ other, Noted names other → parseImports (spot.text other) = .ofList (before ++
      (((entriesOf leading).map leadingName ++ (entriesOf other).map bracedName).map fun name =>
        (String.ofList name, String.ofList shape.specifier)) ++ after) := by
  obtain ⟨hstart, hstop⟩ : start ≤ spot.front.length ∧
    spot.front.length + list.length + 2 ≤ start + shape.length := hwithin
  have hlength := spot.length_before
  rw [text_eq] at hmem
  obtain ⟨earlier, later, haround⟩ := exists_recognised_of_mem ImportShape.reads (spot.statementSeam names)
    spot.getLast?_before hsteady hnoted hmem (by omega) (by omega)
  refine ⟨(earlier.map Prod.snd).flatMap ImportShape.bindings, (later.map Prod.snd).flatMap ImportShape.bindings,
    fun other hother => ?_⟩
  obtain ⟨found, hfound, hstatements⟩ := haround other hother
  obtain ⟨length, hread⟩ := hread other hother
  rw [← text_eq, hread] at hfound
  obtain rfl := Option.some.inj hfound
  have hown : ImportShape.bindings ⟨braced leading other, shape.specifier, length⟩ =
      ((entriesOf leading).map leadingName ++ (entriesOf other).map bracedName).map fun name =>
        (String.ofList name, String.ofList shape.specifier) := by
    rw [ImportShape.bindings, braced, localNames_braced hleading (hother.not_mem (by decide) (by decide))]
  rw [parseImports_eq_bindings, statements, text_eq, hstatements, List.map_append, List.map_cons,
    List.flatMap_append, List.flatMap_cons, hown, List.map_map, List.append_assoc]
  rfl

/-- When no statement reaches over a list, comments in it do not change what is imported. -/
theorem ListSpot.parseImports_eq {spot : ListSpot} {names list other : Text} {inFront inBehind : Nat → Bool}
    (hsteady : Steady (Noted names) spot.before spot.behind inFront inBehind) (hlist : Noted names list)
    (hother : Noted names other) (hover : ∀ found ∈ statements (spot.text list),
      ¬ Span.Contains ⟨found.1, found.1 + found.2.length⟩ spot.front.length) :
    parseImports (spot.text other) = parseImports (spot.text list) := by
  have hlength := spot.length_before
  rw [text_eq] at hover
  have hstatements := recognised_of_not_over ImportShape.reads (spot.statementSeam names) spot.getLast?_before
    hsteady hlist (fun found hmem hreach => hover found hmem (by simp only [Span.Contains]; omega)) hother
  rw [parseImports_eq_bindings, parseImports_eq_bindings, statements, statements, text_eq, text_eq, hstatements]

/-! ## Comments in lists -/

/-- **Comments in lists.** Whatever comments are put into the list of dependencies of a call, the call sites
of the text keep their names and their documents, all but that one keep their dependencies, and so do the
imported names. The dependencies of that one are cut out of the text of the list, comments and all, and are
those of the list without comments only if there are none. Whatever comments are put into the braces of a
statement, the call sites of the text say the same, and the other statements bind the same names. The names
that this one binds are cut out of the text of its list. -/
theorem exchange_notes {code : Text} :
    (∀ {start : Nat} {shape : CallShape} {list : Text}, (start, shape) ∈ calls code →
      shape.dependencies = some list → ∃ spot : ListSpot, spot.kind = .brackets ∧ spot.text list = code ∧
        spot.Within list (spanned (start, shape)).1 ∧ ∀ names, Noted names list →
          (∃ before after, ∀ other, Noted names other → ∀ file,
            (extract (spot.text other) file).map content = before ++
              (String.ofList shape.name, String.ofList shape.source, dependencyNames (some other)) :: after) ∧
          ∀ other, Noted names other →
            (dependencyNames (some other) = dependencyNames (some names) ↔ other = names) ∧
            ((∀ found ∈ statements code,
                ¬ Span.Contains ⟨found.1, found.1 + found.2.length⟩ spot.front.length) →
              parseImports (spot.text other) = parseImports code)) ∧
    ∀ {start : Nat} {shape : ImportShape}, (start, shape) ∈ statements code → '\x7b' ∈ shape.clause →
      ∃ (spot : ListSpot) (leading list : Text), spot.kind = .braces ∧ spot.text list = code ∧
        spot.Within list ⟨start, start + shape.length⟩ ∧ shape.clause = braced leading list ∧
        '\x7b' ∉ leading ∧ ∀ names, Noted names list →
          (∃ before after, ∀ other, Noted names other → parseImports (spot.text other) = .ofList (before ++
            (((entriesOf leading).map leadingName ++ (entriesOf other).map bracedName).map fun name =>
              (String.ofList name, String.ofList shape.specifier)) ++ after)) ∧
          ∀ other, Noted names other →
            (∀ found ∈ calls code, ¬ (spanned found).1.Contains spot.front.length) → ∀ file,
              (extract (spot.text other) file).map content = (extract code file).map content := by
  constructor
  · intro start shape list hmem hlist
    obtain ⟨spot, hkind, rfl, hwithin, hsteady, hread⟩ := exists_brackets hmem hlist
    refine ⟨spot, hkind, rfl, hwithin, fun names hnoted => ?_⟩
    obtain ⟨inFront, inBehind, hsteady⟩ := hsteady names
    refine ⟨ListSpot.exists_map_content hmem hwithin hsteady hnoted hread, fun other hother => ?_⟩
    exact ⟨hother.dependencyNames_eq_iff, fun hover => ListSpot.parseImports_eq hsteady hnoted hother hover⟩
  · intro start shape hmem hbrace
    obtain ⟨spot, leading, list, hkind, rfl, hwithin, hclause, hleading, hscan, hread⟩ :=
      exists_spot_of_statement hmem hbrace
    refine ⟨spot, leading, list, hkind, rfl, hwithin, hclause, hleading, fun names hnoted => ?_⟩
    obtain ⟨inFront, inBehind, hsteady⟩ := ListSpot.exists_steady_of_scans names hscan
    refine ⟨ListSpot.exists_parseImports hmem hwithin hleading hsteady hnoted fun other hother =>
      hread names other hnoted hother, fun other hother hover file => ?_⟩
    exact ListSpot.map_content_eq hsteady hnoted hother hover file

/-- A statement with a braced list, and a call with a list of dependencies. -/
def rowCode : Text := "import \x7b Row \x7d from './rows';\nQ = graphql(`\x7b ...Row \x7d`, [Row]);".toList

theorem exchange_notes_row :
    (∃ spot : ListSpot, spot.kind = .brackets ∧ spot.text "Row".toList = rowCode ∧
      ∀ other, Noted "Row".toList other →
        (dependencyNames (some other) = dependencyNames (some "Row".toList) ↔ other = "Row".toList) ∧
        parseImports (spot.text other) = parseImports rowCode) ∧
    ∃ spot : ListSpot, spot.kind = .braces ∧ spot.text " Row ".toList = rowCode ∧
      ∀ other, Noted " Row ".toList other → ∀ file,
        (extract (spot.text other) file).map content = (extract rowCode file).map content := by
  have hcalls : calls rowCode = [(30, ⟨"Q".toList, "\x7b ...Row \x7d".toList, some "Row".toList, 32⟩)] := by
    decide +kernel
  have hstatements : statements rowCode = [(0, ⟨"\x7b Row \x7d".toList, "./rows".toList, 28⟩)] := by
    decide +kernel
  constructor
  · obtain ⟨spot, hkind, htext, ⟨hstart, -⟩, h⟩ := exchange_notes.1 (hcalls ▸ List.mem_singleton_self _) rfl
    refine ⟨spot, hkind, htext, fun other hother => ?_⟩
    obtain ⟨hnames, himports⟩ := (h _ (.refl (List.all_iff_forall_prop.1 (by decide)))).2 other hother
    refine ⟨hnames, himports fun found hmem hcontains => ?_⟩
    -- the statement ends in front of the call
    obtain rfl := List.mem_singleton.1 (hstatements ▸ hmem)
    have hstop := hcontains.2
    dsimp only [spanned] at hstart hstop
    omega
  · obtain ⟨spot, leading, list, hkind, htext, ⟨-, hstop⟩, hclause, hleading, h⟩ :=
      exchange_notes.2 (hstatements ▸ List.mem_singleton_self _) (by decide)
    have hbraced : [] ++ '\x7b' :: (" Row ".toList ++ ['\x7d']) = braced leading list := hclause
    obtain ⟨-, hlist⟩ := append_cons_inj List.not_mem_nil hleading hbraced
    obtain rfl := List.append_cancel_right hlist
    refine ⟨spot, hkind, htext, fun other hother => ?_⟩
    refine (h _ (.refl (List.all_iff_forall_prop.1 (by decide)))).2 other hother fun found hmem hcontains => ?_
    -- the call begins behind the statement
    obtain rfl := List.mem_singleton.1 (hcalls ▸ hmem)
    have hstart := hcontains.1
    dsimp only [spanned] at hstart hstop
    omega

/-- Comments in a list matter: behind a comma, a comment becomes a part of the name that follows, both within
the braces of an import statement and within the brackets of a call. -/
theorem not_exchange_notes :
    (¬ ∀ (spot : ListSpot) (first second words : Text) (kind : CommentKind) (start : Nat) (shape : ImportShape),
      spot.kind = .braces → (start, shape) ∈ statements (spot.text (first ++ ',' :: second)) →
      spot.Within (first ++ ',' :: second) ⟨start, start + shape.length⟩ →
      shape.clause = braced [] (first ++ ',' :: second) → IsNote kind words →
      parseImports (spot.text (first ++ ',' :: (note kind words ++ second))) =
        parseImports (spot.text (first ++ ',' :: second))) ∧
    ¬ ∀ (spot : ListSpot) (first second words : Text) (kind : CommentKind) (start : Nat) (shape : CallShape),
      spot.kind = .brackets → (start, shape) ∈ calls (spot.text (first ++ ',' :: second)) →
      spot.Within (first ++ ',' :: second) (spanned (start, shape)).1 →
      shape.dependencies = some (first ++ ',' :: second) → IsNote kind words →
      (extract (spot.text (first ++ ',' :: (note kind words ++ second))) none).map content =
        (extract (spot.text (first ++ ',' :: second)) none).map content := by
  constructor
  · intro h
    have himports := h ⟨.braces, "import ".toList, " from './x'".toList⟩ "A".toList " B".toList " c ".toList .block
      0 ⟨"\x7bA, B\x7d".toList, "./x".toList, 24⟩ rfl (by decide +kernel) ⟨by decide, by decide⟩ rfl (by decide)
    have hname := congrArg (Table.get? · "B") himports
    revert hname
    decide +kernel
  · intro h
    have hcontent := h ⟨.brackets, "Q = graphql(`q`, ".toList, ")".toList⟩ "A".toList " B".toList " c ".toList
      .block 0 ⟨"Q".toList, "q".toList, some "A, B".toList, 24⟩ rfl (by decide +kernel)
      ⟨by decide, by decide⟩ rfl (by decide)
    revert hcontent
    decide +kernel

end PersistedQueries.CallSite
