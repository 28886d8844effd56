import Mathlib.Data.List.Infix
import Mathlib.Data.List.TakeWhile
import PersistedQueries.CallSite.Basic

/-!
# Where the call sites of a text stand

A call site is found by reading a call at the front of what is left of a text, and is dropped when
it begins within a comment or a literal. So its span holds exactly what was read, the spans come
one behind the other, and none begins in what is not code.

- `CallShape.Left`: what is left of a text behind each part of a call that is read at its front.
- `CallShape.Spells`: a text is written as a call: the name, the document between backticks, and
  the closing parenthesis.
- `CallShape.match?_eq_some`: what is read at the front of a text spells the call out.
- `CallShape.mem_allFrom`, `CallShape.pairwise_allFrom`: the calls of a text are spelled out at
  their spans, which do not overlap.
- `inRanges_iff`: the search among the comments and literals stops early, but misses none of them,
  since they come in order (`pairwise_rangesFrom`).
- `slice_of_mem_extract`, `pairwise_extract`, `not_contains_of_mem_extract`: the same for the call
  sites of a text.
-/

namespace PersistedQueries.CallSite

/-! ## Reading a call -/

theorem afterWord?_eq_some_iff {word text rest : Text} :
    afterWord? word text = some rest ↔ text = word ++ rest := by
  unfold afterWord?
  rw [Option.ite_none_right_eq_some, List.isPrefixOf_iff_prefix]
  constructor
  · rintro ⟨⟨tail, rfl⟩, hrest⟩
    simpa using hrest
  · rintro rfl
    simp

/-- A word that stands behind what a condition passes over begins a suffix, and so does what
follows it. -/
theorem suffix_of_dropWhile {p : Char → Bool} {text word rest : Text}
    (h : text.dropWhile p = word ++ rest) : word ++ rest <:+ text ∧ rest <:+ text := by
  have hword : word ++ rest <:+ text := h ▸ List.dropWhile_suffix p
  exact ⟨hword, (List.suffix_append word rest).trans hword⟩

theorem suffix_of_dependencyList? {text interior rest : Text}
    (h : dependencyList? text = some (interior, rest)) : rest <:+ text := by
  simp only [dependencyList?, Option.bind_eq_bind, Option.bind_eq_some_iff, Option.pure_def,
    Option.some.injEq, Prod.mk.injEq, afterWord?_eq_some_iff] at h
  obtain ⟨list, rfl, opened, hopen, closed, hclose, -, rfl⟩ := h
  have hlist : closed <:+ list :=
    (suffix_of_dropWhile hclose).2.trans (suffix_of_dropWhile hopen).2
  exact hlist.trans (List.suffix_append [','] list)

/-- What is left of a text behind the parts of a call that is read at its front. -/
structure CallShape.Left (text : Text) (shape : CallShape) where
  /-- What stands behind the equals sign. -/
  assigned : Text
  /-- What stands behind the opening parenthesis. -/
  opened : Text
  /-- What stands behind the first backtick. -/
  literal : Text
  /-- What stands behind the second backtick. -/
  closed : Text
  /-- What stands behind the dependencies, or behind white space when there are none. -/
  listed : Text
  /-- What stands behind the closing parenthesis. -/
  rest : Text
  name_eq : text.takeWhile isNameChar = shape.name
  name_ne : shape.name ≠ []
  assigned_eq : (text.drop shape.name.length).dropWhile isGap = ['='] ++ assigned
  opened_eq : assigned.dropWhile isGap = tagCall ++ opened
  literal_eq : opened.dropWhile Text.isBlank = ['\x60'] ++ literal
  source_eq : literal.takeWhile (· ≠ '\x60') = shape.source
  source_ne : shape.source ≠ []
  closed_eq : literal.dropWhile (· ≠ '\x60') = ['\x60'] ++ closed
  listed_eq : (∃ interior, dependencyList? (closed.dropWhile Text.isBlank) =
    some (interior, listed)) ∨ listed = closed.dropWhile Text.isBlank
  rest_eq : listed.dropWhile isTrailer = [')'] ++ rest
  length_eq : shape.length = text.length - rest.length

theorem CallShape.exists_left {text : Text} {shape : CallShape}
    (h : CallShape.match? text = some shape) : Nonempty (CallShape.Left text shape) := by
  unfold CallShape.match? at h
  dsimp only at h
  split at h
  · cases h
  next hname =>
  simp only [Option.pure_def, Option.bind_eq_bind, Option.bind_eq_some_iff] at h
  obtain ⟨assigned, hassigned, opened, hopened, literal, hliteral, h⟩ := h
  split at h
  · cases h
  next hsource =>
  simp only [Option.bind_eq_some_iff, Option.some.injEq] at h
  obtain ⟨closed, hclosed, rest, hrest, rfl⟩ := h
  rw [afterWord?_eq_some_iff] at hassigned hopened hliteral hclosed hrest
  refine ⟨{
    assigned, opened, literal, closed, rest, listed := _
    name_eq := rfl
    name_ne := by simpa using hname
    assigned_eq := hassigned
    opened_eq := hopened
    literal_eq := hliteral
    source_eq := rfl
    source_ne := by simpa using hsource
    closed_eq := hclosed
    listed_eq := ?_
    rest_eq := hrest
    length_eq := rfl }⟩
  split
  · next interior listed hlist => exact .inl ⟨interior, hlist⟩
  · exact .inr rfl

/-- Blanks, an equals sign and blanks stand between the name and the tag. -/
theorem CallShape.Left.exists_gaps {text : Text} {shape : CallShape} (left : Left text shape) :
    ∃ gap gap', (∀ c ∈ gap, isGap c = true) ∧ (∀ c ∈ gap', isGap c = true) ∧
      text = shape.name ++ (gap ++ '=' :: (gap' ++ (tagCall ++ left.opened))) := by
  have hname : shape.name <+: text := left.name_eq ▸ List.takeWhile_prefix isNameChar
  refine ⟨(text.drop shape.name.length).takeWhile isGap, left.assigned.takeWhile isGap,
    fun _ => List.mem_takeWhile_imp, fun _ => List.mem_takeWhile_imp, ?_⟩
  rw [← left.opened_eq, List.takeWhile_append_dropWhile, ← List.singleton_append,
    ← left.assigned_eq, List.takeWhile_append_dropWhile]
  exact List.prefix_append_drop hname

/-- The document stands in front of the second backtick. -/
theorem CallShape.Left.literal_split {text : Text} {shape : CallShape} (left : Left text shape) :
    left.literal = shape.source ++ (['\x60'] ++ left.closed) := by
  rw [← left.closed_eq, ← left.source_eq]
  exact List.takeWhile_append_dropWhile.symm

/-- A text is written as a call: its name comes first, its document stands between two backticks
behind the name, and a closing parenthesis comes last. -/
structure CallShape.Spells (shape : CallShape) (call : Text) : Prop where
  name : shape.name ≠ []
  pieces : ∃ between behind, call =
    shape.name ++ (between ++ '\x60' :: (shape.source ++ '\x60' :: (behind ++ [')'])))

theorem CallShape.Spells.length_pos {shape : CallShape} {call : Text} (h : shape.Spells call) :
    0 < call.length := by
  obtain ⟨between, behind, rfl⟩ := h.pieces
  simp only [List.length_append, List.length_cons]
  omega

/-- A call that is read at the front of a text is spelled out there, on as many characters as it
says. -/
theorem CallShape.match?_eq_some {text : Text} {shape : CallShape}
    (h : CallShape.match? text = some shape) :
    ∃ call rest, text = call ++ rest ∧ shape.Spells call ∧ shape.length = call.length := by
  obtain ⟨left⟩ := exists_left h
  -- the parenthesis stands in what is left behind the second backtick
  have hclosing : [')'] ++ left.rest <:+ left.closed := by
    refine (suffix_of_dropWhile left.rest_eq).1.trans ?_
    rcases left.listed_eq with ⟨interior, hlist⟩ | hlist
    · exact (suffix_of_dependencyList? hlist).trans (List.dropWhile_suffix _)
    · rw [hlist]
      exact List.dropWhile_suffix _
  obtain ⟨lead, hlead⟩ := (suffix_of_dropWhile left.literal_eq).1
  obtain ⟨behind, hbehind⟩ := hclosing
  obtain ⟨gap, gap', -, -, htext⟩ := left.exists_gaps
  rw [← hlead, left.literal_split, ← hbehind] at htext
  have hsplit : text = (shape.name ++ ((gap ++ '=' :: (gap' ++ (tagCall ++ lead))) ++
      '\x60' :: (shape.source ++ '\x60' :: (behind ++ [')'])))) ++ left.rest := by
    simpa using htext
  refine ⟨_, left.rest, hsplit, ⟨left.name_ne, _, behind, rfl⟩, ?_⟩
  have hlength := congrArg List.length hsplit
  rw [List.length_append] at hlength
  rw [left.length_eq, hlength, Nat.add_sub_cancel]

/-! ## The calls of a text -/

/-- Each call of a text is read at the front of what begins at its span, and is spelled out there. -/
theorem CallShape.mem_allFrom {offset : Nat} {text : Text} {span : Span} {shape : CallShape}
    (h : (span, shape) ∈ CallShape.allFrom offset text) :
    ∃ front call rest, text = front ++ (call ++ rest) ∧
      CallShape.match? (call ++ rest) = some shape ∧ shape.Spells call ∧
      span = ⟨offset + front.length, offset + front.length + call.length⟩ := by
  fun_induction CallShape.allFrom offset text with
  | case1 => cases h
  | case2 offset c rest hnone ih =>
    obtain ⟨front, call, behind, rfl, hmatch, hspells, rfl⟩ := ih h
    refine ⟨c :: front, call, behind, rfl, hmatch, hspells, ?_⟩
    simp only [List.length_cons, Span.mk.injEq]
    omega
  | case3 offset c rest found hfound ih =>
    obtain ⟨call, behind, htext, hspells, hlength⟩ := CallShape.match?_eq_some hfound
    rcases List.mem_cons.1 h with heq | h
    · obtain ⟨rfl, rfl⟩ := Prod.mk.inj heq
      exact ⟨[], call, behind, htext, htext ▸ hfound, hspells, by simp [hlength]⟩
    · obtain ⟨front, later, behind', hrest, hmatch, hlater, rfl⟩ := ih h
      -- the search goes on behind the call that was found
      have hdrop : rest.drop (found.length - 1) = (c :: rest).drop call.length := by
        have hpos := hspells.length_pos
        rw [← hlength] at hpos ⊢
        obtain ⟨n, hn⟩ := Nat.exists_eq_add_one.2 hpos
        rw [hn, List.drop_succ_cons, Nat.add_sub_cancel]
      rw [hdrop, htext, List.drop_left] at hrest
      refine ⟨call ++ front, later, behind', ?_, hmatch, hlater, ?_⟩
      · rw [htext, hrest, List.append_assoc]
      · have hpos := hspells.length_pos
        simp only [List.length_append, Span.mk.injEq]
        omega

/-- The spans of the calls of a text come one behind the other. -/
theorem CallShape.pairwise_allFrom (offset : Nat) (text : Text) :
    (CallShape.allFrom offset text).Pairwise fun a b => a.1.stop ≤ b.1.start := by
  fun_induction CallShape.allFrom offset text with
  | case1 => exact .nil
  | case2 offset c rest hnone ih => exact ih
  | case3 offset c rest found hfound ih =>
    refine List.pairwise_cons.2 ⟨?_, ih⟩
    rintro ⟨span, shape⟩ hmem
    obtain ⟨front, call, behind, -, -, -, rfl⟩ := CallShape.mem_allFrom hmem
    dsimp only
    omega

/-! ## What is not code -/

/-- A comment or a literal of a text begins at the offset of the text or behind it, and has a
character. -/
theorem mem_rangesFrom {before text : Text} {offset : Nat} {span : Span}
    (h : span ∈ rangesFrom before offset text) : offset ≤ span.start ∧ span.start < span.stop := by
  fun_induction rangesFrom before offset text with
  | case1 => cases h
  | case2 before offset c rest hnone ih =>
    obtain ⟨hstart, hstop⟩ := ih h
    omega
  | case3 before offset c rest length hsome ih =>
    rcases List.mem_cons.1 h with rfl | h
    · dsimp only
      omega
    · obtain ⟨hstart, hstop⟩ := ih h
      omega

/-- The comments and literals of a text come one behind the other. -/
theorem pairwise_rangesFrom (before : Text) (offset : Nat) (text : Text) :
    (rangesFrom before offset text).Pairwise fun a b => a.stop ≤ b.start := by
  fun_induction rangesFrom before offset text with
  | case1 => exact .nil
  | case2 before offset c rest hnone ih => exact ih
  | case3 before offset c rest length hsome ih =>
    exact List.pairwise_cons.2 ⟨fun span hspan => (mem_rangesFrom hspan).1, ih⟩

/-- The look-up of an offset finds the span that holds it, if there is one, although it stops at
the first span that begins behind the offset. -/
theorem inRanges_iff {offset : Nat} {ranges : List Span}
    (hordered : ranges.Pairwise fun a b => a.stop ≤ b.start)
    (hspans : ∀ span ∈ ranges, span.start < span.stop) :
    inRanges offset ranges = true ↔ ∃ span ∈ ranges, span.Contains offset := by
  induction ranges with
  | nil => simp [inRanges]
  | cons span rest ih =>
    obtain ⟨hfirst, hrest⟩ := List.pairwise_cons.1 hordered
    obtain ⟨hspan, hspans⟩ := List.forall_mem_cons.1 hspans
    rw [List.exists_mem_cons_iff]
    unfold inRanges
    split
    · next hbehind =>
      -- the spans behind this one begin even later
      refine iff_of_false Bool.false_ne_true ?_
      rintro (hown | ⟨other, hother, hcontains⟩)
      · exact absurd hown.1 (by omega)
      · have := hfirst other hother
        exact absurd hcontains.1 (by omega)
    · next hstart =>
      split
      · next hstop => exact iff_of_true rfl (.inl ⟨by omega, hstop⟩)
      · next hstop =>
        rw [ih hrest hspans, or_iff_right]
        exact fun hown => hstop hown.2

theorem inRanges_ignoredRanges_iff {offset : Nat} {code : Text} :
    inRanges offset (ignoredRanges code) = true ↔
      ∃ range ∈ ignoredRanges code, range.Contains offset :=
  inRanges_iff (pairwise_rangesFrom [] 0 code) fun _ hspan => (mem_rangesFrom hspan).2

/-! ## Call sites -/

variable {code : Text} {file : Option String} {site : CallSite}

/-- A call site is a call of the text that does not begin in what is not code. -/
theorem mem_extract (h : site ∈ extract code file) : ∃ span shape,
    (span, shape) ∈ CallShape.all code ∧ inRanges span.start (ignoredRanges code) = false ∧
      site = ofShape file span shape := by
  unfold extract at h
  split at h
  · obtain ⟨⟨span, shape⟩, hmem, rfl⟩ := List.mem_map.1 h
    obtain ⟨hall, hkept⟩ := List.mem_filter.1 hmem
    exact ⟨span, shape, hall, by simpa using hkept, rfl⟩
  · exact absurd h List.not_mem_nil

/-- The span of a call site has a character and lies within the text. It covers the name of the call
site first, its document between two backticks, and a closing parenthesis last. -/
theorem slice_of_mem_extract (h : site ∈ extract code file) :
    site.span.start < site.span.stop ∧ site.span.stop ≤ code.length ∧
      ∃ between behind, Text.slice code site.span = site.name.toList ++
        (between ++ '\x60' :: (site.source.toList ++ '\x60' :: (behind ++ [')']))) := by
  obtain ⟨span, shape, hall, -, rfl⟩ := mem_extract h
  obtain ⟨front, call, rest, rfl, -, hspells, rfl⟩ := CallShape.mem_allFrom hall
  have hpos := hspells.length_pos
  obtain ⟨between, behind, hcall⟩ := hspells.pieces
  refine ⟨?_, ?_, between, behind, ?_⟩
  · simp only [ofShape]
    omega
  · simp only [ofShape, List.length_append]
    omega
  · simp only [ofShape, Text.slice, String.toList_ofList, Nat.zero_add, Nat.add_sub_cancel_left,
      List.drop_left, List.take_left, ← hcall]

/-- The spans of the call sites of a text come one behind the other. -/
theorem pairwise_extract (code : Text) (file : Option String) :
    (extract code file).Pairwise fun a b => a.span.stop ≤ b.span.start := by
  unfold extract
  split
  · exact ((CallShape.pairwise_allFrom 0 code).filter _).map _ fun _ _ h => h
  · exact .nil

/-- No call site begins in a comment or a literal. -/
theorem not_contains_of_mem_extract (h : site ∈ extract code file) {range : Span}
    (hrange : range ∈ ignoredRanges code) : ¬ range.Contains site.span.start := by
  obtain ⟨span, shape, -, hkept, rfl⟩ := mem_extract h
  intro hcontains
  exact Bool.false_ne_true
    (hkept.symm.trans (inRanges_ignoredRanges_iff.2 ⟨range, hrange, hcontains⟩))

end PersistedQueries.CallSite
