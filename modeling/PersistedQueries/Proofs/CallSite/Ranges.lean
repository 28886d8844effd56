import PersistedQueries.Proofs.CallSite.Scanning

/-!
# The walk over a text and its ranges

The comments and literals of a text are found in one walk. A pass of it goes over one character of
code, or over a whole token, whose range is noted. Where a token ends is found in four ways, and each
of them may come to the end of the text: a token need not be closed, and a backslash may be the last
character. None goes further, so no range reaches beyond the text, and since every pass goes over a
character at least, there are no more passes than characters.

- `tokenTail?_le`: a token ends with the text at the latest.
- `Walk`, `Walk.pass?`: where the walk is, and one pass of it.
- `Walk.Ends`: a walk comes to its end in so many passes.
- `Walk.exists_ends`: every walk does, with the ranges that `rangesFrom` gives.
- `OpensAt`: at an offset stands what opens a token whatever is in front of it.
- `exists_mem_rangesFrom_of_opensAt`: a range holds such an offset.
- `ignoredRanges_shape`: what the ranges of a text are like, and that the look-up of an offset finds
  the range that holds it.
-/

namespace PersistedQueries.CallSite

variable {before text rest code : Text} {c : Char} {offset : Nat}

/-! ## Where tokens end -/

theorem lineLength_le (text : Text) : lineLength text ≤ text.length := by
  fun_induction lineLength text <;> simp only [List.length_cons, List.length_nil] <;> omega

theorem blockLength_le (text : Text) : blockLength text ≤ text.length := by
  fun_induction blockLength text <;> simp only [List.length_cons, List.length_nil] <;> omega

theorem literalLength_le (quote : Char) (text : Text) : literalLength quote text ≤ text.length := by
  fun_induction literalLength quote text <;> simp only [List.length_cons, List.length_nil] <;> omega

theorem regexLength_le (inClass : Bool) (text : Text) : regexLength inClass text ≤ text.length := by
  fun_induction regexLength inClass text <;> simp only [List.length_cons, List.length_nil] <;> omega

/-- A token ends with the text at the latest, closed or not. -/
theorem tokenTail?_le {length : Nat} (h : tokenTail? before c rest = some length) :
    length ≤ rest.length := by
  unfold tokenTail? at h
  split at h
  · cases h
    exact lineLength_le rest
  split at h
  · next hblock =>
    cases h
    -- the asterisk that the comment begins with counts
    obtain ⟨tail, rfl⟩ := List.head?_eq_some_iff.1 hblock.2
    have hle := blockLength_le tail
    rw [List.drop_succ_cons, List.drop_zero, List.length_cons]
    omega
  split at h
  · cases h
    exact literalLength_le c rest
  split at h
  · cases h
    exact regexLength_le false rest
  · cases h

/-- No range reaches beyond the text. -/
theorem stop_le_of_mem_rangesFrom {range : Span} (h : range ∈ rangesFrom before offset text) :
    range.stop ≤ offset + text.length := by
  fun_induction rangesFrom before offset text with
  | case1 => cases h
  | case2 before offset c rest hnone ih =>
    have hstop := ih h
    rw [List.length_cons]
    omega
  | case3 before offset c rest length hsome ih =>
    have hlength := tokenTail?_le hsome
    rw [List.length_cons]
    rcases List.mem_cons.1 h with rfl | h
    · dsimp only
      omega
    · have hstop := ih h
      rw [List.length_drop] at hstop
      omega

/-! ## Passes -/

/-- A walk over a text: where it is, and the ranges that it has noted. -/
structure Walk where
  /-- The number of characters that the walk has gone over. -/
  offset : Nat
  /-- The ranges of the tokens among them. -/
  found : List Span

namespace Walk

/-- One pass of a walk goes over a token and notes its range, or goes over a character of code. There
is none at the end of the text. -/
def pass? (code : Text) (walk : Walk) : Option Walk :=
  match code.drop walk.offset with
  | [] => none
  | c :: rest =>
    match tokenTail? (code.take walk.offset).reverse c rest with
    | none => some ⟨walk.offset + 1, walk.found⟩
    | some length =>
      let stop := walk.offset + 1 + length
      some ⟨stop, walk.found ++ [⟨walk.offset, stop⟩]⟩

/-- A walk comes to its end in so many passes, with these ranges. -/
inductive Ends (code : Text) : Nat → Walk → List Span → Prop where
  | done {walk : Walk} (pass_eq : walk.pass? code = none) : Ends code 0 walk walk.found
  | pass {walk later : Walk} {passes : Nat} {ranges : List Span}
      (pass_eq : walk.pass? code = some later) (ends : Ends code passes later ranges) :
      Ends code (passes + 1) walk ranges

/-- The ranges that a walk has noted and those of the comments and literals that are left. -/
def ranges (code : Text) (walk : Walk) : List Span :=
  walk.found ++ rangesFrom (code.take walk.offset).reverse walk.offset (code.drop walk.offset)

variable {walk later : Walk}

/-- Without a pass the walk has come to the end of the text and has noted all ranges. -/
theorem ranges_of_pass?_eq_none (h : walk.pass? code = none) : walk.ranges code = walk.found := by
  unfold pass? at h
  split at h
  · next hdrop => rw [ranges, hdrop, rangesFrom, List.append_nil]
  · split at h <;> cases h

/-- A pass goes over a character at least, but not beyond the text, and what it notes is the next of
the ranges that are left. -/
theorem pass?_eq_some (h : walk.pass? code = some later) :
    walk.offset < later.offset ∧ later.offset ≤ code.length ∧
      later.ranges code = walk.ranges code := by
  unfold pass? at h
  split at h
  · cases h
  next c rest hdrop =>
  have hlength := congrArg List.length hdrop
  rw [List.length_drop, List.length_cons] at hlength
  -- a pass over so many characters behind the first
  have hover (count : Nat) : (code.take (walk.offset + 1 + count)).reverse =
        (rest.take count).reverse ++ c :: (code.take walk.offset).reverse ∧
      code.drop (walk.offset + 1 + count) = rest.drop count := by
    constructor
    · rw [Nat.add_assoc, List.take_add, hdrop, Nat.add_comm 1, List.take_succ_cons]
      simp
    · rw [Nat.add_assoc, ← List.drop_drop, hdrop, Nat.add_comm 1, List.drop_succ_cons]
  split at h
  · next hnone =>
    cases h
    refine ⟨Nat.lt_succ_self _, by dsimp only; omega, ?_⟩
    rw [ranges, ranges, hdrop, rangesFrom, hnone, (hover 0).1, (hover 0).2]
    rfl
  · next length hsome =>
    cases h
    have hle := tokenTail?_le hsome
    refine ⟨by dsimp only; omega, by dsimp only; omega, ?_⟩
    dsimp only [ranges]
    rw [hdrop, rangesFrom, hsome, (hover length).1, (hover length).2, List.append_assoc]
    rfl

/-- Every walk comes to its end, in no more passes than there are characters left. -/
theorem exists_ends (code : Text) (walk : Walk) :
    ∃ passes ≤ code.length - walk.offset, Ends code passes walk (walk.ranges code) := by
  -- a pass leaves fewer characters, perhaps by many
  induction hleft : code.length - walk.offset using Nat.strong_induction_on generalizing walk with
  | _ left ih =>
    subst hleft
    cases hpass : walk.pass? code with
    | none => exact ⟨0, Nat.zero_le _, ranges_of_pass?_eq_none hpass ▸ .done hpass⟩
    | some later =>
      obtain ⟨hforward, hwithin, hranges⟩ := pass?_eq_some hpass
      obtain ⟨passes, hpasses, hends⟩ := ih _ (by omega) later rfl
      exact ⟨passes + 1, by omega, .pass hpass (hranges ▸ hends)⟩

end Walk

/-! ## What is left for code -/

/-- At an offset of a text stands a quote or a backtick, or a slash with a slash or an asterisk behind
it. A slash alone may open a regular expression, but that is for the text in front of it to say. -/
def OpensAt (text : Text) (offset : Nat) : Prop :=
  (∃ quote ∈ ['\x27', '\x22', '\x60'], text[offset]? = some quote) ∨
    text[offset]? = some '/' ∧ (text[offset + 1]? = some '/' ∨ text[offset + 1]? = some '*')

instance (text : Text) (offset : Nat) : Decidable (OpensAt text offset) :=
  inferInstanceAs (Decidable (_ ∨ _))

/-- What opens a token is no code, whatever stands in front of it. -/
theorem tokenTail?_ne_none (h : OpensAt (c :: rest) 0) (before : Text) :
    tokenTail? before c rest ≠ none := by
  intro hnone
  unfold tokenTail? at hnone
  split at hnone
  · cases hnone
  next hline =>
  split at hnone
  · cases hnone
  next hblock =>
  split at hnone
  · cases hnone
  next hliteral =>
  rcases h with ⟨quote, hquote, hc⟩ | ⟨hc, hmark⟩
  · cases hc
    exact hliteral (by simpa using hquote)
  · cases hc
    rw [Nat.zero_add, List.getElem?_cons_succ, ← List.head?_eq_getElem?] at hmark
    exact hmark.elim (fun hslash => hline ⟨rfl, hslash⟩) fun hstar => hblock ⟨rfl, hstar⟩

theorem opensAt_drop_iff (count i : Nat) :
    OpensAt (text.drop count) i ↔ OpensAt text (count + i) := by
  simp only [OpensAt, List.getElem?_drop, Nat.add_assoc]

/-- Where something opens a token a range holds the offset: it begins there or in front of it. -/
theorem exists_mem_rangesFrom_of_opensAt {i : Nat} (h : OpensAt text i) (before : Text) (offset : Nat) :
    ∃ range ∈ rangesFrom before offset text, range.Contains (offset + i) := by
  fun_induction rangesFrom before offset text generalizing i with
  | case1 => simp [OpensAt] at h
  | case2 before offset c rest hnone ih =>
    cases i with
    | zero => exact absurd hnone (tokenTail?_ne_none h before)
    | succ i =>
      rw [Nat.add_comm i, ← opensAt_drop_iff, List.drop_succ_cons, List.drop_zero] at h
      obtain ⟨range, hrange, hcontains⟩ := ih h
      exact ⟨range, hrange, by rwa [Nat.add_right_comm] at hcontains⟩
  | case3 before offset c rest length hsome ih =>
    by_cases hwithin : i < 1 + length
    · exact ⟨_, List.mem_cons_self, Nat.le_add_right _ _, by dsimp only; omega⟩
    · obtain ⟨j, rfl⟩ := Nat.exists_eq_add_of_le (Nat.le_of_not_lt hwithin)
      rw [← opensAt_drop_iff, Nat.add_comm 1, List.drop_succ_cons] at h
      obtain ⟨range, hrange, hcontains⟩ := ih h
      exact ⟨range, List.mem_cons_of_mem _ hrange, by
        rwa [Nat.add_assoc, Nat.add_assoc, ← Nat.add_assoc 1] at hcontains⟩

/-! ## The ranges of a text -/

/-- The walk over a text comes to its end in no more passes than the text has characters. The ranges that
it notes are not empty, lie within the text and come one behind the other. Outside of them no quote and
no backtick stands, and no slash with a slash or an asterisk behind it. The look-up of an offset, which
stops at the first range behind it, finds the range that holds it if there is one. -/
theorem ignoredRanges_shape (code : Text) :
    (∃ passes ≤ code.length, Walk.Ends code passes ⟨0, []⟩ (ignoredRanges code)) ∧
      (∀ range ∈ ignoredRanges code, range.start < range.stop ∧ range.stop ≤ code.length) ∧
      ((ignoredRanges code).Pairwise fun a b => a.start < b.start ∧ a.stop ≤ b.start) ∧
      (∀ offset, (∀ range ∈ ignoredRanges code, ¬ range.Contains offset) → ¬ OpensAt code offset) ∧
      ∀ offset, inRanges offset (ignoredRanges code) = true ↔
        ∃ range ∈ ignoredRanges code, range.Contains offset := by
  have hspan {range : Span} (h : range ∈ ignoredRanges code) :
      range.start < range.stop ∧ range.stop ≤ code.length :=
    ⟨(mem_rangesFrom h).2, by simpa using stop_le_of_mem_rangesFrom h⟩
  refine ⟨?_, fun _ => hspan, ?_, ?_, fun _ => inRanges_ignoredRanges_iff⟩
  · exact Walk.exists_ends code ⟨0, []⟩
  · refine (pairwise_rangesFrom [] 0 code).imp_of_mem fun ha _ hordered => ?_
    exact ⟨Nat.lt_of_lt_of_le (hspan ha).1 hordered, hordered⟩
  · intro offset houtside hopens
    obtain ⟨range, hrange, hcontains⟩ := exists_mem_rangesFrom_of_opensAt hopens [] 0
    exact houtside range hrange (Nat.zero_add offset ▸ hcontains)

/-- A regular expression with a quote in it, a line comment with another, a slash that divides, a string
that the line end breaks off, and one that is open at the end of the text, which is a backslash. -/
def openEnds : Text := "x = /[/]'/; // 'c\ny = x / 'it\nz = \"\\".toList

theorem ignoredRanges_shape_openEnds :
    ignoredRanges openEnds = [⟨4, 10⟩, ⟨12, 17⟩, ⟨26, 29⟩, ⟨34, 36⟩] ∧
      (∃ passes ≤ openEnds.length, Walk.Ends openEnds passes ⟨0, []⟩ (ignoredRanges openEnds)) ∧
      36 ≤ openEnds.length ∧
      ((∀ range ∈ ignoredRanges openEnds, ¬ range.Contains 24) ∧ ¬ OpensAt openEnds 24) ∧
      inRanges 35 (ignoredRanges openEnds) = true := by
  have hranges : ignoredRanges openEnds = [⟨4, 10⟩, ⟨12, 17⟩, ⟨26, 29⟩, ⟨34, 36⟩] := by decide +kernel
  obtain ⟨hends, hwithin, -, hcode, hlookUp⟩ := ignoredRanges_shape openEnds
  have hlast : ⟨34, 36⟩ ∈ ignoredRanges openEnds := by rw [hranges]; decide
  have hslash : ∀ range ∈ ignoredRanges openEnds, ¬ range.Contains 24 := by rw [hranges]; decide
  exact ⟨hranges, hends, (hwithin _ hlast).2, ⟨hslash, hcode 24 hslash⟩,
    (hlookUp 35).2 ⟨_, hlast, by decide⟩⟩

end PersistedQueries.CallSite
