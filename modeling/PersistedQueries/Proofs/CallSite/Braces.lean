import PersistedQueries.Proofs.CallSite.StatementGaps

/-!
# The braces of an import statement

A clause has at most one pair of braces. In front of them stand only white space, names, commas and stars,
and they go on up to the first closing brace. So when the list between them is exchanged for another one,
the statement is read in the same way, and its clause has the other list.

- `ImportShape.exists_braces`: where the braces of a statement stand.
- `ImportShape.match?_exchange`: the list between them is exchanged.
-/

namespace PersistedQueries.CallSite

variable {front leading list other back : Text}

/-- A clause with a braced list. -/
def braced (leading list : Text) : Text := leading ++ '\x7b' :: (list ++ ['\x7d'])

theorem braced_append (leading list rest : Text) :
    braced leading list ++ rest = leading ++ '\x7b' :: (list ++ '\x7d' :: rest) := by
  simp [braced]

/-! ## Where the braces stand -/

/-- A clause is cut off the front of a text, and a specifier is introduced behind it. -/
theorem clause?_eq_some {text : Text} {found : Text × Text × Text} (h : clause? text = some found) :
    ∃ rest ∈ clauseEnds text, text = found.1 ++ rest ∧ fromClause? rest = some found.2 := by
  obtain ⟨rest, hrest, hfound⟩ := List.exists_of_findSome?_eq_some h
  obtain ⟨⟨specifier, behind⟩, hfrom, rfl⟩ := Option.map_eq_some_iff.1 hfound
  obtain ⟨clause, rfl⟩ := (passes_of_mem_clauseEnds hrest).suffix
  refine ⟨rest, hrest, ?_, hfrom⟩
  dsimp only
  rw [List.length_append, Nat.add_sub_cancel, List.take_left]

/-- A clause that has a brace is a braced list with loose characters in front. -/
theorem exists_braced_of_mem_clauseEnds {clause rest : Text} (h : rest ∈ clauseEnds (clause ++ rest))
    (hbrace : '\x7b' ∈ clause) : ∃ leading list, clause = braced leading list ∧
      (∀ c ∈ leading, isLoose c = true) ∧ '\x7d' ∉ list := by
  rcases exists_of_mem_clauseEnds h with
    ⟨pre, heq, hpre⟩ | ⟨group, list, ⟨leading, heq, hleading⟩, rfl, hlist⟩
  · rw [List.append_cancel_right heq] at hbrace
    exact absurd hbrace (not_mem_of_forall (by decide) hpre)
  · rw [← braced_append] at heq
    exact ⟨leading, list, List.append_cancel_right heq, hleading, hlist⟩

/-- A statement that has a brace in its clause has a braced list, which it reaches over, and only loose
characters in front of it. -/
theorem ImportShape.exists_braces {text : Text} {shape : ImportShape} (h : ImportShape.match? text = some shape)
    (hbrace : '\x7b' ∈ shape.clause) : ∃ front leading list back,
      text = front ++ '\x7b' :: (list ++ '\x7d' :: back) ∧ (∀ c ∈ front, isLoose c = true) ∧
      leading <:+ front ∧ shape.clause = braced leading list ∧
      front.length + list.length + 2 ≤ shape.length := by
  rw [ImportShape.match?_eq] at h
  obtain ⟨rest, hrest, h⟩ := Option.bind_eq_some_iff.1 h
  obtain ⟨⟨clause, specifier, last⟩, hfound, rfl⟩ := Option.map_eq_some_iff.1 h
  -- the clause is read behind the word, or behind the modifier
  obtain ⟨group, hgroup, hclause⟩ : ∃ group, Skips text group ∧
      clause? group = some (clause, specifier, last) := by
    have hword := skips_of_word (by decide) hrest
    rcases Option.or_eq_some_iff.1 hfound with hfound | ⟨-, hfound⟩
    · obtain ⟨modified, hmodified, hfound⟩ := Option.bind_eq_some_iff.1 hfound
      exact ⟨modified, hword.trans (skips_of_word (by decide) hmodified), hfound⟩
    · exact ⟨rest, hword, hfound⟩
  obtain ⟨behind, hbehind, rfl, hfrom⟩ := clause?_eq_some hclause
  obtain ⟨leading, list, hbraced, hleading, -⟩ := exists_braced_of_mem_clauseEnds hbehind hbrace
  obtain ⟨pre, rfl, hpre⟩ := hgroup
  have hle := (suffix_of_fromClause? hfrom).length_le
  refine ⟨pre ++ leading, leading, list, behind, ?_, List.forall_mem_append.2 ⟨hpre, hleading⟩,
    List.suffix_append pre leading, hbraced, ?_⟩
  · rw [show clause = _ from hbraced, braced_append, List.append_assoc]
  · rw [show clause = _ from hbraced]
    simp only [braced, List.length_append, List.length_cons]
    omega

/-! ## Exchanging the list -/

/-- What is left in front of the braces, when loose characters are taken off. -/
theorem Same.exists_front {gap x y : Text} (h : Same '\x7b' gap other back x y)
    (hskips : Skips (front ++ '\x7b' :: (gap ++ back)) x) :
    ∃ left, left <:+ front ∧ x = left ++ '\x7b' :: (gap ++ back) ∧
      y = left ++ '\x7b' :: (other ++ back) := by
  obtain ⟨pre, heq, hpre⟩ := hskips
  cases h with
  | front left =>
    rw [← List.append_assoc] at heq
    exact ⟨left, ⟨pre, (List.append_cancel_right heq).symm⟩, rfl, rfl⟩
  | behind x hsuffix =>
    -- the braces would have been taken off
    refine absurd ?_ (not_mem_of_forall (c := '\x7b') (by decide) hpre)
    obtain ⟨more, rfl⟩ := hsuffix
    have hcut : pre ++ x = (front ++ '\x7b' :: (gap ++ more)) ++ x := by simp [← heq]
    simp [List.append_cancel_right hcut]

/-- What has been read of two texts that differ in a braced list: if it is the clause with the list, then the
other one has the same clause with the other list. -/
def Exchanged (list other : Text) (found found' : Text × Text × Text) : Prop :=
  '\x7b' ∈ found.1 → ∃ leading, found.1 = braced leading list ∧ found' = (braced leading other, found.2)

theorem rel_clause?_braces (hfront : '\x7b' ∉ front) (hlist : Passable '\x7b' list)
    (hother : Passable '\x7b' other) (back : Text) :
    Option.Rel (Exchanged list other) (clause? (front ++ '\x7b' :: (list ++ '\x7d' :: back)))
      (clause? (front ++ '\x7b' :: (other ++ '\x7d' :: back))) := by
  have hsame : Same '\x7b' list other ('\x7d' :: back) _ _ := .front front
  refine rel_findSome? (hsame.rel_clauseEnds hlist.isNameChar_eq hlist.isBlank_eq hlist.not_mem_marks
    hlist.not_mem hother.not_mem) fun rest hrest rest' hends => ?_
  refine rel_map (hends.rel_fromClause? hlist.isNameChar_eq hlist.isBlank_eq hlist.isQuote_eq
    hlist.isQuote_of_mem hother.isQuote_of_mem) fun found found' hfound hfound' _ hbrace => ?_
  rcases exists_of_mem_clauseEnds hrest with
    ⟨pre, heq, hpre⟩ | ⟨group, interior, ⟨pre, heq, hpre⟩, rfl, hinterior⟩
  · dsimp only at hbrace
    rw [heq, List.length_append, Nat.add_sub_cancel, List.take_left] at hbrace
    exact absurd hbrace (not_mem_of_forall (by decide) hpre)
  · obtain ⟨rfl, hlist'⟩ := append_cons_inj hfront (not_mem_of_forall (by decide) hpre) heq
    obtain ⟨rfl, rfl⟩ := append_cons_inj hlist.not_mem hinterior hlist'
    -- the same is left behind the braces
    obtain rfl := hends.eq_of_length_le (Nat.le_succ _)
    obtain rfl := Option.some.inj (hfound.symm.trans hfound')
    refine ⟨front, ?_, ?_⟩
    all_goals
      dsimp only
      rw [← braced_append, List.length_append, Nat.add_sub_cancel, List.take_left]

/-- A statement with a list between its braces is read in the same way when there is another list. -/
theorem ImportShape.match?_exchange {shape : ImportShape} (hfront : '\x7b' ∉ front)
    (hlist : Passable '\x7b' list) (hother : Passable '\x7b' other)
    (h : ImportShape.match? (front ++ '\x7b' :: (list ++ '\x7d' :: back)) = some shape)
    (hbrace : '\x7b' ∈ shape.clause) : ∃ leading shape', shape.clause = braced leading list ∧
      ImportShape.match? (front ++ '\x7b' :: (other ++ '\x7d' :: back)) = some shape' ∧
      shape'.clause = braced leading other ∧ shape'.specifier = shape.specifier := by
  have hread : Option.Rel (Exchanged list other) (statement? (front ++ '\x7b' :: (list ++ '\x7d' :: back)))
      (statement? (front ++ '\x7b' :: (other ++ '\x7d' :: back))) := by
    have hsame : Same '\x7b' list other ('\x7d' :: back) _ _ := .front front
    refine rel_bind (hsame.rel_word hlist (by decide)) fun rest rest' hrest hsame => ?_
    obtain ⟨left, hleft, rfl, rfl⟩ := hsame.exists_front (skips_of_word (by decide) hrest)
    have hnone : '\x7b' ∉ left := fun hmem => hfront (hleft.subset hmem)
    refine rel_or ?_ (rel_clause?_braces hnone hlist hother back)
    refine rel_bind (hsame.rel_word hlist (by decide)) fun rest rest' hrest hsame => ?_
    obtain ⟨left', hleft', rfl, rfl⟩ := hsame.exists_front (skips_of_word (by decide) hrest)
    exact rel_clause?_braces (fun hmem => hnone (hleft'.subset hmem)) hlist hother back
  rw [ImportShape.match?_eq_statement?] at h ⊢
  obtain ⟨found, hfound, rfl⟩ := Option.map_eq_some_iff.1 h
  rw [hfound] at hread
  generalize statement? (front ++ '\x7b' :: (other ++ '\x7d' :: back)) = found' at hread
  cases hread with
  | some hexchanged =>
    obtain ⟨leading, hclause, rfl⟩ := hexchanged hbrace
    exact ⟨leading, _, hclause, rfl, rfl, rfl⟩

end PersistedQueries.CallSite
