import PersistedQueries.CallSite.Import
import PersistedQueries.Proofs.CallSite.Spans

/-!
# Searching a text from left to right

Calls and import statements are searched for in the same way: what can be read at the first place where
anything can be read is found, and the search goes on behind it. The results about such a search need to
know little of what is read: that it takes a character, and not more than there are.

A part of a text may be exchanged when what is read from in front of it either ends in front of it or goes
on behind it, wherever it is read and whatever the part is out of those that may stand there. Then the
search finds the same in front of the part, at most one thing that reaches over it, and the same behind it.

- `findFrom`: the search. `CallShape.allFrom_eq`, `ImportShape.allFrom_eq`: both searches are cases of it.
- `exists_of_mem_findFrom`: what is found is read at its offset.
- `findFrom_append`, `findFrom_of_read?`, `findFrom_shift`: how the search goes on.
- `Seam`, `FindsAround`, `findFrom_seam`: what is found when a part of the text is exchanged.
-/

namespace PersistedQueries.CallSite

variable {α κ : Type} {read? : Text → Option α} {length : α → Nat}

/-! ## The search -/

/-- What is read in a text from left to right, with the offsets at which it is read. `offset` is the number
of characters in front of the text. -/
def findFrom (read? : Text → Option α) (length : α → Nat) (offset : Nat) (text : Text) :
    List (Nat × α) :=
  match text with
  | [] => []
  | c :: rest =>
    match read? (c :: rest) with
    | none => findFrom read? length (offset + 1) rest
    | some found =>
      (offset, found) ::
        findFrom read? length (offset + (length found - 1 + 1)) (rest.drop (length found - 1))
termination_by text.length
decreasing_by all_goals grind

/-- What is read takes a character, and not more than there are. -/
structure Reads (read? : Text → Option α) (length : α → Nat) : Prop where
  pos : ∀ {text found}, read? text = some found → 0 < length found
  le : ∀ {text found}, read? text = some found → length found ≤ text.length

/-- The span of a call that is found. -/
def spanned (found : Nat × CallShape) : Span × CallShape :=
  (⟨found.1, found.1 + found.2.length⟩, found.2)

theorem CallShape.allFrom_eq (offset : Nat) (text : Text) :
    CallShape.allFrom offset text =
      (findFrom CallShape.match? CallShape.length offset text).map spanned := by
  fun_induction CallShape.allFrom offset text with
  | case1 => rw [findFrom]; rfl
  | case2 offset c rest hnone ih => rw [findFrom, hnone, ih]
  | case3 offset c rest shape hshape ih =>
    rw [findFrom, hshape, ih]
    rfl

theorem ImportShape.allFrom_eq (offset : Nat) (text : Text) :
    ImportShape.allFrom offset text = findFrom ImportShape.match? ImportShape.length offset text := by
  fun_induction ImportShape.allFrom offset text with
  | case1 => rw [findFrom]
  | case2 offset c rest hnone ih => rw [findFrom, hnone, ih]
  | case3 offset c rest shape hshape ih => rw [findFrom, hshape, ih]

theorem CallShape.reads : Reads CallShape.match? CallShape.length where
  pos h := by
    obtain ⟨call, _, rfl, hspells, hlength⟩ := CallShape.match?_eq_some h
    exact hlength ▸ hspells.length_pos
  le h := by
    obtain ⟨call, rest, rfl, hspells, hlength⟩ := CallShape.match?_eq_some h
    rw [hlength, List.length_append]
    exact Nat.le_add_right _ _

/-! ## How the search goes on -/

/-- The search passes over a part of the text in which nothing can be read. -/
theorem findFrom_append {front text : Text}
    (h : ∀ first more, front = first ++ more → more ≠ [] → read? (more ++ text) = none)
    (offset : Nat) :
    findFrom read? length offset (front ++ text) =
      findFrom read? length (offset + front.length) text := by
  induction front generalizing offset with
  | nil => rfl
  | cons c front ih =>
    have hnone : read? (c :: (front ++ text)) = none := h [] (c :: front) rfl (List.cons_ne_nil _ _)
    rw [List.cons_append, findFrom, hnone]
    dsimp only
    rw [ih fun first more heq => h (c :: first) more (heq ▸ rfl), List.length_cons, Nat.add_assoc,
      Nat.add_comm 1]

/-- The search goes on behind what it has found. -/
theorem findFrom_of_read? (hreads : Reads read? length) {text : Text} {found : α}
    (h : read? text = some found) (offset : Nat) :
    findFrom read? length offset text =
      (offset, found) ::
        findFrom read? length (offset + length found) (text.drop (length found)) := by
  have hpos := hreads.pos h
  obtain ⟨n, hn⟩ := Nat.exists_eq_add_one.2 hpos
  cases text with
  | nil =>
    have := hreads.le h
    rw [List.length_nil] at this
    omega
  | cons c rest =>
    rw [findFrom, h]
    dsimp only
    rw [hn, Nat.add_sub_cancel, List.drop_succ_cons]

/-- The search goes on behind what it has found, which ends in front of the rest of the text. -/
theorem findFrom_append_of_read? (hreads : Reads read? length) {front text : Text} {found : α}
    (h : read? (front ++ text) = some found) (hle : length found ≤ front.length) (offset : Nat) :
    findFrom read? length offset (front ++ text) = (offset, found) ::
      findFrom read? length (offset + length found) (front.drop (length found) ++ text) := by
  rw [findFrom_of_read? hreads h, List.drop_append_of_le_length hle]

/-- Only the offsets depend on how many characters stand in front of the text. -/
theorem findFrom_shift (offset shift : Nat) (text : Text) :
    findFrom read? length (offset + shift) text =
      (findFrom read? length offset text).map fun found => (found.1 + shift, found.2) := by
  fun_induction findFrom read? length offset text with
  | case1 => rw [findFrom]; rfl
  | case2 offset c rest hnone ih =>
    rw [findFrom, hnone, ← ih, Nat.add_right_comm]
  | case3 offset c rest found hfound ih =>
    rw [findFrom, hfound, List.map_cons, ← ih]
    dsimp only
    rw [Nat.add_right_comm offset shift]

/-- What is found is read at its offset. -/
theorem exists_of_mem_findFrom (hreads : Reads read? length) {offset start : Nat} {text : Text}
    {found : α} (h : (start, found) ∈ findFrom read? length offset text) :
    ∃ front rest, text = front ++ rest ∧ start = offset + front.length ∧ read? rest = some found := by
  fun_induction findFrom read? length offset text with
  | case1 => cases h
  | case2 offset c rest hnone ih =>
    obtain ⟨front, behind, rfl, rfl, hread⟩ := ih h
    refine ⟨c :: front, behind, rfl, ?_, hread⟩
    rw [List.length_cons]
    omega
  | case3 offset c rest first hfirst ih =>
    rcases List.mem_cons.1 h with heq | h
    · obtain ⟨rfl, rfl⟩ := Prod.mk.inj heq
      exact ⟨[], c :: rest, rfl, rfl, hfirst⟩
    · obtain ⟨front, behind, hrest, rfl, hread⟩ := ih h
      have hle := hreads.le hfirst
      rw [List.length_cons] at hle
      refine ⟨c :: (rest.take (length first - 1) ++ front), behind, ?_, ?_, hread⟩
      · rw [List.cons_append, List.append_assoc, ← hrest, List.take_append_drop]
      · rw [List.length_cons, List.length_append, List.length_take_of_le (by omega)]
        omega

/-- A call of a text is read at its offset, and its span has as many characters as it takes. -/
theorem CallShape.exists_of_mem_all {code : Text} {span : Span} {shape : CallShape}
    (h : (span, shape) ∈ CallShape.all code) :
    ∃ front rest, code = front ++ rest ∧ span = ⟨front.length, front.length + shape.length⟩ ∧
      CallShape.match? rest = some shape := by
  rw [CallShape.all, CallShape.allFrom_eq] at h
  obtain ⟨⟨start, shape⟩, hmem, heq⟩ := List.mem_map.1 h
  obtain ⟨rfl, rfl⟩ := Prod.mk.inj heq
  obtain ⟨front, rest, rfl, rfl, hread⟩ := exists_of_mem_findFrom CallShape.reads hmem
  rw [Nat.zero_add]
  exact ⟨front, rest, rfl, rfl, hread⟩

/-! ## Exchanging a part of the text -/

/-- Several texts fit into a gap in front of `behind`. Nothing can be read within any of them. What is read
from a place in front of the gap, where the text up to the gap ends with a mark, either ends in front of
the gap, and does not depend on what stands in it, or ends behind the gap at a place that does not depend on
what stands in the gap. `key` is what is known of it in the second case. -/
structure Seam (read? : Text → Option α) (length : α → Nat) (key : α → κ) (mark : Char)
    (Fits : Text → Prop) (behind : Text) : Prop where
  silent : ∀ {gap}, Fits gap → ∀ first more, gap = first ++ more → more ≠ [] →
    read? (more ++ behind) = none
  ends : ∀ {front gap found}, front.getLast? = some mark → Fits gap →
    read? (front ++ (gap ++ behind)) = some found →
    (length found ≤ front.length ∧
      ∀ other, Fits other → read? (front ++ (other ++ behind)) = some found) ∨
    ∃ n ≤ behind.length, ∀ other, Fits other → ∃ found', key found' = key found ∧
      length found' = front.length + other.length + n ∧
      read? (front ++ (other ++ behind)) = some found'

/-- What is found when a gap at an offset is filled: `earlier` in front of it, then what `across` says, and
then what is found behind it. `across` is the start of what reaches over the gap, how far it goes on behind
the gap, and what is known of it. -/
def FindsAround (read? : Text → Option α) (length : α → Nat) (key : α → κ) (behind : Text)
    (place : Nat) (earlier : List (Nat × α)) (across : Option (Nat × Nat × κ)) (gap : Text)
    (found : List (Nat × α)) : Prop :=
  match across with
  | none => found = earlier ++ findFrom read? length (place + gap.length) behind
  | some (start, n, k) => ∃ own, key own = k ∧ start + length own = place + gap.length + n ∧
      found = earlier ++ (start, own) ::
        findFrom read? length (place + gap.length + n) (behind.drop n)

theorem FindsAround.cons {key : α → κ} {behind gap : Text} {place : Nat} {earlier : List (Nat × α)}
    {across : Option (Nat × Nat × κ)} {found : List (Nat × α)} (first : Nat × α)
    (h : FindsAround read? length key behind place earlier across gap found) :
    FindsAround read? length key behind place (first :: earlier) across gap (first :: found) := by
  cases across with
  | none => exact congrArg (first :: ·) h
  | some across =>
    obtain ⟨own, hkey, hlength, hfound⟩ := h
    exact ⟨own, hkey, hlength, congrArg (first :: ·) hfound⟩

/-- Gaps of the same length are filled with what is found at the same places. -/
theorem FindsAround.map_eq {key : α → κ} {behind gap other : Text} {place : Nat}
    {earlier : List (Nat × α)} {across : Option (Nat × Nat × κ)} {found found' : List (Nat × α)}
    (hlength : gap.length = other.length)
    (h : FindsAround read? length key behind place earlier across gap found)
    (h' : FindsAround read? length key behind place earlier across other found') :
    found'.map (fun found => (found.1, length found.2, key found.2)) =
      found.map fun found => (found.1, length found.2, key found.2) := by
  cases across with
  | none =>
    have hfound : found' = found := by rw [show found' = _ from h', ← hlength]; exact Eq.symm h
    rw [hfound]
  | some across =>
    obtain ⟨own, hkey, hown, rfl⟩ := h
    obtain ⟨own', hkey', hown', rfl⟩ := h'
    rw [List.map_append, List.map_append, List.map_cons, List.map_cons, hlength, hkey, hkey',
      show length own = length own' by omega]

/-- What reaches over a gap is the first thing that is found, and the search goes on behind it. -/
theorem findsAround_of_read? (hreads : Reads read? length) {key : α → κ} {front gap behind : Text}
    {found : α} {n : Nat} {k : κ} (hkey : key found = k)
    (hlength : length found = front.length + gap.length + n)
    (h : read? (front ++ (gap ++ behind)) = some found) (offset : Nat) :
    FindsAround read? length key behind (offset + front.length) [] (some (offset, n, k)) gap
      (findFrom read? length offset (front ++ (gap ++ behind))) := by
  refine ⟨found, hkey, by omega, ?_⟩
  have hdrop : (front ++ (gap ++ behind)).drop (length found) = behind.drop n := by
    rw [hlength, ← List.append_assoc, ← List.length_append, List.drop_length_add_append]
  rw [findFrom_of_read? hreads h, hdrop, hlength, Nat.add_assoc offset, Nat.add_assoc offset]
  rfl

/-- What is found around a gap: the same in front of it and behind it whatever stands in it, and at most one
thing that reaches over it. -/
theorem findFrom_seam (hreads : Reads read? length) {key : α → κ} {mark : Char} {Fits : Text → Prop}
    {behind : Text} (hseam : Seam read? length key mark Fits behind) {front : Text}
    (hfront : ∀ c, front.getLast? = some c → c = mark) (offset : Nat) :
    ∃ (earlier : List (Nat × α)) (across : Option (Nat × Nat × κ)),
      (∀ found ∈ earlier, found.1 + length found.2 ≤ offset + front.length) ∧
      (∀ start n k, across = some (start, n, k) → start < offset + front.length ∧ n ≤ behind.length) ∧
      ∀ gap, Fits gap → FindsAround read? length key behind (offset + front.length) earlier across gap
        (findFrom read? length offset (front ++ (gap ++ behind))) := by
  -- by induction on how much stands in front of the gap: the search goes on in a shorter part of it
  induction hn : front.length using Nat.strong_induction_on generalizing front offset with
  | _ n ih =>
    subst hn
    cases front with
    | nil =>
      refine ⟨[], none, List.forall_mem_nil _, nofun, fun gap hgap => ?_⟩
      rw [List.nil_append, findFrom_append (hseam.silent hgap)]
      rfl
    | cons c front =>
      have hlast : (c :: front).getLast? = some mark := by
        rw [List.getLast?_eq_some_getLast (List.cons_ne_nil c front)]
        exact congrArg some (hfront _ (List.getLast?_eq_some_getLast (List.cons_ne_nil c front)))
      have hsuffix : ∀ more, more <:+ front → ∀ d, more.getLast? = some d → d = mark := by
        rintro more ⟨first, rfl⟩ d hd
        refine hfront d ?_
        rw [← List.cons_append, List.getLast?_append, hd]
        rfl
      by_cases hany : ∃ gap found, Fits gap ∧ read? ((c :: front) ++ (gap ++ behind)) = some found
      · obtain ⟨gap, found, hgap, hfound⟩ := hany
        have hpos := hreads.pos hfound
        rcases hseam.ends hlast hgap hfound with ⟨hle, hsame⟩ | ⟨n, hn, hsame⟩
        · -- it ends in front of the gap
          rw [List.length_cons] at hle
          obtain ⟨more, hmore⟩ : ∃ more, (c :: front).drop (length found) = more := ⟨_, rfl⟩
          have hlength : length found + more.length = (c :: front).length := by
            rw [← hmore, List.length_drop, List.length_cons]
            omega
          have hshort : more <:+ front := by
            obtain ⟨n, hn⟩ := Nat.exists_eq_add_one.2 hpos
            rw [← hmore, hn, List.drop_succ_cons]
            exact List.drop_suffix n front
          obtain ⟨earlier, across, hearlier, hover, hrest⟩ := ih more.length (by omega)
            (hsuffix more hshort) (offset + length found) rfl
          rw [Nat.add_assoc, hlength] at hearlier hover hrest
          refine ⟨(offset, found) :: earlier, across, List.forall_mem_cons.2 ⟨?_, hearlier⟩, hover,
            fun gap hgap => ?_⟩
          · exact Nat.add_le_add_left hle offset
          · rw [findFrom_append_of_read? hreads (hsame gap hgap) hle, hmore]
            exact (hrest gap hgap).cons _
        · -- it reaches across the gap
          refine ⟨[], some (offset, n, key found), List.forall_mem_nil _, ?_, fun other hother => ?_⟩
          · rintro _ _ _ ⟨⟩
            rw [List.length_cons]
            exact ⟨by omega, hn⟩
          · obtain ⟨found', hkey, hlength, hread⟩ := hsame other hother
            exact findsAround_of_read? hreads hkey hlength hread offset
      · -- nothing can be read here, whatever stands in the gap
        have hstep (gap : Text) (hgap : Fits gap) :
            findFrom read? length offset ((c :: front) ++ (gap ++ behind)) =
              findFrom read? length (offset + 1) (front ++ (gap ++ behind)) := by
          have hnone : read? (c :: (front ++ (gap ++ behind))) = none :=
            Option.eq_none_iff_forall_ne_some.2 fun found hfound => hany ⟨gap, found, hgap, hfound⟩
          rw [List.cons_append, findFrom, hnone]
        obtain ⟨earlier, across, hearlier, hover, hrest⟩ := ih front.length (Nat.lt_succ_self _)
          (hsuffix front (List.suffix_refl front)) (offset + 1) rfl
        rw [Nat.add_assoc, Nat.add_comm 1] at hearlier hover hrest
        refine ⟨earlier, across, hearlier, hover, fun gap hgap => ?_⟩
        rw [hstep gap hgap]
        exact hrest gap hgap

end PersistedQueries.CallSite
