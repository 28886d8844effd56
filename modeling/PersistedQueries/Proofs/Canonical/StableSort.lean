import Mathlib.Data.Char
import Mathlib.Data.List.Lex
import Mathlib.Data.List.Nodup
import PersistedQueries.GraphQL.Canonical

/-!
# What a stable sort depends on

`sortOn` sorts by a key and leaves items with one key in their order. The sorted list therefore
knows nothing of the order it was given but, for each key, the order of the items that have it.

- `pairwise_sortOn`: the keys of a sorted list ascend.
- `sameKey_sortOn`: the items of a key come out in the order in which they went in.
- `eq_of_ascending`: a list with ascending keys is determined by its items of each key.
- `sortOn_congr`: two lists with the same items of each key, in the same order, have one sort.
- `sortOn_eq_of_perm`: where no key comes twice, all orders have one sort.
- `sortOn_map`: sorting commutes with a change of the items.
- `sortOn_sortOn`: a sorted list is left as it is.
- `filterMap_sortOn`: what comes from the items of one key comes in the order of the items.
-/

namespace PersistedQueries.GraphQL

variable {α β : Type}

/-! ## The order by a key -/

/-- An item may stand in front of another one: its key is not greater. -/
def byKey (key : α → List Text) (a b : α) : Bool := !decide (key b < key a)

theorem byKey_iff {key : α → List Text} {a b : α} : byKey key a b = true ↔ ¬ key b < key a := by
  simp [byKey]

theorem byKey_trans (key : α → List Text) (a b c : α) (hab : byKey key a b = true)
    (hbc : byKey key b c = true) : byKey key a c = true := by
  rw [byKey_iff, not_lt] at *
  exact hab.trans hbc

theorem byKey_total (key : α → List Text) (a b : α) : (byKey key a b || byKey key b a) = true := by
  rw [Bool.or_eq_true, byKey_iff, byKey_iff, not_lt, not_lt]
  exact le_total (key a) (key b)

/-- Items that may stand in front of each other have one key. -/
theorem key_eq_of_byKey {key : α → List Text} {a b : α} (hab : byKey key a b = true)
    (hba : byKey key b a = true) : key a = key b := by
  rw [byKey_iff, not_lt] at hab hba
  exact le_antisymm hab hba

/-! ## The sorted list -/

/-- Sorting by a key is sorting by the order of the keys. -/
theorem sortOn_eq_mergeSort (key : α → List Text) (items : List α) :
    sortOn key items = items.mergeSort (byKey key) := by
  unfold sortOn
  rw [List.map_mergeSort (s := byKey key), List.map_map]
  · exact congrArg (List.mergeSort · (byKey key)) (List.map_id items)
  · intro a ha b hb
    obtain ⟨x, -, rfl⟩ := List.mem_map.1 ha
    obtain ⟨y, -, rfl⟩ := List.mem_map.1 hb
    rfl

theorem perm_sortOn (key : α → List Text) (items : List α) : (sortOn key items).Perm items := by
  rw [sortOn_eq_mergeSort]
  exact List.mergeSort_perm items _

/-- The keys of a sorted list ascend. -/
theorem pairwise_sortOn (key : α → List Text) (items : List α) :
    (sortOn key items).Pairwise fun a b => byKey key a b = true := by
  rw [sortOn_eq_mergeSort]
  exact List.pairwise_mergeSort (byKey_trans key) (byKey_total key) items

/-- The items that have the key of an item. -/
def sameKey (key : α → List Text) (items : List α) (item : α) : List α :=
  items.filter fun other => key other = key item

theorem mem_sameKey {key : α → List Text} {items : List α} {item other : α} :
    other ∈ sameKey key items item ↔ other ∈ items ∧ key other = key item := by
  simp [sameKey]

theorem mem_sameKey_self {key : α → List Text} {items : List α} {item : α} :
    item ∈ sameKey key items item ↔ item ∈ items := by
  simp [mem_sameKey]

/-- The items of a key come out in the order in which they went in. -/
theorem sameKey_sortOn (key : α → List Text) (items : List α) (item : α) :
    sameKey key (sortOn key items) item = sameKey key items item := by
  have hties : (sameKey key items item).Pairwise fun a b => byKey key a b = true := by
    refine List.pairwise_of_forall_mem_list fun a ha b hb => ?_
    rw [byKey_iff, (mem_sameKey.1 ha).2, (mem_sameKey.1 hb).2]
    exact lt_irrefl _
  have hkept : (sameKey key items item).Sublist (sortOn key items) := by
    rw [sortOn_eq_mergeSort]
    exact List.sublist_mergeSort (byKey_trans key) (byKey_total key) hties List.filter_sublist
  have hsub : (sameKey key items item).Sublist (sameKey key (sortOn key items) item) := by
    have := hkept.filter fun other => key other = key item
    rwa [sameKey, List.filter_filter, show (fun other => decide (key other = key item) &&
      decide (key other = key item)) = fun other => decide (key other = key item) from
      funext fun _ => Bool.and_self _] at this
  exact (hsub.eq_of_length ((perm_sortOn key items).filter _).length_eq.symm).symm

/-- A list with ascending keys is determined by its items of each key. -/
theorem eq_of_ascending {key : α → List Text} {items items' : List α}
    (h : items.Pairwise fun a b => byKey key a b = true)
    (h' : items'.Pairwise fun a b => byKey key a b = true)
    (hsame : ∀ item, sameKey key items item = sameKey key items' item) : items = items' := by
  induction items generalizing items' with
  | nil =>
    cases items' with
    | nil => rfl
    | cons b rest' =>
      have hb : b ∈ sameKey key [] b := hsame b ▸ mem_sameKey_self.2 List.mem_cons_self
      exact absurd (mem_sameKey_self.1 hb) List.not_mem_nil
  | cons a rest ih =>
    cases items' with
    | nil =>
      have ha : a ∈ sameKey key [] a := hsame a ▸ mem_sameKey_self.2 List.mem_cons_self
      exact absurd (mem_sameKey_self.1 ha) List.not_mem_nil
    | cons b rest' =>
      obtain ⟨hfirst, hrest⟩ := List.pairwise_cons.1 h
      obtain ⟨hfirst', hrest'⟩ := List.pairwise_cons.1 h'
      have ha : a ∈ b :: rest' :=
        mem_sameKey_self.1 (hsame a ▸ mem_sameKey_self.2 List.mem_cons_self)
      have hb : b ∈ a :: rest :=
        mem_sameKey_self.1 (hsame b ▸ mem_sameKey_self.2 List.mem_cons_self)
      -- each head is an item of the other list, so neither key is the greater one
      have hkey : key a = key b := by
        rcases List.mem_cons.1 ha with rfl | ha
        · rfl
        · rcases List.mem_cons.1 hb with rfl | hb
          · rfl
          · exact key_eq_of_byKey (hfirst b hb) (hfirst' a ha)
      have hhead := hsame a
      simp only [sameKey, List.filter_cons, hkey, decide_true, if_true, List.cons.injEq] at hhead
      obtain ⟨rfl, -⟩ := hhead
      refine congrArg (a :: ·) (ih hrest hrest' fun item => ?_)
      have htail := hsame item
      simp only [sameKey, List.filter_cons] at htail ⊢
      split at htail
      · exact (List.cons.inj htail).2
      · exact htail

/-- Two lists with the same items of each key, in the same order, have one sort. -/
theorem sortOn_congr {key : α → List Text} {items items' : List α}
    (h : ∀ item, sameKey key items item = sameKey key items' item) :
    sortOn key items = sortOn key items' := by
  refine eq_of_ascending (pairwise_sortOn key items) (pairwise_sortOn key items') fun item => ?_
  rw [sameKey_sortOn, sameKey_sortOn, h item]

/-- Where no key comes twice, all orders have one sort. -/
theorem sortOn_eq_of_perm {key : α → List Text} {items items' : List α} (h : items.Perm items')
    (hkeys : (items.map key).Nodup) : sortOn key items = sortOn key items' := by
  have hperm : (sortOn key items).Perm (sortOn key items') :=
    (perm_sortOn key items).trans (h.trans (perm_sortOn key items').symm)
  refine List.Perm.eq_of_pairwise (fun a b ha hb hab hba => ?_) (pairwise_sortOn key items)
    (pairwise_sortOn key items') hperm
  have ha' : a ∈ items := (perm_sortOn key items).mem_iff.1 ha
  have hb' : b ∈ items := h.mem_iff.2 ((perm_sortOn key items').mem_iff.1 hb)
  exact List.inj_on_of_nodup_map hkeys ha' hb' (key_eq_of_byKey hab hba)

/-- Sorting commutes with a change of the items. -/
theorem sortOn_map (key : β → List Text) (change : α → β) (items : List α) :
    sortOn key (items.map change) = (sortOn (key ∘ change) items).map change := by
  rw [sortOn_eq_mergeSort, sortOn_eq_mergeSort]
  exact (List.map_mergeSort (f := change) fun _ _ _ _ => rfl).symm

/-- A sorted list is left as it is. -/
theorem sortOn_sortOn (key : α → List Text) (items : List α) :
    sortOn key (sortOn key items) = sortOn key items :=
  sortOn_congr (sameKey_sortOn key items)

/-- Where all items that give an answer have one key, the answers keep their order. -/
theorem filterMap_sortOn {key : α → List Text} {answer? : α → Option β} {items : List α}
    (h : ∀ a ∈ items, ∀ b ∈ items, answer? a ≠ none → answer? b ≠ none → key a = key b) :
    (sortOn key items).filterMap answer? = items.filterMap answer? := by
  by_cases hsome : ∃ item ∈ items, answer? item ≠ none
  · obtain ⟨item, hitem, hanswer⟩ := hsome
    have hsame : ∀ others : List α, (∀ other ∈ others, other ∈ items) →
        others.filterMap answer? = (sameKey key others item).filterMap answer? := by
      intro others hothers
      rw [sameKey, List.filterMap_filter]
      refine List.filterMap_congr fun other hother => ?_
      split
      · rfl
      · next hkey =>
        by_contra hne
        exact hkey (decide_eq_true (h other (hothers other hother) item hitem hne hanswer))
    rw [hsame _ fun other => (perm_sortOn key items).mem_iff.1, sameKey_sortOn,
      ← hsame items fun _ => id]
  · have hnone : ∀ item ∈ items, answer? item = none := fun item hitem =>
      by_contra fun hne => hsome ⟨item, hitem, hne⟩
    rw [List.filterMap_eq_nil_iff.2 hnone, List.filterMap_eq_nil_iff.2 fun item hitem =>
      hnone item ((perm_sortOn key items).mem_iff.1 hitem)]

end PersistedQueries.GraphQL
