/-!
# Sets of names

A set of names is the ascending list of its members, so that two sets with the same members
are the same list and a listing is in code-point order.

- `NameSet`: the ascending list.
- `insert`, `erase`, `ofList`, `remove`: building and cutting.
- `mem_insert`, `mem_erase`, `mem_ofList`: membership after each of them.
- `lacking`: the names of a list that a set lacks; `length_lacking_insert` says that there are
  fewer of them after each new member.
-/

namespace PersistedQueries

/-- A finite set of names, listed in ascending order. -/
structure NameSet where
  /-- The members in ascending order. -/
  names : List String
  /-- Each member is less than every later one. -/
  ascending : names.Pairwise (· < ·)
  deriving DecidableEq

namespace NameSet

/-- Put a name into an ascending list. -/
def insertName (name : String) : List String → List String
  | [] => [name]
  | first :: rest =>
    if name < first then name :: first :: rest
    else if name = first then first :: rest
    else first :: insertName name rest

theorem mem_insertName (name other : String) (names : List String) :
    other ∈ insertName name names ↔ other = name ∨ other ∈ names := by
  induction names with
  | nil => simp [insertName]
  | cons first rest ih => grind [insertName]

theorem ascending_insertName {name : String} {names : List String}
    (h : names.Pairwise (· < ·)) : (insertName name names).Pairwise (· < ·) := by
  induction names with
  | nil => simp [insertName]
  | cons first rest ih =>
    obtain ⟨hfirst, hrest⟩ := List.pairwise_cons.1 h
    unfold insertName
    split
    · next hlt =>
      refine List.pairwise_cons.2 ⟨?_, h⟩
      intro other hother
      rcases List.mem_cons.1 hother with rfl | hother
      · exact hlt
      · exact String.lt_trans hlt (hfirst other hother)
    · split
      · exact h
      · next hlt hne =>
        refine List.pairwise_cons.2 ⟨?_, ih hrest⟩
        intro other hother
        rcases (mem_insertName name other rest).1 hother with rfl | hother
        · exact Std.lt_of_le_of_ne (Std.not_lt.1 hlt) fun e => hne e.symm
        · exact hfirst other hother

/-- The set without members. -/
def empty : NameSet := ⟨[], .nil⟩

instance : Inhabited NameSet := ⟨empty⟩

instance : EmptyCollection NameSet := ⟨empty⟩

instance : Membership String NameSet := ⟨fun set name => name ∈ set.names⟩

instance (name : String) (set : NameSet) : Decidable (name ∈ set) :=
  inferInstanceAs (Decidable (name ∈ set.names))

/-- The set with one more member. -/
def insert (set : NameSet) (name : String) : NameSet :=
  ⟨insertName name set.names, ascending_insertName set.ascending⟩

/-- The set without a name. -/
def erase (set : NameSet) (name : String) : NameSet :=
  ⟨set.names.filter (· ≠ name), set.ascending.sublist List.filter_sublist⟩

/-- The members of a list. -/
def ofList (names : List String) : NameSet := names.foldr (fun name set => set.insert name) empty

@[simp] theorem not_mem_empty (name : String) : ¬ name ∈ empty := List.not_mem_nil

@[simp] theorem mem_insert {set : NameSet} {name other : String} :
    other ∈ set.insert name ↔ other = name ∨ other ∈ set :=
  mem_insertName name other set.names

@[simp] theorem mem_erase {set : NameSet} {name other : String} :
    other ∈ set.erase name ↔ other ∈ set ∧ other ≠ name := by
  show other ∈ set.names.filter (· ≠ name) ↔ other ∈ set.names ∧ other ≠ name
  simp

@[simp] theorem mem_ofList {names : List String} {name : String} :
    name ∈ ofList names ↔ name ∈ names := by
  induction names with
  | nil => simp [ofList]
  | cons first rest ih =>
    show name ∈ (ofList rest).insert first ↔ name ∈ first :: rest
    simp [ih]

/-! ## The names that a set lacks -/

/-- The names of a list that are no members. -/
def lacking (set : NameSet) (names : List String) : List String := names.filter (· ∉ set)

/-- A new member leaves no more names lacking. -/
theorem length_lacking_insert_le (set : NameSet) (name : String) (names : List String) :
    ((set.insert name).lacking names).length ≤ (set.lacking names).length := by
  induction names with
  | nil => simp [lacking]
  | cons first rest ih =>
    simp only [lacking, List.filter_cons, mem_insert] at ih ⊢
    grind

/-- A new member that the list names leaves fewer names lacking. -/
theorem length_lacking_insert {set : NameSet} {name : String} {names : List String}
    (hmem : name ∈ names) (hnew : name ∉ set) :
    ((set.insert name).lacking names).length < (set.lacking names).length := by
  induction names with
  | nil => simp at hmem
  | cons first rest ih =>
    have hle := length_lacking_insert_le set name rest
    simp only [lacking, List.filter_cons, mem_insert] at ih hle ⊢
    by_cases hfirst : first = name
    · subst hfirst
      rw [if_neg (by simp), if_pos (by simpa using hnew)]
      exact Nat.lt_succ_of_le hle
    · have := ih (by simpa [Ne.symm hfirst] using hmem)
      grind

end NameSet

end PersistedQueries
