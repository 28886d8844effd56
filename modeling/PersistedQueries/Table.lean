/-!
# Tables in order of insertion

A table maps keys to values and remembers the order in which the keys first came. Writing
to a key that is present changes its value and leaves its place.

- `Table`: the entries, with the invariant that no key comes twice.
- `get?`, `insert`, `erase`, `ofList`: look-up and change.
- `keys_insert`: the order law, which says where a written key stands.
- `get?_insert`, `get?_erase`, `get?_foldl_erase`, `get?_ofList`: what a look-up gives after a change.
- `mem_keys_iff`: the keys are what a look-up finds.
- `insert_of_get?`: writing the value that a key has changes nothing.
- `entries_ofList`: a table of distinct keys has the entries that it was made of.
-/

namespace PersistedQueries

/-- Keys with values, in the order in which the keys first came. -/
structure Table (κ α : Type) where
  /-- The keys with their values. -/
  entries : List (κ × α)
  /-- No key comes twice. -/
  nodup : (entries.map Prod.fst).Nodup

namespace Table

variable {κ α : Type} [DecidableEq κ]

/-! ## Entries as lists of pairs -/

/-- The value of the first entry with a key. -/
def lookup (key : κ) : List (κ × α) → Option α
  | [] => none
  | (k, v) :: rest => if k = key then some v else lookup key rest

/-- Give a key a value: in its place when it is present, at the end otherwise. -/
def put (key : κ) (value : α) : List (κ × α) → List (κ × α)
  | [] => [(key, value)]
  | (k, v) :: rest => if k = key then (k, value) :: rest else (k, v) :: put key value rest

/-- The keys after `put`. -/
theorem keys_put (key : κ) (value : α) (entries : List (κ × α)) :
    (put key value entries).map Prod.fst =
      if key ∈ entries.map Prod.fst then entries.map Prod.fst
      else entries.map Prod.fst ++ [key] := by
  induction entries with
  | nil => simp [put]
  | cons entry rest ih =>
    obtain ⟨k, v⟩ := entry
    by_cases h : k = key
    · simp [put, h]
    · have h' : ¬ key = k := fun e => h e.symm
      simp only [put, h, if_false, List.map_cons, ih, List.mem_cons, h', false_or]
      split <;> simp

/-- Writing one entry keeps the keys distinct. -/
theorem nodup_put {key : κ} {value : α} {entries : List (κ × α)}
    (h : (entries.map Prod.fst).Nodup) : ((put key value entries).map Prod.fst).Nodup := by
  rw [keys_put]
  split
  · exact h
  · next hkey => exact List.nodup_append.2 ⟨h, by simp, by rintro a ha b hb; simp at hb; grind⟩

/-- What a look-up finds after `put`. -/
theorem lookup_put (key other : κ) (value : α) (entries : List (κ × α)) :
    lookup other (put key value entries) = if key = other then some value else lookup other entries := by
  induction entries with
  | nil => simp [put, lookup]
  | cons entry rest ih =>
    obtain ⟨k, v⟩ := entry
    by_cases h : k = key
    · subst h
      by_cases hn : k = other <;> simp [put, lookup, hn]
    · simp only [put, h, if_false, lookup, ih]
      by_cases hk : k = other
      · have : ¬ key = other := fun e => h (hk.trans e.symm)
        simp [hk, this]
      · simp [hk]

/-- What a look-up finds among the entries with other keys. -/
theorem lookup_filter (key other : κ) (entries : List (κ × α)) :
    lookup other (entries.filter fun entry => entry.1 ≠ key) =
      if key = other then none else lookup other entries := by
  induction entries with
  | nil => simp [lookup]
  | cons entry rest ih =>
    obtain ⟨k, v⟩ := entry
    grind [lookup]

/-! ## Tables -/

/-- The table without entries. -/
def empty : Table κ α := ⟨[], by simp⟩

instance : Inhabited (Table κ α) := ⟨empty⟩

instance : EmptyCollection (Table κ α) := ⟨empty⟩

/-- The value of a key. -/
def get? (table : Table κ α) (key : κ) : Option α := lookup key table.entries

/-- The key has a value. -/
def contains (table : Table κ α) (key : κ) : Bool := (table.get? key).isSome

/-- Give a key a value. -/
def insert (table : Table κ α) (key : κ) (value : α) : Table κ α :=
  ⟨put key value table.entries, nodup_put table.nodup⟩

/-- Take a key out. -/
def erase (table : Table κ α) (key : κ) : Table κ α :=
  ⟨table.entries.filter fun entry => entry.1 ≠ key,
    table.nodup.sublist (List.filter_sublist.map _)⟩

/-- The keys in their order. -/
def keys (table : Table κ α) : List κ := table.entries.map Prod.fst

/-- The number of keys. -/
def size (table : Table κ α) : Nat := table.entries.length

/-- The table of a list of pairs: a repeated key keeps its first place and its last value. -/
def ofList (pairs : List (κ × α)) : Table κ α :=
  pairs.foldl (fun table (key, value) => table.insert key value) empty

/-- A written key keeps its place; a new one comes last. -/
theorem keys_insert (table : Table κ α) (key : κ) (value : α) :
    (table.insert key value).keys =
      if key ∈ table.keys then table.keys else table.keys ++ [key] :=
  keys_put key value table.entries

theorem get?_insert (table : Table κ α) (key other : κ) (value : α) :
    (table.insert key value).get? other = if key = other then some value else table.get? other :=
  lookup_put key other value table.entries

theorem get?_erase (table : Table κ α) (key other : κ) :
    (table.erase key).get? other = if key = other then none else table.get? other :=
  lookup_filter key other table.entries

/-- A key is among the keys when a look-up finds it. -/
theorem mem_keys_of_get? {table : Table κ α} {key : κ} {value : α}
    (h : table.get? key = some value) : key ∈ table.keys := by
  have go : ∀ entries : List (κ × α), lookup key entries = some value →
      key ∈ entries.map Prod.fst := by
    intro entries
    induction entries with
    | nil => simp [lookup]
    | cons entry rest ih =>
      obtain ⟨k, v⟩ := entry
      grind [lookup]
  exact go table.entries h

@[simp] theorem get?_empty (other : κ) : (empty : Table κ α).get? other = none := rfl

/-- The keys are what a look-up finds. -/
theorem mem_keys_iff {table : Table κ α} {key : κ} :
    key ∈ table.keys ↔ ∃ value, table.get? key = some value := by
  constructor
  · have go : ∀ entries : List (κ × α), key ∈ entries.map Prod.fst →
        ∃ value, lookup key entries = some value := by
      intro entries
      induction entries with
      | nil => simp
      | cons entry rest ih =>
        obtain ⟨k, v⟩ := entry
        intro hkey
        by_cases h : k = key
        · exact ⟨v, by simp [lookup, h]⟩
        · obtain ⟨value, hvalue⟩ := ih (by simpa [Ne.symm h] using hkey)
          exact ⟨value, by simpa [lookup, h] using hvalue⟩
    exact go table.entries
  · rintro ⟨value, h⟩
    exact mem_keys_of_get? h

theorem contains_iff {table : Table κ α} {key : κ} :
    table.contains key = true ↔ ∃ value, table.get? key = some value := Option.isSome_iff_exists

/-- What a look-up finds when several keys have been taken out. -/
theorem get?_foldl_erase (keys : List κ) (table : Table κ α) (other : κ) :
    (keys.foldl erase table).get? other = if other ∈ keys then none else table.get? other := by
  induction keys generalizing table with
  | nil => simp
  | cons key keys ih =>
    rw [List.foldl_cons, ih, get?_erase]
    by_cases h : key = other
    · simp [h]
    · simp [h, Ne.symm h]

/-- A table gives a key the last value that was written for it. -/
theorem get?_ofList (pairs : List (κ × α)) (key : κ) :
    (ofList pairs).get? key =
      (pairs.reverse.find? fun pair => pair.1 = key).map Prod.snd := by
  rw [ofList, List.foldl_eq_foldr_reverse]
  induction pairs.reverse with
  | nil => rfl
  | cons pair pairs ih =>
    rw [List.foldr_cons, get?_insert, ih]
    split
    · next hkey => rw [List.find?_cons_of_pos (by simpa using hkey), Option.map_some]
    · next hkey => rw [List.find?_cons_of_neg (by simpa using hkey)]

/-! ## Entries that are kept -/

theorem put_of_lookup {key : κ} {value : α} {entries : List (κ × α)}
    (h : lookup key entries = some value) : put key value entries = entries := by
  induction entries with
  | nil => cases h
  | cons entry rest ih =>
    obtain ⟨k, v⟩ := entry
    unfold lookup at h
    unfold put
    split at h
    · next hkey => rw [if_pos hkey, Option.some.inj h]
    · next hkey => rw [if_neg hkey, ih h]

/-- Writing the value that a key has changes nothing. -/
theorem insert_of_get? {table : Table κ α} {key : κ} {value : α}
    (h : table.get? key = some value) : table.insert key value = table := by
  have hput := put_of_lookup h
  unfold insert
  cases table
  congr

theorem put_of_not_mem {key : κ} {value : α} {entries : List (κ × α)}
    (h : key ∉ entries.map Prod.fst) : put key value entries = entries ++ [(key, value)] := by
  induction entries with
  | nil => rfl
  | cons entry rest ih =>
    obtain ⟨k, v⟩ := entry
    obtain ⟨hne, hrest⟩ := not_or.1 (mt List.mem_cons.2 h)
    rw [put, if_neg (Ne.symm hne), ih hrest]
    rfl

/-- Entries with new keys come behind the others. -/
theorem entries_foldl_insert {pairs : List (κ × α)} {table : Table κ α}
    (h : ((table.entries ++ pairs).map Prod.fst).Nodup) :
    (pairs.foldl (fun table (key, value) => table.insert key value) table).entries =
      table.entries ++ pairs := by
  induction pairs generalizing table with
  | nil => exact (List.append_nil table.entries).symm
  | cons pair pairs ih =>
    obtain ⟨key, value⟩ := pair
    have hnew : key ∉ table.entries.map Prod.fst := by
      rw [List.map_append, List.nodup_append] at h
      exact fun hmem => h.2.2 key hmem key List.mem_cons_self rfl
    have hinsert : (table.insert key value).entries = table.entries ++ [(key, value)] :=
      put_of_not_mem hnew
    show (pairs.foldl _ (table.insert key value)).entries = _
    rw [ih (by simpa [hinsert] using h), hinsert]
    simp

/-- A table of distinct keys has the entries that it was made of. -/
theorem entries_ofList {pairs : List (κ × α)} (h : (pairs.map Prod.fst).Nodup) :
    (ofList pairs).entries = pairs :=
  entries_foldl_insert h

/-- A table is the table of its entries. -/
theorem ofList_entries (table : Table κ α) : ofList table.entries = table := by
  have hentries := entries_ofList table.nodup
  generalize ofList table.entries = other at hentries
  cases other
  cases table
  congr

end Table

end PersistedQueries
