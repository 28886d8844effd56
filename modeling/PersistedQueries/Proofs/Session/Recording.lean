import PersistedQueries.Proofs.Manifest.Saving
import PersistedQueries.Session.Transform

/-!
# What is recorded of a source text

The canonical texts of the call sites of a source text are entered into the manifest under their
digests. Two call sites may have one digest; the manifest has the text of one of them then.

- `Table.get?_foldl_insert`: what a look-up finds after several insertions.
- `get?_recorded`: what it finds in a manifest after recording.
-/

namespace PersistedQueries

/-! ## Tables after several insertions -/

namespace Table

variable {κ α : Type} [DecidableEq κ] {key : κ} {value : α}

/-- A key that is written has one of the values that are written; any other is as before. -/
theorem get?_foldl_insert (pairs : List (κ × α)) (table : Table κ α) (key : κ) :
    (∃ value, (key, value) ∈ pairs ∧
        (pairs.foldl (fun table (key, value) => table.insert key value) table).get? key =
          some value) ∨
      key ∉ pairs.map Prod.fst ∧
        (pairs.foldl (fun table (key, value) => table.insert key value) table).get? key =
          table.get? key := by
  induction pairs generalizing table with
  | nil => exact .inr ⟨List.not_mem_nil, rfl⟩
  | cons pair pairs ih =>
    obtain ⟨first, value⟩ := pair
    rw [List.foldl_cons]
    rcases ih (table.insert first value) with ⟨last, hmem, hget⟩ | ⟨hnew, hget⟩
    · exact .inl ⟨last, List.mem_cons_of_mem _ hmem, hget⟩
    rw [hget, get?_insert]
    by_cases hkey : first = key
    · rw [if_pos hkey]
      exact .inl ⟨value, hkey ▸ List.mem_cons_self, rfl⟩
    · rw [if_neg hkey]
      refine .inr ⟨?_, rfl⟩
      rw [List.map_cons, List.mem_cons, not_or]
      exact ⟨Ne.symm hkey, hnew⟩

theorem mem_put {entry : κ × α} {entries : List (κ × α)} (h : entry ∈ put key value entries) :
    entry = (key, value) ∨ entry ∈ entries := by
  induction entries with
  | nil => exact .inl (List.mem_singleton.1 h)
  | cons first rest ih =>
    obtain ⟨other, old⟩ := first
    unfold put at h
    split at h
    · next hkey =>
      rcases List.mem_cons.1 h with rfl | h
      · exact .inl (congrArg (·, value) hkey)
      · exact .inr (List.mem_cons_of_mem _ h)
    · rcases List.mem_cons.1 h with rfl | h
      · exact .inr List.mem_cons_self
      · exact (ih h).imp_right (List.mem_cons_of_mem _)

theorem mem_foldl_insert {entry : κ × α} {pairs : List (κ × α)} {table : Table κ α}
    (h : entry ∈ (pairs.foldl (fun table (key, value) => table.insert key value) table).entries) :
    entry ∈ pairs ∨ entry ∈ table.entries := by
  induction pairs generalizing table with
  | nil => exact .inr h
  | cons pair pairs ih =>
    rcases ih h with hmem | hmem
    · exact .inl (List.mem_cons_of_mem _ hmem)
    · rcases mem_put hmem with rfl | hmem
      · exact .inl List.mem_cons_self
      · exact .inr hmem

end Table

/-! ## Recording -/

namespace Session

/-- Recording merges the entries, and may put a write off. -/
theorem recorded_eq (options : Options) (manifest : Manifest) (sites : List PersistedSite) :
    ∃ timers pending, recorded options manifest sites =
      { (manifest.merge (entriesOf sites)).1 with timers := timers, pending := pending } := by
  unfold recorded
  dsimp only
  split
  · exact Manifest.schedule_eq (manifest.merge (entriesOf sites)).1
  · exact ⟨_, _, rfl⟩

theorem path_recorded (options : Options) (manifest : Manifest) (sites : List PersistedSite) :
    (recorded options manifest sites).path = manifest.path := by
  obtain ⟨timers, pending, heq⟩ := recorded_eq options manifest sites
  rw [heq]
  exact Manifest.path_recordEach manifest (entriesOf sites).entries

theorem entries_recorded (options : Options) (manifest : Manifest) (sites : List PersistedSite) :
    (recorded options manifest sites).entries =
      (entriesOf sites).entries.foldl (fun table (hash, text) => table.insert hash text)
        manifest.entries := by
  obtain ⟨timers, pending, heq⟩ := recorded_eq options manifest sites
  rw [heq]
  exact Manifest.entries_recordEach manifest (entriesOf sites).entries

/-- Under the digest of a call site the manifest has the text of a call site with this digest; under
any other it has what it had before. -/
theorem get?_recorded (options : Options) (manifest : Manifest) (sites : List PersistedSite)
    (hash : String) :
    (∃ site ∈ sites, site.persisted.hash = hash ∧
        (recorded options manifest sites).entries.get? hash = some site.persisted.query) ∨
      (∀ site ∈ sites, site.persisted.hash ≠ hash) ∧
        (recorded options manifest sites).entries.get? hash = manifest.entries.get? hash := by
  rw [entries_recorded]
  rcases Table.get?_foldl_insert (entriesOf sites).entries manifest.entries hash with
    ⟨query, hmem, hget⟩ | ⟨hnew, hget⟩
  · -- the new entries are those of call sites
    have hmem := (Table.mem_foldl_insert hmem).resolve_right List.not_mem_nil
    obtain ⟨site, hsite, heq⟩ := List.mem_map.1 hmem
    cases heq
    exact .inl ⟨site, hsite, rfl, hget⟩
  · refine .inr ⟨?_, hget⟩
    rintro site hsite rfl
    -- and every call site has one
    have hpair : (site.persisted.hash, site.persisted.query) ∈
        sites.map fun site => (site.persisted.hash, site.persisted.query) :=
      List.mem_map_of_mem hsite
    rcases Table.get?_foldl_insert
        (sites.map fun site => (site.persisted.hash, site.persisted.query)) .empty
        site.persisted.hash with ⟨query, -, hfound⟩ | ⟨hother, -⟩
    · exact hnew (Table.mem_keys_of_get? hfound)
    · exact hother (List.mem_map_of_mem hpair)

end Session

end PersistedQueries
