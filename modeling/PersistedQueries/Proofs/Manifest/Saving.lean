import PersistedQueries.Manifest.Basic
import PersistedQueries.Proofs.Disk.Replacing
import PersistedQueries.Proofs.Json.RoundTrip

/-!
# What a manifest has saved

A manifest is clean when its file holds its entries. A write makes it clean before the file is
written, so it also counts as clean after a write that failed: from then on the entries may be in
memory only, and closing the manifest writes nothing.

- `readEntries_writeJson`: a file that was written holds the entries.
- `opened_of_writeJson`: so the manifest that is opened has them, in their order.
- `Use`, `Store`, `Run`: the uses of a manifest, what they leave, and any sequence of them, with
  other changes of the disk in between.
- `Store.Sound`: a clean manifest whose latest write has not failed is saved.
- `Run.entries_eq`: the entries are those of the file that was opened and those recorded since.
- `Run.saved`: what is saved at any time, and what closing saves.
- `lost_after_failure`: a manifest can be clean, and be closed, with entries that are in no file.
-/

namespace PersistedQueries.Manifest

variable {manifest : Manifest} {disk written : Disk} {path : String} {debounce : Json}

/-! ## Reading what was written -/

theorem stringFields_map_entryField (entries : List (String × String)) :
    stringFields (entries.map Json.entryField) = some entries := by
  induction entries with
  | nil => rfl
  | cons entry entries ih =>
    rw [List.map_cons, Json.entryField, stringFields, ih]
    rfl

/-- A file that was written holds the entries. -/
theorem readEntries_writeJson (h : disk.writeJson manifest.path manifest.toJson = (written, .ok ())) :
    readEntries written manifest.path = .ok manifest.entries := by
  have hjson : manifest.toJson = .object (manifest.entries.entries.map Json.entryField) := rfl
  rw [hjson] at h
  have hlines : '\r' ∉ Json.write Json.indented
      (.object (manifest.entries.entries.map Json.entryField)) := fun hmem =>
    absurd (List.all_eq_true.1 (Json.all_isWritten_write_entries _) '\r' hmem) (by decide)
  unfold readEntries
  rw [Disk.readText_writeJson hlines h]
  dsimp only
  rw [Json.parse_write_entries manifest.entries.nodup]
  dsimp only
  rw [stringFields_map_entryField]
  dsimp only
  rw [Table.ofList_entries]

/-- **Opening a written file.** Once a map of strings has been written to a path, the manifest that
is opened there has the entries of the map, in their order. It is clean, waits for no timer, and
nothing is printed. -/
theorem opened_of_writeJson {entries : Table String String}
    (h : disk.writeJson path (.object (entries.entries.map Json.entryField)) = (written, .ok ())) :
    opened written path debounce = (⟨path, debounce, entries, false, [], none⟩, .none) := by
  have hread : readEntries written path = .ok entries :=
    @readEntries_writeJson ⟨path, debounce, entries, false, [], none⟩ disk written h
  unfold opened load
  dsimp only
  rw [hread]

/-- Entries with characters that are escaped in every way there is: by a letter, by one code, and by
two. The order is not that of the keys. -/
def unusualEntries : Table String String :=
  .ofList [("z", "\x00\x1f\x7f\u2028"), ("", "\r\n\t\x08\x0c"), ("\x22\\", "/\u00e9\uffff😀")]

theorem opened_of_writeJson_unusual :
    ∃ written, (Disk.withDirectory ['w']).writeJson "m.json"
        (.object (unusualEntries.entries.map Json.entryField)) = (written, .ok ()) ∧
      opened written "m.json" .null =
        (⟨"m.json", .null, unusualEntries, false, [], none⟩, .none) := by
  have hresult : ((Disk.withDirectory ['w']).writeJson "m.json"
      (.object (unusualEntries.entries.map Json.entryField))).2 = .ok () := by
    decide +kernel
  exact ⟨_, Prod.ext rfl hresult, opened_of_writeJson (Prod.ext rfl hresult)⟩

/-- The entries that can be read stay while the text of the file does. -/
theorem readEntries_of_readText {later : Disk} {entries : Table String String}
    (hkept : ∀ {text}, disk.readText path = .ok text → later.readText path = .ok text)
    (h : readEntries disk path = .ok entries) : readEntries later path = .ok entries := by
  unfold readEntries at h ⊢
  cases hread : disk.readText path with
  | error fault =>
    rw [hread] at h
    cases h
  | ok text =>
    rw [hread] at h
    rw [hkept hread]
    exact h

/-! ## Uses -/

/-- One use of a manifest. -/
inductive Use where
  /-- Record a text under its digest. -/
  | record (hash text : String)
  /-- Record the entries of a table. -/
  | merge (entries : Table String String)
  /-- Put a write off. -/
  | schedule
  /-- A timer fires. -/
  | fire (timer : Nat)
  /-- Write the file now. -/
  | flush
  /-- Write what has not been written. -/
  | close

/-- A manifest in use. -/
structure Store where
  /-- The manifest. -/
  manifest : Manifest
  /-- The disk. -/
  disk : Disk
  /-- Why the latest write failed, if it did. -/
  failure : Option Disk.Fault

/-- Why a write failed, if it did. -/
def Written.failure (written : Written) : Option Disk.Fault :=
  match written.result with
  | .ok () => none
  | .error fault => some fault

/-- What an attempt to write leaves. -/
def Store.after (store : Store) : Attempt → Store
  | .idle manifest => { store with manifest := manifest }
  | .flushed written => ⟨written.manifest, written.disk, written.failure⟩

/-- What a use leaves. -/
def Store.apply (store : Store) : Use → Store
  | .record hash text => { store with manifest := (store.manifest.record hash text).1 }
  | .merge entries => { store with manifest := (store.manifest.merge entries).1 }
  | .schedule => { store with manifest := store.manifest.schedule }
  | .fire timer => store.after (store.manifest.fire store.disk timer)
  | .flush => store.after (.flushed (store.manifest.flush store.disk))
  | .close => store.after (store.manifest.close store.disk)

/-- What some uses leave of a manifest that was opened on a disk. In between, the disk may change in
every way but one, so that any write may fail: nobody else changes the text of the file. -/
inductive Run (disk : Disk) (path : String) (debounce : Json) : List Use → Store → Prop where
  | start : Run disk path debounce [] ⟨(opened disk path debounce).1, disk, none⟩
  | use {uses : List Use} {store : Store} (h : Run disk path debounce uses store) (use : Use) :
      Run disk path debounce (uses ++ [use]) (store.apply use)
  | meanwhile {uses : List Use} {store : Store} (h : Run disk path debounce uses store)
      (later : Disk)
      (hkept : ∀ text, later.readText path = .ok text ↔ store.disk.readText path = .ok text) :
      Run disk path debounce uses { store with disk := later }

/-! ## Recording -/

/-- Recording writes an entry into the table, also where it changes nothing. -/
theorem entries_record (manifest : Manifest) (hash text : String) :
    (manifest.record hash text).1.entries = manifest.entries.insert hash text := by
  unfold record
  split
  · next hknown => exact (Table.insert_of_get? hknown).symm
  · rfl

/-- A manifest that is clean after recording has not changed. -/
theorem record_of_clean {hash text : String} (h : (manifest.record hash text).1.isDirty = false) :
    (manifest.record hash text).1 = manifest := by
  unfold record at h ⊢
  split at h
  · next hknown => rw [if_pos hknown]
  · cases h

theorem path_record (manifest : Manifest) (hash text : String) :
    (manifest.record hash text).1.path = manifest.path := by
  unfold record
  split <;> rfl

theorem entries_recordEach (manifest : Manifest) (entries : List (String × String)) :
    (manifest.recordEach entries).1.entries =
      entries.foldl (fun table (hash, text) => table.insert hash text) manifest.entries := by
  induction entries generalizing manifest with
  | nil => rfl
  | cons entry entries ih =>
    have hrest := ih (manifest.record entry.1 entry.2).1
    rw [entries_record] at hrest
    exact hrest

theorem recordEach_of_clean {entries : List (String × String)}
    (h : (manifest.recordEach entries).1.isDirty = false) :
    (manifest.recordEach entries).1 = manifest := by
  induction entries generalizing manifest with
  | nil => rfl
  | cons entry entries ih =>
    have hrest : (manifest.recordEach (entry :: entries)).1 =
        (manifest.record entry.1 entry.2).1 := ih h
    rw [hrest] at h ⊢
    exact record_of_clean h

theorem path_recordEach (manifest : Manifest) (entries : List (String × String)) :
    (manifest.recordEach entries).1.path = manifest.path := by
  induction entries generalizing manifest with
  | nil => rfl
  | cons entry entries ih => exact (ih _).trans (path_record manifest entry.1 entry.2)

/-! ## Timers -/

theorem cancelPending_eq (manifest : Manifest) :
    ∃ timers pending, manifest.cancelPending =
      { manifest with timers := timers, pending := pending } := by
  unfold cancelPending
  split
  · exact ⟨manifest.timers, manifest.pending, rfl⟩
  · exact ⟨_, _, rfl⟩

theorem schedule_eq (manifest : Manifest) :
    ∃ timers pending, manifest.schedule =
      { manifest with timers := timers, pending := pending } := by
  obtain ⟨timers, pending, hcancel⟩ := cancelPending_eq manifest
  unfold schedule
  rw [hcancel]
  exact ⟨_, _, rfl⟩

/-- A timer leaves the manifest but for the timers, or writes it. -/
theorem fire_eq (manifest : Manifest) (disk : Disk) (timer : Nat) :
    ∃ timers pending,
      manifest.fire disk timer = .idle { manifest with timers := timers, pending := pending } ∨
        manifest.fire disk timer =
          .flushed (flush { manifest with timers := timers, pending := pending } disk) := by
  unfold fire
  split
  · exact ⟨_, _, .inr rfl⟩
  · exact ⟨manifest.timers, manifest.pending, .inl rfl⟩

/-- Closing leaves the manifest but for the timers, or writes it. -/
theorem close_eq (manifest : Manifest) (disk : Disk) :
    ∃ timers pending,
      manifest.close disk = .idle { manifest with timers := timers, pending := pending } ∨
        manifest.close disk =
          .flushed (flush { manifest with timers := timers, pending := pending } disk) := by
  obtain ⟨timers, pending, hcancel⟩ := cancelPending_eq manifest
  refine ⟨timers, pending, ?_⟩
  unfold close
  rw [hcancel]
  dsimp only
  split
  · exact .inr rfl
  · exact .inl rfl

/-- Whether a use records something. -/
def Use.isRecording : Use → Bool
  | .record _ _ | .merge _ => true
  | .schedule | .fire _ | .flush | .close => false

/-- Any other use leaves the manifest but for the timers, or writes it. -/
theorem Store.apply_of_not_recording (store : Store) {P : Store → Prop}
    (hidle : ∀ timers pending,
      P (store.after (.idle { store.manifest with timers := timers, pending := pending })))
    (hflushed : ∀ timers pending, P (store.after
      (.flushed (flush { store.manifest with timers := timers, pending := pending } store.disk))))
    {use : Use} (h : use.isRecording = false) : P (store.apply use) := by
  cases use with
  | record | merge => cases h
  | schedule =>
    obtain ⟨timers, pending, hschedule⟩ := schedule_eq store.manifest
    rw [apply, hschedule]
    exact hidle timers pending
  | fire timer =>
    obtain ⟨timers, pending, hfire | hfire⟩ := fire_eq store.manifest store.disk timer <;>
      rw [apply, hfire]
    · exact hidle timers pending
    · exact hflushed timers pending
  | flush => exact hflushed store.manifest.timers store.manifest.pending
  | close =>
    obtain ⟨timers, pending, hclose | hclose⟩ := close_eq store.manifest store.disk <;>
      rw [apply, hclose]
    · exact hidle timers pending
    · exact hflushed timers pending

/-! ## What is saved -/

/-- A clean manifest whose latest write has not failed is saved. -/
structure Store.Sound (path : String) (store : Store) : Prop where
  samePath : store.manifest.path = path
  saved : store.manifest.isDirty = false → store.failure = none →
    readEntries store.disk path = .ok store.manifest.entries

/-- A manifest with other timers is as sound as before. -/
theorem Store.Sound.timers {store : Store} (h : store.Sound path) (timers : List Timer)
    (pending : Option Nat) :
    Store.Sound path { store with
      manifest := { store.manifest with timers := timers, pending := pending } } :=
  ⟨h.samePath, h.saved⟩

/-- A manifest that is clean only if it has not changed is as sound as before. -/
theorem Store.Sound.changed {store : Store} (h : store.Sound path) {later : Manifest}
    (hpath : later.path = store.manifest.path)
    (hclean : later.isDirty = false → later = store.manifest) :
    Store.Sound path { store with manifest := later } := by
  refine ⟨hpath.trans h.samePath, fun hlater hfailure => ?_⟩
  have hsame := hclean hlater
  subst hsame
  exact h.saved hlater hfailure

/-- What was written is saved, if the write has not failed. -/
theorem sound_flush (store : Store) (manifest : Manifest) (disk : Disk)
    (hpath : manifest.path = path) : (store.after (.flushed (manifest.flush disk))).Sound path := by
  obtain ⟨timers, pending, hcancel⟩ := cancelPending_eq manifest
  generalize hwritten : disk.writeJson manifest.path manifest.toJson = written
  obtain ⟨later, result⟩ := written
  have hflush : manifest.flush disk =
      ⟨{ manifest with timers := timers, pending := pending, isDirty := false }, later, result⟩ := by
    unfold flush
    rw [hcancel, hwritten]
  rw [hflush]
  refine ⟨hpath, fun _ hfailure => ?_⟩
  cases result with
  | error fault => cases hfailure
  | ok _ =>
    -- the timers have changed in between, but not what is written
    rw [← hpath]
    exact readEntries_writeJson hwritten

theorem sound_opened (disk : Disk) (path : String) (debounce : Json) :
    Store.Sound path ⟨(opened disk path debounce).1, disk, none⟩ := by
  unfold opened load
  split
  · next entries hread => exact ⟨rfl, fun _ _ => hread⟩
  · next fault hread => exact ⟨rfl, fun hclean => nomatch hclean⟩

/-- Every use keeps a store sound. -/
theorem Store.Sound.apply {store : Store} (h : store.Sound path) (use : Use) :
    (store.apply use).Sound path := by
  cases use with
  | record hash text => exact h.changed (path_record ..) record_of_clean
  | merge entries => exact h.changed (path_recordEach ..) recordEach_of_clean
  | _ =>
    exact store.apply_of_not_recording h.timers
      (fun _ _ => sound_flush store _ store.disk h.samePath) rfl

/-- Every run leaves a sound store. -/
theorem Run.sound {uses : List Use} {store : Store} (h : Run disk path debounce uses store) :
    store.Sound path := by
  induction h with
  | start => exact sound_opened disk path debounce
  | use _ use ih => exact ih.apply use
  | meanwhile _ later hkept ih =>
    refine ⟨ih.samePath, fun hclean hfailure => ?_⟩
    exact readEntries_of_readText (hkept _).2 (ih.saved hclean hfailure)

/-! ## What is recorded -/

/-- The entries that a use records, in their order. -/
def Use.entries : Use → List (String × String)
  | .record hash text => [(hash, text)]
  | .merge entries => entries.entries
  | _ => []

/-- A table with all that some uses have recorded. -/
def recorded (uses : List Use) (table : Table String String) : Table String String :=
  (uses.flatMap Use.entries).foldl (fun table (hash, text) => table.insert hash text) table

theorem entries_flush (store : Store) (manifest : Manifest) (disk : Disk) :
    (store.after (.flushed (manifest.flush disk))).manifest.entries = manifest.entries := by
  obtain ⟨timers, pending, hcancel⟩ := cancelPending_eq manifest
  unfold Store.after flush
  rw [hcancel]

theorem entries_apply (store : Store) (use : Use) :
    (store.apply use).manifest.entries = recorded [use] store.manifest.entries := by
  cases use with
  | record hash text => exact entries_record store.manifest hash text
  | merge entries =>
    show _ = (entries.entries ++ []).foldl _ store.manifest.entries
    rw [List.append_nil]
    exact entries_recordEach store.manifest entries.entries
  | _ =>
    exact store.apply_of_not_recording
      (P := fun later => later.manifest.entries = store.manifest.entries) (fun _ _ => rfl)
      (fun _ _ => entries_flush store _ store.disk) rfl

/-- The entries are those that were read when the manifest was opened, and all that was recorded
since. -/
theorem Run.entries_eq {uses : List Use} {store : Store} (h : Run disk path debounce uses store) :
    store.manifest.entries = recorded uses (opened disk path debounce).1.entries := by
  induction h with
  | start => rfl
  | @use uses store _ use ih =>
    rw [entries_apply, ih]
    unfold recorded
    rw [← List.foldl_append, ← List.flatMap_append]
  | meanwhile _ _ _ ih => exact ih

/-- A closed manifest is clean. -/
theorem isDirty_close (store : Store) : (store.apply .close).manifest.isDirty = false := by
  obtain ⟨timers, pending, hcancel⟩ := cancelPending_eq store.manifest
  unfold Store.apply close
  rw [hcancel]
  dsimp only
  split
  · obtain ⟨timers', pending', hcancel'⟩ :=
      cancelPending_eq { store.manifest with timers := timers, pending := pending }
    unfold Store.after flush
    rw [hcancel']
  · next hidle => exact Bool.eq_false_iff.2 fun hdirty => hidle (Bool.or_eq_true_iff.2 (.inr hdirty))

/-- **What is saved.** At any time of any run, the file of a clean manifest holds its entries unless
the latest write has failed. So when closing finds the latest write done, or does it, the file holds
all that was read when the manifest was opened and all that was recorded since. -/
theorem Run.saved {uses : List Use} {store : Store} (h : Run disk path debounce uses store) :
    (store.manifest.isDirty = false → store.failure = none →
      readEntries store.disk path = .ok store.manifest.entries) ∧
    ((store.apply .close).failure = none →
      readEntries (store.apply .close).disk path =
        .ok (recorded uses (opened disk path debounce).1.entries)) := by
  refine ⟨h.sound.saved, fun hfailure => ?_⟩
  have hclosed := (h.sound.apply .close).saved (isDirty_close store) hfailure
  have hentries : (store.apply .close).manifest.entries = store.manifest.entries :=
    entries_apply store .close
  rw [hclosed, hentries, h.entries_eq]

/-- A manifest in an empty directory: what was recorded is saved when it is closed. -/
theorem saved_of_recorded :
    let disk := Disk.withDirectory ['w']
    let store := Store.apply ⟨(opened disk "m.json" .null).1, disk, none⟩ (.record "h" "{ a }")
    Run disk "m.json" .null [.record "h" "{ a }"] store ∧
      (store.apply .close).failure = none ∧
      readEntries (store.apply .close).disk "m.json" =
        .ok (recorded [.record "h" "{ a }"] (opened disk "m.json" .null).1.entries) := by
  intro disk store
  have hrun : Run disk "m.json" .null [.record "h" "{ a }"] store := .use .start _
  have hfailure : (store.apply .close).failure = none := by
    decide +kernel
  exact ⟨hrun, hfailure, hrun.saved.2 hfailure⟩

/-- A text is read from a file. -/
theorem isFile_of_readText {text : Text} (h : disk.readText path = .ok text) :
    disk.isFile path = true := by
  obtain ⟨octets, -, hread, -⟩ := Disk.readText_eq_ok.1 h
  exact Disk.isFile_iff.2 ⟨octets, hread⟩

theorem isFile_of_readEntries {entries : Table String String}
    (h : readEntries disk path = .ok entries) : disk.isFile path = true := by
  unfold readEntries at h
  split at h
  · cases h
  · next hread => exact isFile_of_readText hread

/-- A clean manifest without a pending write is closed without a write. -/
theorem close_of_clean (hclean : manifest.isDirty = false) (hpending : manifest.pending = none) :
    manifest.close disk = .idle manifest := by
  unfold close cancelPending
  rw [hpending, hclean]
  rfl

/-- A file that stands where the directory of a manifest would have to be. -/
def blockedDisk : Disk := .ofEntries [['w']] [([['d']], .file [])]

/-- A manifest whose entry could not be written. -/
@[irreducible] def blockedStore : Store :=
  ((⟨(opened blockedDisk "d/m" .null).1, blockedDisk, none⟩ : Store).apply
    (.record "h" "{ a }")).apply .flush

/-- The disk without the file that was in the way. -/
@[irreducible] def freedDisk : Disk :=
  { blockedStore.disk with entries := blockedStore.disk.entries.erase [['w'], ['d']] }

/-- A manifest can be clean, and be closed, with entries that are in no file: after a write that has
failed it is not written again, even when what was in the way is gone. -/
theorem lost_after_failure :
    ∃ store, Run blockedDisk "d/m" .null [.record "h" "{ a }", .flush] store ∧
      store.manifest.entries.get? "h" = some "{ a }" ∧ store.manifest.isDirty = false ∧
      store.manifest.close store.disk = .idle store.manifest ∧
      ∀ entries, readEntries store.disk "d/m" ≠ .ok entries := by
  have hrun : Run blockedDisk "d/m" .null [.record "h" "{ a }", .flush] blockedStore := by
    unfold blockedStore
    exact .use (.use .start (.record "h" "{ a }")) .flush
  have hbefore : blockedStore.disk.isFile "d/m" = false := by decide +kernel
  have hafter : freedDisk.isFile "d/m" = false := by decide +kernel
  have hclean : blockedStore.manifest.isDirty = false := by decide +kernel
  have hpending : blockedStore.manifest.pending = none := by decide +kernel
  have hentry : blockedStore.manifest.entries.get? "h" = some "{ a }" := by decide +kernel
  refine ⟨_, hrun.meanwhile freedDisk fun text => ⟨?_, ?_⟩, hentry, hclean,
    close_of_clean hclean hpending, ?_⟩
  · exact fun hread => nomatch hafter.symm.trans (isFile_of_readText hread)
  · exact fun hread => nomatch hbefore.symm.trans (isFile_of_readText hread)
  · exact fun entries hread => nomatch hafter.symm.trans (isFile_of_readEntries hread)

end PersistedQueries.Manifest
