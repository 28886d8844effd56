import Mathlib.Logic.Basic
import PersistedQueries.Disk.Atomic
import PersistedQueries.Disk.Reading
import PersistedQueries.Proofs.Disk.Paths

/-!
# What operations on a disk leave alone

Names are followed one by one, each in a directory, so where a path leads is decided by its names
alone, as long as it leads anywhere. And no operation takes a directory away: what stood at the end
of a path before stands there afterwards, unless it was the file that has been written.

- `Disk.placeOf`: the place that the names of a path lead to, whatever stands on the way.
- `follow_eq_ok`: where a path leads is that place.
- `readOctets_eq_ok`, `readText_eq_ok`: what is read there.
- `Disk.Named`: everything has a name that something can have.
- `Disk.ChangesOnly`: every directory stays, and so does every file but those at some places, and
  what is new has names.
- `ChangesOnly.follow`, `readOctets`, `readText`: what that means for paths.
- `Disk.WritesOnly`: no file has come or changed but at some places. `Disk.Touches` is both.
- `touches_put_file`, `touches_makeDirectories`: what the operations touch.
-/

namespace PersistedQueries.Disk

variable {disk later made written : Disk} {place target : Place} {names : List Text} {path : String}

/-! ## The place that names lead to -/

/-- The place that some names lead to from a place, when each of them can be followed. -/
def placeFrom (place : Place) : List Text → Place
  | [] => place
  | name :: names =>
    if name = [] ∨ name = ['.'] then placeFrom place names
    else if name = ['.', '.'] then placeFrom place.dropLast names
    else placeFrom (place ++ [name]) names

/-- The place that the names of a path lead to, when each of them can be followed. -/
def placeOf (disk : Disk) (path : String) : Place :=
  placeFrom (disk.startOf path.toList) (Path.parts path.toList)

theorem placeFrom_append (place : Place) (names more : List Text) :
    placeFrom place (names ++ more) = placeFrom (placeFrom place names) more := by
  induction names generalizing place with
  | nil => rfl
  | cons name names ih =>
    rw [List.cons_append, placeFrom, placeFrom, ih, ih, ih]
    split
    · rfl
    · split <;> rfl

theorem placeFrom_single {name : Text} (hne : name ≠ []) (hdot : name ≠ ['.'])
    (hdots : name ≠ ['.', '.']) : placeFrom place [name] = place ++ [name] := by
  rw [placeFrom, if_neg (not_or.2 ⟨hne, hdot⟩), if_neg hdots, placeFrom]

/-- A walk goes on from a directory, over a name that is not too long, to where that name leads. -/
theorem walk_cons_eq_ok {name : Text} :
    walk disk place (name :: names) = .ok target ↔
      disk.checkDirectory place = .ok () ∧ isTooLong name = false ∧
        walk disk (placeFrom place [name]) names = .ok target := by
  rw [walk]
  cases disk.checkDirectory place with
  | error cause => exact ⟨nofun, fun h => nomatch h.1⟩
  | ok _ =>
    show (if _ then _ else _) = _ ↔ _
    rw [placeFrom]
    split
    · next hskip =>
      have hshort : isTooLong name = false := by rcases hskip with rfl | rfl <;> rfl
      exact ⟨fun h => ⟨rfl, hshort, h⟩, fun h => h.2.2⟩
    split
    · next hup =>
      have hshort : isTooLong name = false := by subst hup; rfl
      exact ⟨fun h => ⟨rfl, hshort, h⟩, fun h => h.2.2⟩
    split
    · next hlong => exact ⟨nofun, fun h => nomatch hlong.symm.trans h.2.1⟩
    · next hshort => exact ⟨fun h => ⟨rfl, Bool.eq_false_iff.2 hshort, h⟩, fun h => h.2.2⟩

/-- Names that can be followed lead to the place that they lead to lexically. -/
theorem walk_eq_ok (h : walk disk place names = .ok target) : target = placeFrom place names := by
  induction names generalizing place with
  | nil => exact (Except.ok.inj h).symm
  | cons name names ih =>
    rw [← List.singleton_append, placeFrom_append]
    exact ih (walk_cons_eq_ok.1 h).2.2

theorem follow_eq_ok (h : disk.follow path = .ok place) :
    checkPath path.toList = .ok () ∧
      walk disk (disk.startOf path.toList) (Path.parts path.toList) = .ok place ∧
      place = disk.placeOf path := by
  unfold follow at h
  cases hcheck : checkPath path.toList with
  | error cause =>
    rw [hcheck] at h
    cases h
  | ok _ =>
    rw [hcheck] at h
    exact ⟨rfl, h, walk_eq_ok h⟩

/-- The octets of a file stand at the place of its path. -/
theorem readOctets_eq_ok {octets : List UInt8} : disk.readOctets path = .ok octets ↔
    disk.follow path = .ok (disk.placeOf path) ∧
      disk.entry? (disk.placeOf path) = some (.file octets) := by
  unfold readOctets
  constructor
  · intro h
    split at h
    · cases h
    next place hfollow =>
    obtain ⟨-, -, rfl⟩ := follow_eq_ok hfollow
    split at h
    · next hentry =>
      cases h
      exact ⟨hfollow, hentry⟩
    · cases h
    · cases h
  · rintro ⟨hfollow, hentry⟩
    rw [hfollow]
    dsimp only
    rw [hentry]

/-- The text of a file is that of its octets, with one kind of line end. -/
theorem readText_eq_ok {text : Text} : disk.readText path = .ok text ↔
    ∃ octets decoded, disk.readOctets path = .ok octets ∧ Utf8.decode octets = .ok decoded ∧
      Text.normalizeNewlines decoded = text := by
  unfold readText
  cases disk.readOctets path with
  | error fault => exact ⟨nofun, fun ⟨_, _, hread, _⟩ => nomatch hread⟩
  | ok octets =>
    dsimp only
    cases hdecode : Utf8.decode octets with
    | error fault =>
      refine ⟨nofun, fun ⟨octets', _, hread, hdecode', _⟩ => ?_⟩
      cases hread
      cases hdecode.symm.trans hdecode'
    | ok decoded =>
      refine ⟨fun heq => ⟨octets, decoded, rfl, hdecode, Except.ok.inj heq⟩, ?_⟩
      rintro ⟨octets', decoded', hread, hdecode', rfl⟩
      cases hread
      cases hdecode.symm.trans hdecode'
      rfl

/-- A path leads to a file when its octets can be read. -/
theorem isFile_iff : disk.isFile path = true ↔ ∃ octets, disk.readOctets path = .ok octets := by
  unfold isFile find? readOctets
  cases disk.follow path with
  | error cause => exact ⟨nofun, nofun⟩
  | ok place =>
    dsimp only
    cases disk.entry? place with
    | none => exact ⟨nofun, nofun⟩
    | some entry =>
      cases entry with
      | file octets => exact ⟨fun _ => ⟨octets, rfl⟩, fun _ => rfl⟩
      | directory => exact ⟨nofun, nofun⟩

/-! ## Names -/

/-- Everything on a disk has names that something can have, and so has the working directory. -/
structure Named (disk : Disk) : Prop where
  working : ∀ name ∈ disk.working, Path.IsName name
  entries : ∀ {place entry}, disk.entries.get? place = some entry →
    ∀ name ∈ place, Path.IsName name

theorem isName_placeFrom (hplace : ∀ name ∈ place, Path.IsName name)
    (hnames : ∀ name ∈ names, '/' ∉ name) : ∀ name ∈ placeFrom place names, Path.IsName name := by
  induction names generalizing place with
  | nil => exact hplace
  | cons first names ih =>
    obtain ⟨hfirst, hnames⟩ := List.forall_mem_cons.1 hnames
    rw [placeFrom]
    split
    · exact ih hplace hnames
    next hdot =>
    rw [not_or] at hdot
    split
    · exact ih (fun name hname => hplace name (List.dropLast_subset _ hname)) hnames
    · next hdots =>
      refine ih (fun name hname => ?_) hnames
      rcases List.mem_append.1 hname with hname | hname
      · exact hplace name hname
      · rw [List.mem_singleton.1 hname]
        exact ⟨hdot.1, hdot.2, hdots, hfirst⟩

/-- The names of a place are names, whatever path leads there. -/
theorem Named.placeOf (h : disk.Named) (path : String) :
    ∀ name ∈ disk.placeOf path, Path.IsName name := by
  refine isName_placeFrom ?_ fun _ => Path.not_mem_of_mem_parts
  unfold startOf
  split
  · exact List.forall_mem_nil _
  · exact h.working

/-- An entry at a place with names leaves everything with names. -/
theorem Named.put {entry : Entry} (h : disk.Named) (hplace : ∀ name ∈ place, Path.IsName name) :
    (disk.put place entry).Named where
  working := h.working
  entries {other entry'} hentry := by
    rw [Disk.put, Table.get?_insert] at hentry
    split at hentry
    · next heq => exact heq ▸ hplace
    · exact h.entries hentry

/-! ## Changes -/

/-- Between two states of a disk every directory has stayed, every file has stayed a file, and every
file but those at some places has kept its octets. What is new has names. -/
structure ChangesOnly (places : Place → Prop) (disk later : Disk) : Prop where
  working : later.working = disk.working
  directory : ∀ {place}, disk.entry? place = some .directory → later.entry? place = some .directory
  isFile : ∀ {place octets}, disk.entry? place = some (.file octets) →
    ∃ octets', later.entry? place = some (.file octets')
  file : ∀ {place octets}, ¬ places place → disk.entry? place = some (.file octets) →
    later.entry? place = some (.file octets)
  named : disk.Named → later.Named

namespace ChangesOnly

variable {places more : Place → Prop}

theorem refl (places : Place → Prop) (disk : Disk) : ChangesOnly places disk disk :=
  ⟨rfl, id, fun h => ⟨_, h⟩, fun _ => id, id⟩

theorem trans (h : ChangesOnly places disk made) (h' : ChangesOnly places made later) :
    ChangesOnly places disk later where
  working := h'.working.trans h.working
  directory hentry := h'.directory (h.directory hentry)
  isFile hentry :=
    have ⟨_, hmade⟩ := h.isFile hentry
    h'.isFile hmade
  file hplace hentry := h'.file hplace (h.file hplace hentry)
  named hnamed := h'.named (h.named hnamed)

theorem mono (h : ChangesOnly places disk later) (hplaces : ∀ place, places place → more place) :
    ChangesOnly more disk later :=
  ⟨h.working, h.directory, h.isFile, fun hplace => h.file (mt (hplaces _) hplace), h.named⟩

theorem placeOf (h : ChangesOnly places disk later) (path : String) :
    later.placeOf path = disk.placeOf path := by
  unfold Disk.placeOf startOf
  rw [h.working]

theorem checkDirectory (h : ChangesOnly places disk later)
    (hcheck : disk.checkDirectory place = .ok ()) : later.checkDirectory place = .ok () := by
  have hentry : disk.entry? place = some .directory := by
    unfold Disk.checkDirectory at hcheck
    split at hcheck
    · assumption
    · cases hcheck
    · cases hcheck
  rw [Disk.checkDirectory, h.directory hentry]

/-- A way through directories stays. -/
theorem walk (h : ChangesOnly places disk later) (hwalk : walk disk place names = .ok target) :
    walk later place names = .ok target := by
  -- the target itself is not looked at, so it may be a file that has changed
  induction names generalizing place with
  | nil => exact hwalk
  | cons name names ih =>
    obtain ⟨hcheck, hshort, hrest⟩ := walk_cons_eq_ok.1 hwalk
    exact walk_cons_eq_ok.2 ⟨h.checkDirectory hcheck, hshort, ih hrest⟩

/-- A path leads where it led. -/
theorem follow (h : ChangesOnly places disk later) (hfollow : disk.follow path = .ok place) :
    later.follow path = .ok place := by
  obtain ⟨hcheck, hwalk, -⟩ := follow_eq_ok hfollow
  have hstart : later.startOf path.toList = disk.startOf path.toList := by
    unfold startOf
    rw [h.working]
  unfold Disk.follow
  rw [hcheck, hstart]
  exact h.walk hwalk

/-- A file at another place keeps its octets. -/
theorem readOctets (h : ChangesOnly places disk later) {octets : List UInt8}
    (hplace : ¬ places (disk.placeOf path)) (hread : disk.readOctets path = .ok octets) :
    later.readOctets path = .ok octets := by
  unfold Disk.readOctets at hread ⊢
  cases hfollow : disk.follow path with
  | error cause =>
    rw [hfollow] at hread
    cases hread
  | ok place =>
    rw [hfollow] at hread
    rw [h.follow hfollow]
    dsimp only at hread ⊢
    split at hread
    · next hentry =>
      rw [(follow_eq_ok hfollow).2.2] at hentry ⊢
      rw [h.file hplace hentry]
      exact hread
    · cases hread
    · cases hread

/-- A file at another place keeps its text. -/
theorem readText (h : ChangesOnly places disk later) {text : Text}
    (hplace : ¬ places (disk.placeOf path)) (hread : disk.readText path = .ok text) :
    later.readText path = .ok text := by
  unfold Disk.readText at hread ⊢
  cases hoctets : disk.readOctets path with
  | error fault =>
    rw [hoctets] at hread
    cases hread
  | ok octets =>
    rw [hoctets] at hread
    rw [h.readOctets hplace hoctets]
    exact hread

end ChangesOnly

/-- Between two states of a disk, files have been written at some places only: everywhere else there
are the same files, with the same octets. -/
structure WritesOnly (places : Place → Prop) (disk later : Disk) : Prop where
  working : later.working = disk.working
  file_iff : ∀ {place octets}, ¬ places place →
    (later.entry? place = some (.file octets) ↔ disk.entry? place = some (.file octets))

/-- Between two states of a disk, nothing has been touched but files at some places: what stood
elsewhere has stayed, and no file has come there. -/
structure Touches (places : Place → Prop) (disk later : Disk) : Prop extends
  ChangesOnly places disk later, WritesOnly places disk later

namespace Touches

variable {places more : Place → Prop}

theorem refl (places : Place → Prop) (disk : Disk) : Touches places disk disk :=
  ⟨.refl places disk, fun _ => Iff.rfl⟩

theorem trans (h : Touches places disk made) (h' : Touches places made later) :
    Touches places disk later :=
  ⟨h.toChangesOnly.trans h'.toChangesOnly, fun hplace =>
    (h'.file_iff hplace).trans (h.file_iff hplace)⟩

theorem mono (h : Touches places disk later) (hplaces : ∀ place, places place → more place) :
    Touches more disk later :=
  ⟨h.toChangesOnly.mono hplaces, fun hplace => h.file_iff (mt (hplaces _) hplace)⟩

/-- What touches no file touches only some. -/
theorem of_none (h : Touches (fun _ => False) disk later) (places : Place → Prop) :
    Touches places disk later :=
  h.mono fun _ => False.elim

end Touches

/-! ## Operations -/

theorem entry?_put_self {entry : Entry} (h : place ≠ []) :
    Disk.entry? (disk.put place entry) place = some entry := by
  unfold entry?
  rw [if_neg (by simpa using h)]
  exact (Table.get?_insert ..).trans (if_pos rfl)

theorem entry?_put_of_ne {entry : Entry} {other : Place} (h : place ≠ other) :
    Disk.entry? (disk.put place entry) other = disk.entry? other := by
  unfold entry?
  split
  · rfl
  · exact (Table.get?_insert ..).trans (if_neg h)

/-- Where nothing stands, a directory touches no file. -/
theorem touches_put_directory (hplace : disk.entry? place = none)
    (hnames : disk.Named → ∀ name ∈ place, Path.IsName name) :
    Touches (fun _ => False) disk (disk.put place .directory) := by
  have hroot : place ≠ [] := by
    rintro rfl
    cases hplace
  have hkept {other : Place} {entry : Entry} (hentry : disk.entry? other = some entry) :
      Disk.entry? (disk.put place .directory) other = some entry := by
    rw [entry?_put_of_ne, hentry]
    rintro rfl
    cases hplace.symm.trans hentry
  refine ⟨⟨rfl, hkept, fun hentry => ⟨_, hkept hentry⟩, fun _ => hkept, fun h => h.put (hnames h)⟩,
    fun {other octets} _ => ⟨fun hlater => ?_, hkept⟩⟩
  rcases eq_or_ne place other with rfl | hne
  · rw [entry?_put_self hroot] at hlater
    cases hlater
  · rwa [entry?_put_of_ne hne] at hlater

/-- A file that replaces no directory touches nothing but what stands at its place. -/
theorem touches_put_file {octets : List UInt8} (hplace : disk.entry? place ≠ some .directory)
    (hnames : disk.Named → ∀ name ∈ place, Path.IsName name) :
    Touches (· = place) disk (disk.put place (.file octets)) where
  working := rfl
  directory {other} hentry := by
    rw [entry?_put_of_ne, hentry]
    rintro rfl
    exact hplace hentry
  isFile {other _} hentry := by
    rcases eq_or_ne place other with rfl | hne
    · refine ⟨octets, entry?_put_self ?_⟩
      rintro rfl
      exact hplace rfl
    · exact ⟨_, (entry?_put_of_ne hne).trans hentry⟩
  file hother hentry := (entry?_put_of_ne (Ne.symm hother)).trans hentry
  named h := h.put (hnames h)
  file_iff hother := by rw [entry?_put_of_ne (Ne.symm hother)]

theorem touches_makeFrom {root : Text} (hplace : ∀ name ∈ place, Path.IsName name)
    (hnames : ∀ name ∈ names, Path.IsName name) (h : makeFrom root disk place names = .ok made) :
    Touches (fun _ => False) disk made := by
  induction names generalizing disk place with
  | nil =>
    rw [makeFrom] at h
    split at h
    · cases h
      exact .refl _ made
    · cases h
  | cons name names ih =>
    obtain ⟨hname, hnames⟩ := List.forall_mem_cons.1 hnames
    have hnext : ∀ other ∈ place ++ [name], Path.IsName other :=
      List.forall_mem_append.2 ⟨hplace, List.forall_mem_singleton.2 hname⟩
    rw [makeFrom] at h
    split at h
    · cases h
    split at h
    · cases h
    split at h
    · split at h
      · cases h
      split at h
      · next hnone =>
        exact (touches_put_directory hnone fun _ => hnext).trans (ih hnext hnames h)
      · exact ih hnext hnames h
    · cases h

/-- Making the directory of a path touches no file. -/
theorem touches_makeDirectories
    (h : disk.makeDirectories (Path.directory (disk.absolute path)) = .ok made) :
    Touches (fun _ => False) disk made := by
  have hroot : Path.isAbsolute (Path.join (pathOf disk.working) path.toList) = true :=
    (Path.isAbsolute_join ..).trans (Bool.or_true _)
  unfold makeDirectories at h
  split at h
  · next hmade =>
    cases h
    refine touches_makeFrom (List.forall_mem_nil _) (fun name hname => ?_) hmade
    obtain ⟨hname, hne⟩ := List.mem_filter.1 hname
    exact Path.isName_of_mem_directory hroot hname (by simpa using hne)
  · cases h

end PersistedQueries.Disk
