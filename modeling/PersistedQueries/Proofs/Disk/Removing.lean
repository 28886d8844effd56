import PersistedQueries.Index.DiskHost
import PersistedQueries.Proofs.Disk.Searching

/-!
# Disks without some files

When files are taken away from a disk, every path leads where it led, only that it may find nothing
there. So the other files can be read as before, the search finds the others and no more, and a
specifier that denoted one of the others still does.

- `Without`: a disk without the files at some places.
- `Without.follow_iff`, `Without.readText_iff`: where paths lead, and what is read there.
- `Without.mem_findFiles`, `Without.findFiles_subset`: what the search finds.
- `Modules.resolve_without`: where specifiers lead.
-/

namespace PersistedQueries

/-- The entries of a table are what a look-up finds. -/
theorem Table.mem_entries_iff {κ α : Type} [DecidableEq κ] {table : Table κ α} {key : κ} {value : α} :
    (key, value) ∈ table.entries ↔ table.get? key = some value := by
  obtain ⟨entries, hnodup⟩ := table
  show _ ↔ lookup key entries = some value
  induction entries with
  | nil => exact ⟨nofun, nofun⟩
  | cons entry rest ih =>
    obtain ⟨first, own⟩ := entry
    obtain ⟨hfirst, hnodup⟩ := List.nodup_cons.1 hnodup
    rw [List.mem_cons, lookup, ih hnodup]
    split
    · next heq =>
      subst heq
      -- no other entry has the key of the first one
      have hrest : lookup first rest ≠ some value := fun hfound =>
        hfirst (List.mem_map.2 ⟨_, (ih hnodup).2 hfound, rfl⟩)
      rw [or_iff_left hrest, Prod.mk.injEq, and_iff_right rfl, Option.some.injEq, eq_comm]
    · next hne => rw [or_iff_right fun heq => hne (congrArg Prod.fst heq).symm]

namespace Disk

variable {disk later : Disk} {places : Place → Prop} {place target : Place} {path : String}
  {octets : List UInt8}

/-- A disk without the files at some places. All else is as it was. -/
structure Without (disk : Disk) (places : Place → Prop) (later : Disk) : Prop where
  /-- Relative paths start where they started. -/
  working : later.working = disk.working
  /-- At the places stood files. -/
  isFile : ∀ {place}, places place → ∃ octets, disk.entry? place = some (.file octets)
  /-- The files are gone. -/
  gone : ∀ {place}, places place → later.entry? place = none
  /-- What stood elsewhere stands there. -/
  kept : ∀ {place}, ¬ places place → later.entry? place = disk.entry? place

namespace Without

theorem entry?_file_iff (h : disk.Without places later) :
    later.entry? place = some (.file octets) ↔
      disk.entry? place = some (.file octets) ∧ ¬ places place := by
  by_cases hplace : places place
  · rw [h.gone hplace]
    exact ⟨nofun, fun h => absurd hplace h.2⟩
  · rw [h.kept hplace, and_iff_left hplace]

/-- Directories are not taken away. -/
theorem entry?_directory_iff (h : disk.Without places later) :
    later.entry? place = some .directory ↔ disk.entry? place = some .directory := by
  by_cases hplace : places place
  · obtain ⟨octets, hfile⟩ := h.isFile hplace
    rw [h.gone hplace, hfile]
    exact ⟨nofun, nofun⟩
  · rw [h.kept hplace]

theorem checkDirectory_iff (h : disk.Without places later) :
    later.checkDirectory place = .ok () ↔ disk.checkDirectory place = .ok () := by
  have hiff (disk : Disk) :
      disk.checkDirectory place = .ok () ↔ disk.entry? place = some .directory := by
    unfold checkDirectory
    split
    · next hentry => exact ⟨fun _ => hentry, fun _ => rfl⟩
    · next hentry => exact ⟨nofun, fun hdirectory => nomatch hentry.symm.trans hdirectory⟩
    · next hentry => exact ⟨nofun, fun hdirectory => nomatch hentry.symm.trans hdirectory⟩
  rw [hiff, hiff, h.entry?_directory_iff]

theorem walk_iff (h : disk.Without places later) {names : List Text} :
    walk later place names = .ok target ↔ walk disk place names = .ok target := by
  induction names generalizing place with
  | nil => exact Iff.rfl
  | cons name names ih => rw [walk_cons_eq_ok, walk_cons_eq_ok, h.checkDirectory_iff, ih]

/-- A path leads where it led. -/
theorem follow_iff (h : disk.Without places later) :
    later.follow path = .ok place ↔ disk.follow path = .ok place := by
  have hstart : later.startOf path.toList = disk.startOf path.toList := by
    unfold startOf
    rw [h.working]
  unfold Disk.follow
  rw [hstart]
  cases checkPath path.toList with
  | error cause => exact ⟨nofun, nofun⟩
  | ok _ => exact h.walk_iff

theorem placeOf (h : disk.Without places later) (path : String) :
    later.placeOf path = disk.placeOf path := by
  unfold Disk.placeOf startOf
  rw [h.working]

theorem absolute (h : disk.Without places later) (path : String) :
    later.absolute path = disk.absolute path := by
  unfold Disk.absolute
  rw [h.working]

/-- The files that are left are read as before. -/
theorem readOctets_iff (h : disk.Without places later) :
    later.readOctets path = .ok octets ↔
      disk.readOctets path = .ok octets ∧ ¬ places (disk.placeOf path) := by
  rw [readOctets_eq_ok, readOctets_eq_ok, h.placeOf, h.follow_iff, h.entry?_file_iff, and_assoc]

theorem readText_iff (h : disk.Without places later) {text : Text} :
    later.readText path = .ok text ↔
      disk.readText path = .ok text ∧ ¬ places (disk.placeOf path) := by
  rw [readText_eq_ok, readText_eq_ok]
  simp only [h.readOctets_iff]
  constructor
  · rintro ⟨octets, decoded, ⟨hread, hplace⟩, hrest⟩
    exact ⟨⟨octets, decoded, hread, hrest⟩, hplace⟩
  · rintro ⟨⟨octets, decoded, hread, hrest⟩, hplace⟩
    exact ⟨octets, decoded, ⟨hread, hplace⟩, hrest⟩

end Without

/-! ## Searching -/

theorem entry?_of_ne (disk : Disk) (h : place ≠ []) : disk.entry? place = disk.entries.get? place :=
  if_neg fun hempty => h (List.isEmpty_iff.1 hempty)

theorem mem_filesBelow {names : Place} :
    names ∈ disk.filesBelow place ↔ ∃ octets, disk.entries.get? (place ++ names) =
      some (.file octets) := by
  unfold filesBelow
  rw [List.mem_filterMap]
  constructor
  · rintro ⟨⟨other, entry⟩, hentry, htake⟩
    dsimp only at htake
    cases entry with
    | directory => cases htake
    | file octets =>
      by_cases hprefix : place.isPrefixOf other = true
      · obtain ⟨more, rfl⟩ := List.isPrefixOf_iff_prefix.1 hprefix
        rw [if_pos hprefix, List.drop_left] at htake
        cases htake
        exact ⟨octets, Table.mem_entries_iff.1 hentry⟩
      · rw [if_neg hprefix] at htake
        cases htake
  · rintro ⟨octets, hget⟩
    refine ⟨(place ++ names, .file octets), Table.mem_entries_iff.2 hget, ?_⟩
    dsimp only
    rw [if_pos (List.isPrefixOf_iff_prefix.2 (List.prefix_append _ _)), List.drop_left]
    rfl

/-- A found file is the target of the search, or stands below it. -/
theorem mem_findFiles_iff {file target : String} {endings exclusions : List String} :
    file ∈ disk.findFiles target endings exclusions ↔
      ∃ place, disk.follow target = .ok place ∧
        ((∃ octets, disk.entry? place = some (.file octets)) ∧
            hasEnding endings target.toList = true ∧ file = String.ofList (disk.absolute target) ∨
          disk.entry? place = some .directory ∧ ∃ names octets, names ≠ [] ∧
            disk.entry? (place ++ names) = some (.file octets) ∧
            isEligible endings exclusions names = true ∧
            isReachable target names.dropLast = true ∧
            file = String.ofList (Path.absolute (pathOf disk.working)
              (Path.join target.toList (Path.ofParts names)))) := by
  unfold findFiles
  cases hfollow : disk.follow target with
  | error cause => exact ⟨nofun, fun ⟨_, hok, _⟩ => nomatch hok⟩
  | ok place =>
    simp only [Except.ok.injEq, exists_eq_left']
    cases hentry : disk.entry? place with
    | none =>
      refine ⟨nofun, ?_⟩
      rintro (⟨⟨_, hfile⟩, -⟩ | ⟨hdirectory, -⟩)
      · cases hfile
      · cases hdirectory
    | some entry =>
      cases entry with
      | file octets =>
        -- the target itself is found when it has one of the endings
        dsimp only
        split
        · next hending =>
          rw [List.mem_singleton]
          constructor
          · exact fun heq => .inl ⟨⟨octets, rfl⟩, hending, heq⟩
          · rintro (⟨-, -, heq⟩ | ⟨hdirectory, -⟩)
            · exact heq
            · cases hdirectory
        · next hending =>
          refine ⟨nofun, ?_⟩
          rintro (⟨-, hended, -⟩ | ⟨hdirectory, -⟩)
          · exact absurd hended hending
          · cases hdirectory
      | directory =>
        -- the files below it are filtered, and their order is of no account
        simp only [sorted, List.mem_mergeSort, List.mem_map, List.mem_filter, mem_filesBelow,
          Bool.and_eq_true]
        constructor
        · rintro ⟨names, ⟨⟨octets, hget⟩, heligible, hreachable⟩, rfl⟩
          have hne : names ≠ [] := by
            rintro rfl
            cases heligible
          have happend : place ++ names ≠ [] := List.append_ne_nil_of_right_ne_nil _ hne
          exact .inr ⟨trivial, names, octets, hne, (entry?_of_ne disk happend).trans hget, heligible,
            hreachable, rfl⟩
        · rintro (⟨⟨_, hfile⟩, -⟩ | ⟨-, names, octets, hne, hfile, heligible, hreachable, rfl⟩)
          · cases hfile
          · have happend : place ++ names ≠ [] := List.append_ne_nil_of_right_ne_nil _ hne
            exact ⟨names, ⟨⟨octets, (entry?_of_ne disk happend).symm.trans hfile⟩, heligible,
              hreachable⟩, rfl⟩

/-- A found file stands at the place of its path. -/
theorem Named.isFile_of_mem_findFiles (hnamed : disk.Named) {file target : String}
    {endings exclusions : List String} (hfile : file ∈ disk.findFiles target endings exclusions) :
    ∃ octets, disk.entry? (disk.placeOf file) = some (.file octets) := by
  obtain ⟨place, hfollow, hfound⟩ := mem_findFiles_iff.1 hfile
  obtain rfl := (follow_eq_ok hfollow).2.2
  rcases hfound with ⟨hentry, -, rfl⟩ | ⟨-, names, octets, hne, hentry, -, -, rfl⟩
  · rwa [hnamed.placeOf_absolute]
  · have hget := (entry?_of_ne disk (List.append_ne_nil_of_right_ne_nil _ hne)).symm.trans hentry
    rw [hnamed.placeOf_found target hne fun name hname =>
      hnamed.entries hget name (List.mem_append_right _ hname)]
    exact ⟨octets, hentry⟩

namespace Without

theorem named (h : disk.Without places later) (hnamed : disk.Named) : later.Named where
  working := h.working ▸ hnamed.working
  entries {place entry} hget name hname := by
    have hne : place ≠ [] := List.ne_nil_of_mem hname
    have hentry := (entry?_of_ne later hne).trans hget
    by_cases hplace : places place
    · cases (h.gone hplace).symm.trans hentry
    · rw [h.kept hplace, entry?_of_ne disk hne] at hentry
      exact hnamed.entries hentry name hname

/-- The search finds no more than it did. -/
theorem findFiles_subset (h : disk.Without places later) {file target : String}
    {endings exclusions : List String} (hfile : file ∈ later.findFiles target endings exclusions) :
    file ∈ disk.findFiles target endings exclusions := by
  obtain ⟨place, hfollow, hfound⟩ := mem_findFiles_iff.1 hfile
  refine mem_findFiles_iff.2 ⟨place, h.follow_iff.1 hfollow, ?_⟩
  rcases hfound with ⟨⟨octets, hentry⟩, hending, rfl⟩ |
    ⟨hentry, names, octets, hne, hbelow, heligible, hreachable, rfl⟩
  · rw [h.absolute]
    exact .inl ⟨⟨octets, (h.entry?_file_iff.1 hentry).1⟩, hending, rfl⟩
  · rw [h.working]
    exact .inr ⟨h.entry?_directory_iff.1 hentry, names, octets, hne, (h.entry?_file_iff.1 hbelow).1,
      heligible, hreachable, rfl⟩

/-- What is taken away is not found. -/
theorem not_places_of_mem_findFiles (h : disk.Without places later) (hnamed : disk.Named)
    {file target : String} {endings exclusions : List String}
    (hfile : file ∈ later.findFiles target endings exclusions) : ¬ places (disk.placeOf file) := by
  obtain ⟨octets, hentry⟩ := (h.named hnamed).isFile_of_mem_findFiles hfile
  rw [h.placeOf] at hentry
  exact (h.entry?_file_iff.1 hentry).2

/-- The search finds the files that are left. -/
theorem mem_findFiles (h : disk.Without places later) (hnamed : disk.Named) {file target : String}
    {endings exclusions : List String} (hfile : file ∈ disk.findFiles target endings exclusions)
    (hplace : ¬ places (disk.placeOf file)) :
    file ∈ later.findFiles target endings exclusions := by
  obtain ⟨place, hfollow, hfound⟩ := mem_findFiles_iff.1 hfile
  obtain rfl := (follow_eq_ok hfollow).2.2
  refine mem_findFiles_iff.2 ⟨_, h.follow_iff.2 hfollow, ?_⟩
  rcases hfound with ⟨⟨octets, hentry⟩, hending, rfl⟩ |
    ⟨hentry, names, octets, hne, hbelow, heligible, hreachable, rfl⟩
  · rw [hnamed.placeOf_absolute] at hplace
    rw [h.absolute]
    exact .inl ⟨⟨octets, h.entry?_file_iff.2 ⟨hentry, hplace⟩⟩, hending, rfl⟩
  · have hget := (entry?_of_ne disk (List.append_ne_nil_of_right_ne_nil _ hne)).symm.trans hbelow
    rw [hnamed.placeOf_found target hne fun name hname =>
      hnamed.entries hget name (List.mem_append_right _ hname)] at hplace
    rw [h.working]
    exact .inr ⟨h.entry?_directory_iff.2 hentry, names, octets, hne,
      h.entry?_file_iff.2 ⟨hbelow, hplace⟩, heligible, hreachable, rfl⟩

end Without

end Disk

/-! ## Specifiers -/

namespace Modules

open Disk (placeFrom Place Without Entry)

variable {modules : Modules} {disk later : Disk} {places : Place → Prop} {place : Place}
  {path specifier : String} {importer : Option String}

/-- The files of a host are those that stand somewhere. -/
theorem mem_paths : path ∈ paths disk ↔ ∃ place octets,
    disk.entries.get? place = some (.file octets) ∧
      (path = String.ofList (Disk.pathOf place) ∨ path = String.ofList ('/' :: Disk.pathOf place)) := by
  unfold paths
  rw [List.mem_flatMap]
  constructor
  · rintro ⟨⟨place, entry⟩, hentry, hpath⟩
    cases entry with
    | directory => cases hpath
    | file octets =>
      refine ⟨place, octets, Table.mem_entries_iff.1 hentry, ?_⟩
      simpa using hpath
  · rintro ⟨place, octets, hget, hpath⟩
    refine ⟨(place, .file octets), Table.mem_entries_iff.2 hget, ?_⟩
    simpa using hpath

/-- A file of a host stands at the place of its path. -/
theorem placeOf_of_mem_paths (hnamed : disk.Named) (hpath : path ∈ paths disk) :
    ∃ octets, disk.entries.get? (disk.placeOf path) = some (.file octets) ∧
      (path = String.ofList (Disk.pathOf (disk.placeOf path)) ∨
        path = String.ofList ('/' :: Disk.pathOf (disk.placeOf path))) := by
  obtain ⟨place, octets, hget, hpath⟩ := mem_paths.1 hpath
  have hnames := hnamed.entries hget
  have hparts : placeFrom [] (Path.parts (Path.ofParts place)) = place := by
    rcases eq_or_ne place [] with rfl | hne
    · rfl
    · rw [Path.parts_ofParts hne hnames, Disk.placeFrom_of_isName hnames, List.nil_append]
  have hplace : disk.placeOf path = place := by
    unfold Disk.placeOf Disk.startOf
    rcases hpath with rfl | rfl
    · rw [String.toList_ofList]
      exact hparts
    · rw [String.toList_ofList]
      exact hparts
  rw [hplace]
  exact ⟨octets, hget, hpath⟩

/-- A specifier leads to the first file among the paths that are tried. -/
theorem resolve_eq_ok : modules.resolve disk specifier importer = .ok (some path) ↔
    ∃ base, modules.basePath disk specifier.toList importer = .ok (some base) ∧
      modules.firstFile disk base = some path := by
  unfold resolve
  cases modules.basePath disk specifier.toList importer with
  | error fault => exact ⟨nofun, nofun⟩
  | ok base =>
    cases base with
    | none => exact ⟨nofun, nofun⟩
    | some base =>
      constructor
      · exact fun h => ⟨base, rfl, Except.ok.inj h⟩
      · rintro ⟨base', hbase, hfirst⟩
        cases hbase
        exact congrArg Except.ok hfirst

theorem host_resolve_eq_ok {target : (modules.host disk).File} :
    (modules.host disk).resolve specifier importer = .ok (some target) ↔
      modules.resolve disk specifier importer = .ok (some target.1) := by
  unfold host
  dsimp only
  constructor
  · intro h
    split at h
    · cases h
    · cases h
    · next path hpath =>
      have hfile := Except.ok.inj h
      unfold Index.Host.file? at hfile
      split at hfile
      · cases hfile
        exact hpath
      · cases hfile
  · intro h
    rw [h]
    exact congrArg Except.ok (dif_pos target.2)

/-- A specifier leads to a file. -/
theorem isFile_of_resolve (h : modules.resolve disk specifier importer = .ok (some path)) :
    disk.isFile path = true := by
  obtain ⟨base, -, hfirst⟩ := resolve_eq_ok.1 h
  exact List.find?_some hfirst

/-- A specifier that leads to a file that is left leads there still. -/
theorem resolve_without (hwithout : disk.Without places later) (hnamed : disk.Named)
    {target : (modules.host disk).File}
    (h : (modules.host disk).resolve specifier importer = .ok (some target))
    (hplace : ¬ places (disk.placeOf target.1)) :
    ∃ found : (modules.host later).File,
      (modules.host later).resolve specifier importer = .ok (some found) ∧ found.1 = target.1 := by
  rw [host_resolve_eq_ok] at h
  have hfile : later.isFile target.1 = true := by
    obtain ⟨octets, hread⟩ := Disk.isFile_iff.1 (isFile_of_resolve h)
    exact Disk.isFile_iff.2 ⟨octets, hwithout.readOctets_iff.2 ⟨hread, hplace⟩⟩
  have hmem : target.1 ∈ paths later := by
    obtain ⟨octets, hget, hpath⟩ := placeOf_of_mem_paths hnamed target.2
    obtain ⟨octets', hread⟩ := Disk.isFile_iff.1 hfile
    have hentry := (Disk.readOctets_eq_ok.1 hread).2
    rw [hwithout.placeOf] at hentry
    have hne : disk.placeOf target.1 ≠ [] := by
      intro hnil
      rw [hnil] at hentry
      cases hentry
    exact mem_paths.2 ⟨_, octets', (Disk.entry?_of_ne later hne).symm.trans hentry, hpath⟩
  refine ⟨⟨target.1, hmem⟩, host_resolve_eq_ok.2 ?_, rfl⟩
  obtain ⟨base, hbase, hfirst⟩ := resolve_eq_ok.1 h
  refine resolve_eq_ok.2 ⟨base, ?_, ?_⟩
  · rw [← hbase]
    unfold basePath
    cases importer with
    | none => rfl
    | some importer =>
      dsimp only
      rw [hwithout.absolute]
  · unfold firstFile at hfirst ⊢
    obtain ⟨-, before, behind, htried, hnone⟩ := List.find?_eq_some_iff_append.1 hfirst
    refine List.find?_eq_some_iff_append.2 ⟨hfile, before, behind, htried, fun path hpath => ?_⟩
    -- where no file was there is none now
    rw [Bool.not_eq_true', Bool.eq_false_iff]
    intro hlater
    obtain ⟨octets, hread⟩ := Disk.isFile_iff.1 hlater
    have hwas := Disk.isFile_iff.2 ⟨octets, (hwithout.readOctets_iff.1 hread).1⟩
    have hnot := hnone path hpath
    rw [hwas] at hnot
    cases hnot

theorem host_load_eq_ok {text : Text} :
    (modules.host disk).load path = .ok text ↔ disk.readText path = .ok text := by
  unfold host
  dsimp only
  cases disk.readText path with
  | error fault => exact ⟨nofun, nofun⟩
  | ok own => exact ⟨fun h => congrArg Except.ok (Except.ok.inj h),
      fun h => congrArg Except.ok (Except.ok.inj h)⟩

end Modules

end PersistedQueries
