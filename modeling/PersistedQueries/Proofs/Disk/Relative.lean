import PersistedQueries.Proofs.Disk.Replacing
import PersistedQueries.Proofs.Disk.Searching

/-!
# From a directory to a file below it

The path from a directory to a file below it has just the names that lead there. Taken from another
directory, it leads to the same names below that one. When the search has been for a file, the
directory is the one of its path, and the name is the last one of the path; it is a name, since two
dots never lead to a file.

- `placeFrom_directory`: a path leads to the last name of the path below its directory.
- `Named.relativeTo_eq`: the path from a directory to something below it.
- `Standing`: the working directory and everything above it are directories.
- `Standing.placeOf_file`: the place of a file is a name below the place of its directory.
-/

namespace PersistedQueries.Disk

variable {disk later : Disk} {place target : Place} {names : List Text} {path : String}

/-! ## The directory of a path -/

/-- Slashes at the end of a path lead nowhere else. -/
theorem placeFrom_slashes (place : Place) (text : Text) {slashes : Text}
    (h : ∀ c ∈ slashes, c = '/') :
    placeFrom place (Path.parts (text ++ slashes)) = placeFrom place (Path.parts text) := by
  have hempty : ∀ place, placeFrom place (Path.parts slashes) = place := by
    intro place
    rw [← placeFrom_filter, List.filter_eq_nil_iff.2]
    · rfl
    · intro name hname
      rw [Path.eq_nil_of_mem_slashes h hname]
      exact Bool.false_ne_true
  cases slashes with
  | nil => rw [List.append_nil]
  | cons c rest =>
    obtain ⟨rfl, hrest⟩ := List.forall_mem_cons.1 h
    have hparts : Path.parts ('/' :: rest) = [] :: Path.parts rest := Path.parts_append [] rest
    specialize hempty (placeFrom place (Path.parts text))
    rw [hparts, placeFrom, if_pos (.inl rfl)] at hempty
    rw [Path.parts_append, placeFrom_append, hempty]

/-- A path is its directory, slashes, and a last name behind them. -/
theorem directory_append_base (path : Text) :
    ∃ slashes, (∀ c ∈ slashes, c = '/') ∧ (Path.directory path = [] → slashes = []) ∧
      path = Path.directory path ++ slashes ++ Path.base path ∧
      (Path.directory path ++ slashes = [] ∨
        ∃ before, Path.directory path ++ slashes = before ++ ['/']) := by
  have hpath : (path.reverse.dropWhile (· ≠ '/')).reverse ++ Path.base path = path := by
    unfold Path.base
    rw [← List.reverse_append, List.takeWhile_append_dropWhile, List.reverse_reverse]
  have hfirst := Path.dropWhile_ne_slash path.reverse
  have hdirectory : Path.directory path =
      if ((path.reverse.dropWhile (· ≠ '/')).dropWhile (· = '/')).isEmpty then
        (path.reverse.dropWhile (· ≠ '/')).reverse
      else ((path.reverse.dropWhile (· ≠ '/')).dropWhile (· = '/')).reverse := rfl
  generalize path.reverse.dropWhile (· ≠ '/') = upTo at hpath hfirst hdirectory
  obtain ⟨slashes, hslashes, hnone, hcut⟩ : ∃ slashes, (∀ c ∈ slashes, c = '/') ∧
      (Path.directory path = [] → slashes = []) ∧
      Path.directory path ++ slashes = upTo.reverse := by
    rw [hdirectory]
    split
    · exact ⟨[], List.forall_mem_nil _, fun _ => rfl, List.append_nil _⟩
    next hsome =>
    refine ⟨(upTo.takeWhile (· = '/')).reverse, fun c hc => ?_, fun hempty => ?_, ?_⟩
    · simpa using List.mem_takeWhile_imp (List.mem_reverse.1 hc)
    · exact absurd (List.isEmpty_iff.2 (List.reverse_eq_nil_iff.1 hempty)) hsome
    · rw [← List.reverse_append, List.takeWhile_append_dropWhile]
  refine ⟨slashes, hslashes, hnone, ?_, ?_⟩
  · rw [hcut, hpath]
  · rw [hcut]
    rcases hfirst with rfl | ⟨rest, rfl⟩
    · exact .inl rfl
    · exact .inr ⟨rest.reverse, List.reverse_cons⟩

theorem not_mem_base (path : Text) : '/' ∉ Path.base path := by
  unfold Path.base
  rw [List.mem_reverse]
  exact fun hmem => by simpa using List.mem_takeWhile_imp hmem

theorem parts_base (path : Text) : Path.parts (Path.base path) = [Path.base path] :=
  Text.splitOn_of_not_mem (not_mem_base path)

/-- The last of the names of a path. -/
theorem parts_eq_concat_base (path : Text) :
    ∃ before, Path.parts path = before ++ [Path.base path] := by
  obtain ⟨slashes, -, -, hpath, hempty | ⟨before, hbefore⟩⟩ := directory_append_base path
  · rw [hempty, List.nil_append] at hpath
    exact ⟨[], (congrArg Path.parts hpath).trans (parts_base path)⟩
  · rw [hbefore, List.append_assoc] at hpath
    refine ⟨Path.parts before, (congrArg Path.parts hpath).trans ?_⟩
    rw [List.singleton_append, Path.parts_append, parts_base]

/-- A path leads to its last name, below its directory. -/
theorem placeFrom_directory (place : Place) (path : Text) :
    placeFrom place (Path.parts path) =
      placeFrom (placeFrom place (Path.parts (Path.directory path))) [Path.base path] := by
  obtain ⟨slashes, hslashes, -, hpath, hend⟩ := directory_append_base path
  rw [← placeFrom_slashes place (Path.directory path) hslashes, ← parts_base]
  refine (congrArg (fun text => placeFrom place (Path.parts text)) hpath).trans ?_
  obtain hempty | ⟨before, hbefore⟩ := hend
  · rw [hempty]
    rfl
  · rw [hbefore, List.append_assoc, List.singleton_append, Path.parts_append, placeFrom_append,
      placeFrom_slashes place before (List.forall_mem_singleton.2 rfl)]

/-- The directory of a path from the root is one from the root. -/
theorem isAbsolute_directory (path : Text) :
    Path.isAbsolute (Path.directory path) = Path.isAbsolute path := by
  obtain ⟨slashes, -, hnone, hpath, -⟩ := directory_append_base path
  have hsame := congrArg Path.isAbsolute hpath
  cases hdirectory : Path.directory path with
  | nil =>
    rw [hnone hdirectory, hdirectory] at hsame
    refine Eq.symm (hsame.trans (Bool.eq_false_iff.2 fun habsolute => ?_))
    obtain ⟨rest, hrest⟩ := Path.isAbsolute_iff.1 habsolute
    rw [List.nil_append, List.nil_append] at hrest
    exact not_mem_base path (hrest ▸ List.mem_cons_self)
  | cons c rest =>
    rw [hdirectory] at hsame
    exact hsame.symm

/-! ## Relative paths -/

/-- The names of a normal absolute path are its place. -/
theorem Named.names_absolute (h : disk.Named) (path : Text) :
    (Path.parts (Path.absolute (pathOf disk.working) path)).filter (!·.isEmpty) =
      disk.placeOf (String.ofList path) := by
  have hroot : Path.isAbsolute (Path.join (pathOf disk.working) path) = true :=
    (Path.isAbsolute_join ..).trans (Bool.or_true _)
  have hplace := h.placeOf_absolute (String.ofList path)
  unfold absolute at hplace
  rw [String.toList_ofList] at hplace
  rw [← hplace]
  have hnames : ∀ name ∈ (Path.parts (Path.absolute (pathOf disk.working) path)).filter
      (!·.isEmpty), Path.IsName name := by
    intro name hname
    obtain ⟨hname, hne⟩ := List.mem_filter.1 hname
    exact Path.isName_of_mem_normalize hroot hname (by simpa using hne)
  unfold Disk.placeOf startOf
  rw [String.toList_ofList, Path.absolute, Path.isAbsolute_normalize hroot, if_pos rfl,
    ← placeFrom_filter, ← Path.absolute, placeFrom_of_isName hnames, List.nil_append]

theorem dropCommon_append (start names : List Text) :
    Path.dropCommon start (start ++ names) = ([], names) := by
  induction start with
  | nil =>
    cases names <;> rfl
  | cons first rest ih => rw [List.cons_append, Path.dropCommon, if_pos rfl, ih]

/-- The path from a directory to something below it has the names below the directory. -/
theorem Named.relativeTo_eq (h : disk.Named) {start : Text} (hne : names ≠ [])
    (hplace : disk.placeOf path = disk.placeOf (String.ofList start) ++ names) :
    Path.relativeTo (pathOf disk.working) start path.toList = Path.ofParts names := by
  unfold Path.relativeTo
  simp only [h.names_absolute, String.ofList_toList, hplace, dropCommon_append, List.map_nil,
    List.nil_append]
  rw [if_neg (by simpa using hne)]

/-- Names taken from a directory lead below it. -/
theorem placeOf_join (disk : Disk) (start : Text) (hne : names ≠ [])
    (hnames : ∀ name ∈ names, Path.IsName name) :
    disk.placeOf (String.ofList (Path.join start (Path.ofParts names))) =
      disk.placeOf (String.ofList start) ++ names := by
  have hpath := Path.isAbsolute_ofParts hnames
  unfold Disk.placeOf startOf
  rw [String.toList_ofList, String.toList_ofList, Path.isAbsolute_join, hpath, Bool.false_or,
    placeFrom_join _ _ hpath, Path.parts_ofParts hne hnames, placeFrom_of_isName hnames]

/-! ## Files have names -/

/-- The place and everything above it are directories. -/
def Stands (disk : Disk) (place : Place) : Prop :=
  ∀ above, above <+: place → disk.entry? above = some .directory

/-- The working directory and everything above it are directories. -/
def Standing (disk : Disk) : Prop := disk.Stands disk.working

theorem ChangesOnly.standing {places : Place → Prop} (h : ChangesOnly places disk later)
    (hstanding : disk.Standing) : later.Standing := by
  intro above habove
  rw [h.working] at habove
  exact h.directory (hstanding above habove)

theorem Stands.above (h : disk.Stands place) (htarget : target <+: place) :
    disk.Stands target :=
  fun above habove => h above (habove.trans htarget)

theorem Standing.stands_startOf (h : disk.Standing) (path : Text) :
    disk.Stands (disk.startOf path) := by
  unfold startOf
  split
  · exact h.above List.nil_prefix
  · exact h

/-- A directory below directories stands. -/
theorem Stands.of_entry (h : disk.Stands place.dropLast)
    (hentry : disk.entry? place = some .directory) : disk.Stands place := by
  intro above habove
  rcases List.eq_nil_or_concat' place with rfl | ⟨before, last, rfl⟩
  · exact h above habove
  · rw [List.dropLast_concat] at h
    obtain rfl | hbefore := List.prefix_concat_iff.1 habove
    · exact hentry
    · exact h above hbefore

theorem entry?_of_checkDirectory (h : disk.checkDirectory place = .ok ()) :
    disk.entry? place = some .directory := by
  unfold checkDirectory at h
  split at h
  · assumption
  · cases h
  · cases h

/-- A walk leads through directories. -/
theorem Stands.walk (h : disk.Stands place.dropLast)
    (hwalk : walk disk place names = .ok target) : disk.Stands target.dropLast := by
  induction names generalizing place with
  | nil => exact Except.ok.inj hwalk ▸ h
  | cons name names ih =>
    obtain ⟨hcheck, -, hrest⟩ := walk_cons_eq_ok.1 hwalk
    refine ih ?_ hrest
    rw [placeFrom]
    split
    · exact h
    split
    · exact h.above (List.dropLast_prefix _)
    · rw [placeFrom, List.dropLast_concat]
      exact h.of_entry (entry?_of_checkDirectory hcheck)

/-- The last name of a path that leads to a file is a name: dots lead to directories. -/
theorem Standing.isName_base (h : disk.Standing) (hfollow : disk.follow path = .ok place)
    {octets : List UInt8} (hentry : disk.entry? place = some (.file octets)) :
    Path.IsName (Path.base path.toList) := by
  obtain ⟨-, hwalk, -⟩ := follow_eq_ok hfollow
  obtain ⟨before, hparts⟩ := parts_eq_concat_base path.toList
  rw [hparts, walk_append] at hwalk
  cases hmiddle : walk disk (disk.startOf path.toList) before with
  | error cause =>
    rw [hmiddle] at hwalk
    cases hwalk
  | ok middle =>
    rw [hmiddle] at hwalk
    obtain ⟨hcheck, -, hlast⟩ := walk_cons_eq_ok.1 hwalk
    obtain rfl := Except.ok.inj hlast
    have hdirectory := entry?_of_checkDirectory hcheck
    have hstands : disk.Stands middle :=
      (((h.stands_startOf path.toList).above (List.dropLast_prefix _)).walk hmiddle).of_entry
        hdirectory
    rw [placeFrom] at hentry
    split at hentry
    · cases hdirectory.symm.trans hentry
    next hdot =>
    split at hentry
    · cases (hstands _ (List.dropLast_prefix _)).symm.trans hentry
    next hdots => exact ⟨fun hempty => hdot (.inl hempty), fun heq => hdot (.inr heq), hdots,
      not_mem_base _⟩

/-- A file is found under its name, below the directory of its path. -/
theorem Standing.placeOf_file (h : disk.Standing) (hfollow : disk.follow path = .ok place)
    {octets : List UInt8} (hentry : disk.entry? place = some (.file octets)) :
    disk.placeOf path =
      disk.placeOf (String.ofList (Path.directory path.toList)) ++ [Path.base path.toList] := by
  have hname := h.isName_base hfollow hentry
  unfold Disk.placeOf startOf
  rw [String.toList_ofList, isAbsolute_directory, placeFrom_directory,
    placeFrom_of_isName (List.forall_mem_singleton.2 hname)]

end PersistedQueries.Disk
