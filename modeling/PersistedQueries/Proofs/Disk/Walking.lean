import Mathlib.Data.List.MinMax
import Mathlib.Data.List.Nodup
import Mathlib.Data.String.Basic
import PersistedQueries.Proofs.Disk.Absolute
import PersistedQueries.Proofs.Disk.Patterns
import PersistedQueries.Proofs.Disk.Removing
import PersistedQueries.Proofs.Disk.Temporary

/-!
# The walk down a directory

Searching a directory is a walk down from it: in each directory the files are looked at, and those
directories are taken off the list that an exclusion pattern matches, so that the walk never comes to
anything below them. A directory whose path has too many octets cannot be listed, and nothing is found
below it either. So what becomes of a file hangs on all the directories above it.

- `Rooted`: everything stands in directories.
- `walkDown`: the files that the walk comes to, directory by directory.
- `mem_walkDown`: the walk comes to those files for which no directory on the way is left out.
- `findFiles_eq_walked`: the search finds the files that the walk comes to, in ascending order.
- `findFiles_exact`: so it finds just the files with one of the endings that no pattern keeps it from.
-/

namespace PersistedQueries.Disk

variable {disk : Disk} {target : String} {place directories names : Place} {name : Text}
  {endings exclusions : List String} {depth : Nat}

/-- Everything stands in directories. -/
def Rooted (disk : Disk) : Prop :=
  ∀ {place entry}, disk.entries.get? place = some entry → disk.Stands place.dropLast

/-! ## The walk -/

/-- The names of what stands in a directory. -/
def namesIn (disk : Disk) (place : Place) : List Text :=
  disk.entries.keys.filterMap fun other => if other.dropLast = place then other.getLast? else none

/-- The file is found under its name: it has one of the endings, and it is no declaration file. -/
def isSource (endings : List String) (name : Text) : Bool :=
  hasEnding endings name && !declarationEnding.isSuffixOf name

/-- No exclusion pattern keeps the walk from a directory with a name. -/
def isKept (exclusions : List String) (name : Text) : Bool :=
  !exclusions.any fun pattern => Glob.describes pattern.toList name

/-- What the walk comes to under a name of the directory that some names lead to from its target: a
file, or else what it comes to below a directory. -/
def visit (disk : Disk) (target : String) (endings exclusions : List String) (directories : Place)
    (name : Text) (below : List Place) : List Place :=
  match disk.entry? (disk.placeOf target ++ directories ++ [name]) with
  | some (.file _) => if isSource endings name then [directories ++ [name]] else []
  | some .directory => if isKept exclusions name then below else []
  | none => []

/-- The files that the walk comes to in the directory that some names lead to from its target, and
below that directory, by the names that lead to them. It goes down no further than a number of
directories. -/
def walkDown (disk : Disk) (target : String) (endings exclusions : List String) :
    (depth : Nat) → (directories : Place) → List Place
  | 0, _ => []
  | depth + 1, directories =>
    if isReachable target directories then
      (disk.namesIn (disk.placeOf target ++ directories)).flatMap fun name =>
        disk.visit target endings exclusions directories name
          (walkDown disk target endings exclusions depth (directories ++ [name]))
    else []

/-- The most names that lead to something. -/
def height (disk : Disk) : Nat := (disk.entries.keys.map List.length).foldr max 0

/-- The files that the walk comes to from its target. -/
def walked (disk : Disk) (target : String) (endings exclusions : List String) : List Place :=
  walkDown disk target endings exclusions disk.height []

/-! ## What the walk comes to -/

theorem mem_namesIn : name ∈ disk.namesIn place ↔
    ∃ entry, disk.entries.get? (place ++ [name]) = some entry := by
  unfold namesIn
  rw [List.mem_filterMap, ← Table.mem_keys_iff]
  constructor
  · rintro ⟨other, hother, htake⟩
    split at htake
    · next hplace =>
      obtain ⟨before, rfl⟩ := List.getLast?_eq_some_iff.1 htake
      rw [List.dropLast_concat] at hplace
      exact hplace ▸ hother
    · cases htake
  · intro hkey
    exact ⟨place ++ [name], hkey, by simp⟩

theorem nodup_namesIn (disk : Disk) (place : Place) : (disk.namesIn place).Nodup := by
  have hsublist : ((disk.namesIn place).map (place ++ [·])).Sublist (disk.entries.keys.map id) := by
    refine sublist_filterMap (fun other name htake => ?_) _
    split at htake
    · next hplace =>
      obtain ⟨before, rfl⟩ := List.getLast?_eq_some_iff.1 htake
      rw [List.dropLast_concat] at hplace
      rw [hplace, id]
    · cases htake
  rw [List.map_id] at hsublist
  exact (hsublist.nodup disk.entries.nodup).of_map

theorem length_le_height {entry : Entry} (h : disk.entries.get? place = some entry) :
    place.length ≤ disk.height :=
  List.le_max_of_le' 0 (List.mem_map_of_mem (Table.mem_keys_iff.2 ⟨entry, h⟩)) le_rfl

/-- A path that goes on has no fewer octets. -/
theorem isOverlong_append {path more : Text} (h : isOverlong path = true) :
    isOverlong (path ++ more) = true := by
  unfold isOverlong at h ⊢
  rw [decide_eq_true_eq] at h ⊢
  rw [String.ofList_append, String.utf8ByteSize_append]
  omega

theorem join_append {start path more : Text} (hpath : Path.isAbsolute path = false)
    (hmore : Path.isAbsolute (path ++ more) = false) :
    Path.join start (path ++ more) = Path.join start path ++ more := by
  unfold Path.join
  rw [hpath, hmore, if_neg Bool.false_ne_true, if_neg Bool.false_ne_true]
  split
  · rw [List.append_assoc]
  · rw [List.append_assoc]
    rfl

/-- Above a directory that can be listed there are such directories only. -/
theorem isReachable_of_append {more : Place} (hnames : ∀ name ∈ directories ++ more, Path.IsName name)
    (h : isReachable target (directories ++ more) = true) : isReachable target directories = true := by
  rcases eq_or_ne directories [] with rfl | hdirectories
  · rfl
  rcases eq_or_ne more [] with rfl | hmore
  · rwa [List.append_nil] at h
  have habsolute := Path.isAbsolute_ofParts hnames
  have hshort := Path.isAbsolute_ofParts fun name hname => hnames name (List.mem_append_left _ hname)
  rw [ofParts_append hdirectories hmore] at habsolute
  unfold isReachable at h ⊢
  rw [Bool.or_eq_true, Bool.not_eq_true', List.isEmpty_iff] at h ⊢
  right
  rcases h with hempty | hreachable
  · exact absurd (List.append_eq_nil_iff.1 hempty).1 hdirectories
  · rw [ofParts_append hdirectories hmore, join_append hshort habsolute] at hreachable
    rw [← Bool.not_eq_true] at hreachable ⊢
    exact fun hlong => hreachable (isOverlong_append hlong)

/-! ### The step of the walk -/

theorem mem_visit {below : List Place} :
    names ∈ disk.visit target endings exclusions directories name below ↔
      (names = directories ++ [name] ∧ isSource endings name = true ∧ ∃ octets,
          disk.entry? (disk.placeOf target ++ directories ++ [name]) = some (.file octets)) ∨
        (isKept exclusions name = true ∧
          disk.entry? (disk.placeOf target ++ directories ++ [name]) = some .directory ∧
          names ∈ below) := by
  unfold visit
  cases disk.entry? (disk.placeOf target ++ directories ++ [name]) with
  | none => simp
  | some entry =>
    cases entry with
    | file octets => cases isSource endings name <;> simp
    | directory => cases isKept exclusions name <;> simp

/-- The walk comes to the files of a directory that are sources, and goes on in the directories that
are kept. -/
theorem mem_walkDown_succ : names ∈ disk.walkDown target endings exclusions (depth + 1) directories ↔
    isReachable target directories = true ∧ ∃ name,
      names ∈ disk.visit target endings exclusions directories name
        (disk.walkDown target endings exclusions depth (directories ++ [name])) := by
  rw [walkDown]
  by_cases hreachable : isReachable target directories = true
  · rw [if_pos hreachable, List.mem_flatMap]
    constructor
    · rintro ⟨name, -, hname⟩
      exact ⟨hreachable, name, hname⟩
    · rintro ⟨-, name, hname⟩
      -- where something is found something stands
      obtain ⟨entry, hentry⟩ : ∃ entry,
          disk.entry? (disk.placeOf target ++ directories ++ [name]) = some entry := by
        rcases mem_visit.1 hname with ⟨-, -, octets, hentry⟩ | ⟨-, hentry, -⟩
        · exact ⟨_, hentry⟩
        · exact ⟨_, hentry⟩
      exact ⟨name, mem_namesIn.2 ⟨entry, (entry?_of_ne disk (by simp)).symm.trans hentry⟩, hname⟩
  · rw [if_neg hreachable]
    exact ⟨nofun, fun h => absurd h.1 hreachable⟩

/-! ### The whole walk -/

/-- The walk comes to the files that are sources, below directories that are all kept, and whose
path can be followed, if it may go down far enough. -/
theorem mem_walkDown (hnamed : disk.Named) (hrooted : disk.Rooted) :
    names ∈ disk.walkDown target endings exclusions depth directories ↔
      ∃ further name, names = directories ++ further ++ [name] ∧ further.length < depth ∧
        (∃ octets, disk.entry? (disk.placeOf target ++ names) = some (.file octets)) ∧
        isSource endings name = true ∧ (∀ directory ∈ further, isKept exclusions directory = true) ∧
        isReachable target (directories ++ further) = true := by
  induction depth generalizing directories names with
  | zero => exact ⟨nofun, fun ⟨_, _, _, hlength, _⟩ => absurd hlength (Nat.not_lt_zero _)⟩
  | succ depth ih =>
    rw [mem_walkDown_succ]
    constructor
    · rintro ⟨hreachable, name, hname⟩
      rcases mem_visit.1 hname with ⟨rfl, hsource, octets, hentry⟩ | ⟨hkept, -, hmem⟩
      · rw [List.append_assoc] at hentry
        exact ⟨[], name, by rw [List.append_nil], Nat.succ_pos depth, ⟨octets, hentry⟩, hsource,
          List.forall_mem_nil _, by rwa [List.append_nil]⟩
      · obtain ⟨further, last, rfl, hlength, hentry, hsource, hall, hbelow⟩ := ih.1 hmem
        rw [List.append_assoc directories] at hentry hbelow ⊢
        exact ⟨name :: further, last, rfl, Nat.succ_lt_succ hlength, hentry, hsource,
          List.forall_mem_cons.2 ⟨hkept, hall⟩, hbelow⟩
    · rintro ⟨further, last, rfl, hlength, ⟨octets, hentry⟩, hsource, hall, hbelow⟩
      have hget := (entry?_of_ne disk (by simp)).symm.trans hentry
      have hnames : ∀ name ∈ directories ++ further, Path.IsName name := fun name hname =>
        hnamed.entries hget name (List.mem_append_right _ (List.mem_append_left _ hname))
      refine ⟨isReachable_of_append hnames hbelow, ?_⟩
      cases further with
      | nil =>
        rw [List.append_nil] at hentry ⊢
        exact ⟨last, mem_visit.2 (.inl ⟨rfl, hsource, octets, by rwa [List.append_assoc]⟩)⟩
      | cons name further =>
        obtain ⟨hkept, hall⟩ := List.forall_mem_cons.1 hall
        have hcut : directories ++ name :: further = directories ++ [name] ++ further := by simp
        rw [hcut] at hget hentry hbelow ⊢
        refine ⟨name, mem_visit.2 (.inr ⟨hkept, ?_, ?_⟩)⟩
        · -- what stands above the file is a directory
          refine hrooted hget _ ?_
          rw [← List.append_assoc, List.dropLast_concat, ← List.append_assoc, ← List.append_assoc]
          exact List.prefix_append _ _
        · exact ih.2 ⟨further, last, rfl, Nat.lt_of_succ_lt_succ hlength, ⟨octets, hentry⟩, hsource,
            hall, hbelow⟩

/-- The walk comes to no file twice: what it comes to under different names lies apart. -/
theorem nodup_walkDown (hnamed : disk.Named) (hrooted : disk.Rooted) (depth : Nat)
    (directories : Place) : (disk.walkDown target endings exclusions depth directories).Nodup := by
  induction depth generalizing directories with
  | zero => exact List.nodup_nil
  | succ depth ih =>
    have hbegin : ∀ {name names}, names ∈ disk.visit target endings exclusions directories name
        (disk.walkDown target endings exclusions depth (directories ++ [name])) →
        ∃ more, names = directories ++ name :: more := by
      intro name names hmem
      rcases mem_visit.1 hmem with ⟨rfl, -⟩ | ⟨-, -, hmem⟩
      · exact ⟨[], rfl⟩
      · obtain ⟨further, last, rfl, -⟩ := (mem_walkDown hnamed hrooted).1 hmem
        exact ⟨further ++ [last], by simp⟩
    rw [walkDown]
    split
    · refine List.nodup_flatMap.2 ⟨fun name _ => ?_, (nodup_namesIn disk _).imp ?_⟩
      · unfold visit
        split
        · split
          · exact List.nodup_singleton _
          · exact List.nodup_nil
        · split
          · exact ih _
          · exact List.nodup_nil
        · exact List.nodup_nil
      · intro first second hne names hfirst hsecond
        obtain ⟨more, rfl⟩ := hbegin hfirst
        obtain ⟨others, heq⟩ := hbegin hsecond
        exact hne (List.cons.inj (List.append_cancel_left heq)).1
    · exact List.nodup_nil

theorem isEligible_concat {further : Place} :
    isEligible endings exclusions (further ++ [name]) = true ↔
      isSource endings name = true ∧ ∀ directory ∈ further, isKept exclusions directory = true := by
  unfold isEligible
  rw [List.getLast?_concat, List.dropLast_concat]
  dsimp only
  rw [Bool.and_eq_true, List.all_eq_true]
  rfl

/-- From its target the walk comes to the eligible files whose path can be followed. -/
theorem mem_walked (hnamed : disk.Named) (hrooted : disk.Rooted) :
    names ∈ disk.walked target endings exclusions ↔
      (∃ octets, disk.entries.get? (disk.placeOf target ++ names) = some (.file octets)) ∧
        isEligible endings exclusions names = true ∧ isReachable target names.dropLast = true := by
  unfold walked
  rw [mem_walkDown hnamed hrooted]
  constructor
  · rintro ⟨further, name, rfl, -, ⟨octets, hentry⟩, hsource, hall, hreachable⟩
    rw [List.nil_append] at hentry hreachable ⊢
    rw [List.dropLast_concat, isEligible_concat]
    exact ⟨⟨octets, (entry?_of_ne disk (by simp)).symm.trans hentry⟩, ⟨hsource, hall⟩, hreachable⟩
  · rintro ⟨⟨octets, hget⟩, heligible, hreachable⟩
    rcases List.eq_nil_or_concat' names with rfl | ⟨further, name, rfl⟩
    · cases heligible
    rw [List.dropLast_concat] at hreachable
    rw [isEligible_concat] at heligible
    have hheight := length_le_height hget
    simp only [List.length_append, List.length_singleton] at hheight
    exact ⟨further, name, rfl, by omega, ⟨octets, (entry?_of_ne disk (by simp)).trans hget⟩,
      heligible.1, heligible.2, hreachable⟩

/-! ## The search -/

theorem pairwise_sorted (paths : List String) : (sorted paths).Pairwise (· ≤ ·) := by
  refine (List.pairwise_mergeSort ?_ ?_ paths).imp of_decide_eq_true
  · intro a b c hab hbc
    exact decide_eq_true ((of_decide_eq_true hab).trans (of_decide_eq_true hbc))
  · intro a b
    rw [← Bool.decide_or, decide_eq_true_eq]
    exact le_total a b

/-- The order in which paths come is of no account. -/
theorem sorted_eq_of_perm {paths others : List String} (h : paths.Perm others) :
    sorted paths = sorted others := by
  refine List.Perm.eq_of_pairwise (fun a b _ _ hab hba => le_antisymm hab hba)
    (pairwise_sorted paths) (pairwise_sorted others) ?_
  exact (List.mergeSort_perm paths _).trans (h.trans (List.mergeSort_perm others _).symm)

/-- Paths that are found come in strictly ascending order, so none comes twice. -/
theorem Named.pairwise_findFiles (hnamed : disk.Named) (target : String)
    (endings exclusions : List String) :
    (disk.findFiles target endings exclusions).Pairwise (· < ·) := by
  have hordered : (disk.findFiles target endings exclusions).Pairwise (· ≤ ·) := by
    unfold findFiles
    split
    · exact .nil
    split
    · exact .nil
    · split
      · exact List.pairwise_singleton ..
      · exact .nil
    · exact pairwise_sorted _
  have hnodup := (hnamed.nodup_findFiles target endings exclusions).of_map
  exact hordered.imp₂ (fun _ _ => lt_of_le_of_ne) hnodup

theorem isDirectory_iff : disk.isDirectory target = true ↔
    disk.follow target = .ok (disk.placeOf target) ∧
      disk.entry? (disk.placeOf target) = some .directory := by
  unfold isDirectory find?
  constructor
  · intro h
    cases hfollow : disk.follow target with
    | error cause =>
      rw [hfollow] at h
      cases h
    | ok place =>
      obtain rfl := (follow_eq_ok hfollow).2.2
      rw [hfollow] at h
      dsimp only at h
      split at h
      · next hentry => exact ⟨rfl, hentry⟩
      · cases h
  · rintro ⟨hfollow, hentry⟩
    rw [hfollow]
    dsimp only
    rw [hentry]

/-- The search of a directory finds the files that the walk comes to, in ascending order. -/
theorem findFiles_eq_walked (hnamed : disk.Named) (hrooted : disk.Rooted)
    (htarget : disk.isDirectory target = true) (endings exclusions : List String) :
    disk.findFiles target endings exclusions =
      sorted ((disk.walked target endings exclusions).map fun names =>
        String.ofList (Path.absolute (pathOf disk.working)
          (Path.join target.toList (Path.ofParts names)))) := by
  obtain ⟨hfollow, hentry⟩ := isDirectory_iff.1 htarget
  unfold findFiles
  rw [hfollow]
  dsimp only
  rw [hentry]
  refine sorted_eq_of_perm (List.Perm.map _ ((List.perm_ext_iff_of_nodup ?_ ?_).2 fun names => ?_))
  · exact ((sublist_filesBelow disk _).nodup disk.entries.nodup).of_map.filter _
  · exact nodup_walkDown hnamed hrooted _ _
  · rw [mem_walked hnamed hrooted, List.mem_filter, mem_filesBelow, Bool.and_eq_true]

/-- A file below a target is one that a search of the target has to find: it has one of the endings,
it is no declaration file, and no exclusion pattern matches a directory between the target and it. -/
structure Eligible (disk : Disk) (target : String) (endings exclusions : List String)
    (directories : Place) (name : Text) : Prop where
  file : ∃ octets, disk.entry? (disk.placeOf target ++ directories ++ [name]) = some (.file octets)
  ending : ∃ ending ∈ endings, ending.toList <:+ name
  no_declaration : ¬ ".d.ts".toList <:+ name
  not_excluded : ∀ directory ∈ directories, ∀ pattern ∈ exclusions,
    ¬ Glob.Matches pattern.toList directory

theorem isSource_iff : isSource endings name = true ↔
    (∃ ending ∈ endings, ending.toList <:+ name) ∧ ¬ ".d.ts".toList <:+ name := by
  unfold isSource hasEnding declarationEnding
  rw [Bool.and_eq_true, List.any_eq_true, Bool.not_eq_true', ← Bool.not_eq_true,
    List.isSuffixOf_iff_suffix]
  simp only [List.isSuffixOf_iff_suffix]

theorem isKept_iff : isKept exclusions name = true ↔
    ∀ pattern ∈ exclusions, ¬ Glob.Matches pattern.toList name := by
  unfold isKept
  rw [Bool.not_eq_true', List.any_eq_false]
  simp only [Glob.describes_iff]

/-- The search of a directory finds the eligible files below it, but for those below a directory
whose path cannot be followed. -/
theorem mem_findFiles_of_isDirectory (hnamed : disk.Named) (htarget : disk.isDirectory target = true)
    {file : String} : file ∈ disk.findFiles target endings exclusions ↔
      ∃ directories name, disk.Eligible target endings exclusions directories name ∧
        isReachable target directories = true ∧
        file = String.ofList (Path.rootSlashes (Path.join (pathOf disk.working) target.toList) ++
          Path.ofParts (disk.placeOf target ++ directories ++ [name])) := by
  obtain ⟨hfollow, hdirectory⟩ := isDirectory_iff.1 htarget
  have hpath : ∀ {directories name octets},
      disk.entry? (disk.placeOf target ++ directories ++ [name]) = some (.file octets) →
      Path.absolute (pathOf disk.working)
          (Path.join target.toList (Path.ofParts (directories ++ [name]))) =
        Path.rootSlashes (Path.join (pathOf disk.working) target.toList) ++
          Path.ofParts (disk.placeOf target ++ directories ++ [name]) := by
    intro directories name octets hentry
    have hget := (entry?_of_ne disk (by simp)).symm.trans hentry
    rw [List.append_assoc] at hget ⊢
    exact hnamed.absolute_found target (by simp) fun name hname =>
      hnamed.entries hget name (List.mem_append_right _ hname)
  rw [mem_findFiles_iff]
  constructor
  · rintro ⟨place, hplace, hfound⟩
    cases hplace.symm.trans hfollow
    rcases hfound with ⟨⟨octets, hentry⟩, -⟩ |
      ⟨-, names, octets, -, hentry, heligible, hreachable, rfl⟩
    · cases hdirectory.symm.trans hentry
    · rcases List.eq_nil_or_concat' names with rfl | ⟨directories, name, rfl⟩
      · cases heligible
      rw [← List.append_assoc] at hentry
      rw [List.dropLast_concat] at hreachable
      obtain ⟨hsource, hkept⟩ := isEligible_concat.1 heligible
      obtain ⟨hending, hdeclaration⟩ := isSource_iff.1 hsource
      exact ⟨directories, name, ⟨⟨octets, hentry⟩, hending, hdeclaration,
        fun directory hmem => isKept_iff.1 (hkept directory hmem)⟩, hreachable,
        congrArg String.ofList (hpath hentry)⟩
  · rintro ⟨directories, name, ⟨⟨octets, hentry⟩, hending, hdeclaration, hexcluded⟩, hreachable, rfl⟩
    refine ⟨_, hfollow, .inr ⟨hdirectory, directories ++ [name], octets, by simp, ?_, ?_, ?_, ?_⟩⟩
    · rwa [← List.append_assoc]
    · exact isEligible_concat.2 ⟨isSource_iff.2 ⟨hending, hdeclaration⟩,
        fun directory hmem => isKept_iff.2 (hexcluded directory hmem)⟩
    · rwa [List.dropLast_concat]
    · rw [hpath hentry]

/-- The search of a directory finds, in strictly ascending order, just the eligible files below it,
but for those below a directory whose path cannot be followed. These are the files that the walk down
the directory comes to. -/
theorem findFiles_exact (hnamed : disk.Named) (hrooted : disk.Rooted)
    (htarget : disk.isDirectory target = true) (endings exclusions : List String) :
    (disk.findFiles target endings exclusions).Pairwise (· < ·) ∧
      (∀ file, file ∈ disk.findFiles target endings exclusions ↔
        ∃ directories name, disk.Eligible target endings exclusions directories name ∧
          isReachable target directories = true ∧
          file = String.ofList (Path.rootSlashes (Path.join (pathOf disk.working) target.toList) ++
            Path.ofParts (disk.placeOf target ++ directories ++ [name]))) ∧
      disk.findFiles target endings exclusions =
        sorted ((disk.walked target endings exclusions).map fun names =>
          String.ofList (Path.absolute (pathOf disk.working)
            (Path.join target.toList (Path.ofParts names)))) :=
  ⟨hnamed.pairwise_findFiles target endings exclusions,
    fun _ => mem_findFiles_of_isDirectory hnamed htarget,
    findFiles_eq_walked hnamed hrooted htarget endings exclusions⟩

theorem named_of_forall (hworking : ∀ name ∈ disk.working, Path.IsName name)
    (h : ∀ entry ∈ disk.entries.entries, ∀ name ∈ entry.1, Path.IsName name) : disk.Named :=
  ⟨hworking, fun hget => h _ (Table.mem_entries_iff.2 hget)⟩

theorem rooted_of_forall (h : ∀ entry ∈ disk.entries.entries, ∀ above ∈ entry.1.dropLast.inits,
    disk.entry? above = some .directory) : disk.Rooted := fun hget above habove =>
  h _ (Table.mem_entries_iff.2 hget) above ((List.mem_inits _ _).2 habove)

/-- A working directory with sources at several depths. -/
def sources : Disk :=
  ofEntries ["w".toList] [(["src".toList], .directory), (["src".toList, "a.ts".toList], .file []),
    (["src".toList, "a.d.ts".toList], .file []), (["src".toList, "lib1".toList], .directory),
    (["src".toList, "lib1".toList, "b.ts".toList], .file []),
    (["src".toList, "libx".toList], .directory),
    (["src".toList, "libx".toList, "c.ts".toList], .file [])]

/-- A set in a pattern keeps the search from one directory and not from another. -/
theorem findFiles_exact_sources :
    (sources.findFiles "src" [".ts"] ["lib[0-9]", "src"]).Pairwise (· < ·) ∧
      "/w/src/libx/c.ts" ∈ sources.findFiles "src" [".ts"] ["lib[0-9]", "src"] := by
  have hnamed : sources.Named := named_of_forall (by decide) (by decide)
  have hrooted : sources.Rooted := rooted_of_forall (by decide)
  have htarget : sources.isDirectory "src" = true := by decide +kernel
  obtain ⟨hordered, hfound, -⟩ :=
    findFiles_exact hnamed hrooted htarget [".ts"] ["lib[0-9]", "src"]
  refine ⟨hordered, (hfound _).2 ⟨["libx".toList], "c.ts".toList, ⟨⟨[], ?_⟩, ?_, ?_, ?_⟩, ?_, ?_⟩⟩
  · decide
  · decide +kernel
  · decide
  · have hkept : isKept ["lib[0-9]", "src"] "libx".toList = true := by decide +kernel
    exact List.forall_mem_singleton.2 (isKept_iff.1 hkept)
  · decide +kernel
  · decide +kernel

/-! ## Paths that are too long -/

theorem utf8ByteSize_dot_slashes (n : Nat) :
    (String.ofList ('.' :: List.replicate n '/')).utf8ByteSize = n + 1 := by
  rw [utf8ByteSize_of_forall, List.length_cons, List.length_replicate]
  refine List.forall_mem_cons.2 ⟨rfl, fun c hc => ?_⟩
  rw [List.eq_of_mem_replicate hc]
  rfl

/-- A path that is taken from another one has no fewer octets than both together. -/
theorem le_utf8ByteSize_join (start : Text) {path : Text} (hpath : Path.isAbsolute path = false) :
    (String.ofList start).utf8ByteSize + (String.ofList path).utf8ByteSize ≤
      (String.ofList (Path.join start path)).utf8ByteSize := by
  unfold Path.join
  rw [hpath, if_neg Bool.false_ne_true]
  split
  · rw [String.ofList_append, String.utf8ByteSize_append]
  · rw [String.ofList_append, String.ofList_cons, String.utf8ByteSize_append,
      String.utf8ByteSize_append]
    omega

/-- A dot with slashes behind it leads to the working directory. -/
theorem isDirectory_dot_slashes (hworking : disk.entry? disk.working = some .directory)
    {n : Nat} (hn : n < pathLimit) :
    disk.isDirectory (String.ofList ('.' :: List.replicate n '/')) = true ∧
      disk.placeOf (String.ofList ('.' :: List.replicate n '/')) = disk.working := by
  have hslashes : ∀ c ∈ List.replicate n '/', c = '/' := fun _ => List.eq_of_mem_replicate
  have hplace : disk.placeOf (String.ofList ('.' :: List.replicate n '/')) = disk.working := by
    unfold placeOf
    rw [String.toList_ofList]
    exact placeFrom_slashes disk.working ['.'] hslashes
  have hcheck : checkPath ('.' :: List.replicate n '/') = .ok () := by
    have hnull : hasNull ('.' :: List.replicate n '/') = false := by
      simp [hasNull]
    have hshort : isOverlong ('.' :: List.replicate n '/') = false := by
      unfold isOverlong
      rw [utf8ByteSize_dot_slashes, decide_eq_false_iff_not]
      omega
    unfold checkPath
    rw [hnull, hshort]
    rfl
  have hwalk : walk disk disk.working (Path.parts ('.' :: List.replicate n '/')) =
      .ok disk.working := by
    have hparts : (Path.parts ('.' :: List.replicate n '/')).filter (!·.isEmpty) = [['.']] := by
      cases n with
      | zero => rfl
      | succ n =>
        have hcut : Path.parts ('.' :: List.replicate (n + 1) '/') =
            ['.'] :: Path.parts (List.replicate n '/') :=
          Path.parts_append ['.'] (List.replicate n '/')
        rw [hcut, List.filter_cons_of_pos rfl, List.filter_eq_nil_iff.2]
        intro name hname
        rw [Path.eq_nil_of_mem_slashes (fun _ => List.eq_of_mem_replicate) hname]
        exact Bool.false_ne_true
    refine walk_of_filter ?_ hworking
    rw [hparts, walk_cons_eq_ok]
    exact ⟨by rw [checkDirectory, hworking], rfl, rfl⟩
  refine ⟨isDirectory_iff.2 ?_, hplace⟩
  rw [hplace]
  refine ⟨?_, hworking⟩
  unfold follow
  rw [String.toList_ofList, hcheck]
  exact hwalk

/-- A directory with one source in another directory. -/
def nested : Disk :=
  ofEntries ["ROOT".toList] [(["sub".toList], .directory), (["sub".toList, "a.ts".toList], .file [])]

/-- Not every eligible file is found. A target can have so many slashes at its end that nothing but
the files right in it can be found, since no path is left for a directory below it. -/
theorem not_findFiles_of_eligible : ¬ ∀ (disk : Disk) (target : String)
    (endings exclusions : List String), disk.Named → disk.Rooted → disk.isDirectory target = true →
      ∀ directories name, disk.Eligible target endings exclusions directories name →
        String.ofList (Path.rootSlashes (Path.join (pathOf disk.working) target.toList) ++
            Path.ofParts (disk.placeOf target ++ directories ++ [name])) ∈
          disk.findFiles target endings exclusions := by
  intro hall
  have hnamed : nested.Named := named_of_forall (by decide) (by decide)
  have hrooted : nested.Rooted := rooted_of_forall (by decide)
  -- as many slashes as a path has room for behind a dot
  obtain ⟨n, hn⟩ : ∃ n, n + 1 = pathLimit := ⟨4094, rfl⟩
  obtain ⟨htarget, hplace⟩ :=
    isDirectory_dot_slashes (show nested.entry? nested.working = some .directory by decide)
      (Nat.lt_of_succ_le hn.le)
  have heligible : nested.Eligible (String.ofList ('.' :: List.replicate n '/')) [".ts"] []
      ["sub".toList] "a.ts".toList := by
    refine ⟨⟨[], ?_⟩, by decide, by decide, fun _ _ => List.forall_mem_nil _⟩
    rw [hplace]
    decide
  obtain ⟨directories, name, ⟨⟨octets, hentry⟩, -⟩, hreachable, heq⟩ :=
    (mem_findFiles_of_isDirectory hnamed htarget).1
      (hall nested _ [".ts"] [] hnamed hrooted htarget _ _ heligible)
  -- the path of the file is found under its own names only
  obtain ⟨⟨_, hfile⟩, -⟩ := heligible
  have hsame := ofParts_inj
    (hnamed.entries ((entry?_of_ne nested (by simp)).symm.trans hfile))
    (hnamed.entries ((entry?_of_ne nested (by simp)).symm.trans hentry))
    (List.append_cancel_left (String.ofList_injective heq))
  rw [List.append_assoc, List.append_assoc] at hsame
  obtain rfl := (List.append_inj' (List.append_cancel_left hsame) rfl).1
  have hlong := le_utf8ByteSize_join ('.' :: List.replicate n '/')
    (show Path.isAbsolute (Path.ofParts ["sub".toList]) = false from rfl)
  rw [utf8ByteSize_dot_slashes, hn] at hlong
  have hsub : (String.ofList (Path.ofParts ["sub".toList])).utf8ByteSize = 3 := rfl
  unfold isReachable isOverlong at hreachable
  rw [String.toList_ofList] at hreachable
  have hshort : ¬ pathLimit < (String.ofList (Path.join ('.' :: List.replicate n '/')
      (Path.ofParts ["sub".toList]))).utf8ByteSize := by simpa using hreachable
  omega

end PersistedQueries.Disk
