import Mathlib.Data.List.Nodup
import PersistedQueries.Disk.Search
import PersistedQueries.Proofs.Disk.Changes

/-!
# The places of found files

The search of a directory gives a normal absolute path for every file that it finds. Such a path
leads to the file, because two dots lead back in a path exactly where they lead back on a disk. So
no file is found twice.

- `collapse_eq_placeFrom`: the names that are left in a normal path are a place.
- `placeOf_absolute`: a path and its normal form have one place.
- `placeOf_found`: the path of a found file has the place of the file.
- `nodup_findFiles`: found files stand at different places.
-/

namespace PersistedQueries.Disk

variable {disk : Disk} {place : Place} {names done : List Text} {path : Text}

/-! ## Normal paths -/

theorem placeFrom_filter (place : Place) (names : List Text) :
    placeFrom place (names.filter (!·.isEmpty)) = placeFrom place names := by
  induction names generalizing place with
  | nil => rfl
  | cons name names ih =>
    rw [List.filter_cons, placeFrom]
    rcases eq_or_ne name [] with rfl | hne
    · exact ih place
    · rw [if_pos (by simpa using hne), placeFrom, ih, ih, ih]

theorem placeFrom_of_isName (h : ∀ name ∈ names, Path.IsName name) :
    placeFrom place names = place ++ names := by
  induction names generalizing place with
  | nil => exact (List.append_nil place).symm
  | cons name names ih =>
    obtain ⟨hname, hnames⟩ := List.forall_mem_cons.1 h
    rw [placeFrom, if_neg (not_or.2 ⟨hname.nonempty, hname.not_dot⟩), if_neg hname.not_dots,
      ih hnames, List.append_assoc, List.singleton_append]

/-- Two dots lead back in a path as they do on a disk. -/
theorem collapse_eq_placeFrom (hdone : ∀ name ∈ done, Path.IsName name)
    (hnames : ∀ name ∈ names, '/' ∉ name) :
    Path.collapse true done names = placeFrom done.reverse names := by
  induction names generalizing done with
  | nil => rfl
  | cons first names ih =>
    obtain ⟨hfirst, hnames⟩ := List.forall_mem_cons.1 hnames
    rw [Path.collapse_cons, placeFrom]
    split
    · exact ih hdone hnames
    next hdot =>
    rw [not_or] at hdot
    by_cases hdots : first = ['.', '.']
    · rw [if_neg (not_not_intro hdots), if_pos hdots]
      cases done with
      | nil => exact ih hdone hnames
      | cons last before =>
        obtain ⟨hlast, hbefore⟩ := List.forall_mem_cons.1 hdone
        dsimp only
        rw [if_neg hlast.not_dots, ih hbefore hnames, List.reverse_cons, List.dropLast_concat]
    · rw [if_pos hdots, if_neg hdots, ← List.reverse_cons]
      exact ih (List.forall_mem_cons.2 ⟨⟨hdot.1, hdot.2, hdots, hfirst⟩, hdone⟩) hnames

theorem placeFrom_normalize (h : Path.isAbsolute path = true) :
    placeFrom [] (Path.parts (Path.normalize path)) = placeFrom [] (Path.parts path) := by
  have hnames : ∀ name ∈ Path.parts path, '/' ∉ name := fun _ => Path.not_mem_of_mem_parts
  have hkept := Path.isName_collapse (List.forall_mem_nil _) hnames
  rw [← placeFrom_filter, Path.parts_normalize h, placeFrom_of_isName hkept, List.nil_append]
  exact collapse_eq_placeFrom (List.forall_mem_nil _) hnames

/-- A path that is taken from another one is followed behind it. -/
theorem placeFrom_join (place : Place) (start : Text) (h : Path.isAbsolute path = false) :
    placeFrom place (Path.parts (Path.join start path)) =
      placeFrom (placeFrom place (Path.parts start)) (Path.parts path) := by
  unfold Path.join
  rw [h, if_neg Bool.false_ne_true]
  split
  · next hslash =>
    rw [Bool.or_eq_true] at hslash
    rcases hslash with hempty | hslash
    · rw [List.isEmpty_iff.1 hempty]
      rfl
    · obtain ⟨before, rfl⟩ := List.isSuffixOf_iff_suffix.1 hslash
      rw [List.append_assoc, List.singleton_append, Path.parts_append, Path.parts_append,
        placeFrom_append, placeFrom_append]
      rfl
  · rw [Path.parts_append, placeFrom_append]

theorem Named.placeFrom_pathOf (h : disk.Named) :
    placeFrom [] (Path.parts (pathOf disk.working)) = disk.working := by
  have hparts : Path.parts (pathOf disk.working) = [] :: Path.parts (Path.ofParts disk.working) :=
    Path.parts_append [] _
  rw [hparts]
  rcases eq_or_ne disk.working [] with hempty | hne
  · rw [hempty]
    rfl
  · rw [Path.parts_ofParts hne h.working]
    exact placeFrom_of_isName h.working

/-- A path and its normal form have one place. -/
theorem Named.placeOf_absolute (h : disk.Named) (path : String) :
    disk.placeOf (String.ofList (disk.absolute path)) = disk.placeOf path := by
  have hroot : Path.isAbsolute (Path.join (pathOf disk.working) path.toList) = true :=
    (Path.isAbsolute_join ..).trans (Bool.or_true _)
  unfold Disk.placeOf startOf absolute Path.absolute
  rw [String.toList_ofList, Path.isAbsolute_normalize hroot, if_pos rfl, placeFrom_normalize hroot]
  cases hpath : Path.isAbsolute path.toList with
  | true =>
    unfold Path.join
    rw [hpath, if_pos rfl, if_pos rfl]
  | false => rw [placeFrom_join [] _ hpath, h.placeFrom_pathOf, if_neg Bool.false_ne_true]

/-! ## Found files -/

/-- The path of something below a directory has its place. -/
theorem Named.placeOf_found (h : disk.Named) (target : String) (hne : names ≠ [])
    (hnames : ∀ name ∈ names, Path.IsName name) :
    disk.placeOf (String.ofList (Path.absolute (pathOf disk.working)
      (Path.join target.toList (Path.ofParts names)))) = disk.placeOf target ++ names := by
  have hpath := Path.isAbsolute_ofParts hnames
  have habsolute :=
    h.placeOf_absolute (String.ofList (Path.join target.toList (Path.ofParts names)))
  unfold absolute at habsolute
  rw [String.toList_ofList] at habsolute
  rw [habsolute]
  unfold Disk.placeOf startOf
  rw [String.toList_ofList, Path.isAbsolute_join, hpath, Bool.false_or, placeFrom_join _ _ hpath,
    Path.parts_ofParts hne hnames, placeFrom_of_isName hnames]

/-- What is taken from some of the elements of a list, at most once from each. -/
theorem sublist_filterMap {α β γ : Type} {take : α → Option β} {key : α → γ} {back : β → γ}
    (h : ∀ a b, take a = some b → back b = key a) (list : List α) :
    ((list.filterMap take).map back).Sublist (list.map key) := by
  induction list with
  | nil => exact .slnil
  | cons a list ih =>
    rw [List.filterMap_cons, List.map_cons]
    cases htake : take a with
    | none => exact ih.cons _
    | some b =>
      rw [← h a b htake]
      exact ih.cons_cons _

/-- Files below a place stand at places of their own. -/
theorem sublist_filesBelow (disk : Disk) (place : Place) :
    ((disk.filesBelow place).map (place ++ ·)).Sublist disk.entries.keys := by
  refine sublist_filterMap (fun (other, entry) names htake => ?_) _
  dsimp only at htake
  by_cases hprefix : place.isPrefixOf other = true
  · obtain ⟨more, rfl⟩ := List.isPrefixOf_iff_prefix.1 hprefix
    rw [if_pos hprefix, List.drop_left] at htake
    cases entry with
    | file _ =>
      cases htake
      rfl
    | directory => cases htake
  · rw [if_neg hprefix, ite_self] at htake
    cases htake

/-- Found files stand at different places. -/
theorem Named.nodup_findFiles (h : disk.Named) (target : String)
    (endings exclusions : List String) :
    ((disk.findFiles target endings exclusions).map disk.placeOf).Nodup := by
  unfold findFiles
  split
  · exact List.nodup_nil
  next place hfollow =>
  obtain rfl := (follow_eq_ok hfollow).2.2
  split
  · exact List.nodup_nil
  · split
    · exact List.nodup_singleton _
    · exact List.nodup_nil
  have hfiles := sublist_filesBelow disk (disk.placeOf target)
  rw [sorted, ((List.mergeSort_perm _ _).map _).nodup_iff, List.map_map,
    List.map_congr_left (g := (disk.placeOf target ++ ·))]
  · exact ((List.filter_sublist.map _).trans hfiles).nodup disk.entries.nodup
  · intro names hnames
    obtain ⟨hbelow, hkept⟩ := List.mem_filter.1 hnames
    obtain ⟨_, hentry⟩ := Table.mem_keys_iff.1 (hfiles.subset (List.mem_map_of_mem hbelow))
    have hne : names ≠ [] := by
      rintro rfl
      cases hkept
    rw [Function.comp_apply]
    exact h.placeOf_found target hne fun name hname =>
      h.entries hentry name (List.mem_append_right _ hname)

end PersistedQueries.Disk
