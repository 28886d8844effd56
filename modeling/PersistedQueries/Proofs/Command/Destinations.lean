import PersistedQueries.Proofs.Command.Outputs
import PersistedQueries.Proofs.Disk.Relative

/-!
# Where transformed files go

With a directory for transformed files, each goes below it, under the names that lead to its source
file from the directory that has been searched. So no two of them go to one place, and none goes
anywhere else.

- `sourceRoot`: the directory that has been searched, or the one of the file.
- `destination_of_found`: the destination of a found file has its names below the source root.
- `Passes.path_eq_destination`: files are written to their destinations, whatever has been written
  before them.
-/

namespace PersistedQueries.Command

open Disk (Touches)

variable {arguments : Arguments} {target file outDir : String} {disk later : Disk}
  {endings exclusions : List String}

/-- The directory that destinations are relative to. -/
def sourceRoot (disk : Disk) (target : String) : String :=
  if disk.isDirectory target then target else String.ofList (Path.directory target.toList)

/-- Files below a place have names. -/
theorem isName_of_mem_filesBelow (h : disk.Named) {place names : Disk.Place}
    (hbelow : names ∈ disk.filesBelow place) : ∀ name ∈ names, Path.IsName name := by
  have hmem := (Disk.sublist_filesBelow disk place).subset (List.mem_map_of_mem hbelow)
  obtain ⟨_, hentry⟩ := Table.mem_keys_iff.1 hmem
  exact fun name hname => h.entries hentry name (List.mem_append_right place hname)

theorem isDirectory_iff {place : Disk.Place} (h : disk.follow target = .ok place) :
    disk.isDirectory target = true ↔ disk.entry? place = some .directory := by
  unfold Disk.isDirectory Disk.find?
  rw [h]
  dsimp only
  cases disk.entry? place with
  | none => exact ⟨nofun, nofun⟩
  | some entry =>
    cases entry with
    | directory => exact ⟨fun _ => rfl, fun _ => rfl⟩
    | file octets => exact ⟨nofun, nofun⟩

/-- A found file stands below the source root. -/
theorem placeOf_of_mem_findFiles (hnamed : disk.Named) (hstanding : disk.Standing)
    (h : file ∈ disk.findFiles target endings exclusions) :
    ∃ names, names ≠ [] ∧ (∀ name ∈ names, Path.IsName name) ∧
      disk.placeOf file = disk.placeOf (sourceRoot disk target) ++ names := by
  unfold Disk.findFiles at h
  split at h
  · cases h
  next place hfollow =>
  have hdirectory := isDirectory_iff hfollow
  unfold sourceRoot
  split at h
  · cases h
  · next octets hentry =>
    rw [if_neg (mt hdirectory.1 (by rw [hentry]; exact nofun))]
    split at h
    · rw [List.mem_singleton.1 h, hnamed.placeOf_absolute]
      exact ⟨_, List.cons_ne_nil _ [],
        List.forall_mem_singleton.2 (hstanding.isName_base hfollow hentry),
        hstanding.placeOf_file hfollow hentry⟩
    · cases h
  · next hentry =>
    rw [if_pos (hdirectory.2 hentry)]
    obtain ⟨names, hnames, rfl⟩ := List.mem_map.1 ((List.mergeSort_perm _ _).mem_iff.1 h)
    obtain ⟨hbelow, hkept⟩ := List.mem_filter.1 hnames
    have hne : names ≠ [] := by
      rintro rfl
      cases hkept
    have hnames := isName_of_mem_filesBelow hnamed hbelow
    exact ⟨names, hne, hnames, hnamed.placeOf_found target hne hnames⟩

/-- With a directory for transformed files, the destination of a found file has the names of the file
below the source root. -/
theorem destination_of_found (hnamed : disk.Named) (hstanding : disk.Standing)
    (hout : Settings.given arguments.outDir = some outDir)
    (h : file ∈ disk.findFiles target endings exclusions) :
    ∃ names, names ≠ [] ∧ (∀ name ∈ names, Path.IsName name) ∧
      disk.placeOf file = disk.placeOf (sourceRoot disk target) ++ names ∧
      disk.placeOf (destination disk arguments target file) = disk.placeOf outDir ++ names := by
  obtain ⟨names, hne, hnames, hplace⟩ := placeOf_of_mem_findFiles hnamed hstanding h
  refine ⟨names, hne, hnames, hplace, ?_⟩
  have hroot : disk.placeOf (sourceRoot disk target) = disk.placeOf (String.ofList
      (Path.absolute (Disk.pathOf disk.working) (sourceRoot disk target).toList)) :=
    (hnamed.placeOf_absolute _).symm
  have hdestination : destination disk arguments target file =
      String.ofList (Path.join outDir.toList (Path.relativeTo (Disk.pathOf disk.working)
        (Path.absolute (Disk.pathOf disk.working) (sourceRoot disk target).toList)
        file.toList)) := by
    unfold destination sourceRoot
    rw [hout]
    dsimp only
    split <;> simp only [String.toList_ofList]
  rw [hdestination, hnamed.relativeTo_eq hne (hplace.trans (congrArg (· ++ names) hroot)),
    Disk.placeOf_join disk _ hne hnames, String.ofList_toList]

/-! ## While files are written -/

/-- Something stands where the path leads. -/
def Leads (disk : Disk) (path : String) : Prop :=
  ∃ place entry, disk.follow path = .ok place ∧ disk.entry? place = some entry

/-- What a search finds, it finds where its target leads. -/
theorem leads_of_mem_findFiles (h : file ∈ disk.findFiles target endings exclusions) :
    Leads disk target := by
  unfold Disk.findFiles at h
  split at h
  · cases h
  next place hfollow =>
  split at h
  · cases h
  · next hentry => exact ⟨place, _, hfollow, hentry⟩
  · next hentry => exact ⟨place, _, hfollow, hentry⟩

section Changes

variable {places : Disk.Place → Prop}

theorem Leads.of_touches (h : Leads disk target) (hchanges : Touches places disk later) :
    Leads later target := by
  obtain ⟨place, entry, hfollow, hentry⟩ := h
  cases entry with
  | directory => exact ⟨place, _, hchanges.follow hfollow, hchanges.directory hentry⟩
  | file octets =>
    obtain ⟨_, hlater⟩ := hchanges.isFile hentry
    exact ⟨place, _, hchanges.follow hfollow, hlater⟩

/-- Destinations stay where they are. -/
theorem destination_of_touches (h : Leads disk target)
    (hchanges : Touches places disk later) (arguments : Arguments) (file : String) :
    destination later arguments target file = destination disk arguments target file := by
  obtain ⟨place, entry, hfollow, hentry⟩ := h
  have hdirectory : later.isDirectory target = disk.isDirectory target := by
    rw [Bool.eq_iff_iff, isDirectory_iff hfollow, isDirectory_iff (hchanges.follow hfollow)]
    refine ⟨fun hlater => ?_, hchanges.directory⟩
    cases entry with
    | directory => exact hentry
    | file octets =>
      obtain ⟨_, hfile⟩ := hchanges.isFile hentry
      cases hfile.symm.trans hlater
  unfold destination
  rw [hdirectory, hchanges.working]

end Changes

/-- Files are written to their destinations, whatever has been written before them. -/
theorem Passes.path_eq_destination {transforms : List (String × Session.Transformed)}
    {written : List Written} {one : Written}
    (h : Passes arguments target disk transforms written later) (hleads : Leads disk target)
    (hone : one ∈ written) : one.path = destination disk arguments target one.file := by
  induction h with
  | start => cases hone
  | room _ => cases hone
  | code _ _ =>
    cases List.mem_singleton.1 hone
    rfl
  | @next disk made later file transformed rest written hfirst _ ih =>
    have hchanges := (writeOne_eq_ok file hfirst).1
    rcases List.mem_cons.1 hone with rfl | hone
    · rfl
    · rw [← destination_of_touches hleads hchanges]
      exact ih (hleads.of_touches hchanges) hone

end PersistedQueries.Command
