import PersistedQueries.Command.Run
import PersistedQueries.Proofs.Disk.Replacing

/-!
# Writing transformed files

Transformed files are written one after the other: first the directory for one of them, then the
file, then its source map. Any of these steps may fail, and what has been written by then stays.

- `Passes`: the disks that writing passes through, with what has been written by then.
- `passes_writeTransforms`: the disk that is left is one of them.
- `Passes.touches`: in between no other file is touched.
- `Passes.entry?_eq`: a file that has been written holds the text of a transformed file, one that
  has been written last to the same place.
-/

namespace PersistedQueries

namespace Command

open Session (Transformed)
open Disk (Touches)

variable {arguments : Arguments} {target file path : String} {disk made coded later : Disk}
  {transformed : Transformed} {transforms rest : List (String × Transformed)} {place : Disk.Place}

/-- A transformed file that has been written, with the path at which it has. -/
structure Written where
  /-- The source file. -/
  file : String
  /-- The path of the transformed file. -/
  path : String
  /-- The transformed text. -/
  made : Transformed

/-- The disk with the directory for a transformed file. -/
def roomFor (disk : Disk) (arguments : Arguments) (path : String) : Except Disk.Fault Disk :=
  if (Settings.given arguments.outDir).isSome then
    disk.makeDirectories (Path.directory (disk.absolute path))
  else .ok disk

/-- The disks that writing transformed files passes through, with what has been written by then. -/
inductive Passes (arguments : Arguments) (target : String) :
    Disk → List (String × Transformed) → List Written → Disk → Prop where
  | start {disk : Disk} {transforms : List (String × Transformed)} :
      Passes arguments target disk transforms [] disk
  | room {disk made : Disk} {file : String} {transformed : Transformed}
      {rest : List (String × Transformed)}
      (room_eq : roomFor disk arguments (destination disk arguments target file) = .ok made) :
      Passes arguments target disk ((file, transformed) :: rest) [] made
  | code {disk made coded : Disk} {file : String} {transformed : Transformed}
      {rest : List (String × Transformed)}
      (room_eq : roomFor disk arguments (destination disk arguments target file) = .ok made)
      (code_eq : made.writeOctets (destination disk arguments target file)
        (Utf8.encode transformed.spliced.code) = .ok coded) :
      Passes arguments target disk ((file, transformed) :: rest)
        [⟨file, destination disk arguments target file, transformed⟩] coded
  | next {disk made later : Disk} {file : String} {transformed : Transformed}
      {rest : List (String × Transformed)} {written : List Written}
      (one_eq : writeOne disk arguments (destination disk arguments target file) transformed =
        (made, .ok ()))
      (passes : Passes arguments target made rest written later) :
      Passes arguments target disk ((file, transformed) :: rest)
        (⟨file, destination disk arguments target file, transformed⟩ :: written) later

/-! ## One file -/

/-- What writing one transformed file leaves: it stops when there is no room for the file, when the
file cannot be written, or when its source map cannot. -/
inductive WritesOne (disk : Disk) (arguments : Arguments) (path : String)
    (transformed : Transformed) : Disk × Except Disk.Fault Unit → Prop where
  | noRoom {fault : Disk.Fault} : WritesOne disk arguments path transformed (disk, .error fault)
  | noCode {made : Disk} {fault : Disk.Fault} (room_eq : roomFor disk arguments path = .ok made) :
      WritesOne disk arguments path transformed (made, .error fault)
  | noMap {made coded : Disk} {fault : Disk.Fault}
      (room_eq : roomFor disk arguments path = .ok made)
      (code_eq : made.writeOctets path (Utf8.encode transformed.spliced.code) = .ok coded) :
      WritesOne disk arguments path transformed (coded, .error fault)
  | code {made coded : Disk} (room_eq : roomFor disk arguments path = .ok made)
      (code_eq : made.writeOctets path (Utf8.encode transformed.spliced.code) = .ok coded) :
      WritesOne disk arguments path transformed (coded, .ok ())
  | map {made coded mapped : Disk} (room_eq : roomFor disk arguments path = .ok made)
      (code_eq : made.writeOctets path (Utf8.encode transformed.spliced.code) = .ok coded)
      (isMapped : arguments.sourceMaps = true)
      (map_eq : coded.writeOctets (path ++ ".map") (Utf8.encode (mapText transformed path)) =
        .ok mapped) :
      WritesOne disk arguments path transformed (mapped, .ok ())

theorem writesOne (disk : Disk) (arguments : Arguments) (path : String)
    (transformed : Transformed) :
    WritesOne disk arguments path transformed (writeOne disk arguments path transformed) := by
  unfold writeOne
  dsimp only
  rw [← roomFor]
  split
  · exact .noRoom
  next made hmade =>
  split
  · exact .noCode hmade
  next coded hcoded =>
  split
  · next hmaps =>
    split
    · exact .noMap hmade hcoded
    · next mapped hmapped => exact .map hmade hcoded hmaps hmapped
  · exact .code hmade hcoded

/-- The disk that is left by writing transformed files is one that it passes through, with all of
them written if it is done. -/
theorem passes_writeTransforms (disk : Disk) (arguments : Arguments) (target : String)
    (transforms : List (String × Transformed)) :
    ∃ written, Passes arguments target disk transforms written
        (writeTransforms disk arguments target transforms).1 ∧
      ((writeTransforms disk arguments target transforms).2.2 = .ok () →
        written.map (fun one => (one.file, one.made)) = transforms) := by
  induction transforms generalizing disk with
  | nil => exact ⟨[], .start, fun _ => rfl⟩
  | cons transform rest ih =>
    obtain ⟨file, transformed⟩ := transform
    have hone := writesOne disk arguments (destination disk arguments target file) transformed
    unfold writeTransforms
    dsimp only
    generalize houtcome : writeOne disk arguments (destination disk arguments target file)
      transformed = outcome at hone
    cases hone with
    | noRoom => exact ⟨[], .start, nofun⟩
    | noCode hmade => exact ⟨[], .room hmade, nofun⟩
    | noMap hmade hcoded => exact ⟨_, .code hmade hcoded, nofun⟩
    | @code made coded hmade hcoded =>
      obtain ⟨written, hpasses, hall⟩ := ih coded
      exact ⟨_, .next houtcome hpasses, fun h => congrArg ((file, transformed) :: ·) (hall h)⟩
    | @map made coded mapped hmade hcoded hmaps hmapped =>
      obtain ⟨written, hpasses, hall⟩ := ih mapped
      exact ⟨_, .next houtcome hpasses, fun h => congrArg ((file, transformed) :: ·) (hall h)⟩

/-! ## In place -/

/-- Without another directory a file is written to its own path. -/
theorem destination_inPlace (hout : Settings.given arguments.outDir = none) (disk : Disk)
    (file : String) : destination disk arguments target file = file := by
  unfold destination
  rw [hout]

/-- One file is written in place if its text can be. -/
theorem writeTransforms_inPlace (hout : Settings.given arguments.outDir = none)
    (hmaps : arguments.sourceMaps = false)
    (hcoded : disk.writeOctets file (Utf8.encode transformed.spliced.code) = .ok coded) :
    (writeTransforms disk arguments target [(file, transformed)]).2.2 = .ok () := by
  have hone : writeOne disk arguments file transformed = (coded, .ok ()) := by
    unfold writeOne
    rw [hout]
    dsimp only [Option.isSome_none, Bool.false_eq_true, if_false]
    rw [if_neg Bool.false_ne_true]
    dsimp only
    rw [hcoded, hmaps]
    rfl
  unfold writeTransforms
  dsimp only
  rw [destination_inPlace hout, hone]
  rfl

/-! ## What changes -/

/-- The place of a transformed file, or of its source map if there is to be one. -/
def Written.places (arguments : Arguments) (disk : Disk) (one : Written) (place : Disk.Place) :
    Prop :=
  place = disk.placeOf one.path ∨
    arguments.sourceMaps = true ∧ place = disk.placeOf (one.path ++ ".map")

theorem touches_roomFor (h : roomFor disk arguments path = .ok made) :
    Touches (fun _ => False) disk made := by
  unfold roomFor at h
  split at h
  · exact Disk.touches_makeDirectories h
  · cases h
    exact .refl _ _

/-- The file that is written is the only one that is touched. -/
theorem touches_code (hmade : roomFor disk arguments path = .ok made)
    (hcoded : made.writeOctets path (Utf8.encode transformed.spliced.code) = .ok coded) :
    Touches (· = disk.placeOf path) disk coded ∧
      coded.follow path = .ok (disk.placeOf path) ∧
      coded.entry? (disk.placeOf path) = some (.file (Utf8.encode transformed.spliced.code)) := by
  obtain ⟨hread, hframe⟩ := Disk.writeOctets_eq_ok hcoded
  have hroom := touches_roomFor hmade
  rw [hroom.placeOf] at hframe
  have hall := (hroom.of_none (· = disk.placeOf path)).trans hframe
  have hread := Disk.readOctets_eq_ok.1 hread
  rw [hall.placeOf] at hread
  exact ⟨hall, hread⟩

/-- What a transformed file and its source map touch. The file has the transformed text, unless its
own source map stands there. -/
theorem writeOne_eq_ok (file : String)
    (h : writeOne disk arguments path transformed = (made, .ok ())) :
    Touches (Written.places arguments disk ⟨file, path, transformed⟩) disk made ∧
      made.follow path = .ok (disk.placeOf path) ∧
      ((arguments.sourceMaps = true → disk.placeOf (path ++ ".map") ≠ disk.placeOf path) →
        made.entry? (disk.placeOf path) =
          some (.file (Utf8.encode transformed.spliced.code))) := by
  have hone := writesOne disk arguments path transformed
  rw [h] at hone
  cases hone with
  | code hmade hcoded =>
    obtain ⟨hframe, hfollow, hentry⟩ := touches_code hmade hcoded
    exact ⟨hframe.mono fun place => .inl, hfollow, fun _ => hentry⟩
  | map hmade hcoded hmaps hmapped =>
    obtain ⟨hframe, hfollow, hentry⟩ := touches_code hmade hcoded
    obtain ⟨-, hmap⟩ := Disk.writeOctets_eq_ok hmapped
    rw [hframe.placeOf] at hmap
    exact ⟨(hframe.mono fun place => .inl).trans
        (hmap.mono fun place hplace => .inr ⟨hmaps, hplace⟩),
      hmap.follow hfollow, fun hother => hmap.file (Ne.symm (hother hmaps)) hentry⟩

namespace Passes

variable {written : List Written} {one : Written}

/-- Nothing is touched but the files that have been written and their source maps. -/
theorem touches (h : Passes arguments target disk transforms written later) :
    Touches (fun place => ∃ one ∈ written, one.places arguments disk place) disk later := by
  induction h with
  | start => exact .refl _ _
  | room hroom => exact (touches_roomFor hroom).of_none _
  | code hroom hcode =>
    exact (touches_code hroom hcode).1.mono fun place hplace =>
      ⟨_, List.mem_singleton_self _, .inl hplace⟩
  | @next disk made later file transformed rest written hone _ ih =>
    have hframe := (writeOne_eq_ok file hone).1
    refine (hframe.mono fun place hplace => ⟨_, List.mem_cons_self, hplace⟩).trans
      (ih.mono fun place => ?_)
    rintro ⟨other, hother, hplace⟩
    refine ⟨other, List.mem_cons_of_mem _ hother, ?_⟩
    unfold Written.places at hplace ⊢
    rwa [hframe.placeOf, hframe.placeOf] at hplace

/-- What has been written are transformed files. -/
theorem mem_transforms (h : Passes arguments target disk transforms written later)
    (hone : one ∈ written) : (one.file, one.made) ∈ transforms := by
  induction h with
  | start => cases hone
  | room _ => cases hone
  | code _ _ =>
    cases List.mem_singleton.1 hone
    exact List.mem_cons_self
  | next _ _ ih =>
    rcases List.mem_cons.1 hone with rfl | hone
    · exact List.mem_cons_self
    · exact List.mem_cons_of_mem _ (ih hone)

/-- Without another directory every file that has been written is at its own path. -/
theorem path_eq (h : Passes arguments target disk transforms written later)
    (hout : Settings.given arguments.outDir = none) (hone : one ∈ written) :
    one.path = one.file := by
  induction h with
  | start => cases hone
  | room _ => cases hone
  | code _ _ =>
    cases List.mem_singleton.1 hone
    exact destination_inPlace hout _ _
  | next _ _ ih =>
    rcases List.mem_cons.1 hone with rfl | hone
    · exact destination_inPlace hout _ _
    · exact ih hone

/-- The path of a file that has been written leads to its place. -/
theorem follow (h : Passes arguments target disk transforms written later) (hone : one ∈ written) :
    later.follow one.path = .ok (disk.placeOf one.path) := by
  induction h with
  | start => cases hone
  | room _ => cases hone
  | code hroom hcode =>
    cases List.mem_singleton.1 hone
    exact (touches_code hroom hcode).2.1
  | @next disk made later file transformed rest written hfirst hrest ih =>
    obtain ⟨hframe, hfollow, -⟩ := writeOne_eq_ok file hfirst
    rcases List.mem_cons.1 hone with rfl | hone
    · exact hrest.touches.follow hfollow
    · rw [← hframe.placeOf]
      exact ih hone

/-- At a place where transformed files have been written, and no source map, stands the text of one
of them. -/
theorem entry?_eq (h : Passes arguments target disk transforms written later)
    (hmaps : ∀ one ∈ written, arguments.sourceMaps = true →
      disk.placeOf (one.path ++ ".map") ≠ place)
    (hone : one ∈ written) (hplace : disk.placeOf one.path = place) :
    ∃ last ∈ written, disk.placeOf last.path = place ∧
      later.entry? place = some (.file (Utf8.encode last.made.spliced.code)) := by
  induction h generalizing one with
  | start => cases hone
  | room _ => cases hone
  | code hroom hcode =>
    cases List.mem_singleton.1 hone
    exact ⟨_, List.mem_singleton_self _, hplace, hplace ▸ (touches_code hroom hcode).2.2⟩
  | @next disk made later file transformed rest written hfirst hrest ih =>
    obtain ⟨hframe, -, hentry⟩ := writeOne_eq_ok file hfirst
    simp only [hframe.placeOf] at ih
    obtain ⟨hown, hmaps'⟩ := List.forall_mem_cons.1 hmaps
    dsimp only at hown
    -- what is written later to the same place takes the place of what is written now
    by_cases hlater : ∃ other ∈ written, disk.placeOf other.path = place
    · obtain ⟨other, hother, heq⟩ := hlater
      obtain ⟨last, hlast, hsame, hread⟩ := ih hmaps' hother heq
      exact ⟨last, List.mem_cons_of_mem _ hlast, hsame, hread⟩
    · rcases List.mem_cons.1 hone with rfl | hone
      swap
      · exact absurd ⟨one, hone, hplace⟩ hlater
      refine ⟨_, List.mem_cons_self, hplace, ?_⟩
      dsimp only at hplace
      rw [hplace] at hentry
      have hfile := hentry hown
      refine hrest.touches.file ?_ hfile
      rintro ⟨other, hother, hsame | ⟨hmap, hsame⟩⟩ <;> rw [hframe.placeOf] at hsame
      · exact hlater ⟨other, hother, hsame.symm⟩
      · exact hmaps' other hother hmap hsame.symm

end Passes

end Command

end PersistedQueries
