import Mathlib.Data.List.Basic
import PersistedQueries.Proofs.Disk.Changes
import PersistedQueries.Proofs.Text.Octets

/-!
# A replaced file is found again

A file is put into a directory under the last name of its path. Nothing that the path leads through
changes by that, so the path leads to the file afterwards, and every other path leads to what it led
to.

- `follow_of_slot`: a path leads to the place where it lets a file be put.
- `put_slot`: a file that is put there is found by the path, and no other file is touched.
- `writeOctets_eq_ok`, `replaceFile_eq`: what is written is read then, and nothing else is touched.
- `touches_replaceFile_error`: replacing a file that fails touches no file.
- `readText_writeJson`: so the text of a value that was written is the text that is read then.
-/

namespace PersistedQueries.Disk

variable {disk written : Disk} {place target : Place} {names : List Text} {path : String}
  {octets : List UInt8}

/-! ## The place of a path -/

theorem walk_append (disk : Disk) (place : Place) (names more : List Text) :
    walk disk place (names ++ more) = (walk disk place names).bind (walk disk · more) := by
  induction names generalizing place with
  | nil => rfl
  | cons name names ih =>
    rw [List.cons_append, walk, walk]
    cases checkDirectory disk place with
    | error cause => rfl
    | ok _ =>
      show (if _ then _ else _) = Except.bind (if _ then _ else _) _
      rw [ih, ih, ih]
      split
      · rfl
      split
      · rfl
      split <;> rfl

/-- The last name of a path that does not end in a slash is not empty. -/
theorem parts_of_not_endsInSlash {path : Text} (hpath : path ≠ [])
    (hslash : Path.endsInSlash path = false) :
    ∃ before last, Path.parts path = before ++ [last] ∧ last ≠ [] := by
  rcases List.eq_nil_or_concat' path with rfl | ⟨text, c, rfl⟩
  · exact absurd rfl hpath
  have hc : c ≠ '/' := by
    rintro rfl
    have hsuffix : Path.endsInSlash (text ++ ['/']) = true :=
      List.isSuffixOf_iff_suffix.2 (List.suffix_append text ['/'])
    cases hslash.symm.trans hsuffix
  obtain ⟨pieces, piece, heq⟩ := Text.splitOn_concat hc text
  exact ⟨pieces, piece ++ [c], heq,
    List.append_ne_nil_of_right_ne_nil piece (List.cons_ne_nil c [])⟩

/-- Where a path lets a file be put: under its last name, in the directory that the names before it
lead to. -/
theorem slot_eq_ok {dots slash : Cause} (h : disk.slot path dots slash = .ok place) :
    ∃ before last parent, Path.parts path.toList = before ++ [last] ∧
      checkPath path.toList = .ok () ∧
      walk disk (disk.startOf path.toList) before = .ok parent ∧
      checkDirectory disk parent = .ok () ∧ place = parent ++ [last] ∧
      last ≠ [] ∧ last ≠ ['.'] ∧ last ≠ ['.', '.'] ∧ isTooLong last = false := by
  simp only [slot, bind, Except.bind] at h
  split at h
  · cases h
  next hcheck =>
  split at h
  · cases h
  next last before hlast =>
  split at h
  · cases h
  next parent hparent =>
  split at h
  · cases h
  next hdirectory =>
  split at h
  · cases h
  next hshort =>
  split at h
  · cases h
  next hdots =>
  split at h
  · cases h
  next hslash =>
  cases h
  have hpath : path.toList ≠ [] := by
    intro hnil
    rw [hnil] at hcheck
    cases hcheck
  obtain ⟨names, final, hparts, hfinal⟩ :=
    parts_of_not_endsInSlash hpath (Bool.eq_false_iff.2 hslash)
  -- no empty name stands behind the last one
  rw [hparts, List.reverse_concat, List.dropWhile_cons_of_neg (by simpa using hfinal)] at hlast
  obtain ⟨rfl, rfl⟩ := List.cons.inj hlast
  rw [List.reverse_reverse] at hparent
  exact ⟨names, final, parent, hparts, hcheck, hparent, hdirectory, rfl, hfinal,
    fun h => hdots (.inl h), fun h => hdots (.inr h), Bool.eq_false_iff.2 hshort⟩

/-- A path leads to the place where it lets a file be put. -/
theorem follow_of_slot {dots slash : Cause} (h : disk.slot path dots slash = .ok place) :
    disk.follow path = .ok place := by
  obtain ⟨before, last, parent, hparts, hcheck, hparent, hdirectory, rfl, hne, hdot, hdots,
    hshort⟩ := slot_eq_ok h
  have hlast : walk disk parent [last] = .ok (parent ++ [last]) := by
    rw [walk_cons_eq_ok, placeFrom_single hne hdot hdots]
    exact ⟨hdirectory, hshort, rfl⟩
  unfold follow
  rw [hcheck, hparts]
  show walk disk (disk.startOf path.toList) (before ++ [last]) = _
  rw [walk_append, hparent]
  exact hlast

/-- The place of a path is where it lets a file be put. -/
theorem slot_eq_placeOf {dots slash : Cause} (h : disk.slot path dots slash = .ok place) :
    place = disk.placeOf path ∧ place ≠ [] := by
  obtain ⟨_, last, parent, -, -, -, -, hplace, -⟩ := slot_eq_ok h
  refine ⟨(follow_eq_ok (follow_of_slot h)).2.2, ?_⟩
  rw [hplace]
  exact List.append_ne_nil_of_right_ne_nil parent (List.cons_ne_nil last [])

/-! ## Writing -/

/-- A file that is put where a path lets it be put is found by the path, and no other file is
touched. -/
theorem put_slot {dots slash : Cause} (hslot : disk.slot path dots slash = .ok place)
    (hplace : disk.entry? place ≠ some .directory) :
    (disk.put place (.file octets)).readOctets path = .ok octets ∧
      Touches (· = disk.placeOf path) disk (disk.put place (.file octets)) := by
  obtain ⟨hpath, hne⟩ := slot_eq_placeOf hslot
  have hframe : Touches (· = place) disk (disk.put place (.file octets)) :=
    touches_put_file hplace fun h => hpath ▸ h.placeOf path
  refine ⟨?_, hpath ▸ hframe⟩
  unfold readOctets
  rw [hframe.follow (follow_of_slot hslot)]
  dsimp only
  rw [entry?_put_self hne]

/-- What is written is read then, and no other file is touched. -/
theorem writeOctets_eq_ok (h : disk.writeOctets path octets = .ok written) :
    written.readOctets path = .ok octets ∧ Touches (· = disk.placeOf path) disk written := by
  unfold writeOctets at h
  split at h
  · cases h
  next place hslot =>
  split at h
  · cases h
  next hentry =>
  cases h
  exact put_slot hslot hentry

theorem replace_eq_ok (h : disk.replace path octets = .ok written) :
    written.readOctets path = .ok octets ∧ Touches (· = disk.placeOf path) disk written := by
  simp only [replace, bind, Except.bind] at h
  split at h
  · cases h
  next place hslot =>
  split at h
  · cases h
  next hentry =>
  cases h
  exact put_slot hslot hentry

theorem touches_nextRefusal (disk : Disk) :
    Touches (fun _ => False) disk disk.nextRefusal.2 := by
  unfold nextRefusal
  split
  · exact .refl _ disk
  · exact ⟨⟨rfl, id, fun h => ⟨_, h⟩, fun _ => id, fun h => ⟨h.working, h.entries⟩⟩, fun _ => Iff.rfl⟩

/-- Replacing a file touches no other file, also when it fails; and what has been written is read
then. -/
theorem replaceFile_eq (disk : Disk) (path : String) (octets : List UInt8) :
    Touches (· = disk.placeOf path) disk (disk.replaceFile path octets).1 ∧
      ((disk.replaceFile path octets).2 = .ok () →
        (disk.replaceFile path octets).1.readOctets path = .ok octets) := by
  have hnext := (touches_nextRefusal disk).of_none (· = disk.placeOf path)
  unfold replaceFile
  generalize disk.nextRefusal = next at hnext
  obtain ⟨refusal, later⟩ := next
  dsimp only at hnext ⊢
  split
  · exact ⟨hnext, fun h => nomatch h⟩
  split
  · exact ⟨hnext, fun h => nomatch h⟩
  next made hmade =>
  have hmade := hnext.trans ((touches_makeDirectories hmade).of_none (· = disk.placeOf path))
  split
  · exact ⟨hmade, fun h => nomatch h⟩
  split
  · exact ⟨hmade, fun h => nomatch h⟩
  · next written hwritten =>
    obtain ⟨hread, hchanges⟩ := replace_eq_ok hwritten
    rw [hmade.placeOf] at hchanges
    exact ⟨hmade.trans hchanges, fun _ => hread⟩

/-- Replacing a file that fails touches no file. -/
theorem touches_replaceFile_error {fault : Fault}
    (h : (disk.replaceFile path octets).2 = .error fault) :
    Touches (fun _ => False) disk (disk.replaceFile path octets).1 := by
  have hnext := touches_nextRefusal disk
  unfold replaceFile at h ⊢
  generalize disk.nextRefusal = next at h hnext
  obtain ⟨refusal, later⟩ := next
  cases refusal with
  | some cause => exact hnext
  | none =>
  dsimp only at h hnext ⊢
  split
  · exact hnext
  next made hmade =>
  rw [hmade] at h
  dsimp only at h
  have hmade := hnext.trans (touches_makeDirectories hmade)
  split
  · exact hmade
  next hshort =>
  rw [if_neg hshort] at h
  split
  · exact hmade
  · next hwritten =>
    rw [hwritten] at h
    cases h

/-- The text of a value that was written is the text that is read then. -/
theorem readText_writeJson {value : Json} (hlines : '\r' ∉ Json.write Json.indented value)
    (h : disk.writeJson path value = (written, .ok ())) :
    written.readText path = .ok (Json.write Json.indented value) := by
  have hread := (replaceFile_eq disk path (jsonOctets value)).2
  unfold writeJson at h
  rw [h] at hread
  unfold readText
  rw [hread rfl]
  dsimp only [jsonOctets]
  rw [Utf8.decode_encode]
  exact congrArg Except.ok (Text.normalizeNewlines_of_not_mem hlines)

end PersistedQueries.Disk
