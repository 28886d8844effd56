import Mathlib.Data.List.Basic
import PersistedQueries.Proofs.Disk.Absolute
import PersistedQueries.Proofs.Disk.Replacing

/-!
# The temporary file on the way

Replacing a file at once goes by a temporary file, which is in nobody's way: its name is drawn until
nothing has it, and it is gone afterwards. Here the way is spelled out: the temporary file is
written beside the target and moved over it, and it is removed when the writing breaks off or the
move fails. Whatever name is drawn, this ends with the disk that replacing the file ends with.

- `IsDrawn`, `drawnPath`: the characters that are drawn, and the path of the temporary file.
- `rename`, `replaceThrough`: moving a file over another one, and the whole way.
- `Room`: a temporary file can be written, and it can be taken away without a trace.
- `room_of_makeDirectories`: there is room for it once its directory has been made.
- `replaceThrough_stages`: what is left of the whole way, at each of its stages.
- `replaceThrough_eq`, `replaceThrough_broken`: it ends as replacing the file does, and it leaves no
  file behind when the writing breaks off.
- `writeJson_atomic`: a value is written to its path and nowhere else, or nothing is.
-/

namespace PersistedQueries

/-- A new key that is taken out again leaves the table as it was. -/
theorem Table.erase_insert {κ α : Type} [DecidableEq κ] {table : Table κ α} {key : κ} {value : α}
    (h : table.get? key = none) : (table.insert key value).erase key = table := by
  have hnew : key ∉ table.entries.map Prod.fst := by
    intro hmem
    obtain ⟨value, hvalue⟩ := mem_keys_iff.1 hmem
    cases h.symm.trans hvalue
  have hentries : (put key value table.entries).filter (fun entry => entry.1 ≠ key) =
      table.entries := by
    rw [put_of_not_mem hnew, List.filter_append, List.filter_eq_self.2]
    · simp
    · intro entry hentry
      have hne : entry.1 ≠ key := fun heq => hnew (heq ▸ List.mem_map_of_mem hentry)
      simpa using hne
  unfold insert erase
  cases table
  congr

namespace Disk

variable {disk made : Disk} {place target : Place} {names : List Text} {name start drawn : Text}
  {path : String} {octets : List UInt8}

/-! ## Temporary files -/

/-- The characters that are drawn for the name of a temporary file: eight small letters, digits and
underscores. -/
structure IsDrawn (drawn : Text) : Prop where
  length_eq : drawn.length = 8
  isPlain : ∀ c ∈ drawn, (c.isLower || c.isDigit || c = '_') = true

/-- The name of the temporary file for which some characters are drawn. -/
def drawnName (drawn : Text) : Text := ".tmp-".toList ++ drawn ++ ".json".toList

/-- The path of the temporary file for a path. -/
def drawnPath (disk : Disk) (drawn : Text) (path : String) : String :=
  String.ofList (Path.join (disk.parentOf path) (drawnName drawn))

/-- Move a file to where a path leads, in the place of what stands there. -/
def rename (disk : Disk) (source target : String) : Except Cause Disk := do
  let octets ← (disk.readOctets source).mapError Fault.cause
  let gone ← (disk.remove source).mapError Fault.cause
  gone.replace target octets

/-- Replace a file by way of a temporary file. Some octets are written to the temporary file, and it
is moved over the target, unless the writing breaks off. When it does, or the move fails, the
temporary file is removed. -/
def replaceThrough (disk : Disk) (drawn : Text) (path : String) (octets : List UInt8)
    (broken : Option Cause) : Disk × Except Fault Unit :=
  let (refusal, disk) := disk.nextRefusal
  match refusal with
  | some cause => (disk, .error ⟨cause, disk.drawnPath drawn path, none⟩)
  | none =>
    match disk.makeDirectories (disk.parentOf path) with
    | .error fault => (disk, .error fault)
    | .ok made =>
      let temporary := made.drawnPath drawn path
      match made.writeOctets temporary octets with
      | .error fault => (made, .error fault)
      | .ok filled =>
        let moved : Except Cause Disk :=
          match broken with
          | some cause => .error cause
          | none => filled.rename temporary path
        match moved with
        | .ok renamed => (renamed, .ok ())
        | .error cause =>
          ((filled.remove temporary).toOption.getD filled, .error ⟨cause, temporary, some path⟩)

/-! ## Drawn names -/

theorem eq_of_isPlain {c : Char} (h : (c.isLower || c.isDigit || c = '_') = true) :
    c.utf8Size = 1 ∧ c ≠ '/' ∧ c ≠ '\x00' := by
  refine ⟨?_, ?_, ?_⟩
  · rw [Char.utf8Size_eq_one_iff]
    rw [Bool.or_eq_true, Bool.or_eq_true, decide_eq_true_eq] at h
    rcases h with (hlower | hdigit) | rfl
    · have hrange : (decide ('a'.val ≤ c.val) && decide (c.val ≤ 'z'.val)) = true := hlower
      rw [Bool.and_eq_true, decide_eq_true_eq, decide_eq_true_eq] at hrange
      exact UInt32.le_trans hrange.2 (by decide)
    · have hrange : (decide ('0'.val ≤ c.val) && decide (c.val ≤ '9'.val)) = true := hdigit
      rw [Bool.and_eq_true, decide_eq_true_eq, decide_eq_true_eq] at hrange
      exact UInt32.le_trans hrange.2 (by decide)
    · decide
  · rintro rfl
    cases h
  · rintro rfl
    cases h

theorem utf8ByteSize_of_forall {text : Text} (h : ∀ c ∈ text, c.utf8Size = 1) :
    (String.ofList text).utf8ByteSize = text.length := by
  induction text with
  | nil => rfl
  | cons c text ih =>
    obtain ⟨hc, htext⟩ := List.forall_mem_cons.1 h
    rw [String.ofList_cons, String.utf8ByteSize_append, String.utf8ByteSize_singleton, hc, ih htext,
      List.length_cons, Nat.add_comm]

/-- No character of a drawn name means anything in a path, and each is one octet. -/
theorem IsDrawn.forall_mem (h : IsDrawn drawn) :
    ∀ c ∈ drawnName drawn, c.utf8Size = 1 ∧ c ≠ '/' ∧ c ≠ '\x00' := by
  have hother : ".tmp-.json".toList.all
      (fun c => decide (c.utf8Size = 1 ∧ c ≠ '/' ∧ c ≠ '\x00')) = true := by decide
  intro c hc
  rcases List.mem_append.1 hc with hc | hc
  · rcases List.mem_append.1 hc with hc | hc
    · exact of_decide_eq_true (List.all_eq_true.1 hother c (List.mem_append_left ".json".toList hc))
    · exact eq_of_isPlain (h.isPlain c hc)
  · exact of_decide_eq_true (List.all_eq_true.1 hother c (List.mem_append_right ".tmp-".toList hc))

theorem IsDrawn.isName (h : IsDrawn drawn) : Path.IsName (drawnName drawn) where
  nonempty := List.cons_ne_nil _ _
  not_dot := nofun
  not_dots := nofun
  no_slash hmem := (h.forall_mem _ hmem).2.1 rfl

theorem IsDrawn.no_null (h : IsDrawn drawn) : '\x00' ∉ drawnName drawn := by
  intro hmem
  exact (h.forall_mem _ hmem).2.2 rfl

/-- A drawn name has as many octets as one with masked characters. -/
theorem IsDrawn.utf8ByteSize_eq (h : IsDrawn drawn) :
    (String.ofList (drawnName drawn)).utf8ByteSize = 18 := by
  rw [utf8ByteSize_of_forall fun c hc => (h.forall_mem c hc).1]
  unfold drawnName
  rw [List.length_append, List.length_append, h.length_eq]
  rfl

theorem IsDrawn.not_isTooLong (h : IsDrawn drawn) : isTooLong (drawnName drawn) = false := by
  rw [isTooLong, h.utf8ByteSize_eq]
  rfl

/-! ## Names in a directory -/

/-- The path of a name in a directory leads through the directory. -/
theorem join_name_cases (hname : Path.IsName name) (hstart : Path.isAbsolute start = true)
    (hwalk : walk disk [] (Path.parts start) = .ok place) :
    ∃ before names, Path.join start name = before ++ name ∧
      Path.parts (Path.join start name) = names ++ [name] ∧ walk disk [] names = .ok place := by
  have hrelative : Path.isAbsolute name = false :=
    Path.isAbsolute_ofParts (List.forall_mem_singleton.2 hname)
  have hparts : Path.parts name = [name] := Text.splitOn_of_not_mem hname.no_slash
  obtain ⟨rest, hroot⟩ := Path.isAbsolute_iff.1 hstart
  have hnonempty : start.isEmpty = false := by rw [hroot]; rfl
  unfold Path.join
  rw [hrelative, if_neg Bool.false_ne_true, hnonempty, Bool.false_or]
  cases hslash : Path.endsInSlash start with
  | true =>
    -- the empty name behind the last slash leads nowhere else
    obtain ⟨before, rfl⟩ := List.isSuffixOf_iff_suffix.1 hslash
    have hends : Path.parts (before ++ ['/']) = Path.parts before ++ [[]] := Path.parts_append _ _
    rw [hends, walk_append] at hwalk
    refine ⟨before ++ ['/'], Path.parts before, rfl, ?_, ?_⟩
    · rw [if_pos rfl, List.append_assoc, List.singleton_append, Path.parts_append, hparts]
    · cases hbefore : walk disk [] (Path.parts before) with
      | error cause =>
        rw [hbefore] at hwalk
        cases hwalk
      | ok middle =>
        rw [hbefore] at hwalk
        exact congrArg Except.ok (walk_eq_ok hwalk).symm
  | false =>
    refine ⟨start ++ ['/'], Path.parts start, ?_, ?_, hwalk⟩
    · rw [if_neg Bool.false_ne_true, List.append_assoc, List.singleton_append]
    · rw [if_neg Bool.false_ne_true, Path.parts_append, hparts]

/-- A file can be put under a name into a directory. -/
theorem slot_join (hname : Path.IsName name) (hshort : isTooLong name = false)
    (hstart : Path.isAbsolute start = true) (hcheck : checkPath (Path.join start name) = .ok ())
    (hwalk : walk disk [] (Path.parts start) = .ok place)
    (hplace : disk.entry? place = some .directory) (dots slash : Cause) :
    disk.slot (String.ofList (Path.join start name)) dots slash = .ok (place ++ [name]) := by
  obtain ⟨before, names, hjoin, hparts, hnames⟩ := join_name_cases hname hstart hwalk
  have hroot : Path.isAbsolute (Path.join start name) = true := by
    rw [Path.isAbsolute_join, hstart, Bool.or_true]
  have hends : Path.endsInSlash (Path.join start name) = false :=
    hjoin ▸ endsInSlash_append before hname
  have hdirectory : disk.checkDirectory place = .ok () := by rw [checkDirectory, hplace]
  simp only [slot, bind, Except.bind, String.toList_ofList]
  rw [hcheck, hparts, List.reverse_concat,
    List.dropWhile_cons_of_neg (by simpa using hname.nonempty), startOf, if_pos hroot]
  dsimp only
  rw [List.reverse_reverse, hnames]
  dsimp only
  rw [hdirectory]
  dsimp only
  rw [hshort, if_neg Bool.false_ne_true, if_neg (not_or.2 ⟨hname.not_dot, hname.not_dots⟩), hends,
    if_neg Bool.false_ne_true]

/-! ## Directories that have been made -/

/-- Directories that are made can be gone through, and nothing changes below the last one. -/
theorem makeFrom_eq_ok {root : Text} (hplace : ∀ name ∈ place, Path.IsName name)
    (hnames : ∀ name ∈ names, Path.IsName name) (h : makeFrom root disk place names = .ok made) :
    walk made place names = .ok (place ++ names) ∧
      made.entry? (place ++ names) = some .directory ∧ (∀ name ∈ names, hasNull name = false) ∧
      ∀ other : Place, (place ++ names).length < other.length →
        made.entry? other = disk.entry? other := by
  induction names generalizing disk place with
  | nil =>
    rw [makeFrom] at h
    split at h
    · next hentry =>
      cases h
      rw [List.append_nil]
      exact ⟨rfl, hentry, List.forall_mem_nil _, fun _ _ => rfl⟩
    · cases h
  | cons name names ih =>
    obtain ⟨hname, hrest⟩ := List.forall_mem_cons.1 hnames
    have hnext : ∀ other ∈ place ++ [name], Path.IsName other :=
      List.forall_mem_append.2 ⟨hplace, List.forall_mem_singleton.2 hname⟩
    have hkept := touches_makeFrom hplace hnames h
    rw [makeFrom] at h
    split at h
    · cases h
    next hnull =>
    split at h
    · cases h
    split at h
    · next hentry =>
      split at h
      · cases h
      next hlong =>
      have hstep : placeFrom place [name] = place ++ [name] :=
        placeFrom_single hname.nonempty hname.not_dot hname.not_dots
      have hcheck : made.checkDirectory place = .ok () := by
        rw [checkDirectory, hkept.directory hentry]
      -- what is put on the way is nearer to the root than what has not changed
      obtain ⟨next, hmade, hnear⟩ : ∃ next, makeFrom root next (place ++ [name]) names = .ok made ∧
          ∀ other : Place, (place ++ [name]).length < other.length →
            next.entry? other = disk.entry? other := by
        split at h
        · refine ⟨_, h, fun other hother => entry?_put_of_ne ?_⟩
          rintro rfl
          exact absurd hother (Nat.lt_irrefl _)
        · exact ⟨_, h, fun _ _ => rfl⟩
      obtain ⟨hwalk, hdirectory, hnulls, hbelow⟩ := ih hnext hrest hmade
      rw [List.append_assoc, List.singleton_append] at hwalk hdirectory hbelow
      refine ⟨walk_cons_eq_ok.2 ⟨hcheck, Bool.eq_false_iff.2 hlong, ?_⟩, hdirectory,
        List.forall_mem_cons.2 ⟨Bool.eq_false_iff.2 hnull, hnulls⟩, fun other hother => ?_⟩
      · rw [hstep, hwalk]
      · rw [hbelow other hother, hnear other]
        rw [List.length_append, List.length_cons] at hother
        rw [List.length_append, List.length_singleton]
        omega
    · cases h

theorem checkDirectory_of_walk (h : walk disk place names = .ok target)
    (htarget : disk.entry? target = some .directory) : disk.checkDirectory place = .ok () := by
  cases names with
  | nil =>
    obtain rfl := Except.ok.inj h
    rw [checkDirectory, htarget]
  | cons name names => exact (walk_cons_eq_ok.1 h).1

/-- Empty names lead nowhere else. -/
theorem walk_of_filter (h : walk disk place (names.filter (!·.isEmpty)) = .ok target)
    (htarget : disk.entry? target = some .directory) : walk disk place names = .ok target := by
  induction names generalizing place with
  | nil => exact h
  | cons name names ih =>
    rcases eq_or_ne name [] with rfl | hne
    · have hrest := ih h
      exact walk_cons_eq_ok.2 ⟨checkDirectory_of_walk hrest htarget, rfl, hrest⟩
    · rw [List.filter_cons_of_pos (by simpa using hne)] at h
      obtain ⟨hcheck, hshort, hrest⟩ := walk_cons_eq_ok.1 h
      exact walk_cons_eq_ok.2 ⟨hcheck, hshort, ih hrest⟩

/-- The directory of a path can be gone to once it has been made. Nothing changes in it by that. -/
theorem makeDirectories_eq_ok (h : disk.makeDirectories (disk.parentOf path) = .ok made) :
    ∃ place, walk made [] (Path.parts (disk.parentOf path)) = .ok place ∧
      made.entry? place = some .directory ∧ hasNull (disk.parentOf path) = false ∧
      ∀ name, made.entry? (place ++ [name]) = disk.entry? (place ++ [name]) := by
  unfold makeDirectories at h
  split at h
  · next hmade =>
    cases h
    obtain ⟨hwalk, hentry, hnulls, hbelow⟩ := makeFrom_eq_ok (List.forall_mem_nil _)
      (fun name hname => by
        obtain ⟨hname, hne⟩ := List.mem_filter.1 hname
        exact Path.isName_of_mem_directory (disk.isAbsolute_join_working _) hname
          (by simpa using hne)) hmade
    refine ⟨_, walk_of_filter hwalk hentry, hentry, ?_, fun name => hbelow _ (by simp)⟩
    rw [Bool.eq_false_iff, ne_eq, hasNull, List.contains_iff_mem]
    intro hmem
    obtain ⟨piece, hpiece, hnull⟩ :=
      (Text.exists_mem_splitOn_iff (show '\x00' ≠ '/' by decide)).2 hmem
    have hkept := hnulls piece
      (List.mem_filter.2 ⟨hpiece, by simpa using List.ne_nil_of_mem hnull⟩)
    rw [Bool.eq_false_iff, ne_eq, hasNull, List.contains_iff_mem] at hkept
    exact hkept hnull
  · cases h

/-! ## Room for a temporary file -/

/-- A file can be put where a path leads, and nothing is there. -/
structure Room (disk : Disk) (path : String) (place : Place) : Prop where
  slot : ∀ dots slash, disk.slot path dots slash = .ok place
  free : disk.entry? place = none

namespace Room

variable {temporary : String}

theorem writeOctets (h : disk.Room temporary place) (octets : List UInt8) :
    disk.writeOctets temporary octets = .ok (disk.put place (.file octets)) := by
  unfold Disk.writeOctets
  rw [h.slot]
  dsimp only
  rw [h.free]

theorem follow_put (h : disk.Room temporary place) (octets : List UInt8) :
    (disk.put place (.file octets)).follow temporary = .ok place ∧
      Disk.entry? (disk.put place (.file octets)) place = some (.file octets) := by
  have hslot := h.slot .isDirectory .isDirectory
  obtain ⟨hplace, hne⟩ := slot_eq_placeOf hslot
  have hchanges : Touches (· = place) disk (disk.put place (.file octets)) :=
    touches_put_file (by rw [h.free]; exact nofun) fun hnamed => hplace ▸ hnamed.placeOf temporary
  exact ⟨hchanges.follow (follow_of_slot hslot), entry?_put_self hne⟩

/-- The temporary file is removed without a trace. -/
theorem remove_put (h : disk.Room temporary place) (octets : List UInt8) :
    (disk.put place (.file octets)).remove temporary = .ok disk := by
  obtain ⟨hfollow, hentry⟩ := h.follow_put octets
  have hget : disk.entries.get? place = none := by
    have hfree := h.free
    unfold entry? at hfree
    split at hfree
    · cases hfree
    · exact hfree
  unfold remove
  rw [hfollow]
  dsimp only
  rw [hentry]
  refine congrArg Except.ok ?_
  have herase : (disk.entries.insert place (.file octets)).erase place = disk.entries :=
    Table.erase_insert hget
  cases disk
  exact congrArg (Disk.mk · _ _) herase

/-- Moving the temporary file is putting its octets into the place of the target. -/
theorem rename_put (h : disk.Room temporary place) (octets : List UInt8) (path : String) :
    (disk.put place (.file octets)).rename temporary path = disk.replace path octets := by
  obtain ⟨hfollow, hentry⟩ := h.follow_put octets
  have hread : (disk.put place (.file octets)).readOctets temporary = .ok octets := by
    unfold readOctets
    rw [hfollow]
    dsimp only
    rw [hentry]
  unfold rename
  rw [hread, h.remove_put octets]
  rfl

end Room

/-- Names of one size make paths that are both too long or both short enough. -/
theorem isOverlong_join {other : Text} (hname : Path.isAbsolute name = false)
    (hother : Path.isAbsolute other = false)
    (h : (String.ofList name).utf8ByteSize = (String.ofList other).utf8ByteSize) :
    isOverlong (Path.join start name) = isOverlong (Path.join start other) := by
  unfold isOverlong Path.join
  rw [hname, hother, if_neg Bool.false_ne_true, if_neg Bool.false_ne_true]
  split
  · rw [String.ofList_append, String.ofList_append, String.utf8ByteSize_append,
      String.utf8ByteSize_append, h]
  · rw [String.ofList_append, String.ofList_append, String.ofList_cons, String.ofList_cons,
      String.utf8ByteSize_append, String.utf8ByteSize_append, String.utf8ByteSize_append,
      String.utf8ByteSize_append, h]

theorem IsDrawn.isOverlong_drawnPath (h : IsDrawn drawn) (disk : Disk) (path : String) :
    isOverlong (disk.drawnPath drawn path).toList = isOverlong (disk.temporaryPath path).toList := by
  unfold drawnPath temporaryPath
  rw [String.toList_ofList, String.toList_ofList]
  refine isOverlong_join ?_ (by decide) (h.utf8ByteSize_eq.trans (by decide))
  exact Path.isAbsolute_ofParts (List.forall_mem_singleton.2 h.isName)

theorem hasNull_join (hstart : hasNull start = false) (hname : hasNull name = false) :
    hasNull (Path.join start name) = false := by
  simp only [hasNull, Bool.eq_false_iff, ne_eq, List.contains_iff_mem] at hstart hname ⊢
  unfold Path.join
  split
  · exact hname
  split
  · simp [hstart, hname]
  · simp [hstart, hname]

theorem join_ne_nil (hname : name ≠ []) : Path.join start name ≠ [] := by
  unfold Path.join
  split
  · exact hname
  split
  · exact List.append_ne_nil_of_right_ne_nil start hname
  · exact List.append_ne_nil_of_right_ne_nil start (List.cons_ne_nil _ _)

/-- Only its size can be wrong with the path of a temporary file. -/
theorem IsDrawn.checkPath_drawnPath (h : IsDrawn drawn) (hnull : hasNull (disk.parentOf path) = false) :
    checkPath (disk.drawnPath drawn path).toList =
      if isOverlong (disk.temporaryPath path).toList then .error .nameTooLong else .ok () := by
  have hname : hasNull (drawnName drawn) = false := by
    rw [Bool.eq_false_iff, ne_eq, hasNull, List.contains_iff_mem]
    exact h.no_null
  have hnonempty : (disk.drawnPath drawn path).toList.isEmpty = false := by
    rw [Bool.eq_false_iff, ne_eq, List.isEmpty_iff, drawnPath, String.toList_ofList]
    exact join_ne_nil h.isName.nonempty
  have hpath : hasNull (disk.drawnPath drawn path).toList = false := by
    unfold drawnPath
    rw [String.toList_ofList]
    exact hasNull_join hnull hname
  rw [checkPath, hpath, if_neg Bool.false_ne_true, hnonempty, if_neg Bool.false_ne_true,
    h.isOverlong_drawnPath]

section Made

variable (hmade : disk.makeDirectories (disk.parentOf path) = .ok made) (hdrawn : IsDrawn drawn)
include hmade hdrawn

/-- A drawn name that nothing has leaves room for a temporary file. -/
theorem room_of_makeDirectories
    (hfresh : disk.entry? (disk.placeOf (disk.drawnPath drawn path)) = none)
    (hshort : isOverlong (disk.temporaryPath path).toList = false) :
    ∃ place, made.Room (disk.drawnPath drawn path) place := by
  have hroot : Path.isAbsolute (disk.parentOf path) = true := by
    unfold parentOf
    rw [isAbsolute_directory, isAbsolute_absolute]
  obtain ⟨place, hwalk, hentry, hnull, hbelow⟩ := makeDirectories_eq_ok hmade
  have hcheck := hdrawn.checkPath_drawnPath hnull
  rw [hshort, if_neg Bool.false_ne_true, drawnPath, String.toList_ofList] at hcheck
  have hslot := slot_join hdrawn.isName hdrawn.not_isTooLong hroot hcheck hwalk hentry
  refine ⟨_, hslot, ?_⟩
  have hplace := (slot_eq_placeOf (hslot .isDirectory .isDirectory)).1
  rw [(touches_makeDirectories hmade).placeOf] at hplace
  rw [hbelow, hplace]
  exact hfresh

/-- A temporary file whose path is too long is not written. -/
theorem writeOctets_drawnPath_overlong
    (hlong : isOverlong (disk.temporaryPath path).toList = true) :
    made.writeOctets (disk.drawnPath drawn path) octets =
      .error ⟨.nameTooLong, disk.drawnPath drawn path, none⟩ := by
  obtain ⟨-, -, -, hnull, -⟩ := makeDirectories_eq_ok hmade
  have hcheck := hdrawn.checkPath_drawnPath hnull
  rw [hlong, if_pos rfl] at hcheck
  simp only [writeOctets, slot, bind, Except.bind, hcheck]

end Made

/-! ## The whole way -/

theorem fresh_nextRefusal
    (h : disk.entry? (disk.placeOf (disk.drawnPath drawn path)) = none) :
    Disk.entry? disk.nextRefusal.2
      (disk.nextRefusal.2.placeOf (disk.nextRefusal.2.drawnPath drawn path)) = none := by
  unfold nextRefusal
  split
  · exact h
  · exact h

theorem temporaryPath_of_working {later : Disk} (h : later.working = disk.working) (path : String) :
    later.temporaryPath path = disk.temporaryPath path := by
  unfold temporaryPath parentOf absolute
  rw [h]

theorem drawnPath_of_working {later : Disk} (h : later.working = disk.working) (drawn : Text)
    (path : String) : later.drawnPath drawn path = disk.drawnPath drawn path := by
  unfold drawnPath parentOf absolute
  rw [h]

/-- The temporary file leaves no trace. Once its directory has been made, all that is left is what
comes of putting the octets into the place of the target, unless the writing breaks off. -/
theorem replaceThrough_stages (hdrawn : IsDrawn drawn)
    (hfresh : disk.entry? (disk.placeOf (disk.drawnPath drawn path)) = none)
    (broken : Option Cause) :
    disk.replaceThrough drawn path octets broken =
      let (refusal, disk) := disk.nextRefusal
      match refusal with
      | some cause => (disk, .error ⟨cause, disk.drawnPath drawn path, none⟩)
      | none =>
        match disk.makeDirectories (disk.parentOf path) with
        | .error fault => (disk, .error fault)
        | .ok made =>
          let temporary := made.drawnPath drawn path
          if isOverlong (made.temporaryPath path).toList then
            (made, .error ⟨.nameTooLong, temporary, none⟩)
          else
            match broken.elim (made.replace path octets) .error with
            | .error cause => (made, .error ⟨cause, temporary, some path⟩)
            | .ok written => (written, .ok ()) := by
  have hfresh := fresh_nextRefusal hfresh
  unfold replaceThrough
  generalize disk.nextRefusal = next at hfresh
  obtain ⟨refusal, later⟩ := next
  dsimp only at hfresh ⊢
  cases refusal with
  | some cause => rfl
  | none =>
  dsimp only
  cases hmade : later.makeDirectories (later.parentOf path) with
  | error fault => rfl
  | ok made =>
  have hworking := (touches_makeDirectories hmade).working
  dsimp only
  rw [drawnPath_of_working hworking, temporaryPath_of_working hworking]
  cases hlong : isOverlong (later.temporaryPath path).toList with
  | true =>
    rw [writeOctets_drawnPath_overlong hmade hdrawn hlong, if_pos rfl]
  | false =>
    obtain ⟨place, hroom⟩ := room_of_makeDirectories hmade hdrawn hfresh hlong
    rw [hroom.writeOctets, if_neg Bool.false_ne_true]
    dsimp only
    rw [hroom.rename_put, hroom.remove_put]
    cases broken with
    | some cause => rfl
    | none =>
      dsimp only [Option.elim]
      cases made.replace path octets <;> rfl

/-- Going by a temporary file ends with the disk that replacing the file ends with, and fails for
the same cause or does not. The temporary file is gone. -/
theorem replaceThrough_eq (hdrawn : IsDrawn drawn)
    (hfresh : disk.entry? (disk.placeOf (disk.drawnPath drawn path)) = none) :
    (disk.replaceThrough drawn path octets none).1 = (disk.replaceFile path octets).1 ∧
      (disk.replaceThrough drawn path octets none).2.mapError Fault.cause =
        (disk.replaceFile path octets).2.mapError Fault.cause := by
  rw [replaceThrough_stages hdrawn hfresh]
  unfold replaceFile
  obtain ⟨refusal, later⟩ := disk.nextRefusal
  cases refusal with
  | some cause =>
    dsimp only [Except.mapError]
    exact ⟨rfl, rfl⟩
  | none =>
  dsimp only [Option.elim]
  cases later.makeDirectories (later.parentOf path) with
  | error fault => exact ⟨rfl, rfl⟩
  | ok made =>
  dsimp only
  split
  · dsimp only [Except.mapError]
    exact ⟨rfl, rfl⟩
  · cases made.replace path octets with
    | error cause =>
      dsimp only [Except.mapError]
      exact ⟨rfl, rfl⟩
    | ok written => exact ⟨rfl, rfl⟩

/-- When the writing breaks off, the way fails, and no file has changed or is new. -/
theorem replaceThrough_broken (hdrawn : IsDrawn drawn)
    (hfresh : disk.entry? (disk.placeOf (disk.drawnPath drawn path)) = none) (cause : Cause) :
    (∃ fault, (disk.replaceThrough drawn path octets (some cause)).2 = .error fault) ∧
      WritesOnly (fun _ => False) disk (disk.replaceThrough drawn path octets (some cause)).1 := by
  rw [replaceThrough_stages hdrawn hfresh]
  have hnext := touches_nextRefusal disk
  generalize disk.nextRefusal = next at hnext
  obtain ⟨refusal, later⟩ := next
  dsimp only at hnext ⊢
  cases refusal with
  | some cause => exact ⟨⟨_, rfl⟩, hnext.toWritesOnly⟩
  | none =>
  dsimp only
  cases hmade : later.makeDirectories (later.parentOf path) with
  | error fault => exact ⟨⟨_, rfl⟩, hnext.toWritesOnly⟩
  | ok made =>
    have hkept := hnext.trans (touches_makeDirectories hmade)
    dsimp only [Option.elim]
    split <;> exact ⟨⟨_, rfl⟩, hkept.toWritesOnly⟩

/-! ## Writing a value -/

/-- **A value is written or nothing is.** Either the value is written: the file at the path has its
indented text, and every other file is as it was. Or the writing fails, and every file is as it was,
the one at the path too. No file is new but the one at the path, although a temporary file is on the
way, whatever characters are drawn for its name: with it, the same disk is left in the end, for the
same reason; and when the writing of it breaks off, behind whatever octets and for whatever cause,
no file is new and none has changed. -/
theorem writeJson_atomic (disk : Disk) (path : String) (value : Json) :
    ((disk.writeJson path value).2 = .ok () ∧
        (disk.writeJson path value).1.readOctets path =
          .ok (Utf8.encode (Json.write Json.indented value)) ∧
        WritesOnly (· = disk.placeOf path) disk (disk.writeJson path value).1 ∨
      (∃ fault, (disk.writeJson path value).2 = .error fault) ∧
        WritesOnly (fun _ => False) disk (disk.writeJson path value).1) ∧
    ∀ drawn, IsDrawn drawn → disk.entry? (disk.placeOf (disk.drawnPath drawn path)) = none →
      ((disk.replaceThrough drawn path (jsonOctets value) none).1 =
          (disk.writeJson path value).1 ∧
        (disk.replaceThrough drawn path (jsonOctets value) none).2.mapError Fault.cause =
          (disk.writeJson path value).2.mapError Fault.cause) ∧
      ∀ octets cause,
        (∃ fault, (disk.replaceThrough drawn path octets (some cause)).2 = .error fault) ∧
          WritesOnly (fun _ => False) disk
            (disk.replaceThrough drawn path octets (some cause)).1 := by
  refine ⟨?_, fun drawn hdrawn hfresh => ⟨replaceThrough_eq hdrawn hfresh, fun octets cause =>
    replaceThrough_broken hdrawn hfresh cause⟩⟩
  obtain ⟨htouches, hread⟩ := replaceFile_eq disk path (jsonOctets value)
  cases hresult : (disk.writeJson path value).2 with
  | ok done => exact .inl ⟨rfl, hread hresult, htouches.toWritesOnly⟩
  | error fault => exact .inr ⟨⟨fault, rfl⟩, (touches_replaceFile_error hresult).toWritesOnly⟩

/-- A working directory with a file and a directory. -/
def shelf : Disk :=
  ofEntries [['w']] [([['f']], .file [0x66]), ([['d']], .directory)]

/-- A value is written into a directory that is new, with a temporary file on the way; and it is not
written where a directory stands. -/
theorem writeJson_atomic_shelf :
    ((shelf.writeJson "n/m.json" (.array [])).1.readOctets "n/m.json" = .ok [0x5B, 0x5D] ∧
        WritesOnly (· = shelf.placeOf "n/m.json") shelf (shelf.writeJson "n/m.json" (.array [])).1 ∧
        (shelf.replaceThrough "abc_0129".toList "n/m.json" (jsonOctets (.array [])) none).1 =
          (shelf.writeJson "n/m.json" (.array [])).1) ∧
      (∃ fault, (shelf.writeJson "d" (.array [])).2 = .error fault) ∧
        WritesOnly (fun _ => False) shelf (shelf.writeJson "d" (.array [])).1 := by
  constructor
  · obtain ⟨hwritten, hway⟩ := writeJson_atomic shelf "n/m.json" (.array [])
    have hdrawn : IsDrawn "abc_0129".toList := ⟨by decide, List.all_eq_true.1 (by decide)⟩
    have hthrough := (hway _ hdrawn (by decide +kernel)).1.1
    rcases hwritten with ⟨-, hread, hwrites⟩ | ⟨⟨fault, hfault⟩, -⟩
    · exact ⟨hread, hwrites, hthrough⟩
    · have hok : (shelf.writeJson "n/m.json" (.array [])).2 = .ok () := by decide +kernel
      cases hok.symm.trans hfault
  · rcases (writeJson_atomic shelf "d" (.array [])).1 with ⟨hok, -⟩ | hfailed
    · have hfault : (shelf.writeJson "d" (.array [])).2 =
          .error ⟨.isDirectory, "/w/.tmp-XXXXXXXX.json", some "d"⟩ := by decide +kernel
      cases hok.symm.trans hfault
    · exact hfailed

end Disk

end PersistedQueries
