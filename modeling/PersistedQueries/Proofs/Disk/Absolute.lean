import PersistedQueries.Proofs.Disk.Relative

/-!
# Normal absolute paths

A normal absolute path is nothing but its place, written out behind the slashes that it begins with.
These are one slash or two, and they come from the path that the others are taken from. So two such
paths of one place differ in the slashes at most.

- `rootSlashes_join`: a path that is taken from another one begins with the slashes of that one.
- `Named.absolute_eq`: a normal absolute path is made of its slashes and its place.
- `Named.absolute_found`: so is the path of something below a directory.
- `ofParts_inj`: different places are written differently.
-/

namespace PersistedQueries.Disk

variable {disk : Disk} {names others : Place} {start path : Text}

/-! ## Slashes at the beginning -/

theorem join_of_isAbsolute (hpath : Path.isAbsolute path = true) : Path.join start path = path := by
  unfold Path.join
  rw [if_pos hpath]

/-- A path that is taken from the working directory is one from the root. -/
theorem isAbsolute_join_working (disk : Disk) (path : Text) :
    Path.isAbsolute (Path.join (pathOf disk.working) path) = true := by
  rw [Path.isAbsolute_join]
  exact Bool.or_true _

theorem isAbsolute_absolute (disk : Disk) (path : String) :
    Path.isAbsolute (disk.absolute path) = true :=
  Path.isAbsolute_normalize (disk.isAbsolute_join_working path.toList)

theorem rootSlashes_one (h : Path.isAbsolute path = false) :
    Path.rootSlashes ('/' :: path) = ['/'] := by
  have htwo : ['/', '/'].isPrefixOf ('/' :: path) = false := h
  unfold Path.rootSlashes
  rw [htwo]
  rfl

theorem rootSlashes_two (path : Text) :
    Path.rootSlashes ('/' :: '/' :: path) = if Path.isAbsolute path then ['/'] else ['/', '/'] := by
  have hthree : ['/', '/', '/'].isPrefixOf ('/' :: '/' :: path) = Path.isAbsolute path := rfl
  unfold Path.rootSlashes
  rw [hthree]
  cases Path.isAbsolute path <;> rfl

/-- A path that is taken from another one begins with the slashes of that one. -/
theorem rootSlashes_join (hstart : Path.isAbsolute start = true)
    (hpath : Path.isAbsolute path = false) :
    Path.rootSlashes (Path.join start path) = Path.rootSlashes start := by
  obtain ⟨rest, rfl⟩ := Path.isAbsolute_iff.1 hstart
  -- nothing but the path comes behind slashes
  obtain ⟨more, hjoin, hmore⟩ : ∃ more, Path.join ('/' :: rest) path = '/' :: (rest ++ more) ∧
      (Path.endsInSlash ('/' :: rest) = true → more = path) := by
    unfold Path.join
    rw [hpath, if_neg Bool.false_ne_true]
    split
    · exact ⟨path, rfl, fun _ => rfl⟩
    · next hslash => exact ⟨'/' :: path, rfl, fun h => absurd (Bool.or_eq_true_iff.2 (.inr h)) hslash⟩
  rw [hjoin]
  cases rest with
  | nil =>
    rw [hmore rfl, List.nil_append, rootSlashes_one hpath]
    rfl
  | cons c rest =>
    by_cases hc : c = '/'
    · subst hc
      cases rest with
      | nil =>
        rw [hmore rfl]
        show Path.rootSlashes ('/' :: '/' :: path) = _
        rw [rootSlashes_two, hpath]
        rfl
      | cons d rest =>
        show Path.rootSlashes ('/' :: '/' :: d :: (rest ++ more)) = _
        rw [rootSlashes_two, rootSlashes_two]
        rfl
    · have hname : ∀ rest, Path.isAbsolute (c :: rest) = false := fun rest => by
        rw [← Bool.not_eq_true, Path.isAbsolute_iff]
        rintro ⟨_, heq⟩
        exact hc (List.cons.inj heq).1
      rw [rootSlashes_one (hname rest)]
      exact rootSlashes_one (hname (rest ++ more))

/-! ## Places written out -/

/-- A normal path from the root is made of its slashes and the place that it leads to. -/
theorem normalize_eq (h : Path.isAbsolute path = true) :
    Path.normalize path = Path.rootSlashes path ++ Path.ofParts (placeFrom [] (Path.parts path)) := by
  have hcollapse : Path.collapse true [] (Path.parts path) = placeFrom [] (Path.parts path) :=
    collapse_eq_placeFrom (List.forall_mem_nil _) fun _ => Path.not_mem_of_mem_parts
  unfold Path.normalize
  rw [h, hcollapse]
  dsimp only
  rw [if_neg]
  rcases Path.rootSlashes_of_isAbsolute h with hslashes | hslashes <;>
    rw [hslashes] <;> exact Bool.false_ne_true

/-- A normal absolute path is made of its slashes and its place. -/
theorem Named.absolute_eq (h : disk.Named) (path : Text) :
    Path.absolute (pathOf disk.working) path =
      Path.rootSlashes (Path.join (pathOf disk.working) path) ++
        Path.ofParts (disk.placeOf (String.ofList path)) := by
  have hplace : placeFrom [] (Path.parts (Path.join (pathOf disk.working) path)) =
      disk.placeOf (String.ofList path) := by
    unfold Disk.placeOf startOf
    rw [String.toList_ofList]
    cases hpath : Path.isAbsolute path with
    | true => rw [join_of_isAbsolute hpath, if_pos rfl]
    | false => rw [placeFrom_join [] _ hpath, h.placeFrom_pathOf, if_neg Bool.false_ne_true]
  unfold Path.absolute
  rw [normalize_eq (disk.isAbsolute_join_working path), hplace]

/-- The path of something below a directory begins with the slashes of the directory. -/
theorem rootSlashes_below (hstart : Path.isAbsolute start = true) (target : Text)
    (hpath : Path.isAbsolute path = false) :
    Path.rootSlashes (Path.join start (Path.join target path)) =
      Path.rootSlashes (Path.join start target) := by
  cases htarget : Path.isAbsolute target with
  | true =>
    have hjoin : Path.isAbsolute (Path.join target path) = true := by
      rw [Path.isAbsolute_join, htarget, Bool.or_true]
    rw [join_of_isAbsolute hjoin, join_of_isAbsolute htarget, rootSlashes_join htarget hpath]
  | false =>
    have hjoin : Path.isAbsolute (Path.join target path) = false := by
      rw [Path.isAbsolute_join, htarget, hpath]
      rfl
    rw [rootSlashes_join hstart hjoin, rootSlashes_join hstart htarget]

/-- The path of something below a directory is made of the slashes of the directory and its own
place. -/
theorem Named.absolute_found (h : disk.Named) (target : String) (hne : names ≠ [])
    (hnames : ∀ name ∈ names, Path.IsName name) :
    Path.absolute (pathOf disk.working) (Path.join target.toList (Path.ofParts names)) =
      Path.rootSlashes (Path.join (pathOf disk.working) target.toList) ++
        Path.ofParts (disk.placeOf target ++ names) := by
  have hplace := disk.placeOf_join target.toList hne hnames
  rw [String.ofList_toList] at hplace
  rw [h.absolute_eq, hplace, rootSlashes_below rfl _ (Path.isAbsolute_ofParts hnames)]

/-- Different places are written differently. -/
theorem ofParts_inj (hnames : ∀ name ∈ names, Path.IsName name)
    (hothers : ∀ name ∈ others, Path.IsName name) (h : Path.ofParts names = Path.ofParts others) :
    names = others := by
  have hparts : ∀ {names : Place}, (∀ name ∈ names, Path.IsName name) →
      (Path.parts (Path.ofParts names)).filter (!·.isEmpty) = names := by
    intro names hnames
    rcases eq_or_ne names [] with rfl | hne
    · rfl
    · rw [Path.parts_ofParts hne hnames]
      exact List.filter_eq_self.2 fun name hname => by simp [(hnames name hname).nonempty]
  rw [← hparts hnames, h, hparts hothers]

theorem ofParts_append {first more : Place} (hfirst : first ≠ []) (hmore : more ≠ []) :
    Path.ofParts (first ++ more) = Path.ofParts first ++ '/' :: Path.ofParts more := by
  unfold Path.ofParts
  induction first with
  | nil => exact absurd rfl hfirst
  | cons name rest ih =>
    cases rest with
    | nil =>
      obtain ⟨next, others, rfl⟩ := List.exists_cons_of_ne_nil hmore
      show name ++ ['/'] ++ Text.joinWith ['/'] (next :: others) = _
      rw [List.append_assoc]
      rfl
    | cons second rest =>
      show name ++ ['/'] ++ Text.joinWith ['/'] (second :: rest ++ more) = _
      rw [ih (List.cons_ne_nil _ _), ← List.append_assoc]
      rfl

theorem ofParts_concat (before : Place) (last more : Text) :
    Path.ofParts (before ++ [last ++ more]) = Path.ofParts (before ++ [last]) ++ more := by
  rcases eq_or_ne before [] with rfl | hne
  · rfl
  · rw [ofParts_append hne (List.cons_ne_nil _ _), ofParts_append hne (List.cons_ne_nil _ _),
      List.append_assoc]
    rfl

/-! ## Canonical paths -/

/-- A path under which a name is put does not end in a slash. -/
theorem endsInSlash_append {name : Text} (before : Text) (hname : Path.IsName name) :
    Path.endsInSlash (before ++ name) = false := by
  rcases List.eq_nil_or_concat' name with rfl | ⟨front, c, rfl⟩
  · exact absurd rfl hname.nonempty
  rw [← Bool.not_eq_true, Path.endsInSlash, List.isSuffixOf_iff_suffix]
  rintro ⟨other, heq⟩
  rw [← List.append_assoc] at heq
  have hslash : c = '/' := (List.append_singleton_inj.1 heq).2.symm
  exact hname.no_slash (hslash ▸ List.mem_append_right front List.mem_cons_self)

/-- A path is the canonical one of a place, with some slashes: it is made of nothing else. -/
structure Canonical (slashes : Text) (place : Place) (path : Text) : Prop where
  root : slashes = ['/'] ∨ slashes = ['/', '/']
  names : ∀ name ∈ place, Path.IsName name
  path_eq : path = slashes ++ Path.ofParts place

theorem canonical_normalize (h : Path.isAbsolute path = true) :
    Canonical (Path.rootSlashes path) (placeFrom [] (Path.parts path)) (Path.normalize path) where
  root := Path.rootSlashes_of_isAbsolute h
  names := isName_placeFrom (List.forall_mem_nil _) fun _ => Path.not_mem_of_mem_parts
  path_eq := normalize_eq h

theorem Named.canonical_absolute (h : disk.Named) (path : Text) :
    Canonical (Path.rootSlashes (Path.join (pathOf disk.working) path))
      (disk.placeOf (String.ofList path)) (Path.absolute (pathOf disk.working) path) where
  root := Path.rootSlashes_of_isAbsolute (disk.isAbsolute_join_working path)
  names := h.placeOf _
  path_eq := h.absolute_eq path

namespace Canonical

variable {slashes slashes' : Text} {place before : Place} {path' last name more : Text}

/-- A slash stands before the last name. -/
theorem exists_concat (h : Canonical slashes (before ++ [last]) path) :
    ∃ front, path = front ++ '/' :: last := by
  rw [h.path_eq]
  rcases eq_or_ne before [] with rfl | hne
  · rcases h.root with rfl | rfl
    · exact ⟨[], rfl⟩
    · exact ⟨['/'], rfl⟩
  · rw [ofParts_append hne (List.cons_ne_nil _ _), ← List.append_assoc]
    exact ⟨_, rfl⟩

theorem base_eq (h : Canonical slashes (before ++ [last]) path) : Path.base path = last := by
  obtain ⟨front, rfl⟩ := h.exists_concat
  have hlast : Path.parts last = [last] :=
    Text.splitOn_of_not_mem (h.names last (List.mem_append_right _ List.mem_cons_self)).no_slash
  obtain ⟨others, hparts⟩ := parts_eq_concat_base (front ++ '/' :: last)
  rw [Path.parts_append, hlast] at hparts
  exact (List.append_singleton_inj.1 hparts).2.symm

/-- A canonical path leads to its place, wherever it is followed. -/
theorem placeOf (h : Canonical slashes place path) (disk : Disk) :
    disk.placeOf (String.ofList path) = place := by
  have hplace : placeFrom [] (Path.parts (Path.ofParts place)) = place := by
    rcases eq_or_ne place [] with rfl | hne
    · rfl
    · rw [Path.parts_ofParts hne h.names, placeFrom_of_isName h.names, List.nil_append]
  unfold Disk.placeOf startOf
  rw [String.toList_ofList, h.path_eq]
  -- the names between the slashes are empty
  rcases h.root with rfl | rfl
  · exact hplace
  · exact hplace

/-- Canonical paths of one place are the same when they begin with the same slashes. -/
theorem eq_iff (h : Canonical slashes place path) (h' : Canonical slashes' place path') :
    path = path' ↔ slashes = slashes' := by
  rw [h.path_eq, h'.path_eq]
  exact ⟨List.append_cancel_right, fun heq => heq ▸ rfl⟩

/-- Characters behind the last name go on with it. -/
theorem append (h : Canonical slashes (before ++ [last]) path) (hlast : Path.IsName (last ++ more)) :
    Canonical slashes (before ++ [last ++ more]) (path ++ more) where
  root := h.root
  names := List.forall_mem_append.2
    ⟨(List.forall_mem_append.1 h.names).1, List.forall_mem_singleton.2 hlast⟩
  path_eq := by rw [h.path_eq, ofParts_concat, List.append_assoc]

/-- So they can be taken off it. -/
theorem of_append (h : Canonical slashes (before ++ [last ++ more]) (path ++ more))
    (hlast : Path.IsName last) : Canonical slashes (before ++ [last]) path where
  root := h.root
  names := List.forall_mem_append.2
    ⟨(List.forall_mem_append.1 h.names).1, List.forall_mem_singleton.2 hlast⟩
  path_eq := by
    have hpath := h.path_eq
    rw [ofParts_concat, ← List.append_assoc] at hpath
    exact List.append_cancel_right hpath

/-- A name in a directory has the path of the directory before it. -/
theorem join (h : Canonical slashes place path) (hname : Path.IsName name) :
    Canonical slashes (place ++ [name]) (Path.join path name) where
  root := h.root
  names := List.forall_mem_append.2 ⟨h.names, List.forall_mem_singleton.2 hname⟩
  path_eq := by
    have hrelative : Path.isAbsolute name = false :=
      Path.isAbsolute_ofParts (List.forall_mem_singleton.2 hname)
    have hpath : path ≠ [] := by
      rw [h.path_eq]
      rcases h.root with rfl | rfl <;> exact List.cons_ne_nil _ _
    unfold Path.join
    rw [hrelative, if_neg Bool.false_ne_true, List.isEmpty_eq_false_iff.2 hpath, Bool.false_or]
    rcases List.eq_nil_or_concat' place with rfl | ⟨before, last, rfl⟩
    · have hends : Path.endsInSlash path = true := by
        rw [h.path_eq]
        rcases h.root with rfl | rfl <;> rfl
      rw [if_pos hends, h.path_eq]
      exact congrArg (· ++ name) (List.append_nil slashes)
    · have hends : Path.endsInSlash path = false := by
        obtain ⟨front, rfl⟩ := h.exists_concat
        have hlast := h.names last (List.mem_append_right _ List.mem_cons_self)
        have hends := endsInSlash_append (front ++ ['/']) hlast
        rwa [List.append_assoc] at hends
      have hcut : Path.ofParts (before ++ [last] ++ [name]) =
          Path.ofParts (before ++ [last]) ++ '/' :: name :=
        ofParts_append (by simp) (List.cons_ne_nil _ _)
      rw [hends, if_neg Bool.false_ne_true, hcut, h.path_eq, List.append_assoc]

theorem isAbsolute (h : Canonical slashes place path) : Path.isAbsolute path = true := by
  rw [h.path_eq]
  rcases h.root with rfl | rfl <;> rfl

theorem rootSlashes_eq (h : Canonical slashes place path) : Path.rootSlashes path = slashes := by
  have hnames := Path.isAbsolute_ofParts h.names
  rw [h.path_eq]
  rcases h.root with rfl | rfl
  · exact rootSlashes_one hnames
  · show Path.rootSlashes ('/' :: '/' :: Path.ofParts place) = _
    rw [rootSlashes_two, hnames]
    rfl

/-- The directory of a canonical path is canonical, with the same slashes. -/
theorem directory (h : Canonical slashes place path) :
    Canonical slashes place.dropLast (Path.directory path) where
  root := h.root
  names := fun name hname => h.names name (List.dropLast_subset place hname)
  path_eq := by
    rcases List.eq_nil_or_concat' place with rfl | ⟨before, last, rfl⟩
    · rw [h.path_eq]
      rcases h.root with rfl | rfl <;> rfl
    -- up to its last name, the path is one of the directory, with a slash unless it is the root
    have hbase := h.base_eq
    have hpath : (path.reverse.dropWhile (· ≠ '/')).reverse ++ Path.base path = path := by
      unfold Path.base
      rw [← List.reverse_append, List.takeWhile_append_dropWhile, List.reverse_reverse]
    rw [List.dropLast_concat]
    unfold Path.directory
    dsimp only
    generalize path.reverse.dropWhile (· ≠ '/') = upTo at hpath
    rw [hbase, h.path_eq] at hpath
    rcases List.eq_nil_or_concat' before with rfl | ⟨others, name, rfl⟩
    · have hupTo : upTo.reverse = slashes := List.append_cancel_right hpath
      obtain rfl : upTo = slashes.reverse := List.reverse_eq_iff.1 hupTo
      rcases h.root with rfl | rfl <;> rfl
    · have hcut : Path.ofParts (others ++ [name] ++ [last]) =
          Path.ofParts (others ++ [name]) ++ ['/'] ++ last := by
        rw [ofParts_append (by simp) (List.cons_ne_nil _ _), List.append_assoc]
        rfl
      rw [hcut, ← List.append_assoc, ← List.append_assoc] at hpath
      have hupTo := List.append_cancel_right hpath
      obtain rfl := List.reverse_eq_iff.1 hupTo
      -- the slash behind the directory is cut off, and the name in front of it ends in no slash
      have hname := h.names name (by simp)
      obtain ⟨text, c, htext, hc⟩ : ∃ text c,
          slashes ++ Path.ofParts (others ++ [name]) = text ++ [c] ∧ c ≠ '/' := by
        rcases List.eq_nil_or_concat' name with rfl | ⟨front, c, rfl⟩
        · exact absurd rfl hname.nonempty
        · rw [ofParts_concat, ← List.append_assoc]
          exact ⟨_, c, rfl, fun hc => hname.no_slash (by simp [hc])⟩
      rw [htext]
      simp [hc]

end Canonical

end PersistedQueries.Disk
