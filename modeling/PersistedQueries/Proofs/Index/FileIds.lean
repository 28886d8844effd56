import PersistedQueries.Proofs.Disk.Absolute
import PersistedQueries.Proofs.Disk.Removing
import PersistedQueries.Proofs.Index.Provenance

/-!
# The ids of a file

Files get their ids in two ways: the search of a directory lists them, and the host gives them for
specifiers, after it has tried several paths. Both ways end in the canonical path of a file, so there
is one id for each file and the slashes that it begins with. The slashes are not part of the place,
though. Where a path begins with just two of them they are kept, so a file can have two ids.

- `canonical_of_mem_candidates`: a path that is tried and leads to a file is a canonical one.
- `IdOf`: a file has an id that begins with some slashes.
- `IdOf.canonical`: an id is the canonical path of a file that is there.
- `one_id`: ids of a file differ in their slashes only, also in every index that is made of them.
- `not_one_id`: and they can differ in these.
-/

namespace PersistedQueries

/-! ## Names that go on -/

namespace Path

variable {path name more stem ending : Text}

/-- A name that goes on is a name, unless a slash comes. -/
theorem IsName.append (hname : IsName name) (hmore : '/' ∉ more) : IsName (name ++ more) where
  nonempty := List.append_ne_nil_of_left_ne_nil hname.nonempty more
  not_dot := by
    intro heq
    rcases List.append_eq_singleton_iff.1 heq with ⟨hempty, -⟩ | ⟨hdot, -⟩
    · exact hname.nonempty hempty
    · exact hname.not_dot hdot
  not_dots := by
    intro heq
    rcases List.append_eq_cons_iff.1 heq with ⟨hempty, -⟩ | ⟨rest, rfl, hrest⟩
    · exact hname.nonempty hempty
    · rcases List.append_eq_singleton_iff.1 hrest.symm with ⟨rfl, -⟩ | ⟨rfl, -⟩
      · exact hname.not_dot rfl
      · exact hname.not_dots rfl
  no_slash := by
    rw [List.mem_append, not_or]
    exact ⟨hname.no_slash, hmore⟩

/-- The ending of a path is cut off its last name, behind a character that is no dot. -/
theorem stemAndExtension_eq (h : stemAndExtension path = (stem, ending)) (hne : ending ≠ []) :
    path = stem ++ ending ∧ ∃ name, base path = name ++ ending ∧ ∃ c ∈ name, c ≠ '.' := by
  obtain ⟨slashes, -, -, hpath, -⟩ := Disk.directory_append_base path
  unfold stemAndExtension at h
  dsimp only at h
  split at h
  · next hdot =>
    rw [Bool.and_eq_true, List.any_eq_true] at hdot
    obtain ⟨hdot, c, hc, hother⟩ := hdot
    -- the last dot of the name stands between its stem and its ending
    obtain ⟨before, hbefore⟩ : ∃ before,
        (base path).reverse.dropWhile (· ≠ '.') = '.' :: before := by
      cases hdrop : (base path).reverse.dropWhile (· ≠ '.') with
      | nil =>
        have hnone := List.dropWhile_eq_nil_iff.1 hdrop '.'
          (List.mem_reverse.2 (List.contains_iff_mem.1 hdot))
        simp at hnone
      | cons d rest =>
        have hfirst := List.head?_dropWhile_not (· ≠ '.') (base path).reverse
        rw [hdrop] at hfirst
        have hd : d = '.' := by simpa using hfirst
        exact ⟨rest, by rw [hd]⟩
    have hname : base path = before.reverse ++
        '.' :: ((base path).reverse.takeWhile (· ≠ '.')).reverse := by
      have hcut := List.takeWhile_append_dropWhile (p := (· ≠ '.')) (l := (base path).reverse)
      rw [hbefore] at hcut
      have hcut := congrArg List.reverse hcut
      rw [List.reverse_reverse, List.reverse_append, List.reverse_cons, List.append_assoc] at hcut
      exact hcut.symm
    rw [hbefore] at hc
    obtain ⟨rfl, rfl⟩ := Prod.mk.inj h
    refine ⟨?_, before.reverse, hname, c, List.mem_reverse.2 hc, by simpa using hother⟩
    generalize (base path).reverse.takeWhile (· ≠ '.') = behind at hname
    have hwhole : path = (directory path ++ slashes ++ before.reverse) ++ '.' :: behind.reverse := by
      rw [List.append_assoc, ← hname]
      exact hpath
    generalize directory path ++ slashes ++ before.reverse = front at hwhole
    have hlength : path.length - behind.length - 1 = front.length := by
      rw [hwhole, List.length_append, List.length_cons, List.length_reverse]
      omega
    rw [hlength, hwhole, List.take_left]
  · exact absurd (Prod.mk.inj h).2.symm hne

end Path

namespace Modules

open Disk (Canonical Place)

variable {disk : Disk} {modules : Modules} {slashes base path : Text} {place : Place}
  {endings : List String} {id specifier : String} {importer : Option String}

/-! ## Paths that are tried -/

theorem exists_of_isFile (h : disk.isFile id = true) :
    ∃ octets, disk.entry? (disk.placeOf id) = some (.file octets) := by
  obtain ⟨octets, hread⟩ := Disk.isFile_iff.1 h
  exact ⟨octets, (Disk.readOctets_eq_ok.1 hread).2⟩

/-- A path with a source ending in place of a script ending is canonical. -/
theorem canonical_stem (h : Canonical slashes place base) {stem ending more : Text}
    (hstem : Path.stemAndExtension base = (stem, ending)) (hne : ending ≠ []) (hmore : '/' ∉ more) :
    ∃ place, Canonical slashes place (stem ++ more) := by
  obtain ⟨rfl, name, hbase, c, hc, hother⟩ := Path.stemAndExtension_eq hstem hne
  rcases List.eq_nil_or_concat' place with rfl | ⟨before, last, rfl⟩
  · -- the root has no last name
    have hroot : Path.base (stem ++ ending) = [] := by
      rw [h.path_eq]
      rcases h.root with rfl | rfl <;> rfl
    exact absurd (List.append_eq_nil_iff.1 (hbase.symm.trans hroot)).2 hne
  · rw [h.base_eq] at hbase
    subst hbase
    have hlast := (h.names _ (List.mem_append_right _ List.mem_cons_self)).no_slash
    have hname : Path.IsName name := by
      refine ⟨List.ne_nil_of_mem hc, ?_, ?_, fun hslash => hlast (List.mem_append_left _ hslash)⟩
      · rintro rfl
        exact hother (List.mem_singleton.1 hc)
      · rintro rfl
        simp only [List.mem_cons, List.not_mem_nil, or_false, or_self] at hc
        exact hother hc
    exact ⟨_, (h.of_append hname).append (hname.append hmore)⟩

/-- A path with an ending is canonical when it leads to a file. -/
theorem canonical_ending (h : Canonical slashes place base) {more : Text} (hmore : '/' ∉ more)
    (hfile : disk.isFile (String.ofList (base ++ more)) = true) :
    ∃ place, Canonical slashes place (base ++ more) := by
  rcases List.eq_nil_or_concat' place with rfl | ⟨before, last, rfl⟩
  · have hbase : base = slashes := h.path_eq.trans (List.append_nil slashes)
    subst hbase
    by_cases hname : Path.IsName more
    · exact ⟨[more], h.root, List.forall_mem_singleton.2 hname, rfl⟩
    · -- nothing but the root itself is there under other endings
      have hplace : disk.placeOf (String.ofList (base ++ more)) = [] := by
        have hdots : more = [] ∨ more = ['.'] ∨ more = ['.', '.'] := by
          by_contra hnone
          rw [not_or, not_or] at hnone
          exact hname ⟨hnone.1, hnone.2.1, hnone.2.2, hmore⟩
        unfold Disk.placeOf Disk.startOf
        rw [String.toList_ofList]
        rcases h.root with rfl | rfl <;> rcases hdots with rfl | rfl | rfl <;> rfl
      obtain ⟨octets, hentry⟩ := exists_of_isFile hfile
      rw [hplace] at hentry
      cases hentry
  · have hlast := h.names last (List.mem_append_right _ List.mem_cons_self)
    exact ⟨_, h.append (hlast.append hmore)⟩

/-- A path that is tried and leads to a file is a canonical one. -/
theorem canonical_of_mem_candidates (hendings : ∀ ending ∈ endings, '/' ∉ ending.toList)
    (h : Canonical slashes place base) (hpath : path ∈ candidates endings base)
    (hfile : disk.isFile (String.ofList path) = true) : ∃ place, Canonical slashes place path := by
  unfold candidates at hpath
  cases hstem : Path.stemAndExtension base with
  | mk stem ending =>
    rw [hstem] at hpath
    simp only [List.mem_append, List.mem_cons, List.mem_map] at hpath
    rcases hpath with ((rfl | hsource) | ⟨more, hmore, rfl⟩) | ⟨more, hmore, rfl⟩
    · exact ⟨place, h⟩
    · split at hsource
      · next hscript =>
        have hne : ending ≠ [] := by
          rintro rfl
          exact absurd hscript (by decide)
        simp only [List.mem_cons, List.not_mem_nil, or_false] at hsource
        rcases hsource with rfl | rfl
        · exact canonical_stem h hstem hne (by decide)
        · exact canonical_stem h hstem hne (by decide)
      · cases hsource
    · exact canonical_ending h (hendings more hmore) hfile
    · have hindex : Path.IsName "index".toList := by decide
      exact ⟨_, h.join (hindex.append (hendings more hmore))⟩

/-! ## Where a specifier leads -/

theorem isAbsolute_of_isRelative {specifier : Text} (h : isRelative specifier = true) :
    Path.isAbsolute specifier = false := by
  rw [← Bool.not_eq_true, Path.isAbsolute_iff]
  rintro ⟨rest, rfl⟩
  simp [isRelative] at h

theorem isAbsolute_expand {root specifier : Text} (hroot : Path.isAbsolute root = true)
    {aliases : List (String × String)} (h : expand root specifier aliases = some base) :
    Path.isAbsolute base = true := by
  induction aliases with
  | nil => cases h
  | cons short aliases ih =>
    obtain ⟨short, target⟩ := short
    rw [expand] at h
    split at h
    · obtain rfl := Option.some.inj h
      rw [Path.isAbsolute_join, Path.isAbsolute_join, hroot, Bool.or_true, Bool.or_true]
    · exact ih h

/-- The path that a specifier stands for is one from the root. -/
theorem isAbsolute_basePath (hroot : Path.isAbsolute modules.root = true)
    (h : modules.basePath disk specifier.toList importer = .ok (some base)) :
    Path.isAbsolute base = true := by
  unfold basePath at h
  split at h
  · cases importer with
    | none => cases h
    | some importer =>
      cases h
      rw [Path.isAbsolute_join, Disk.isAbsolute_directory, Disk.isAbsolute_absolute, Bool.or_true]
  split at h
  · next habsolute =>
    cases h
    exact habsolute
  · exact isAbsolute_expand hroot (Except.ok.inj h)

/-! ## Ids -/

/-- A file has an id that begins with some slashes. Either the host of a root gives the id for a
specifier, or the search of a target finds it. The slashes are those of the path that the specifier
stands for, or those of the target. -/
inductive IdOf (disk : Disk) : Text → String → Prop where
  | resolved {root : String} {aliases : List (String × String)} {endings : List String}
      {specifier : String} {importer : Option String} {base : Text} {id : String}
      (no_slash : ∀ ending ∈ endings, '/' ∉ ending.toList)
      (base_eq : (ofRoot disk root aliases endings).basePath disk specifier.toList importer =
        .ok (some base))
      (resolve_eq : (ofRoot disk root aliases endings).resolve disk specifier importer =
        .ok (some id)) : IdOf disk (Path.rootSlashes base) id
  | found {target : String} {endings exclusions : List String} {id : String}
      (mem : id ∈ disk.findFiles target endings exclusions) :
      IdOf disk (Path.rootSlashes (Path.join (Disk.pathOf disk.working) target.toList)) id

namespace IdOf

/-- An id is the canonical path of a file that is there. -/
theorem canonical (hnamed : disk.Named) (h : IdOf disk slashes id) :
    (∃ octets, disk.entry? (disk.placeOf id) = some (.file octets)) ∧
      Canonical slashes (disk.placeOf id) id.toList := by
  suffices hsuffices : (∃ octets, disk.entry? (disk.placeOf id) = some (.file octets)) ∧
      ∃ place, Canonical slashes place id.toList by
    obtain ⟨hentry, place, hcanonical⟩ := hsuffices
    have hplace := hcanonical.placeOf disk
    rw [String.ofList_toList] at hplace
    exact ⟨hentry, hplace ▸ hcanonical⟩
  cases h with
  | @resolved root aliases endings specifier importer base id no_slash base_eq resolve_eq =>
    have hfile := isFile_of_resolve resolve_eq
    refine ⟨exists_of_isFile hfile, ?_⟩
    obtain ⟨base', hbase, hfirst⟩ := resolve_eq_ok.1 resolve_eq
    cases base_eq.symm.trans hbase
    obtain ⟨path, hpath, rfl⟩ := List.mem_map.1 (List.mem_of_find?_eq_some hfirst)
    have habsolute := isAbsolute_basePath (disk.isAbsolute_absolute root) base_eq
    rw [String.toList_ofList]
    exact canonical_of_mem_candidates no_slash (Disk.canonical_normalize habsolute) hpath hfile
  | @found target endings exclusions id mem =>
    refine ⟨hnamed.isFile_of_mem_findFiles mem, ?_⟩
    obtain ⟨place, hfollow, ⟨-, -, rfl⟩ | ⟨-, names, octets, hne, hentry, -, -, rfl⟩⟩ :=
      Disk.mem_findFiles_iff.1 mem
    · rw [String.toList_ofList]
      exact ⟨_, hnamed.canonical_absolute target.toList⟩
    · have hget := (Disk.entry?_of_ne disk (List.append_ne_nil_of_right_ne_nil _ hne)).symm.trans
        hentry
      have hnames : ∀ name ∈ names, Path.IsName name := fun name hname =>
        hnamed.entries hget name (List.mem_append_right _ hname)
      have hcanonical := hnamed.canonical_absolute (Path.join target.toList (Path.ofParts names))
      rw [Disk.rootSlashes_below rfl _ (Path.isAbsolute_ofParts hnames)] at hcanonical
      rw [String.toList_ofList]
      exact ⟨_, hcanonical⟩

/-- Ids of one file are the same when they begin with the same slashes. -/
theorem eq_iff (hnamed : disk.Named) {slashes' : Text} {id' : String} (h : IdOf disk slashes id)
    (h' : IdOf disk slashes' id') (hplace : disk.placeOf id = disk.placeOf id') :
    id = id' ↔ slashes = slashes' := by
  have hcanonical := (h.canonical hnamed).2
  rw [hplace] at hcanonical
  rw [← hcanonical.eq_iff (h'.canonical hnamed).2, String.toList_inj]

/-- A relative specifier keeps the slashes of the id that it is followed from. -/
theorem relative (hnamed : disk.Named) {importer root : String} {aliases : List (String × String)}
    (himporter : IdOf disk slashes importer) (hendings : ∀ ending ∈ endings, '/' ∉ ending.toList)
    (hrelative : isRelative specifier.toList = true)
    (h : (ofRoot disk root aliases endings).resolve disk specifier (some importer) =
      .ok (some id)) : IdOf disk slashes id := by
  obtain ⟨base, hbase, -⟩ := resolve_eq_ok.1 h
  have hslashes : Path.rootSlashes base = slashes := by
    unfold basePath at hbase
    rw [if_pos hrelative] at hbase
    cases hbase
    have hcanonical := (himporter.canonical hnamed).2
    have habsolute := hnamed.canonical_absolute importer.toList
    rw [Disk.join_of_isAbsolute hcanonical.isAbsolute, hcanonical.rootSlashes_eq] at habsolute
    exact (Disk.rootSlashes_join habsolute.directory.isAbsolute
      (isAbsolute_of_isRelative hrelative)).trans habsolute.directory.rootSlashes_eq
  exact hslashes ▸ .resolved hendings hbase h

end IdOf

/-! ## Two slashes in front -/

/-- A path begins with just two slashes. -/
def Doubled (path : Text) : Prop := Path.rootSlashes path = ['/', '/']

instance (path : Text) : Decidable (Doubled path) :=
  inferInstanceAs (Decidable (Path.rootSlashes path = ['/', '/']))

theorem doubled_join {start path : Text} (hstart : Path.isAbsolute start = true)
    (h : Doubled (Path.join start path)) : Doubled path ∨ Doubled start := by
  unfold Doubled at h ⊢
  cases hpath : Path.isAbsolute path with
  | true =>
    rw [Disk.join_of_isAbsolute hpath] at h
    exact .inl h
  | false =>
    rw [Disk.rootSlashes_join hstart hpath] at h
    exact .inr h

/-- The working directory has one slash in front, so a second one comes from the path. -/
theorem doubled_of_join (hnamed : disk.Named)
    (h : Doubled (Path.join (Disk.pathOf disk.working) path)) : Doubled path := by
  refine (doubled_join rfl h).resolve_right fun hdoubled => ?_
  have hone : Path.rootSlashes (Disk.pathOf disk.working) = ['/'] :=
    Disk.rootSlashes_one (Path.isAbsolute_ofParts hnamed.working)
  cases hone.symm.trans hdoubled

theorem doubled_absolute (hnamed : disk.Named) {path : String} (h : Doubled (disk.absolute path)) :
    Doubled path.toList :=
  doubled_of_join hnamed ((hnamed.canonical_absolute path.toList).rootSlashes_eq.symm.trans h)

theorem doubled_expand {root specifier : Text} (hroot : Path.isAbsolute root = true)
    {aliases : List (String × String)} (h : expand root specifier aliases = some base)
    (hbase : Doubled base) : Doubled root ∨ ∃ short ∈ aliases, Doubled short.2.toList ∨
      Doubled (specifier.drop short.1.toList.length) := by
  induction aliases with
  | nil => cases h
  | cons short aliases ih =>
    rw [expand] at h
    split at h
    · obtain rfl := Option.some.inj h
      have hjoin : Path.isAbsolute (Path.join root short.2.toList) = true := by
        rw [Path.isAbsolute_join, hroot, Bool.or_true]
      rcases doubled_join hjoin hbase with hrest | hstart
      · exact .inr ⟨short, List.mem_cons_self, .inr hrest⟩
      · rcases doubled_join hroot hstart with htarget | hroot
        · exact .inr ⟨short, List.mem_cons_self, .inl htarget⟩
        · exact .inl hroot
    · rcases ih h with hroot | ⟨other, hother, hdoubled⟩
      · exact .inl hroot
      · exact .inr ⟨other, List.mem_cons_of_mem _ hother, hdoubled⟩

/-- A specifier leads to a path with two slashes in front only if a path that it is followed by has
two: the importing file, the specifier or its rest behind an alias, the root, or the directory of
the alias. -/
theorem doubled_basePath (hnamed : disk.Named) {root : String} {aliases : List (String × String)}
    (h : (ofRoot disk root aliases endings).basePath disk specifier.toList importer =
      .ok (some base)) (hbase : Doubled base) :
    (∃ file, importer = some file ∧ Doubled file.toList) ∨ Doubled specifier.toList ∨
      Doubled root.toList ∨ ∃ short ∈ (Table.ofList aliases).entries, Doubled short.2.toList ∨
        Doubled (specifier.toList.drop short.1.toList.length) := by
  unfold basePath at h
  split at h
  · next hrelative =>
    cases importer with
    | none => cases h
    | some file =>
      cases h
      have hcanonical := (hnamed.canonical_absolute file.toList).directory
      have hdirectory : Doubled (Path.directory (disk.absolute file)) :=
        (Disk.rootSlashes_join hcanonical.isAbsolute (isAbsolute_of_isRelative hrelative)).symm.trans
          hbase
      have hfile : Doubled (disk.absolute file) :=
        (hnamed.canonical_absolute file.toList).rootSlashes_eq.trans
          (hcanonical.rootSlashes_eq.symm.trans hdirectory)
      exact .inl ⟨file, rfl, doubled_absolute hnamed hfile⟩
  split at h
  · cases h
    exact .inr (.inl hbase)
  · rcases doubled_expand (disk.isAbsolute_absolute root) (Except.ok.inj h) hbase with hroot | halias
    · exact .inr (.inr (.inl (doubled_absolute hnamed hroot)))
    · exact .inr (.inr (.inr halias))

/-- No path that a specifier is followed by begins with just two slashes: neither the importing file
nor the specifier, nor the root, nor the directory of an alias, nor the rest behind an alias. -/
structure Single (root : String) (aliases : List (String × String)) (specifier : String)
    (importer : Option String) : Prop where
  of_importer : ∀ file, importer = some file → ¬ Doubled file.toList
  of_specifier : ¬ Doubled specifier.toList
  of_root : ¬ Doubled root.toList
  of_alias : ∀ short ∈ (Table.ofList aliases).entries, ¬ Doubled short.2.toList ∧
    ¬ Doubled (specifier.toList.drop short.1.toList.length)

namespace IdOf

/-- An id for a specifier begins with one slash, unless two come from a path on the way. -/
theorem of_single (hnamed : disk.Named) {root : String} {aliases : List (String × String)}
    (hendings : ∀ ending ∈ endings, '/' ∉ ending.toList)
    (hsingle : Single root aliases specifier importer)
    (h : (ofRoot disk root aliases endings).resolve disk specifier importer = .ok (some id)) :
    IdOf disk ['/'] id := by
  obtain ⟨base, hbase, -⟩ := resolve_eq_ok.1 h
  have hid : IdOf disk (Path.rootSlashes base) id := .resolved hendings hbase h
  rcases Path.rootSlashes_of_isAbsolute
    (isAbsolute_basePath (disk.isAbsolute_absolute root) hbase) with hone | htwo
  · exact hone ▸ hid
  · rcases doubled_basePath hnamed hbase htwo with
      ⟨file, hfile, hdoubled⟩ | hdoubled | hdoubled | ⟨short, hshort, hdoubled | hdoubled⟩
    · exact absurd hdoubled (hsingle.of_importer file hfile)
    · exact absurd hdoubled hsingle.of_specifier
    · exact absurd hdoubled hsingle.of_root
    · exact absurd hdoubled (hsingle.of_alias short hshort).1
    · exact absurd hdoubled (hsingle.of_alias short hshort).2

/-- So does the id of a found file, unless they come from the target. -/
theorem of_found (hnamed : disk.Named) {target : String} {exclusions : List String}
    (htarget : ¬ Doubled target.toList) (h : id ∈ disk.findFiles target endings exclusions) :
    IdOf disk ['/'] id := by
  have hid : IdOf disk _ id := .found h
  rcases Path.rootSlashes_of_isAbsolute (disk.isAbsolute_join_working target.toList) with hone | htwo
  · exact hone ▸ hid
  · exact absurd (doubled_of_join hnamed htwo) htarget

end IdOf

/-! ## Indices made of ids -/

/-- Every call of a history is about an id of a file on a disk, with a host on that disk. -/
def CallsAbout (disk : Disk) (steps : List (Index.Step Failure)) : Prop :=
  ∀ {host file source}, Index.Step.index host file source ∈ steps →
    (∃ root aliases endings, (∀ ending ∈ endings, '/' ∉ ending.toList) ∧
      host = (ofRoot disk root aliases endings).host disk) ∧ ∃ slashes, IdOf disk slashes file

/-- Every indexed file is known by an id then. -/
theorem idOf_of_mem_files {steps : List (Index.Step Failure)} (h : CallsAbout disk steps) :
    ∀ file ∈ (Index.run steps).index.files, ∃ slashes, IdOf disk slashes file := by
  refine Index.run_within fun hstep => ?_
  obtain ⟨⟨root, aliases, endings, hendings, rfl⟩, hfile⟩ := h hstep
  refine ⟨fun {specifier importer target} hresolve => ?_, hfile⟩
  have hresolve := host_resolve_eq_ok.1 hresolve
  obtain ⟨base, hbase, -⟩ := resolve_eq_ok.1 hresolve
  exact ⟨_, .resolved hendings hbase hresolve⟩

/-- Ids of one file are the same, or one of them has a slash more in front. -/
theorem IdOf.eq_or_cons (hnamed : disk.Named) {slashes' : Text} {id' : String}
    (h : IdOf disk slashes id) (h' : IdOf disk slashes' id')
    (hplace : disk.placeOf id = disk.placeOf id') :
    id = id' ∨ id.toList = '/' :: id'.toList ∨ id'.toList = '/' :: id.toList := by
  have hcanonical := (h.canonical hnamed).2
  have hcanonical' := (h'.canonical hnamed).2
  have heq := h.eq_iff hnamed h' hplace
  rw [hcanonical.path_eq, hcanonical'.path_eq, hplace, heq]
  rcases hcanonical.root with rfl | rfl <;> rcases hcanonical'.root with rfl | rfl
  · exact .inl rfl
  · exact .inr (.inr rfl)
  · exact .inr (.inl rfl)
  · exact .inl rfl

/-- What the host gives for a specifier leads to a file, and every id is the canonical path of a file
that is there. Ids of one file are the same when they begin with the same slashes: relative
specifiers keep these, and there is one slash unless a path on the way begins with just two. So an
index knows a file by one id, or by two ids of which one has a slash more in front. -/
theorem one_id (hnamed : disk.Named) :
    (∀ {modules : Modules} {specifier importer id},
        modules.resolve disk specifier importer = .ok (some id) → disk.isFile id = true) ∧
      (∀ {slashes id}, IdOf disk slashes id →
        (∃ octets, disk.entry? (disk.placeOf id) = some (.file octets)) ∧
          Canonical slashes (disk.placeOf id) id.toList) ∧
      (∀ {slashes slashes' id id'}, IdOf disk slashes id → IdOf disk slashes' id' →
        disk.placeOf id = disk.placeOf id' → (id = id' ↔ slashes = slashes')) ∧
      (∀ {root aliases endings specifier slashes importer id}, IdOf disk slashes importer →
        (∀ ending ∈ endings, '/' ∉ ending.toList) → isRelative specifier.toList = true →
        (ofRoot disk root aliases endings).resolve disk specifier (some importer) = .ok (some id) →
        IdOf disk slashes id) ∧
      (∀ {root aliases endings specifier importer id},
        (∀ ending ∈ endings, '/' ∉ ending.toList) → Single root aliases specifier importer →
        (ofRoot disk root aliases endings).resolve disk specifier importer = .ok (some id) →
        IdOf disk ['/'] id) ∧
      (∀ {target endings exclusions id}, ¬ Doubled target.toList →
        id ∈ disk.findFiles target endings exclusions → IdOf disk ['/'] id) ∧
      ∀ {steps : List (Index.Step Failure)}, CallsAbout disk steps →
        ∀ id ∈ (Index.run steps).index.files, ∀ id' ∈ (Index.run steps).index.files,
          disk.placeOf id = disk.placeOf id' →
            id = id' ∨ id.toList = '/' :: id'.toList ∨ id'.toList = '/' :: id.toList := by
  refine ⟨isFile_of_resolve, fun h => h.canonical hnamed, fun h h' => h.eq_iff hnamed h',
    fun himporter => himporter.relative hnamed, IdOf.of_single hnamed, IdOf.of_found hnamed, ?_⟩
  intro steps hcalls id hid id' hid' hplace
  obtain ⟨_, hid⟩ := idOf_of_mem_files hcalls id hid
  obtain ⟨_, hid'⟩ := idOf_of_mem_files hcalls id' hid'
  exact hid.eq_or_cons hnamed hid' hplace

/-- A working directory with two sources. -/
def pair : Disk :=
  Disk.ofEntries ["w".toList] [(["a.ts".toList], .file []), (["src".toList], .directory),
    (["src".toList, "b.ts".toList], .file [])]

theorem named_pair : pair.Named where
  working := by decide
  entries {place _} hentry := by
    have hkeys : ∀ place ∈ pair.entries.keys, ∀ name ∈ place, Path.IsName name := by decide
    exact hkeys place (Table.mem_keys_iff.2 ⟨_, hentry⟩)

theorem mem_findFiles_pair : "/w/a.ts" ∈ pair.findFiles "." [".ts"] [] :=
  Disk.mem_findFiles_iff.2 ⟨["w".toList], rfl, .inr ⟨by decide, ["a.ts".toList], [], by decide,
    by decide, by decide +kernel, by decide, by decide +kernel⟩⟩

/-- A relative specifier and the search of the working directory give one id. -/
theorem one_id_pair : pair.Named ∧ "/w/a.ts" ∈ pair.findFiles "." [".ts"] [] ∧
    ∀ id, (ofRoot pair "." []).resolve pair "../a.js" (some "/w/src/b.ts") = .ok (some id) →
      pair.placeOf id = pair.placeOf "/w/a.ts" → id = "/w/a.ts" := by
  obtain ⟨-, -, hiff, -, hresolved, hfound, -⟩ := one_id named_pair
  refine ⟨named_pair, mem_findFiles_pair, fun id hid hplace => ?_⟩
  have hleft : IdOf pair ['/'] id :=
    hresolved (by decide) ⟨fun _ heq => Option.some.inj heq ▸ by decide, by decide, by decide,
      List.forall_mem_nil _⟩ hid
  have hright : IdOf pair ['/'] "/w/a.ts" := hfound (by decide) mem_findFiles_pair
  exact (hiff hleft hright hplace).2 rfl

/-- A file can have two ids: two slashes in front of a specifier are kept. -/
theorem not_one_id : ¬ ∀ (disk : Disk) (root : String) (aliases : List (String × String))
    (specifier specifier' : String) (importer importer' : Option String) (id id' : String),
    disk.Named →
      (ofRoot disk root aliases).resolve disk specifier importer = .ok (some id) →
        (ofRoot disk root aliases).resolve disk specifier' importer' = .ok (some id') →
          disk.placeOf id = disk.placeOf id' → id = id' := by
  intro hall
  have hone : (ofRoot pair "." []).resolve pair "/w/a" (some "/w/src/b.ts") =
      .ok (some "/w/a.ts") := resolve_eq_ok.2 ⟨"/w/a".toList, rfl, by decide +kernel⟩
  have htwo : (ofRoot pair "." []).resolve pair "//w/a" (some "/w/src/b.ts") =
      .ok (some "//w/a.ts") := resolve_eq_ok.2 ⟨"//w/a".toList, rfl, by decide +kernel⟩
  have hsame := hall pair "." [] _ _ _ _ _ _ named_pair hone htwo (by decide +kernel)
  exact absurd hsame (by decide)

end Modules

end PersistedQueries
