import Mathlib.Data.List.TakeWhile
import PersistedQueries.Disk.Path
import PersistedQueries.Proofs.Text.Splitting

/-!
# The names of a path

Cutting a path at its slashes and putting it together again gives the same names. So a normal path
has the names that it was made of: none of them is empty, and none of them is made of dots that lead
nowhere or back.

- `Path.IsName`: a name that something can have.
- `Path.parts_normalize`: the names of a normal path from the root.
- `Path.isName_of_mem_normalize`, `Path.isName_of_mem_directory`: what its names are, and those of
  its directory.
-/

namespace PersistedQueries

namespace Path

variable {path name : Text} {names done : List Text}

/-- A name that something in a directory can have. -/
structure IsName (name : Text) : Prop where
  nonempty : name ≠ []
  not_dot : name ≠ ['.']
  not_dots : name ≠ ['.', '.']
  no_slash : '/' ∉ name

instance (name : Text) : Decidable (IsName name) :=
  decidable_of_iff (name ≠ [] ∧ name ≠ ['.'] ∧ name ≠ ['.', '.'] ∧ '/' ∉ name)
    ⟨fun ⟨h, h', h'', h'''⟩ => ⟨h, h', h'', h'''⟩, fun ⟨h, h', h'', h'''⟩ => ⟨h, h', h'', h'''⟩⟩

theorem not_mem_of_mem_parts (h : name ∈ parts path) : '/' ∉ name :=
  Text.not_mem_of_mem_splitOn h

theorem parts_append (path more : Text) : parts (path ++ '/' :: more) = parts path ++ parts more :=
  Text.splitOn_append '/' path more

theorem parts_ofParts (hne : names ≠ []) (h : ∀ name ∈ names, IsName name) :
    parts (ofParts names) = names :=
  Text.splitOn_joinWith hne fun name hname => (h name hname).no_slash

/-- Slashes have only empty names. -/
theorem eq_nil_of_mem_slashes (h : ∀ c ∈ path, c = '/') (hname : name ∈ parts path) :
    name = [] := by
  induction path with
  | nil => exact List.mem_singleton.1 hname
  | cons c rest ih =>
    obtain ⟨rfl, hrest⟩ := List.forall_mem_cons.1 h
    have hsplit : parts ('/' :: rest) = [] :: parts rest := parts_append [] rest
    rw [hsplit] at hname
    rcases List.mem_cons.1 hname with rfl | hname
    · rfl
    · exact ih hrest hname

/-! ## Normal paths -/

theorem collapse_cons (rooted : Bool) (done : List Text) (name : Text) (names : List Text) :
    collapse rooted done (name :: names) =
      if name = [] ∨ name = ['.'] then collapse rooted done names
      else if name ≠ ['.', '.'] then collapse rooted (name :: done) names
      else
        match done with
        | [] => if rooted then collapse rooted [] names else collapse rooted [name] names
        | last :: before =>
          if last = ['.', '.'] then collapse rooted (name :: done) names
          else collapse rooted before names :=
  collapse.eq_def rooted done (name :: names)

theorem isName_collapse (hdone : ∀ name ∈ done, IsName name) (hnames : ∀ name ∈ names, '/' ∉ name) :
    ∀ name ∈ collapse true done names, IsName name := by
  induction names generalizing done with
  | nil => exact fun name hname => hdone name (List.mem_reverse.1 hname)
  | cons first names ih =>
    obtain ⟨hfirst, hnames⟩ := List.forall_mem_cons.1 hnames
    rw [collapse_cons]
    split
    · exact ih hdone hnames
    next hdot =>
    rw [not_or] at hdot
    split
    · next hdots =>
      exact ih (List.forall_mem_cons.2 ⟨⟨hdot.1, hdot.2, hdots, hfirst⟩, hdone⟩) hnames
    · cases done with
      | nil => exact ih hdone hnames
      | cons last before =>
        obtain ⟨hlast, hbefore⟩ := List.forall_mem_cons.1 hdone
        dsimp only
        rw [if_neg hlast.not_dots]
        exact ih hbefore hnames

theorem isAbsolute_iff : isAbsolute path = true ↔ ∃ rest, path = '/' :: rest := by
  rw [isAbsolute, List.isPrefixOf_iff_prefix]
  constructor
  · rintro ⟨rest, rfl⟩
    exact ⟨rest, rfl⟩
  · rintro ⟨rest, rfl⟩
    exact List.prefix_append ['/'] rest

/-- A path that is taken from another one is absolute when one of them is. -/
theorem isAbsolute_join (start path : Text) :
    isAbsolute (join start path) = (isAbsolute path || isAbsolute start) := by
  unfold join
  cases h : isAbsolute path with
  | true => exact h
  | false =>
    rw [if_neg Bool.false_ne_true, Bool.false_or]
    cases start with
    | nil => exact h
    | cons c rest => split <;> rfl

theorem rootSlashes_of_isAbsolute (h : isAbsolute path = true) :
    rootSlashes path = ['/'] ∨ rootSlashes path = ['/', '/'] := by
  rw [rootSlashes, h, Bool.not_true, if_neg Bool.false_ne_true]
  split
  · exact .inr rfl
  · exact .inl rfl

theorem isAbsolute_normalize (h : isAbsolute path = true) :
    isAbsolute (normalize path) = true := by
  unfold normalize
  rcases rootSlashes_of_isAbsolute h with hroot | hroot <;> rw [hroot] <;> rfl

theorem isAbsolute_ofParts (h : ∀ name ∈ names, IsName name) :
    isAbsolute (ofParts names) = false := by
  cases names with
  | nil => rfl
  | cons first rest =>
    have hfirst := h first List.mem_cons_self
    obtain ⟨c, more, rfl⟩ := List.exists_cons_of_ne_nil hfirst.nonempty
    have hc : '/' ≠ c := fun heq => hfirst.no_slash (heq ▸ List.mem_cons_self)
    rw [← Bool.not_eq_true, isAbsolute_iff]
    rintro ⟨others, heq⟩
    cases rest <;> exact hc (List.cons.inj heq).1.symm

/-- The names of a normal path from the root are those that are left when two dots have led back. -/
theorem parts_normalize (h : isAbsolute path = true) :
    (parts (normalize path)).filter (!·.isEmpty) = collapse true [] (parts path) := by
  have hnames : ∀ name ∈ collapse true [] (parts path), IsName name :=
    isName_collapse (List.forall_mem_nil _) fun _ => not_mem_of_mem_parts
  have hkept : (parts (ofParts (collapse true [] (parts path)))).filter (!·.isEmpty) =
      collapse true [] (parts path) := by
    generalize collapse true [] (parts path) = names at hnames
    rcases eq_or_ne names [] with rfl | hne
    · rfl
    · rw [parts_ofParts hne hnames]
      exact List.filter_eq_self.2 fun name hname => by simp [(hnames name hname).nonempty]
  unfold normalize
  rw [h]
  rcases rootSlashes_of_isAbsolute h with hroot | hroot <;> rw [hroot]
  · exact (congrArg (List.filter _) (parts_append [] _)).trans hkept
  · exact (congrArg (List.filter _)
      ((parts_append [] _).trans (congrArg ([[]] ++ ·) (parts_append [] _)))).trans hkept

theorem isName_of_mem_normalize (h : isAbsolute path = true) (hname : name ∈ parts (normalize path))
    (hne : name ≠ []) : IsName name := by
  have hmem : name ∈ (parts (normalize path)).filter (!·.isEmpty) :=
    List.mem_filter.2 ⟨hname, by simpa using hne⟩
  rw [parts_normalize h] at hmem
  exact isName_collapse (List.forall_mem_nil _) (fun _ => not_mem_of_mem_parts) name hmem

/-! ## Directories -/

/-- What is left behind everything but slashes begins with a slash. -/
theorem dropWhile_ne_slash (text : Text) :
    text.dropWhile (· ≠ '/') = [] ∨ ∃ rest, text.dropWhile (· ≠ '/') = '/' :: rest := by
  induction text with
  | nil => exact .inl rfl
  | cons c rest ih =>
    rw [List.dropWhile_cons]
    split
    · exact ih
    · next h => exact .inr ⟨rest, by simpa using h⟩

/-- The directory of a path is the path up to a slash, or made of slashes. -/
theorem directory_cases (path : Text) :
    (∃ rest, path = directory path ++ '/' :: rest) ∨ ∀ c ∈ directory path, c = '/' := by
  have hpath := List.takeWhile_append_dropWhile (p := (· ≠ '/')) (l := path.reverse)
  have hfirst := dropWhile_ne_slash path.reverse
  unfold directory
  dsimp only
  generalize path.reverse.dropWhile (· ≠ '/') = upTo at hpath hfirst
  have hslashes : upTo.takeWhile (· = '/') =
      List.replicate (upTo.takeWhile (· = '/')).length '/' :=
    List.eq_replicate_iff.2 ⟨rfl, fun c hc => by simpa using List.mem_takeWhile_imp hc⟩
  have hcut := List.takeWhile_append_dropWhile (p := (· = '/')) (l := upTo)
  split
  · next hempty =>
    rw [List.isEmpty_iff.1 hempty, List.append_nil] at hcut
    rw [hcut] at hslashes
    exact .inr fun c hc => (List.eq_replicate_iff.1 hslashes).2 c (List.mem_reverse.1 hc)
  · next hnonempty =>
    rcases hfirst with rfl | ⟨more, rfl⟩
    · exact absurd rfl hnonempty
    -- at least one slash is cut off behind the directory
    obtain ⟨n, hn⟩ : ∃ n, (('/' :: more).takeWhile (· = '/')).length = n + 1 := by
      rw [List.takeWhile_cons_of_pos (by decide)]
      exact ⟨_, rfl⟩
    rw [← hcut, hslashes, hn] at hpath
    have hpath := congrArg List.reverse hpath
    rw [List.reverse_reverse, List.reverse_append, List.reverse_append, List.reverse_replicate,
      List.replicate_succ, List.append_assoc] at hpath
    exact .inl ⟨_, hpath.symm⟩

/-- The names of the directory of a path are names of the path. -/
theorem mem_parts_of_mem_directory (hname : name ∈ parts (directory path)) (hne : name ≠ []) :
    name ∈ parts path := by
  rcases directory_cases path with ⟨rest, heq⟩ | hslashes
  · rw [heq, parts_append]
    exact List.mem_append_left _ hname
  · exact absurd (eq_nil_of_mem_slashes hslashes hname) hne

theorem isName_of_mem_directory (h : isAbsolute path = true)
    (hname : name ∈ parts (directory (normalize path))) (hne : name ≠ []) : IsName name :=
  isName_of_mem_normalize h (mem_parts_of_mem_directory hname hne) hne

end Path

end PersistedQueries
