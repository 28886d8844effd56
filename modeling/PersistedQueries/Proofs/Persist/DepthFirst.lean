import Mathlib.Data.Finset.Card
import PersistedQueries.Proofs.Persist.Order

/-!
# Merging goes depth first

A walk keeps the names that wait on a stack, where a name may stand more than once, and drops it when
it comes up again. This is the order of a depth-first search, which goes through everything below a
name before it turns to the next one, also where names depend on each other in circles.

- `Walks`: the turns of a walk. That they come to an end is what `walks_iff` says, since a derivation
  has one step for each of them.
- `DepthFirst`: a depth-first search of the names that some names depend on. A name that is not
  registered is found like any other, and has nothing below it. `DepthFirst.unique`,
  `exists_depthFirst`: it comes to an end, in one way.
- `DepthFirst.nodup`, `DepthFirst.mem_iff`: it finds what is reached, each name once.
- `gather`: the texts of some names, added one after the other. `visit_depthFirst`: a walk gathers
  what a depth-first search finds.
- `gather_eq_error_iff`, `Keeps`: where this fails, and which texts are added.
- `merge_depthFirst`: what merging gives, on every registry.
-/

namespace PersistedQueries

open PersistedQueries.Text

namespace Merge

variable {registry : Registry} {file : Option String} {seen : NameSet} {merged : Text}
  {visited names order stack : List String} {P : String → Prop}

/-! ## Turns of a walk -/

/-- The turns of a walk, one for each name that comes up on its stack, and the result after the last
of them. Nothing bounds their number. -/
inductive Walks (registry : Registry) (file : Option String) :
    NameSet → Text → List String → Except Unbound Text → Prop where
  | done {seen : NameSet} {merged : Text} : Walks registry file seen merged [] (.ok merged)
  | again {seen : NameSet} {merged : Text} {name : String} {stack : List String}
      {result : Except Unbound Text} (known : name ∈ seen)
      (rest : Walks registry file seen merged stack result) :
      Walks registry file seen merged (name :: stack) result
  | missing {seen : NameSet} {merged : Text} {name : String} {stack : List String}
      (new : name ∉ seen) (none_eq : registry.get? name = none) :
      Walks registry file seen merged (name :: stack) (.error ⟨name, file, .unknown⟩)
  | found {seen : NameSet} {merged : Text} {name : String} {stack : List String} {site : CallSite}
      {result : Except Unbound Text} (new : name ∉ seen) (some_eq : registry.get? name = some site)
      (rest : Walks registry file (seen.insert name) (append merged site.source.toList)
        ((seen.insert name).lacking site.dependsOn.names ++ stack) result) :
      Walks registry file seen merged (name :: stack) result

theorem visit_known {name : String} (h : name ∈ seen) :
    visit registry file seen merged (name :: stack) = visit registry file seen merged stack := by
  rw [visit, dif_pos h]

theorem visit_missing {name : String} (h : name ∉ seen) (hnone : registry.get? name = none) :
    visit registry file seen merged (name :: stack) = .error ⟨name, file, .unknown⟩ := by
  rw [visit, dif_neg h]
  split
  · rfl
  · next site hsite => cases hnone.symm.trans hsite

theorem visit_found {name : String} {site : CallSite} (h : name ∉ seen)
    (hsite : registry.get? name = some site) :
    visit registry file seen merged (name :: stack) =
      visit registry file (seen.insert name) (append merged site.source.toList)
        ((seen.insert name).lacking site.dependsOn.names ++ stack) := by
  rw [visit, dif_neg h]
  split
  · next hnone => cases hsite.symm.trans hnone
  · next own hown =>
    obtain rfl : site = own := Option.some.inj (hsite.symm.trans hown)
    rfl

/-- The turns of a walk come to an end, with one result. -/
theorem walks_iff {result : Except Unbound Text} :
    Walks registry file seen merged stack result ↔
      result = visit registry file seen merged stack := by
  constructor
  · intro h
    induction h with
    | done => rw [visit]
    | again hknown _ ih => rw [visit_known hknown, ih]
    | missing hnew hnone => rw [visit_missing hnew hnone]
    | found hnew hsome _ ih => rw [visit_found hnew hsome, ih]
  · rintro rfl
    fun_induction visit registry file seen merged stack with
    | case1 seen merged => exact .done
    | case2 seen merged name stack hname ih => exact .again hname ih
    | case3 seen merged name stack hname hnone => exact .missing hname hnone
    | case4 seen merged name stack hname site hsite ih => exact .found hname hsite ih

/-! ## Depth-first search -/

/-- The names that a name depends on, in ascending order. A name that is not registered depends on
none. -/
def children (registry : Registry) (name : String) : List String :=
  (registry.get? name).elim [] fun site => site.dependsOn.names

theorem children_eq {name : String} {site : CallSite} (h : registry.get? name = some site) :
    children registry name = site.dependsOn.names := by
  rw [children, h]
  rfl

theorem children_of_missing {name : String} (h : registry.get? name = none) :
    children registry name = [] := by
  rw [children, h]
  rfl

/-- A depth-first search through some names finds the names of `order`, one after the other. It passes
over the visited ones, and finds everything below a new name before it goes on to the next. -/
inductive DepthFirst (registry : Registry) : List String → List String → List String → Prop where
  | done {visited : List String} : DepthFirst registry visited [] []
  | known {visited names order : List String} {name : String} (mem : name ∈ visited)
      (rest : DepthFirst registry visited names order) :
      DepthFirst registry visited (name :: names) order
  | new {visited names below order : List String} {name : String} (not_mem : name ∉ visited)
      (inner : DepthFirst registry (name :: visited) (children registry name) below)
      (rest : DepthFirst registry (below ++ name :: visited) names order) :
      DepthFirst registry visited (name :: names) (name :: (below ++ order))

/-- A depth-first search finds its names in one order. -/
theorem DepthFirst.unique {other : List String} (h : DepthFirst registry visited names order)
    (h' : DepthFirst registry visited names other) : other = order := by
  induction h generalizing other with
  | done =>
    cases h'
    rfl
  | known hmem _ ih =>
    cases h' with
    | known _ hrest => exact ih hrest
    | new hnot _ _ => exact absurd hmem hnot
  | new hnot _ _ ihinner ihrest =>
    cases h' with
    | known hmem _ => exact absurd hmem hnot
    | new _ hinner hrest =>
      obtain rfl := ihinner hinner
      obtain rfl := ihrest hrest
      rfl

/-- The registered names that are not visited yet. -/
def unvisited (registry : Registry) (visited : List String) : Finset String :=
  registry.keys.toFinset \ visited.toFinset

theorem unvisited_subset {more : List String} (h : ∀ name ∈ visited, name ∈ more) :
    unvisited registry more ⊆ unvisited registry visited := by
  refine Finset.sdiff_subset_sdiff Finset.Subset.rfl fun name hname => ?_
  rw [List.mem_toFinset] at hname ⊢
  exact h name hname

theorem unvisited_ssubset {more : List String} {name : String} (h : ∀ name ∈ visited, name ∈ more)
    (hkey : name ∈ registry.keys) (hnew : name ∉ visited) (hmore : name ∈ more) :
    unvisited registry more ⊂ unvisited registry visited := by
  refine Finset.ssubset_iff_of_subset (unvisited_subset h) |>.2 ⟨name, ?_, ?_⟩
  · simp [unvisited, hkey, hnew]
  · simp [unvisited, hmore]

/-- A depth-first search comes to an end, on circles too: below a new name fewer registered names are
left to visit. -/
theorem exists_depthFirst (registry : Registry) (visited names : List String) :
    ∃ order, DepthFirst registry visited names order := by
  induction hn : (unvisited registry visited).card using Nat.strong_induction_on
    generalizing visited names with
  | _ n ih =>
    subst hn
    -- the names of one list are gone through while no more names become unvisited
    have hlist : ∀ more, (∀ name ∈ visited, name ∈ more) →
        ∃ order, DepthFirst registry more names order := by
      induction names with
      | nil =>
        intro more _
        exact ⟨[], .done⟩
      | cons name names ihnames =>
        intro more hmore
        by_cases hknown : name ∈ more
        · obtain ⟨order, horder⟩ := ihnames more hmore
          exact ⟨order, .known hknown horder⟩
        · have hbelow : ∃ below,
              DepthFirst registry (name :: more) (children registry name) below := by
            cases hsite : registry.get? name with
            | none =>
              rw [children_of_missing hsite]
              exact ⟨[], .done⟩
            | some site =>
              refine ih _ ?_ (name :: more) _ rfl
              have hsub : unvisited registry more ⊆ unvisited registry visited :=
                unvisited_subset hmore
              have hless : unvisited registry (name :: more) ⊂ unvisited registry more :=
                unvisited_ssubset (fun _ => List.mem_cons_of_mem name)
                  (Table.mem_keys_of_get? hsite) hknown List.mem_cons_self
              exact Finset.card_lt_card (hless.trans_subset hsub)
          obtain ⟨below, hbelow⟩ := hbelow
          obtain ⟨order, horder⟩ := ihnames (below ++ name :: more) fun other hother =>
            List.mem_append_right _ (List.mem_cons_of_mem name (hmore other hother))
          exact ⟨_, .new hknown hbelow horder⟩
    exact hlist visited fun _ hname => hname

/-- A depth-first search finds no name twice, and none that was visited. -/
theorem DepthFirst.nodup (h : DepthFirst registry visited names order) :
    order.Nodup ∧ ∀ name ∈ order, name ∉ visited := by
  induction h with
  | done => exact ⟨.nil, List.forall_mem_nil _⟩
  | known _ _ ih => exact ih
  | @new visited names below order name hnot _ _ ihinner ihrest =>
    obtain ⟨hbelow, hbelowNew⟩ := ihinner
    obtain ⟨horder, horderNew⟩ := ihrest
    have hapart : (below ++ order).Nodup := by
      refine List.nodup_append.2 ⟨hbelow, horder, ?_⟩
      rintro a ha b hb rfl
      exact horderNew a hb (List.mem_append_left _ ha)
    have hfresh : ∀ other ∈ below ++ order, other ∉ name :: visited := by
      intro other hother
      rcases List.mem_append.1 hother with hother | hother
      · exact hbelowNew other hother
      · exact fun hmem => horderNew other hother (List.mem_append_right _ hmem)
    refine ⟨List.nodup_cons.2 ⟨fun hmem => hfresh name hmem List.mem_cons_self, hapart⟩, ?_⟩
    exact List.forall_mem_cons.2
      ⟨hnot, fun other hother hmem => hfresh other hother (List.mem_cons_of_mem name hmem)⟩

/-- A depth-first search finds what its names lead to and nothing else. -/
theorem DepthFirst.subset (h : DepthFirst registry visited names order)
    (hchildren : ∀ name, P name → ∀ next ∈ children registry name, P next)
    (hnames : ∀ name ∈ names, P name) : ∀ name ∈ order, P name := by
  induction h with
  | done => exact List.forall_mem_nil _
  | known _ _ ih => exact ih (List.forall_mem_cons.1 hnames).2
  | @new visited names below order name _ _ _ ihinner ihrest =>
    obtain ⟨hname, hnames⟩ := List.forall_mem_cons.1 hnames
    refine List.forall_mem_cons.2 ⟨hname, fun other hother => ?_⟩
    rcases List.mem_append.1 hother with hother | hother
    · exact ihinner (hchildren name hname) other hother
    · exact ihrest hnames other hother

/-- A depth-first search comes to all of its names, and to all that those it finds depend on. -/
theorem DepthFirst.complete (h : DepthFirst registry visited names order) :
    (∀ name ∈ names, name ∈ visited ∨ name ∈ order) ∧
      ∀ name ∈ order, ∀ next ∈ children registry name, next ∈ visited ∨ next ∈ order := by
  induction h with
  | done => exact ⟨List.forall_mem_nil _, List.forall_mem_nil _⟩
  | known hmem _ ih => exact ⟨List.forall_mem_cons.2 ⟨.inl hmem, ih.1⟩, ih.2⟩
  | @new visited names below order name _ _ _ ihinner ihrest =>
    obtain ⟨hchildren, hbelow⟩ := ihinner
    obtain ⟨hnames, horder⟩ := ihrest
    -- what is known after the name and everything below it was known before, or is found here
    have hearly : ∀ {other}, other ∈ name :: visited ∨ other ∈ below →
        other ∈ visited ∨ other ∈ name :: (below ++ order) := by
      intro other h
      simp only [List.mem_cons, List.mem_append] at h ⊢
      tauto
    have hlate : ∀ {other}, other ∈ below ++ name :: visited ∨ other ∈ order →
        other ∈ visited ∨ other ∈ name :: (below ++ order) := by
      intro other h
      simp only [List.mem_cons, List.mem_append] at h ⊢
      tauto
    refine ⟨List.forall_mem_cons.2
      ⟨.inr List.mem_cons_self, fun other hother => hlate (hnames other hother)⟩, ?_⟩
    refine List.forall_mem_cons.2 ⟨fun next hnext => hearly (hchildren next hnext), ?_⟩
    intro other hother next hnext
    rcases List.mem_append.1 hother with hother | hother
    · exact hearly (hbelow other hother next hnext)
    · exact hlate (horder other hother next hnext)

/-- A depth-first search from what a call site depends on finds the names that it reaches. -/
theorem DepthFirst.mem_iff {site : CallSite}
    (h : DepthFirst registry [] site.dependsOn.names order) {name : String} :
    name ∈ order ↔ Reaches registry site name := by
  constructor
  · refine h.subset (fun name hname next hnext => ?_) (fun _ hname => .direct hname) name
    cases hsite : registry.get? name with
    | none =>
      rw [children_of_missing hsite] at hnext
      exact absurd hnext List.not_mem_nil
    | some via =>
      rw [children_eq hsite] at hnext
      exact .through hname hsite hnext
  · intro hname
    obtain ⟨hdirect, hthrough⟩ := h.complete
    induction hname with
    | direct hname => exact (hdirect _ hname).resolve_left List.not_mem_nil
    | through _ hvia hnext ih =>
      exact (hthrough _ ih _ (children_eq hvia ▸ hnext)).resolve_left List.not_mem_nil

/-! ## What a walk gathers -/

/-- The texts of some names added to a document, one after the other. The file is the one that is
named when a definition is missing. -/
def gather (registry : Registry) (file : Option String) : Text → List String → Except Unbound Text
  | merged, [] => .ok merged
  | merged, name :: names =>
    match registry.get? name with
    | none => .error ⟨name, file, .unknown⟩
    | some site => gather registry file (append merged site.source.toList) names

theorem gather_missing {name : String} (h : registry.get? name = none) :
    gather registry file merged (name :: names) = .error ⟨name, file, .unknown⟩ := by
  rw [gather, h]

theorem gather_found {name : String} {site : CallSite} (h : registry.get? name = some site) :
    gather registry file merged (name :: names) =
      gather registry file (append merged site.source.toList) names := by
  rw [gather, h]

theorem gather_append (front back : List String) :
    gather registry file merged (front ++ back) =
      gather registry file merged front >>= fun merged => gather registry file merged back := by
  induction front generalizing merged with
  | nil => rfl
  | cons name front ih =>
    rw [List.cons_append]
    cases hsite : registry.get? name with
    | none =>
      rw [gather_missing hsite, gather_missing hsite]
      rfl
    | some site => rw [gather_found hsite, gather_found hsite, ih]

theorem mem_foldl_insert {name : String} (names : List String) (seen : NameSet) :
    name ∈ names.foldl NameSet.insert seen ↔ name ∈ names ∨ name ∈ seen := by
  induction names generalizing seen with
  | nil => simp
  | cons first names ih =>
    rw [List.foldl_cons, ih, NameSet.mem_insert, List.mem_cons]
    tauto

/-- A walk whose topmost names are those of a depth-first search gathers what the search finds, and
goes on with the rest of its stack. Names that were visited may be gone from the stack. -/
theorem visit_depthFirst (h : DepthFirst registry visited names order)
    (hseen : ∀ name, name ∈ seen ↔ name ∈ visited) {waits : String → Bool}
    (hwaits : ∀ name, waits name = false → name ∈ visited) (merged : Text) (stack : List String) :
    visit registry file seen merged (names.filter waits ++ stack) =
      gather registry file merged order >>= fun merged =>
        visit registry file (order.foldl NameSet.insert seen) merged stack := by
  induction h generalizing seen waits merged stack with
  | done => rfl
  | @known visited names order name hmem _ ih =>
    by_cases hname : waits name = true
    · rw [List.filter_cons_of_pos hname, List.cons_append, visit_known ((hseen name).2 hmem)]
      exact ih hseen hwaits merged stack
    · rw [List.filter_cons_of_neg hname]
      exact ih hseen hwaits merged stack
  | @new visited names below order name hnot _ _ ihinner ihrest =>
    have hname : waits name = true := by
      by_contra hname
      exact hnot (hwaits name (Bool.eq_false_iff.2 hname))
    have hnew : name ∉ seen := fun hmem => hnot ((hseen name).1 hmem)
    rw [List.filter_cons_of_pos hname, List.cons_append]
    cases hsite : registry.get? name with
    | none =>
      rw [visit_missing hnew hsite, gather_missing hsite]
      rfl
    | some site =>
      have hinner : ∀ other, other ∈ seen.insert name ↔ other ∈ name :: visited := by
        intro other
        rw [NameSet.mem_insert, List.mem_cons, hseen]
      have hrest : ∀ other, other ∈ below.foldl NameSet.insert (seen.insert name) ↔
          other ∈ below ++ name :: visited := by
        intro other
        rw [mem_foldl_insert, List.mem_append, hinner]
      have hlacking : ∀ other, decide (other ∉ seen.insert name) = false →
          other ∈ name :: visited := by
        intro other hother
        rw [← hinner]
        exact not_not.1 (of_decide_eq_false hother)
      rw [visit_found hnew hsite, gather_found hsite, gather_append, bind_assoc,
        NameSet.lacking, ← children_eq hsite, ihinner hinner hlacking, List.foldl_cons,
        List.foldl_append]
      -- behind what is below the name, the rest of the names is on top of the stack
      refine congrArg _ (funext fun later => ?_)
      refine ihrest hrest (fun other hother => ?_) later stack
      exact List.mem_append_right _ (List.mem_cons_of_mem name (hwaits other hother))

/-- Merging gathers what a depth-first search finds. -/
theorem merge_eq_gather {site : CallSite}
    (h : DepthFirst registry [] site.dependsOn.names order) :
    merge registry site = gather registry site.file site.source.toList order := by
  have hvisit : visit registry site.file .empty site.source.toList
      (site.dependsOn.names.filter (fun _ => true) ++ []) = _ :=
    visit_depthFirst h (fun name => by simp) (by simp) site.source.toList []
  rw [List.filter_true, List.append_nil] at hvisit
  rw [merge, hvisit]
  cases gather registry site.file site.source.toList order with
  | error fault => rfl
  | ok document =>
    show visit registry site.file _ document [] = .ok document
    rw [visit]

/-! ## Where gathering fails -/

/-- The first name of a list that is not registered. -/
def FirstMissing (registry : Registry) (order : List String) (name : String) : Prop :=
  ∃ before after, order = before ++ name :: after ∧ registry.get? name = none ∧
    ∀ other ∈ before, registry.contains other = true

theorem firstMissing_cons_of_missing {first name : String} (h : registry.get? first = none) :
    FirstMissing registry (first :: names) name ↔ name = first := by
  constructor
  · rintro ⟨_ | ⟨other, before⟩, after, hsplit, -, hbefore⟩
    · exact (List.cons.inj hsplit).1.symm
    · obtain rfl : first = other := (List.cons.inj hsplit).1
      have hfirst := hbefore first List.mem_cons_self
      rw [Table.contains, h] at hfirst
      cases hfirst
  · rintro rfl
    exact ⟨[], names, rfl, h, List.forall_mem_nil _⟩

theorem firstMissing_cons_of_found {first name : String} {site : CallSite}
    (h : registry.get? first = some site) :
    FirstMissing registry (first :: names) name ↔ FirstMissing registry names name := by
  constructor
  · rintro ⟨_ | ⟨other, before⟩, after, hsplit, hnone, hbefore⟩
    · obtain rfl : first = name := (List.cons.inj hsplit).1
      cases h.symm.trans hnone
    · exact ⟨before, after, (List.cons.inj hsplit).2, hnone, (List.forall_mem_cons.1 hbefore).2⟩
  · rintro ⟨before, after, rfl, hnone, hbefore⟩
    exact ⟨first :: before, after, rfl, hnone,
      List.forall_mem_cons.2 ⟨Table.contains_iff.2 ⟨site, h⟩, hbefore⟩⟩

/-- Gathering fails at the first name that is not registered. -/
theorem gather_eq_error_iff {fault : Unbound} :
    gather registry file merged names = .error fault ↔
      ∃ name, FirstMissing registry names name ∧ fault = ⟨name, file, .unknown⟩ := by
  induction names generalizing merged with
  | nil =>
    refine iff_of_false nofun ?_
    rintro ⟨name, ⟨before, after, hsplit, -⟩, -⟩
    exact absurd hsplit.symm (List.append_ne_nil_of_right_ne_nil _ (List.cons_ne_nil _ _))
  | cons first names ih =>
    cases hsite : registry.get? first with
    | none =>
      rw [gather_missing hsite, Except.error.injEq]
      simp only [firstMissing_cons_of_missing hsite, exists_eq_left]
      exact eq_comm
    | some site =>
      rw [gather_found hsite, ih]
      simp only [firstMissing_cons_of_found hsite]

/-- Some name is the first one that is not registered, if there is such a name. -/
theorem exists_firstMissing_iff :
    (∃ name, FirstMissing registry names name) ↔ ∃ name ∈ names, registry.get? name = none := by
  constructor
  · rintro ⟨name, before, after, rfl, hnone, -⟩
    exact ⟨name, List.mem_append_right _ List.mem_cons_self, hnone⟩
  · induction names with
    | nil =>
      rintro ⟨name, hname, -⟩
      exact absurd hname List.not_mem_nil
    | cons first names ih =>
      rintro ⟨name, hname, hnone⟩
      cases hsite : registry.get? first with
      | none => exact ⟨first, (firstMissing_cons_of_missing hsite).2 rfl⟩
      | some site =>
        simp only [firstMissing_cons_of_found hsite]
        rcases List.mem_cons.1 hname with rfl | hname
        · cases hsite.symm.trans hnone
        · exact ih ⟨name, hname, hnone⟩

/-- Over registered names, gathering adds one text after the other. -/
theorem gather_eq_foldl (h : ∀ name ∈ names, registry.contains name = true) :
    gather registry file merged names =
      .ok ((names.map (sourceOf registry)).foldl append merged) := by
  induction names generalizing merged with
  | nil => rfl
  | cons name names ih =>
    obtain ⟨hname, hnames⟩ := List.forall_mem_cons.1 h
    obtain ⟨site, hsite⟩ := Table.contains_iff.1 hname
    rw [gather_found hsite, ih hnames, List.map_cons, List.foldl_cons, sourceOf_eq hsite]

/-! ## The texts that are added -/

/-- A text followed by the texts of some names, each behind a line end. -/
def linesOf (registry : Registry) (merged : Text) (names : List String) : Text :=
  merged ++ names.flatMap fun name => '\n' :: sourceOf registry name

@[simp] theorem linesOf_nil (merged : Text) : linesOf registry merged [] = merged :=
  List.append_nil merged

theorem linesOf_cons (merged : Text) (name : String) (names : List String) :
    linesOf registry merged (name :: names) =
      linesOf registry (merged ++ '\n' :: sourceOf registry name) names := by
  simp [linesOf]

/-- Of some names, those of `kept` are added to a text in their order. A name is left out just in case
its text occurs in what was accumulated before it: the text with what was kept of the names in front of
it. -/
structure Keeps (registry : Registry) (merged : Text) (names kept : List String) : Prop where
  sublist : kept.Sublist names
  left_out_iff : ∀ before name after, names = before ++ name :: after →
    (name ∉ kept ↔ sourceOf registry name <:+: linesOf registry merged (kept.filter (· ∈ before)))

/-- Adding the texts of distinct names keeps some of them. -/
theorem exists_keeps (registry : Registry) (merged : Text) (hnodup : names.Nodup) : ∃ kept,
    (names.map (sourceOf registry)).foldl append merged = linesOf registry merged kept ∧
      Keeps registry merged names kept := by
  induction names generalizing merged with
  | nil =>
    refine ⟨[], (linesOf_nil merged).symm, .slnil, ?_⟩
    intro before name after hsplit
    exact absurd hsplit.symm (List.append_ne_nil_of_right_ne_nil _ (List.cons_ne_nil _ _))
  | cons first names ih =>
    obtain ⟨hfirst, hnodup⟩ := List.nodup_cons.1 hnodup
    rw [List.map_cons, List.foldl_cons, append]
    by_cases hoccurs : occursIn (sourceOf registry first) merged = true
    · obtain ⟨kept, heq, hkept⟩ := ih merged hnodup
      have hnot : first ∉ kept := fun hmem => hfirst (hkept.sublist.mem hmem)
      rw [if_pos hoccurs]
      refine ⟨kept, heq, hkept.sublist.cons first, ?_⟩
      rintro (_ | ⟨other, before⟩) name after hsplit
      · obtain rfl : first = name := (List.cons.inj hsplit).1
        refine iff_of_true hnot ?_
        simpa using occursIn_iff.1 hoccurs
      · obtain ⟨rfl, hrest⟩ := List.cons.inj hsplit
        -- the first name is not among those kept, so it does not count in front of another one
        have hsame : kept.filter (· ∈ first :: before) = kept.filter (· ∈ before) := by
          refine List.filter_congr fun other hother => ?_
          have hne : other ≠ first := fun heq => hnot (heq ▸ hother)
          simp [hne]
        rw [hsame]
        exact hkept.left_out_iff before name after hrest
    · obtain ⟨kept, heq, hkept⟩ := ih (merged ++ '\n' :: sourceOf registry first) hnodup
      have hnot : first ∉ kept := fun hmem => hfirst (hkept.sublist.mem hmem)
      rw [if_neg hoccurs]
      refine ⟨first :: kept, by rw [heq, linesOf_cons], hkept.sublist.cons_cons first, ?_⟩
      rintro (_ | ⟨other, before⟩) name after hsplit
      · obtain rfl : first = name := (List.cons.inj hsplit).1
        refine iff_of_false (fun hmem => hmem List.mem_cons_self) fun hinfix => hoccurs ?_
        exact occursIn_iff.2 (by simpa using hinfix)
      · obtain ⟨rfl, hrest⟩ := List.cons.inj hsplit
        have hname : name ≠ first := by
          rintro rfl
          exact hfirst (hrest ▸ List.mem_append_right _ List.mem_cons_self)
        have hsame : (first :: kept).filter (· ∈ first :: before) =
            first :: kept.filter (· ∈ before) := by
          rw [List.filter_cons_of_pos (by simp)]
          refine congrArg (first :: ·) (List.filter_congr fun other hother => ?_)
          have hne : other ≠ first := fun heq => hnot (heq ▸ hother)
          simp [hne]
        rw [hsame, linesOf_cons, ← hkept.left_out_iff before name after hrest]
        simp [hname]

/-- Every text occurs in the end, those that were left out too. -/
theorem Keeps.infix {kept : List String} (h : Keeps registry merged names kept)
    (hnodup : names.Nodup) {name : String} (hname : name ∈ names) :
    sourceOf registry name <:+: linesOf registry merged kept := by
  by_cases hkept : name ∈ kept
  · obtain ⟨front, back, rfl⟩ := List.append_of_mem hkept
    refine ⟨linesOf registry merged front ++ ['\n'], linesOf registry [] back, ?_⟩
    simp [linesOf]
  · obtain ⟨before, after, rfl⟩ := List.append_of_mem hname
    have hearly := (h.left_out_iff before name after rfl).1 hkept
    obtain ⟨front, back, rfl, hfront, hback⟩ := List.sublist_append_iff.1 h.sublist
    -- what was accumulated before the name is the beginning of the document
    have hkeptBefore : (front ++ back).filter (· ∈ before) = front := by
      have hapart := (List.nodup_append.1 hnodup).2.2
      rw [List.filter_append, List.filter_eq_self.2 fun other hother => by
        simpa using hfront.mem hother, List.filter_eq_nil_iff.2 fun other hother => by
        simpa using fun hmem => hapart other hmem other (hback.mem hother) rfl, List.append_nil]
    rw [hkeptBefore] at hearly
    refine hearly.trans (List.IsPrefix.isInfix ?_)
    rw [linesOf, linesOf, List.flatMap_append, ← List.append_assoc]
    exact List.prefix_append _ _

end Merge

/-! ## Merging -/

/-- **Merging.** For every registry and call site, with circles or without, the turns of merging come to
an end, with one result. A depth-first search in ascending order of the names finds what the call site
reaches, each name once. Merging fails just in case a name that is reached is not registered, and names
the first one that the search finds. Otherwise the merged document is the text of the call site with the
texts of some of these names in the order of the search, each behind a line end; a text is left out just
in case it occurs in what was accumulated before it; and the texts of all names occur in the document. -/
theorem merge_depthFirst (registry : Registry) (site : CallSite) :
    (∀ result, Merge.Walks registry site.file .empty site.source.toList site.dependsOn.names result ↔
      result = merge registry site) ∧
    ∃ order, (∀ other, Merge.DepthFirst registry [] site.dependsOn.names other ↔ other = order) ∧
      order.Nodup ∧ (∀ name, name ∈ order ↔ Reaches registry site name) ∧
      ((∃ fault, merge registry site = .error fault) ↔
        ∃ name, Reaches registry site name ∧ registry.get? name = none) ∧
      (∀ fault, merge registry site = .error fault ↔
        ∃ name, Merge.FirstMissing registry order name ∧ fault = ⟨name, site.file, .unknown⟩) ∧
      ((∀ name, Reaches registry site name → registry.contains name = true) →
        ∃ kept, merge registry site = .ok (Merge.linesOf registry site.source.toList kept) ∧
          Merge.Keeps registry site.source.toList order kept ∧
          ∀ name, Reaches registry site name →
            Merge.sourceOf registry name <:+:
              Merge.linesOf registry site.source.toList kept) := by
  obtain ⟨order, horder⟩ := Merge.exists_depthFirst registry [] site.dependsOn.names
  have hreached : ∀ name, name ∈ order ↔ Reaches registry site name := fun _ => horder.mem_iff
  have hfails : ∀ fault, merge registry site = .error fault ↔
      ∃ name, Merge.FirstMissing registry order name ∧ fault = ⟨name, site.file, .unknown⟩ := by
    intro fault
    rw [Merge.merge_eq_gather horder]
    exact Merge.gather_eq_error_iff
  refine ⟨fun _ => Merge.walks_iff, order, fun other => ⟨horder.unique, ?_⟩, horder.nodup.1, hreached,
    ?_, hfails, fun hall => ?_⟩
  · rintro rfl
    exact horder
  · simp only [hfails, ← hreached]
    rw [← Merge.exists_firstMissing_iff]
    constructor
    · rintro ⟨_, name, hname, -⟩
      exact ⟨name, hname⟩
    · rintro ⟨name, hname⟩
      exact ⟨_, name, hname, rfl⟩
  · obtain ⟨kept, heq, hkept⟩ := Merge.exists_keeps registry site.source.toList
      horder.nodup.1
    refine ⟨kept, ?_, hkept, fun name hname => ?_⟩
    · rw [Merge.merge_eq_gather horder,
        Merge.gather_eq_foldl fun name hname => hall name ((hreached name).1 hname), heq]
    · exact hkept.infix horder.nodup.1 ((hreached name).2 hname)

end PersistedQueries
