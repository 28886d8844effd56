import PersistedQueries.Persist.Basic

/-!
# What a merged document depends on

Merging visits the names that a call site reaches, and looks at nothing else of the registry.

- `Reaches`: a call site depends on a name, itself or through registered definitions.
- `Closed`: some names are registered together with all that they depend on.
  `Closed.of_reaches` says that they hold what a call site reaches.
- `exists_merge`: when all names that a call site reaches are registered, it can be merged.
- `merge_congr`, `persist_congr`: registries that agree on the names that a call site reaches
  give the same document, and so the same persisted query.
-/

namespace PersistedQueries

/-- A call site depends on a name, itself or through registered definitions. -/
inductive Reaches (registry : Registry) (site : CallSite) : String → Prop where
  /-- The call site lists the name. -/
  | direct {name : String} (h : name ∈ site.dependsOn) : Reaches registry site name
  /-- A definition that the call site reaches lists the name. -/
  | through {name next : String} {via : CallSite} (h : Reaches registry site name)
      (hvia : registry.get? name = some via) (hnext : next ∈ via.dependsOn) :
      Reaches registry site next

/-- Some names are registered, and the definition of each depends on such names only. -/
def Closed (registry : Registry) (P : String → Prop) : Prop :=
  ∀ name, P name → ∃ site, registry.get? name = some site ∧ ∀ next ∈ site.dependsOn, P next

/-- A call site that depends on names of a closed set reaches no others. -/
theorem Closed.of_reaches {registry : Registry} {P : String → Prop} (h : Closed registry P)
    {site : CallSite} {name : String} (hsite : ∀ next ∈ site.dependsOn, P next)
    (hname : Reaches registry site name) : P name := by
  induction hname with
  | direct hname => exact hsite _ hname
  | through _ hvia hnext ih =>
    obtain ⟨own, hown, hclosed⟩ := h _ ih
    obtain rfl := Option.some.inj (hvia.symm.trans hown)
    exact hclosed _ hnext

namespace Merge

variable {registry other : Registry} {file : Option String} {visited : NameSet} {merged : Text}
  {stack : List String} {P : String → Prop}

/-- What visiting a name puts on the stack has what the dependencies and the stack have. -/
theorem forall_mem_stack {site : CallSite} {name : String}
    (hsite : ∀ next ∈ site.dependsOn, P next) (hstack : ∀ next ∈ name :: stack, P next) :
    ∀ next ∈ visited.lacking site.dependsOn.names ++ stack, P next := by
  intro next hnext
  rcases List.mem_append.1 hnext with hnext | hnext
  · exact hsite next ((List.mem_filter.1 hnext).1)
  · exact hstack next (List.mem_cons_of_mem name hnext)

/-- A walk that starts from names of a closed set has a result. -/
theorem exists_visit (hclosed : Closed registry P) (hstack : ∀ name ∈ stack, P name) :
    ∃ document, visit registry file visited merged stack = .ok document := by
  fun_induction visit registry file visited merged stack with
  | case1 visited merged => exact ⟨merged, rfl⟩
  | case2 visited merged name stack hname ih =>
    exact ih fun next hnext => hstack next (List.mem_cons_of_mem name hnext)
  | case3 visited merged name stack hname hsite =>
    obtain ⟨site, hsome, -⟩ := hclosed name (hstack name List.mem_cons_self)
    cases hsite.symm.trans hsome
  | case4 visited merged name stack hname site hsite ih =>
    obtain ⟨own, hown, hnext⟩ := hclosed name (hstack name List.mem_cons_self)
    obtain rfl : site = own := Option.some.inj (hsite.symm.trans hown)
    exact ih (forall_mem_stack hnext hstack)

/-- A walk looks at the names on its way only. -/
theorem visit_congr (hagree : ∀ name, P name → registry.get? name = other.get? name)
    (hclosed : ∀ name via, P name → registry.get? name = some via → ∀ next ∈ via.dependsOn, P next)
    (hstack : ∀ name ∈ stack, P name) :
    visit registry file visited merged stack = visit other file visited merged stack := by
  fun_induction visit registry file visited merged stack with
  | case1 visited merged => rw [visit]
  | case2 visited merged name stack hname ih =>
    rw [visit, dif_pos hname]
    exact ih fun next hnext => hstack next (List.mem_cons_of_mem name hnext)
  -- the registries agree on the name that is visited, so both walks go on alike
  | case3 visited merged name stack hname hsite =>
    have hother := hagree name (hstack name List.mem_cons_self)
    rw [hsite] at hother
    rw [visit, dif_neg hname]
    split
    · rfl
    · next site hsome => cases hother.trans hsome
  | case4 visited merged name stack hname site hsite ih =>
    have hother := hagree name (hstack name List.mem_cons_self)
    rw [hsite] at hother
    rw [visit, dif_neg hname]
    split
    · next hnone => cases hother.trans hnone
    · next own hsome =>
      obtain rfl : site = own := Option.some.inj (hother.trans hsome)
      exact ih (forall_mem_stack (hclosed name site (hstack name List.mem_cons_self) hsite) hstack)

end Merge

variable {registry other : Registry} {site : CallSite}

/-- When all names that a call site reaches are registered, they are closed. -/
theorem Reaches.closed (h : ∀ name, Reaches registry site name → registry.contains name = true) :
    Closed registry (Reaches registry site) := by
  intro name hname
  obtain ⟨via, hvia⟩ := Table.contains_iff.1 (h name hname)
  exact ⟨via, hvia, fun next hnext => .through hname hvia hnext⟩

/-- A call site whose reachable names are registered can be merged. -/
theorem exists_merge (h : ∀ name, Reaches registry site name → registry.contains name = true) :
    ∃ document, merge registry site = .ok document :=
  Merge.exists_visit (Reaches.closed h) fun _ hname => .direct hname

/-- A call site that passes no names is merged with nothing. -/
theorem merge_of_no_names (registry : Registry) (h : site.dependsOn.names = []) :
    merge registry site = .ok site.source.toList := by
  rw [merge, h, Merge.visit]

/-- The canonical text of the merged document is persisted. -/
theorem persist_of_merge {document canonical : Text} {addTypename : Bool}
    (hmerge : merge registry site = .ok document)
    (hcanonical : GraphQL.canonicalize document addTypename = .ok canonical) :
    persist registry site addTypename = .ok (.ofCanonical canonical) := by
  rw [persist, hmerge]
  dsimp only
  rw [hcanonical]

/-- The merged document depends on the definitions that the call site reaches only. -/
theorem merge_congr
    (h : ∀ name, Reaches registry site name → registry.get? name = other.get? name) :
    merge registry site = merge other site :=
  Merge.visit_congr h (fun _ _ hname hvia _ hnext => .through hname hvia hnext)
    fun _ hname => .direct hname

theorem persist_congr (addTypename : Bool)
    (h : ∀ name, Reaches registry site name → registry.get? name = other.get? name) :
    persist registry site addTypename = persist other site addTypename := by
  unfold persist
  rw [merge_congr h]

end PersistedQueries
