import PersistedQueries.Index.Survey

/-!
# Indexing a file and what it depends on

A file is indexed together with every file that its definitions need. New files are taken from
a stack; afterwards the definitions that the file reaches are walked, and a name that has been
dropped since is indexed again from the file that its user imports it from.

- `Outcome`: the index that a step leaves, even when it fails, and the events on the way.
- `drain`: index the files of a stack. It ends since the host has finitely many files.
- `close`: walk the definitions that a file reaches. It ends since a name is visited once for
  each set of indexed files.
- `indexFile`: index a file with a text.
- `drain_index`: draining either leaves the index as it is or enters another file of the host.
-/

namespace PersistedQueries

namespace Index

variable {ε : Type}

/-- The index that a step leaves, the events of the step, and its fault if it has one. -/
structure Outcome (ε : Type) where
  /-- The index after the step. -/
  index : Index
  /-- The events in their order. -/
  events : List Event
  /-- The fault that ended the step. -/
  result : Except (Fault ε) Unit

namespace Outcome

/-- The step that does nothing. -/
def done (index : Index) : Outcome ε := ⟨index, [], .ok ()⟩

/-- A step that came after some events. -/
def after (events : List Event) (outcome : Outcome ε) : Outcome ε :=
  { outcome with events := events ++ outcome.events }

/-- A step and, unless it failed, another one. -/
def andThen (outcome : Outcome ε) (next : Index → Outcome ε) : Outcome ε :=
  match outcome.result with
  | .error _ => outcome
  | .ok _ => (next outcome.index).after outcome.events

end Outcome

/-! ## Files to be indexed -/

/-- The files of the host that are not indexed. -/
def unindexed (host : Host ε) (index : Index) : List String := index.files.lacking host.ids

/-- Entering a file of the host leaves fewer of them unindexed. -/
theorem length_unindexed_add {host : Host ε} {index : Index} {addition : Addition}
    (hfile : addition.file ∈ host.ids) (hnew : addition.file ∉ index.files) :
    (unindexed host (index.add addition)).length < (unindexed host index).length :=
  NameSet.length_lacking_insert hfile hnew

/-- A survey is about the file that was asked for. -/
theorem survey_file {host : Host ε} {index : Index} {file : String} {source : Text}
    {events : List Event} {addition : Addition} {queue : List host.File}
    (h : survey host index file source = ⟨events, .ok (addition, queue)⟩) :
    addition.file = file := by
  simp only [survey, Answer.andThen] at h
  split at h
  · simp at h
  · split at h <;> simp at h
    rw [← h.2.1]

/-- A survey of a loaded text is about the file that was asked for. -/
theorem loadAndSurvey_file {host : Host ε} {index : Index} {file : String}
    {events : List Event} {addition : Addition} {queue : List host.File}
    (h : loadAndSurvey host index file = ⟨events, .ok (addition, queue)⟩) :
    addition.file = file := by
  simp only [loadAndSurvey, Answer.andThen] at h
  split at h
  · simp at h
  · next source _ =>
    cases hs : survey host index file source with
    | mk es result =>
      rw [hs] at h
      simp at h
      exact survey_file (hs.trans (by rw [h.2]))

/-- Index the files of a stack, the topmost first, each followed by the files that it needs. -/
def drain (host : Host ε) (index : Index) : List host.File → Outcome ε
  | [] => .done index
  | file :: stack =>
    if _hfile : file.1 ∈ index.files then drain host index stack
    else
      match _hsurvey : loadAndSurvey host index file.1 with
      | ⟨events, .error fault⟩ => ⟨index, events, .error fault⟩
      | ⟨events, .ok (addition, queue)⟩ =>
        (drain host (index.add addition) (queue.reverse ++ stack)).after events
  termination_by stack => ((unindexed host index).length, stack.length)
  decreasing_by
  · exact Prod.Lex.right _ (by simp)
  · refine Prod.Lex.left _ _ (length_unindexed_add ?_ ?_) <;>
      simp only [loadAndSurvey_file _hsurvey]
    · exact file.2
    · exact _hfile

/-- Draining a stack leaves the index as it is or enters another file of the host. -/
theorem drain_index (host : Host ε) (index : Index) (stack : List host.File) :
    (drain host index stack).index = index ∨
      (unindexed host (drain host index stack).index).length < (unindexed host index).length := by
  fun_induction drain host index stack with
  | case1 => exact .inl rfl
  | case2 index file stack hfile ih => exact ih
  | case3 => exact .inl rfl
  | case4 index file stack hfile events addition queue hsurvey ih =>
    have hadd : (unindexed host (index.add addition)).length < (unindexed host index).length :=
      length_unindexed_add (loadAndSurvey_file hsurvey ▸ file.2) (loadAndSurvey_file hsurvey ▸ hfile)
    right
    rcases ih with h | h
    · simpa only [Outcome.after, h] using hadd
    · exact Nat.lt_trans h hadd

/-! ## Names that a definition reaches -/

/-- Index the file that a name is imported from, and look whether it defines the name. -/
def bindName (host : Host ε) (index : Index) (importer : Option String) (name : String) :
    Outcome ε :=
  match locate host (index.importsOf (importer.getD "")) importer name with
  | ⟨events, .error fault⟩ => ⟨index, events, .error fault⟩
  | ⟨events, .ok file⟩ =>
    ((drain host index [file]).andThen fun drained =>
      if drained.registry.contains name then .done drained
      else ⟨drained, [], .error (.unbound ⟨name, importer, .notDefinedIn file.1⟩)⟩).after events

/-- Bind each name that is not registered. -/
def bindEach (host : Host ε) (index : Index) (importer : Option String) :
    List String → Outcome ε
  | [] => .done index
  | name :: names =>
    if index.registry.contains name then bindEach host index importer names
    else (bindName host index importer name).andThen fun bound => bindEach host bound importer names
  termination_by names => names

/-- A step leaves the index as it is or enters another file of the host. -/
def Progresses (host : Host ε) (index : Index) (outcome : Outcome ε) : Prop :=
  outcome.index = index ∨
    (unindexed host outcome.index).length < (unindexed host index).length

theorem Progresses.andThen {host : Host ε} {index : Index} {outcome : Outcome ε}
    {next : Index → Outcome ε} (h : Progresses host index outcome)
    (hnext : ∀ later, Progresses host later (next later)) :
    Progresses host index (outcome.andThen next) := by
  unfold Outcome.andThen
  split
  · exact h
  · rcases hnext outcome.index with hlater | hlater <;> rcases h with h | h
    · exact .inl (hlater.trans h)
    · right
      simpa only [Outcome.after, hlater] using h
    · right
      rw [h] at hlater
      simpa only [Outcome.after, h] using hlater
    · exact .inr (Nat.lt_trans hlater h)

theorem progresses_bindName (host : Host ε) (index : Index) (importer : Option String)
    (name : String) : Progresses host index (bindName host index importer name) := by
  unfold bindName
  split
  · exact .inl rfl
  · refine Progresses.andThen (drain_index host index _) fun later => ?_
    split <;> exact .inl rfl

theorem progresses_bindEach (host : Host ε) (index : Index) (importer : Option String)
    (names : List String) : Progresses host index (bindEach host index importer names) := by
  induction names generalizing index with
  | nil =>
    unfold bindEach
    exact .inl rfl
  | cons name names ih =>
    unfold bindEach
    split
    · exact ih index
    · exact Progresses.andThen (progresses_bindName host index importer name) ih

/-- Visit the names of a stack, the topmost first, and what they depend on, binding each name on
the way that is not registered. -/
def close (host : Host ε) (index : Index) (visited : NameSet) : List String → Outcome ε
  | [] => .done index
  | name :: stack =>
    if _hname : name ∈ visited then close host index visited stack
    else
      match _hsite : index.registry.get? name with
      | none => ⟨index, [], .error (.unregistered name)⟩
      | some site =>
        match _hbound : bindEach host index site.file site.dependsOn.names with
        | ⟨bound, events, .error fault⟩ => ⟨bound, events, .error fault⟩
        | ⟨bound, events, .ok _⟩ =>
          (close host bound (visited.insert name) (site.dependsOn.names.reverse ++ stack)).after
            events
  termination_by stack =>
    ((unindexed host index).length, (visited.lacking index.registry.keys).length, stack.length)
  decreasing_by
  · exact Prod.Lex.right _ (Prod.Lex.right _ (by simp))
  · rcases progresses_bindEach host index site.file site.dependsOn.names with h | h
    · rw [_hbound] at h
      subst h
      exact Prod.Lex.right _ (Prod.Lex.left _ _
        (NameSet.length_lacking_insert (Table.mem_keys_of_get? _hsite) _hname))
    · rw [_hbound] at h
      exact Prod.Lex.left _ _ h

/-! ## Indexing -/

/-- Enter a file with a text, and then the files that it needs. -/
def indexNew (host : Host ε) (index : Index) (file : String) (source : Text) : Outcome ε :=
  if file ∈ index.files then .done index
  else
    match survey host index file source with
    | ⟨events, .error fault⟩ => ⟨index, events, .error fault⟩
    | ⟨events, .ok (addition, queue)⟩ =>
      (drain host (index.add addition) queue.reverse).after events

/-- Index a file with a text and everything that its definitions reach. A file that was indexed
with another text is forgotten first. -/
def indexFile (host : Host ε) (index : Index) (file : String) (source : Text) : Outcome ε :=
  (indexNew host (index.refresh file source) file source).andThen fun indexed =>
    close host indexed .empty (indexed.definedIn file).names.reverse

end Index

end PersistedQueries
