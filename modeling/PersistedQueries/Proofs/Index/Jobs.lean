import PersistedQueries.Proofs.Index.Growth

/-!
# Indexing in turns

Indexing is a loop in a loop: the walk over the names that a file reaches enters further files while
it runs, and it takes them from a stack of its own. Here both loops are one list of jobs. A turn takes
the first job, does one pass of its loop, and says which jobs come first from now on. Nothing bounds
the number of turns. That they come to an end is what `performs_iff` says, since a derivation of
`Performs` has one step for each of them.

- `Job`, `turn`: what is left to do, and one pass of a loop.
- `Performs`: turns, one after the other, until no job is left or one has failed.
- `Performs.unique`, `Performs.andThen`: there is one outcome at most, and jobs may be done in parts.
- `performs_iff`: the outcome of the jobs of a call is that of `indexFile`.
-/

namespace PersistedQueries.Index

variable {ε : Type} {host : Host ε}

/-- Going on from a step that came after some events, the events still come first. -/
theorem Outcome.after_andThen (events : List Event) (outcome : Outcome ε) (next : Index → Outcome ε) :
    (outcome.after events).andThen next = (outcome.andThen next).after events := by
  cases hresult : outcome.result with
  | error fault =>
    rw [andThen_of_error hresult]
    exact andThen_of_error hresult
  | ok =>
    rw [andThen_of_ok hresult, @andThen_of_ok _ (outcome.after events) _ hresult]
    simp only [after, List.append_assoc]

/-! ## Turns -/

/-- Something that is left to do. -/
inductive Job (host : Host ε) where
  /-- Enter a file with a text. -/
  | enter (file : String) (source : Text)
  /-- Enter the files of a stack. -/
  | drain (stack : List host.File)
  /-- Begin the walk over the names that a file reaches. -/
  | reach (file : String)
  /-- Go on with a walk. -/
  | close (visited : NameSet) (stack : List String)
  /-- Bind names that a definition of a file depends on. -/
  | bind (importer : Option String) (names : List String)
  /-- Look whether the file that a name was imported from defines it. -/
  | check (importer : Option String) (name file : String)

/-- One pass of the loop of a job: the index after it, and the jobs that come first from now on. A
pass that fails leaves the index as it is. -/
def turn (host : Host ε) (index : Index) : Job host → Answer ε (Index × List (Job host))
  | .enter file source =>
    if file ∈ index.files then ⟨[], .ok (index, [])⟩
    else
      match survey host index file source with
      | ⟨events, .error fault⟩ => ⟨events, .error fault⟩
      | ⟨events, .ok (addition, queue)⟩ =>
        ⟨events, .ok (index.add addition, [.drain queue.reverse])⟩
  | .drain [] => ⟨[], .ok (index, [])⟩
  | .drain (file :: stack) =>
    if file.1 ∈ index.files then ⟨[], .ok (index, [.drain stack])⟩
    else
      match loadAndSurvey host index file.1 with
      | ⟨events, .error fault⟩ => ⟨events, .error fault⟩
      | ⟨events, .ok (addition, queue)⟩ =>
        ⟨events, .ok (index.add addition, [.drain (queue.reverse ++ stack)])⟩
  | .reach file => ⟨[], .ok (index, [.close .empty (index.definedIn file).names.reverse])⟩
  | .close _ [] => ⟨[], .ok (index, [])⟩
  | .close visited (name :: stack) =>
    if name ∈ visited then ⟨[], .ok (index, [.close visited stack])⟩
    else
      match index.registry.get? name with
      | none => ⟨[], .error (.unregistered name)⟩
      | some site =>
        ⟨[], .ok (index, [.bind site.file site.dependsOn.names,
          .close (visited.insert name) (site.dependsOn.names.reverse ++ stack)])⟩
  | .bind _ [] => ⟨[], .ok (index, [])⟩
  | .bind importer (name :: names) =>
    if index.registry.contains name then ⟨[], .ok (index, [.bind importer names])⟩
    else
      match locate host (index.importsOf (importer.getD "")) importer name with
      | ⟨events, .error fault⟩ => ⟨events, .error fault⟩
      | ⟨events, .ok file⟩ =>
        ⟨events, .ok (index, [.drain [file], .check importer name file.1, .bind importer names])⟩
  | .check importer name file =>
    if index.registry.contains name then ⟨[], .ok (index, [])⟩
    else ⟨[], .error (.unbound ⟨name, importer, .notDefinedIn file⟩)⟩

/-- Jobs are done in turns, until none is left or one has failed. -/
inductive Performs (host : Host ε) : Index → List (Job host) → Outcome ε → Prop where
  | done (index : Index) : Performs host index [] (.done index)
  | failed {index : Index} {job : Job host} {jobs : List (Job host)} {events : List Event}
      {fault : Fault ε} (turn_eq : turn host index job = ⟨events, .error fault⟩) :
      Performs host index (job :: jobs) ⟨index, events, .error fault⟩
  | next {index later : Index} {job : Job host} {more jobs : List (Job host)} {events : List Event}
      {outcome : Outcome ε} (turn_eq : turn host index job = ⟨events, .ok (later, more)⟩)
      (rest : Performs host later (more ++ jobs) outcome) :
      Performs host index (job :: jobs) (outcome.after events)

namespace Performs

variable {index : Index} {jobs : List (Job host)} {outcome : Outcome ε}

/-- Jobs have one outcome at most. -/
theorem unique {other : Outcome ε} (h : Performs host index jobs outcome)
    (h' : Performs host index jobs other) : other = outcome := by
  induction h generalizing other with
  | done =>
    cases h'
    rfl
  | failed hturn =>
    cases h' with
    | failed hturn' =>
      cases hturn.symm.trans hturn'
      rfl
    | next hturn' => cases hturn.symm.trans hturn'
  | next hturn _ ih =>
    cases h' with
    | failed hturn' => cases hturn.symm.trans hturn'
    | next hturn' rest =>
      cases hturn.symm.trans hturn'
      rw [ih rest]

/-- A single job is done by a turn and by the jobs that this gives. -/
theorem of_turn {later : Index} {job : Job host} {events : List Event}
    (hturn : turn host index job = ⟨events, .ok (later, jobs)⟩)
    (rest : Performs host later jobs outcome) :
    Performs host index [job] (outcome.after events) := by
  refine .next hturn ?_
  rw [List.append_nil]
  exact rest

/-- The host sees nothing of a turn without events. -/
theorem of_silent {later : Index} {job : Job host}
    (hturn : turn host index job = ⟨[], .ok (later, jobs)⟩)
    (rest : Performs host later jobs outcome) : Performs host index [job] outcome :=
  of_turn hturn rest

/-- Jobs that come after others are done with the index that these leave, unless they fail. -/
theorem andThen {later : List (Job host)} (h : Performs host index jobs outcome)
    (next : Index → Outcome ε)
    (hnext : outcome.result = .ok () → Performs host outcome.index later (next outcome.index)) :
    Performs host index (jobs ++ later) (outcome.andThen next) := by
  induction h with
  | done => exact hnext rfl
  | failed hturn => exact .failed hturn
  | @next index later' job more jobs events outcome hturn rest ih =>
    rw [Outcome.after_andThen]
    have hrest : Performs host later' ((more ++ jobs) ++ later) (outcome.andThen next) := ih hnext
    rw [List.append_assoc] at hrest
    exact .next hturn hrest

end Performs

/-! ## The jobs of a call -/

theorem drain_performs (host : Host ε) (index : Index) (stack : List host.File) :
    Performs host index [.drain stack] (drain host index stack) := by
  fun_induction drain host index stack with
  | case1 index => exact .of_silent rfl (.done index)
  | case2 index file stack hfile ih => exact .of_silent (by simp only [turn, if_pos hfile]) ih
  | case3 index file stack hfile events fault hsurvey =>
    exact .failed (by simp only [turn, if_neg hfile, hsurvey])
  | case4 index file stack hfile events addition queue hsurvey ih =>
    exact .of_turn (by simp only [turn, if_neg hfile, hsurvey]) ih

/-- Look whether a file that was entered for a name defines it. -/
def checkName (importer : Option String) (name file : String) (index : Index) : Outcome ε :=
  if index.registry.contains name then .done index
  else ⟨index, [], .error (.unbound ⟨name, importer, .notDefinedIn file⟩)⟩

theorem checkName_performs (host : Host ε) (index : Index) (importer : Option String)
    (name file : String) :
    Performs host index [.check importer name file] (checkName importer name file index) := by
  unfold checkName
  split
  · next hname => exact .of_silent (by simp only [turn, if_pos hname]) (.done index)
  · next hname => exact .failed (by simp only [turn, if_neg hname])

theorem bindEach_performs (host : Host ε) (index : Index) (importer : Option String)
    (names : List String) :
    Performs host index [.bind importer names] (bindEach host index importer names) := by
  induction names generalizing index with
  | nil =>
    unfold bindEach
    exact .of_silent rfl (.done index)
  | cons name names ih =>
    unfold bindEach
    split
    · next hname => exact .of_silent (by simp only [turn, if_pos hname]) (ih index)
    next hname =>
    unfold bindName
    split
    · next events fault hlocate =>
      exact .failed (by simp only [turn, if_neg hname, hlocate])
    · next events file hlocate =>
      rw [Outcome.after_andThen]
      have hturn : turn host index (.bind importer (name :: names)) = ⟨events, .ok (index,
          [.drain [file], .check importer name file.1, .bind importer names])⟩ := by
        simp only [turn, if_neg hname, hlocate]
      -- the file is entered, then the name is looked for, and then come the other names
      have hbound := (drain_performs host index [file]).andThen (checkName importer name file.1)
        fun _ => checkName_performs host _ importer name file.1
      exact .of_turn hturn (hbound.andThen _ fun _ => ih _)

/-- The turn of a walk at a name that is new to it. -/
theorem turn_close {index : Index} {visited : NameSet} {name : String} {stack : List String}
    {site : CallSite} (hname : name ∉ visited) (hsite : index.registry.get? name = some site) :
    turn host index (.close visited (name :: stack)) =
      ⟨[], .ok (index, [.bind site.file site.dependsOn.names,
        .close (visited.insert name) (site.dependsOn.names.reverse ++ stack)])⟩ := by
  simp only [turn, if_neg hname, hsite]

theorem close_performs (host : Host ε) (index : Index) (visited : NameSet) (stack : List String) :
    Performs host index [.close visited stack] (close host index visited stack) := by
  fun_induction close host index visited stack with
  | case1 index visited => exact .of_silent rfl (.done index)
  | case2 index visited name stack hname ih => exact .of_silent (by simp only [turn, if_pos hname]) ih
  | case3 index visited name stack hname hsite =>
    exact .failed (by simp only [turn, if_neg hname, hsite])
  | case4 index visited name stack hname site hsite bound events fault hbound =>
    have hbind := bindEach_performs host index site.file site.dependsOn.names
    rw [hbound] at hbind
    refine .of_silent (turn_close hname hsite) (hbind.andThen .done fun hok => ?_)
    cases hok
  | case5 index visited name stack hname site hsite bound events _ hbound ih =>
    have hbind := bindEach_performs host index site.file site.dependsOn.names
    rw [hbound] at hbind
    exact .of_silent (turn_close hname hsite) (hbind.andThen
      (close host · (visited.insert name) (site.dependsOn.names.reverse ++ stack)) fun _ => ih)

theorem indexNew_performs (host : Host ε) (index : Index) (file : String) (source : Text) :
    Performs host index [.enter file source] (indexNew host index file source) := by
  unfold indexNew
  split
  · next hfile => exact .of_silent (by simp only [turn, if_pos hfile]) (.done index)
  next hfile =>
  split
  · next events fault hsurvey => exact .failed (by simp only [turn, if_neg hfile, hsurvey])
  · next events addition queue hsurvey =>
    exact .of_turn (by simp only [turn, if_neg hfile, hsurvey]) (drain_performs host _ queue.reverse)

/-- The jobs of a call for a file: to enter it, and to walk over the names that it reaches. -/
def callJobs (host : Host ε) (file : String) (source : Text) : List (Job host) :=
  [.enter file source, .reach file]

theorem indexFile_performs (host : Host ε) (index : Index) (file : String) (source : Text) :
    Performs host (index.refresh file source) (callJobs host file source)
      (indexFile host index file source) :=
  (indexNew_performs host (index.refresh file source) file source).andThen _ fun _ =>
    .of_silent rfl (close_performs host _ .empty _)

/-- The jobs of a call come to an end, with the outcome of the call and no other. -/
theorem performs_iff (host : Host ε) (index : Index) (file : String) (source : Text)
    (outcome : Outcome ε) :
    Performs host (index.refresh file source) (callJobs host file source) outcome ↔
      outcome = indexFile host index file source := by
  constructor
  · intro h
    exact (indexFile_performs host index file source).unique h
  · rintro rfl
    exact indexFile_performs host index file source

end PersistedQueries.Index
