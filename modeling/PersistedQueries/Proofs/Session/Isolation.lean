import PersistedQueries.Proofs.Disk.Removing
import PersistedQueries.Proofs.Index.Confinement
import PersistedQueries.Proofs.Index.Incremental
import PersistedQueries.Proofs.Session.Transforming

/-!
# What a transformed text depends on

What a source text becomes is decided by the texts that its definitions reach. As long as these are a
well-formed program and no other file has taken one of their names, it makes no difference what the
session has indexed before, which of it failed, or what else is on the disk.

- `transformOn_of_not_passes`: what transforming a text gives, and what it enters.
- `confined_transformOn`: a session enters what its files reach.
- `transformOn_eq_of_holds`: sessions that hold a program transform its files alike.
- `transformOn_eq_ok`: they succeed, when every call site has a canonical text.
- `wellFormed_without`: a program stays well-formed when other files are taken away.
-/

namespace PersistedQueries

namespace Session

open Index (Program WellFormed Holds)

variable {session other : Session} {code : Text} {file : String} {registry registry' : Registry}

/-! ## What transforming a text gives -/

/-- There is nothing to transform in a text. -/
def Passes (session : Session) (code : Text) (file : String) : Prop :=
  session.options.isEnabled = false ∨ session.concerns code file = false ∨
    CallSite.extract code (some file) = []

theorem transformOn_of_passes (host : Index.Host Modules.Failure) (h : session.Passes code file) :
    session.transformOn host code file = (session, .ok none, .none) := by
  unfold transformOn
  rcases h with h | h | h
  · rw [h]
    rfl
  · rw [h, Bool.not_false, Bool.or_true]
    rfl
  · rw [h]
    split <;> rfl

/-- What becomes of a text with call sites when it has been indexed. -/
def attempt (options : Options) (code : Text) (file : String)
    (outcome : Index.Outcome Modules.Failure) : Except Fault (Option Transformed) :=
  match outcome.result with
  | .error fault => .error (.index fault)
  | .ok _ =>
    match persistAll outcome.index.registry options.addTypename code
        (CallSite.extract code (some file)) with
    | .error fault => .error (.persist fault)
    | .ok persisted =>
      match spliceCalls options code file persisted with
      | .error fault => .error (.splice fault)
      | .ok spliced => .ok (some ⟨spliced, persisted⟩)

theorem transformOn_of_not_passes (host : Index.Host Modules.Failure)
    (h : ¬ session.Passes code file) :
    let outcome := Index.indexFile host session.index file code
    (session.transformOn host code file).1.index = outcome.index ∧
      (session.transformOn host code file).1.modules = session.modules ∧
      (session.transformOn host code file).2.1 = attempt session.options code file outcome := by
  intro outcome
  unfold Passes at h
  rw [not_or, not_or, Bool.not_eq_false, Bool.not_eq_false] at h
  obtain ⟨henabled, hconcerns, hsites⟩ := h
  unfold transformOn attempt
  rw [henabled, hconcerns, Bool.not_true, Bool.or_self, if_neg Bool.false_ne_true]
  split
  · next hnone => exact absurd hnone hsites
  dsimp only
  rw [show Index.indexFile host session.index file code = outcome from rfl]
  cases outcome.result with
  | error fault => exact ⟨rfl, rfl, rfl⟩
  | ok =>
    dsimp only
    cases persistAll outcome.index.registry session.options.addTypename code
      (CallSite.extract code (some file)) with
    | error fault => exact ⟨rfl, rfl, rfl⟩
    | ok persisted =>
      dsimp only
      cases spliceCalls session.options code file persisted with
      | error fault => exact ⟨rfl, rfl, rfl⟩
      | ok spliced => exact ⟨rfl, rfl, rfl⟩

/-- A fault says that the text cannot be indexed, or that it has no canonical texts or cannot be
spliced. -/
theorem attempt_eq_error {options : Options} {outcome : Index.Outcome Modules.Failure} {fault : Fault}
    (h : attempt options code file outcome = .error fault) :
    (∃ cause, outcome.result = .error cause ∧ fault = .index cause) ∨
      (∃ cause, fault = .persist cause) ∨ ∃ cause, fault = .splice cause := by
  unfold attempt at h
  split at h
  · next cause hcause =>
    cases h
    exact .inl ⟨cause, hcause, rfl⟩
  split at h
  · cases h
    exact .inr (.inl ⟨_, rfl⟩)
  split at h
  · cases h
    exact .inr (.inr ⟨_, rfl⟩)
  · cases h

/-- A session that has met files with a property only meets such files only when it transforms one
of them, and cannot index it for foreseen faults only. -/
theorem confined_transformOn {host : Index.Host Modules.Failure} {P : String → Prop}
    (hcarries : Index.Carries host P)
    (hfits : Index.Fits (Program.restrict (Index.hostTexts host) P) session.index) (hfile : P file)
    (hload : host.load file = .ok code) :
    Index.Fits (Program.restrict (Index.hostTexts host) P)
        (session.transformOn host code file).1.index ∧
      (session.transformOn host code file).1.modules = session.modules ∧
      ∀ cause, (session.transformOn host code file).2.1 = .error (.index cause) →
        Index.Foreseen host P cause := by
  by_cases hpass : session.Passes code file
  · rw [transformOn_of_passes host hpass]
    exact ⟨hfits, rfl, nofun⟩
  obtain ⟨hindex, hmodules, hresult⟩ := transformOn_of_not_passes host hpass
  have hconfined := Index.indexFile_confined hcarries hfits hfile hload
  rw [hindex, hresult]
  refine ⟨hfits.grows hconfined.grows, hmodules, fun cause hcause => ?_⟩
  rcases attempt_eq_error hcause with ⟨_, hfault, heq⟩ | ⟨_, heq⟩ | ⟨_, heq⟩ <;> cases heq
  exact hconfined.foreseen hfault

/-- Transforming a text prints nothing about failures. -/
theorem err_transformOn (session : Session) (host : Index.Host Modules.Failure) (code : Text)
    (file : String) : (session.transformOn host code file).2.2.err = "" := by
  have honly (condition : Bool) {output : Output} (h : output.err = "") :
      (Output.onlyIf condition output).err = "" := by
    cases condition
    · rfl
    · exact h
  have happend {first second : Output} (h : first.err = "") (h' : second.err = "") :
      (first ++ second).err = "" := by
    show first.err ++ second.err = ""
    rw [h, h']
    rfl
  have hlines (sites : List PersistedSite) (output : Output) (h : output.err = "") :
      ((sites.map fun s => Output.persisted s.site.name s.persisted.hash).foldl (· ++ ·)
        output).err = "" := by
    induction sites generalizing output with
    | nil => exact h
    | cons site sites ih => exact ih _ (happend h rfl)
  unfold transformOn
  split
  · rfl
  split
  · rfl
  dsimp only
  split
  · exact honly _ rfl
  split
  · exact honly _ rfl
  split <;> exact happend (honly _ rfl) (honly _ (hlines _ _ rfl))

/-! ## Texts of a program -/

theorem persistAll_congr {isTyped : Bool} {sites : List CallSite}
    (h : ∀ site ∈ sites, persist registry site isTyped = persist registry' site isTyped) :
    persistAll registry isTyped code sites = persistAll registry' isTyped code sites := by
  induction sites with
  | nil => rfl
  | cons site rest ih =>
    obtain ⟨hsite, hrest⟩ := List.forall_mem_cons.1 h
    have htail := ih hrest
    unfold persistAll at htail ⊢
    rw [List.mapM_cons, List.mapM_cons, hsite, htail]

theorem exists_persistAll_eq_ok {isTyped : Bool} {sites : List CallSite}
    (h : ∀ site ∈ sites, ∃ made, persist registry site isTyped = .ok made) :
    ∃ persisted, persistAll registry isTyped code sites = .ok persisted := by
  induction sites with
  | nil => exact ⟨[], rfl⟩
  | cons site rest ih =>
    obtain ⟨⟨made, hmade⟩, hrest⟩ := List.forall_mem_cons.1 h
    obtain ⟨persisted, hpersisted⟩ := ih hrest
    exact ⟨_, persistAll_cons_eq_ok.2 ⟨made, persisted, hmade, hpersisted, rfl⟩⟩

section Program

variable {program : Program} {host host' : Index.Host Modules.Failure}

/-- Sessions with the same options that hold a program, on hosts on which it is well-formed, transform
its files alike. -/
theorem transformOn_eq_of_holds (hprogram : WellFormed program host)
    (hprogram' : WellFormed program host') (hoptions : session.options = other.options)
    (h : Holds program session.index) (h' : Holds program other.index)
    (hsource : program file = some code) :
    (session.transformOn host code file).2.1 = (other.transformOn host' code file).2.1 := by
  have hpasses : session.Passes code file ↔ other.Passes code file := by
    unfold Passes concerns
    rw [hoptions]
  by_cases hpass : session.Passes code file
  · rw [transformOn_of_passes host hpass, transformOn_of_passes host' (hpasses.1 hpass)]
  obtain ⟨-, -, hresult⟩ := transformOn_of_not_passes host hpass
  obtain ⟨-, -, hresult'⟩ := transformOn_of_not_passes host' (mt hpasses.2 hpass)
  rw [hresult, hresult', hoptions]
  unfold attempt
  rw [(hprogram.indexFile_grows h hsource).1, (hprogram'.indexFile_grows h' hsource).1]
  dsimp only
  rw [persistAll_congr fun site hsite =>
    hprogram.persist_eq_of_holds hprogram' h h' hsource hsite other.options.addTypename]

/-- A session that holds a program transforms a file of it, if the call sites of the file have
canonical texts when nothing else is indexed. -/
theorem transformOn_eq_ok (hprogram : WellFormed program host) (h : Holds program session.index)
    (hsource : program file = some code)
    (hpersist : ∀ site ∈ CallSite.extract code (some file), ∃ made,
      persist (Index.indexFile host .empty file code).index.registry site
        session.options.addTypename = .ok made) :
    ∃ made, (session.transformOn host code file).2.1 = .ok made := by
  by_cases hpass : session.Passes code file
  · exact ⟨none, by rw [transformOn_of_passes host hpass]⟩
  obtain ⟨-, -, hresult⟩ := transformOn_of_not_passes host hpass
  have hempty : Holds program Index.empty := hprogram.holds (.empty program)
  have hpersist : ∀ site ∈ CallSite.extract code (some file), ∃ made,
      persist (Index.indexFile host session.index file code).index.registry site
        session.options.addTypename = .ok made := by
    intro site hsite
    rw [hprogram.persist_eq_of_holds hprogram h hempty hsource hsite]
    exact hpersist site hsite
  obtain ⟨persisted, hpersisted⟩ :
      ∃ persisted, persistAll _ _ code _ = .ok persisted := exists_persistAll_eq_ok hpersist
  obtain ⟨map, hsplice⟩ := spliceCalls_extract session.options (persistAll_eq_ok hpersisted).1
  rw [hresult]
  unfold attempt
  rw [(hprogram.indexFile_grows h hsource).1]
  dsimp only
  rw [hpersisted]
  dsimp only
  rw [hsplice]
  exact ⟨_, rfl⟩

/-- A program stays well-formed when files are taken away that it has no part in. -/
theorem wellFormed_without {modules : Modules} {disk later : Disk} {places : Disk.Place → Prop}
    (hprogram : WellFormed program (modules.host disk)) (hnamed : disk.Named)
    (hwithout : disk.Without places later)
    (hplaces : ∀ id text, program id = some text → ¬ places (disk.placeOf id)) :
    WellFormed program (modules.host later) where
  loaded {id text} htext := by
    have hread := Modules.host_load_eq_ok.1 (hprogram.loaded htext)
    exact Modules.host_load_eq_ok.2 (hwithout.readText_iff.2 ⟨hread, hplaces id text htext⟩)
  distinct := hprogram.distinct
  unique := hprogram.unique
  bound {id text site name} htext hsite hname := by
    rcases hprogram.bound htext hsite hname with hown | ⟨specifier, target, himport, hresolve, hown⟩
    · exact .inl hown
    · have ⟨_, ⟨text', htext', _⟩, _⟩ := hown
      obtain ⟨found, hfound, heq⟩ :=
        Modules.resolve_without hwithout hnamed hresolve (hplaces _ text' htext')
      exact .inr ⟨specifier, found, himport, hfound, heq ▸ hown⟩

end Program

end Session

end PersistedQueries
