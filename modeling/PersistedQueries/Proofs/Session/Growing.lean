import PersistedQueries.Proofs.Session.Recording
import PersistedQueries.Proofs.Session.Steps

/-!
# The manifest only grows

Clients in the field go on sending the digests of earlier builds, so an entry of the manifest must
outlive every build. A session never takes an entry out: what is in memory only gains entries, and
the file is left alone or replaced by all that is in memory. A text is replaced only under the digest
of a call site that has been persisted.

- `Use`, `State`, `Run`: the uses of a session, what they leave, and any sequence of them, with other
  changes of the surroundings in between.
- `Grown`: a table has all keys of another one, with their texts or those of persisted call sites.
- `Fits.apply`: what one use does to the entries in memory and to those in the file.
- `State.Holds`: the file has entries that those in memory have grown from.
- `State.Holds.apply`, `Run.grows`: every use, and so any sequence of uses, lets both only grow.
- `only_grows`: at any time both have what the file had when the session was opened.
-/

namespace PersistedQueries.Session

open Manifest (readEntries)

variable {options : Options} {session : Session} {surroundings : Surroundings}
  {manifest : Manifest} {disk made later : Disk} {sites more : List PersistedSite}
  {table middle final saved : Table String String}

/-! ## Uses -/

/-- One use of a session. -/
inductive Use where
  /-- A build starts. -/
  | start
  /-- A source text is transformed, whose imports a host follows. -/
  | transform (host : Index.Host Modules.Failure) (code : Text) (file : String)
  /-- A file has changed. -/
  | fileChanged (file : String)
  /-- A timer fires. -/
  | fire (timer : Nat)
  /-- A build ends. -/
  | finish
  /-- The session is closed. -/
  | close

/-- A session in use. -/
structure State where
  /-- The session. -/
  session : Session
  /-- The files and the endpoints. -/
  surroundings : Surroundings
  /-- The call sites of all texts that have been transformed. -/
  persisted : List PersistedSite := []

/-- The call sites of what transforming a text gives. -/
def sitesOf : Except Fault (Option Transformed) → List PersistedSite
  | .ok (some made) => made.sites
  | _ => []

/-- What a step leaves. -/
def State.after {α : Type} (state : State) (step : Step α) : State :=
  { state with session := step.session, surroundings := step.surroundings }

/-- What a use leaves, whether it fails or not. -/
def State.apply (state : State) : Use → State
  | .start => state.after (state.session.start state.surroundings)
  | .transform host code file =>
    let (session, result, _) := state.session.transformOn host code file
    { state with session, persisted := state.persisted ++ sitesOf result }
  | .fileChanged file => { state with session := state.session.fileChanged file }
  | .fire timer => state.after (state.session.fire state.surroundings timer)
  | .finish => state.after (state.session.finish state.surroundings)
  | .close => state.after (state.session.close state.surroundings)

/-- Some uses lead from one state to another. In between, everything around the session may change,
so that any write may fail, but nobody else changes the file at a path. -/
inductive Run (path : String) (first : State) : List Use → State → Prop where
  | nothing : Run path first [] first
  | use {uses : List Use} {state : State} (h : Run path first uses state) (use : Use) :
      Run path first (uses ++ [use]) (state.apply use)
  | meanwhile {uses : List Use} {state : State} (h : Run path first uses state)
      (later : Surroundings) (hworking : later.disk.working = state.surroundings.disk.working)
      (hkept : later.disk.readText path = state.surroundings.disk.readText path) :
      Run path first uses { state with surroundings := later }

/-- The state in which a session is opened. -/
def State.opened (surroundings : Surroundings) (options : Options) (modules : Modules) : State :=
  { session := (Session.opened surroundings.disk options modules).1, surroundings }

/-! ## Growing -/

/-- Every key of the first table is one of the second, with the same text unless it is the digest of
one of some call sites, whose text it has then. -/
def Grown (sites : List PersistedSite) (table final : Table String String) : Prop :=
  ∀ hash text, table.get? hash = some text → final.get? hash = some text ∨
    ∃ site ∈ sites, site.persisted.hash = hash ∧ final.get? hash = some site.persisted.query

theorem Grown.refl (sites : List PersistedSite) (table : Table String String) :
    Grown sites table table := fun _ _ => .inl

theorem Grown.trans (h : Grown sites table middle) (h' : Grown sites middle final) :
    Grown sites table final := by
  intro hash text hget
  rcases h hash text hget with hmiddle | ⟨site, hsite, hhash, hmiddle⟩
  · exact h' hash text hmiddle
  · exact .inr ((h' hash _ hmiddle).elim (fun hfinal => ⟨site, hsite, hhash, hfinal⟩) id)

theorem Grown.mono (h : Grown sites table final) (hsites : sites ⊆ more) :
    Grown more table final := fun hash text hget =>
  (h hash text hget).imp_right fun ⟨site, hsite, hkey⟩ => ⟨site, hsites hsite, hkey⟩

theorem grown_recorded (options : Options) (manifest : Manifest) (sites : List PersistedSite) :
    Grown sites manifest.entries (recorded options manifest sites).entries := by
  intro hash text hget
  rcases get?_recorded options manifest sites hash with ⟨site, hsite, hhash, hnew⟩ | ⟨-, hold⟩
  · exact .inr ⟨site, hsite, hhash, hnew⟩
  · exact .inl (hold.trans hget)

/-! ## One use -/

/-- A write that fails leaves the entries of the file, and one that does not replaces them by those in
memory. -/
theorem readEntries_flush {disk : Disk} (hread : readEntries disk manifest.path = .ok saved) :
    readEntries (manifest.flush disk).disk manifest.path = .ok saved ∨
      readEntries (manifest.flush disk).disk manifest.path = .ok manifest.entries := by
  obtain ⟨-, -, -, -, hwritten⟩ := manifest.flush_changes disk
  cases hresult : (manifest.flush disk).result with
  | ok _ => exact .inr (hwritten hresult)
  | error fault =>
    have hframe : Disk.Touches (fun _ => False) disk (manifest.flush disk).disk :=
      Disk.touches_replaceFile_error hresult
    exact .inl (Manifest.readEntries_of_touches hframe not_false hread)

/-- What a step does with the entries of a manifest: those in memory stay, and the file has either the
entries that it had or those in memory. -/
structure Keeps (options : Options) (entries : Table String String) (disk : Disk)
    (session : Session) (later : Disk) : Prop where
  fits : Fits options session
  working : later.working = disk.working
  memory : ∃ manifest, session.manifest = some manifest ∧ manifest.entries = entries
  file : ∀ saved, readEntries disk options.outputPath = .ok saved →
    readEntries later options.outputPath = .ok saved ∨
      readEntries later options.outputPath = .ok entries

/-- Writing artifacts keeps both. -/
theorem Keeps.changes (h : Keeps options table disk session made)
    (hapart : ¬ artifactPlaces options disk (disk.placeOf options.outputPath))
    {next : Session} (hfits : Fits options next) (hmanifest : next.manifest = session.manifest)
    (hframe : Disk.Touches (artifactPlaces options made) made later) :
    Keeps options table disk next later := by
  have hplace (path : String) : made.placeOf path = disk.placeOf path := by
    unfold Disk.placeOf Disk.startOf
    rw [h.working]
  rw [← artifactPlaces_of_working hplace, ← hplace] at hapart
  exact ⟨hfits, hframe.working.trans h.working, hmanifest ▸ h.memory, fun saved hread =>
    (h.file saved hread).imp (Manifest.readEntries_of_touches hframe hapart)
      (Manifest.readEntries_of_touches hframe hapart)⟩

/-- A session that has the entries and has not touched the disk keeps both. -/
theorem Fits.keeps (h : Fits options session) (hmanifest : session.manifest = some manifest)
    (disk : Disk) : Keeps options manifest.entries disk session disk :=
  ⟨h, rfl, ⟨manifest, hmanifest, rfl⟩, fun _ => .inl⟩

/-- Writing the manifest, and what follows it. -/
theorem Fits.keeps_flushed (h : Fits options session) (hpath : manifest.path = options.outputPath)
    (hapart : ¬ artifactPlaces options surroundings.disk
      (surroundings.disk.placeOf options.outputPath)) :
    let step := session.flushed surroundings (manifest.flush surroundings.disk)
    Keeps options manifest.entries surroundings.disk step.session step.surroundings.disk := by
  obtain ⟨hkept, -, -, hframe, -⟩ := manifest.flush_changes surroundings.disk
  have hentries : (manifest.flush surroundings.disk).manifest.entries = manifest.entries :=
    Manifest.entries_flush ⟨manifest, surroundings.disk, none⟩ manifest surroundings.disk
  have hfits : Fits options
      { session with manifest := some (manifest.flush surroundings.disk).manifest } :=
    ⟨h.options_eq, ⟨_, rfl, hkept.trans hpath⟩, h.config_eq⟩
  have hkeeps : Keeps options manifest.entries surroundings.disk
      { session with manifest := some (manifest.flush surroundings.disk).manifest }
      (manifest.flush surroundings.disk).disk :=
    ⟨hfits, hframe.working, ⟨_, rfl, hentries⟩, fun saved hread =>
      hpath ▸ readEntries_flush (hpath.symm ▸ hread)⟩
  unfold Session.flushed
  dsimp only
  split
  · exact hkeeps
  split
  · obtain ⟨hnext, hmanifest, hartifacts⟩ := hfits.republish
      { surroundings with disk := (manifest.flush surroundings.disk).disk }
    exact hkeeps.changes hapart hnext hmanifest hartifacts
  · exact hkeeps

/-- A use that is no transformation keeps the entries in memory, and the file has either the entries
that it had or those in memory. -/
theorem Fits.keeps_apply {state : State} (h : Fits options state.session)
    (hapart : ¬ artifactPlaces options state.surroundings.disk
      (state.surroundings.disk.placeOf options.outputPath))
    (hmanifest : state.session.manifest = some manifest) (use : Use)
    (huse : ∀ host code file, use ≠ .transform host code file) :
    Keeps options manifest.entries state.surroundings.disk (state.apply use).session
      (state.apply use).surroundings.disk := by
  have hpath : manifest.path = options.outputPath := by
    obtain ⟨_, hsome, hpath⟩ := h.path_eq
    cases hmanifest.symm.trans hsome
    exact hpath
  have hkept timers pending : { manifest with timers := timers, pending := pending }.path =
      options.outputPath := hpath
  have hsame := h.keeps hmanifest state.surroundings.disk
  cases use with
  | start =>
    obtain ⟨hfits, hkept, hframe⟩ := h.start state.surroundings
    exact hsame.changes hapart hfits hkept hframe
  | transform host code file => exact absurd rfl (huse host code file)
  | fileChanged file =>
    exact ⟨⟨h.options_eq, h.path_eq, h.config_eq⟩, rfl, hsame.memory, hsame.file⟩
  | fire timer =>
    obtain ⟨timers, pending, hfire⟩ := manifest.fire_eq state.surroundings.disk timer
    unfold State.apply State.after Session.fire
    rw [hmanifest]
    dsimp only
    -- only the pending timer writes; one that has been cancelled does nothing
    rcases hfire with hfire | hfire <;> rw [hfire]
    · exact ⟨⟨h.options_eq, ⟨_, rfl, hpath⟩, h.config_eq⟩, rfl, ⟨_, rfl, rfl⟩, hsame.file⟩
    · have hflushed := h.keeps_flushed (hkept timers pending) hapart
      dsimp only
      split
      · split <;> exact hflushed
      · exact hflushed
  | finish =>
    unfold State.apply State.after Session.finish
    rw [hmanifest]
    exact h.keeps_flushed hpath hapart
  | close =>
    obtain ⟨timers, pending, hclose⟩ := manifest.close_eq state.surroundings.disk
    unfold State.apply State.after Session.close
    rw [hmanifest]
    dsimp only
    rcases hclose with hclose | hclose <;> rw [hclose]
    · exact ⟨⟨h.options_eq, ⟨_, rfl, hpath⟩, h.config_eq⟩, rfl, ⟨_, rfl, rfl⟩, hsame.file⟩
    · exact h.keeps_flushed (hkept timers pending) hapart

/-- A transformation touches no file, and adds the call sites of the text that it gives. -/
theorem Fits.grown_transform {state : State} (h : Fits options state.session)
    (hmanifest : state.session.manifest = some manifest) (host : Index.Host Modules.Failure)
    (code : Text) (file : String) :
    let later := state.apply (.transform host code file)
    Fits options later.session ∧ later.surroundings = state.surroundings ∧
      ∃ grown, later.session.manifest = some grown ∧
        Grown later.persisted manifest.entries grown.entries := by
  refine ⟨h.transformOn host code file, rfl, ?_⟩
  unfold State.apply
  dsimp only
  obtain ⟨-, hcases⟩ := state.session.transformOn_cases host code file
  rcases hcases with ⟨made, hmade, -, heq⟩ | ⟨-, heq⟩
  · rw [heq, hmanifest, hmade]
    exact ⟨_, rfl, (grown_recorded _ manifest made.sites).mono (List.subset_append_right ..)⟩
  · exact ⟨manifest, heq.trans hmanifest, .refl _ _⟩

/-- What one use does: the entries in memory grow, and the file has either the entries that it had or
those that were in memory. -/
theorem Fits.apply {state : State} (h : Fits options state.session)
    (hapart : ¬ artifactPlaces options state.surroundings.disk
      (state.surroundings.disk.placeOf options.outputPath))
    (hmanifest : state.session.manifest = some manifest)
    (hread : readEntries state.surroundings.disk options.outputPath = .ok saved) (use : Use) :
    Fits options (state.apply use).session ∧
      (state.apply use).surroundings.disk.working = state.surroundings.disk.working ∧
      (∃ grown, (state.apply use).session.manifest = some grown ∧
        Grown (state.apply use).persisted manifest.entries grown.entries) ∧
      (readEntries (state.apply use).surroundings.disk options.outputPath = .ok saved ∨
        readEntries (state.apply use).surroundings.disk options.outputPath =
          .ok manifest.entries) := by
  by_cases huse : ∃ host code file, use = .transform host code file
  · obtain ⟨host, code, file, rfl⟩ := huse
    obtain ⟨hfits, hsame, hgrown⟩ := h.grown_transform hmanifest host code file
    rw [hsame]
    exact ⟨hfits, rfl, hgrown, .inl hread⟩
  · have hkeeps := h.keeps_apply hapart hmanifest use fun host code file heq =>
      huse ⟨host, code, file, heq⟩
    obtain ⟨kept, hsome, hentries⟩ := hkeeps.memory
    exact ⟨hkeeps.fits, hkeeps.working, ⟨kept, hsome, hentries ▸ .refl _ _⟩,
      hkeeps.file saved hread⟩

/-- A session that has neither manifest nor publisher touches nothing. -/
theorem apply_of_idle {state : State} (hmanifest : state.session.manifest = none)
    (hpublisher : state.session.publisher = none) (use : Use) :
    (state.apply use).session.manifest = none ∧ (state.apply use).session.publisher = none ∧
      (state.apply use).surroundings = state.surroundings := by
  cases use with
  | start =>
    have hpublish : { state.session with index := .empty }.publish state.surroundings =
        { state.session with index := .empty }.unchanged state.surroundings none := by
      unfold Session.publish
      dsimp only
      rw [hpublisher]
    unfold State.apply State.after Session.start
    rw [hpublish]
    dsimp only
    split <;> exact ⟨hmanifest, hpublisher, rfl⟩
  | transform host code file =>
    refine ⟨?_, (publisher_transformOn ..).trans hpublisher, rfl⟩
    obtain ⟨-, hcases⟩ := state.session.transformOn_cases host code file
    rw [hmanifest] at hcases
    rcases hcases with ⟨_, -, -, heq⟩ | ⟨-, heq⟩
    · exact heq
    · exact heq
  | fileChanged file => exact ⟨hmanifest, hpublisher, rfl⟩
  | fire timer =>
    unfold State.apply State.after Session.fire
    rw [hmanifest]
    exact ⟨hmanifest, hpublisher, rfl⟩
  | finish =>
    unfold State.apply State.after Session.finish
    rw [hmanifest]
    exact ⟨hmanifest, hpublisher, rfl⟩
  | close =>
    unfold State.apply State.after Session.close
    rw [hmanifest]
    exact ⟨hmanifest, hpublisher, rfl⟩

/-! ## Runs -/

/-- The file has some entries, which those in memory have grown from. A disabled session has none in
memory. -/
structure State.Holds (options : Options) (saved : Table String String) (state : State) : Prop where
  apart : ¬ artifactPlaces options state.surroundings.disk
    (state.surroundings.disk.placeOf options.outputPath)
  saved_eq : readEntries state.surroundings.disk options.outputPath = .ok saved
  session : Fits options state.session ∨ options.isEnabled = false ∧
    state.session.manifest = none ∧ state.session.publisher = none
  memory : ∀ manifest, state.session.manifest = some manifest →
    Grown state.persisted saved manifest.entries

/-- What grows from one state to a later one. -/
structure State.Grows (options : Options) (saved : Table String String) (state later : State) :
    Prop where
  persisted : state.persisted ⊆ later.persisted
  file : ∃ final, later.Holds options final ∧ Grown later.persisted saved final
  memory : ∀ manifest, state.session.manifest = some manifest →
    ∃ grown, later.session.manifest = some grown ∧
      Grown later.persisted manifest.entries grown.entries

variable {state mid next : State} {uses more : List Use}

theorem State.Holds.refl (h : state.Holds options saved) : state.Grows options saved state :=
  ⟨List.Subset.refl _, ⟨saved, h, .refl _ _⟩,
    fun manifest hmanifest => ⟨manifest, hmanifest, .refl _ _⟩⟩

/-- The place of the manifest stays apart from the artifacts as long as paths lead where they led. -/
theorem apart_of_working {later : Disk} (hworking : later.working = disk.working)
    (h : ¬ artifactPlaces options disk (disk.placeOf options.outputPath)) :
    ¬ artifactPlaces options later (later.placeOf options.outputPath) := by
  have hplace (path : String) : later.placeOf path = disk.placeOf path := by
    unfold Disk.placeOf Disk.startOf
    rw [hworking]
  rwa [artifactPlaces_of_working hplace, hplace]

/-- Every use lets the entries only grow, in memory and in the file. -/
theorem State.Holds.apply (h : state.Holds options saved) (use : Use) :
    state.Grows options saved (state.apply use) := by
  have hpersisted : state.persisted ⊆ (state.apply use).persisted := by
    cases use with
    | transform host code file => exact List.subset_append_left ..
    | _ => exact List.Subset.refl _
  rcases h.session with hfits | ⟨hdisabled, hmanifest, hpublisher⟩
  swap
  · -- a disabled session touches nothing
    obtain ⟨hmanifest', hpublisher', hsame⟩ := apply_of_idle hmanifest hpublisher use
    refine ⟨hpersisted, ⟨saved, ⟨hsame ▸ h.apart, hsame ▸ h.saved_eq,
      .inr ⟨hdisabled, hmanifest', hpublisher'⟩, ?_⟩, .refl _ _⟩, ?_⟩
    · exact fun _ hsome => nomatch hmanifest'.symm.trans hsome
    · exact fun _ hsome => nomatch hmanifest.symm.trans hsome
  obtain ⟨manifest, hmanifest, -⟩ := hfits.path_eq
  have hmemory := (h.memory manifest hmanifest).mono hpersisted
  obtain ⟨hfits', hworking, ⟨grown, hsome, hgrown⟩, hfile⟩ :=
    hfits.apply h.apart hmanifest h.saved_eq use
  have happly := apart_of_working hworking h.apart
  -- the file has what it had, or what was in memory before the use, which has grown from it
  refine ⟨hpersisted, ?_, fun _ hother =>
    ⟨grown, hsome, Option.some.inj (hmanifest.symm.trans hother) ▸ hgrown⟩⟩
  rcases hfile with hfile | hfile
  · refine ⟨saved, ⟨happly, hfile, .inl hfits', fun _ hother => ?_⟩, .refl _ _⟩
    exact Option.some.inj (hsome.symm.trans hother) ▸ hmemory.trans hgrown
  · refine ⟨manifest.entries, ⟨happly, hfile, .inl hfits', fun _ hother => ?_⟩, hmemory⟩
    exact Option.some.inj (hsome.symm.trans hother) ▸ hgrown

theorem State.Grows.trans (h : state.Grows options saved mid)
    (hnext : ∀ final, mid.Holds options final → mid.Grows options final next) :
    state.Grows options saved next := by
  obtain ⟨middle, hmiddle, hgrown⟩ := h.file
  obtain ⟨hsubset, ⟨final, hfinal, hgrown'⟩, hmemory'⟩ := hnext middle hmiddle
  refine ⟨fun _ hmem => hsubset (h.persisted hmem),
    ⟨final, hfinal, (hgrown.mono hsubset).trans hgrown'⟩, fun manifest hmanifest => ?_⟩
  obtain ⟨kept, hkept, hgrown⟩ := h.memory manifest hmanifest
  obtain ⟨last, hlast, hgrown'⟩ := hmemory' kept hkept
  exact ⟨last, hlast, (hgrown.mono hsubset).trans hgrown'⟩

/-- Any sequence of uses lets the entries only grow, in memory and in the file. -/
theorem Run.grows (hrun : Run options.outputPath state uses next)
    (h : state.Holds options saved) : state.Grows options saved next := by
  induction hrun with
  | nothing => exact h.refl
  | use _ use ih => exact ih.trans fun _ hmid => hmid.apply use
  | @meanwhile uses mid _ surroundings hworking hkept ih =>
    -- others leave the file of the manifest as it is
    refine ih.trans fun final hmid => ?_
    have hread : readEntries surroundings.disk options.outputPath = .ok final := by
      rw [← hmid.saved_eq]
      unfold Manifest.readEntries
      rw [hkept]
    exact ⟨List.Subset.refl _,
      ⟨final, ⟨apart_of_working hworking hmid.apart, hread, hmid.session, hmid.memory⟩, .refl _ _⟩,
      fun manifest hmanifest => ⟨manifest, hmanifest, .refl _ _⟩⟩

theorem holds_opened (surroundings : Surroundings) (modules : Modules)
    (hread : readEntries surroundings.disk options.outputPath = .ok saved)
    (hapart : ¬ artifactPlaces options surroundings.disk
      (surroundings.disk.placeOf options.outputPath)) :
    (State.opened surroundings options modules).Holds options saved := by
  by_cases henabled : options.isEnabled = true
  · refine ⟨hapart, hread, .inl (fits_opened _ _ henabled), fun manifest hmanifest => ?_⟩
    unfold State.opened Session.opened Manifest.opened Manifest.load at hmanifest
    rw [if_pos henabled] at hmanifest
    dsimp only at hmanifest
    rw [hread] at hmanifest
    cases hmanifest
    exact .refl _ _
  · have hopened : (State.opened surroundings options modules).session = { options, modules } := by
      unfold State.opened Session.opened
      rw [if_neg henabled]
    refine ⟨hapart, hread, .inr ⟨Bool.eq_false_iff.2 henabled, ?_, ?_⟩, fun manifest hmanifest => ?_⟩
    · rw [hopened]
    · rw [hopened]
    · rw [hopened] at hmanifest
      cases hmanifest

/-- **The manifest only grows.** A session is opened with a manifest that can be read, which is none
of its artifacts. At any time the file can be read, and it has all that it had when the session was
opened, and all that it had at any time before; and so have the entries in memory. A text has changed
only under the digest of a call site that has been persisted. -/
theorem only_grows (surroundings : Surroundings) (modules : Modules) {initial : Table String String}
    (hread : readEntries surroundings.disk options.outputPath = .ok initial)
    (hapart : ¬ artifactPlaces options surroundings.disk
      (surroundings.disk.placeOf options.outputPath))
    (hrun : Run options.outputPath (.opened surroundings options modules) uses state)
    (hmore : Run options.outputPath state more next) :
    ∃ saved final, readEntries state.surroundings.disk options.outputPath = .ok saved ∧
      readEntries next.surroundings.disk options.outputPath = .ok final ∧
      Grown state.persisted initial saved ∧ Grown next.persisted saved final ∧
      (options.isEnabled = true → ∃ manifest grown, state.session.manifest = some manifest ∧
        next.session.manifest = some grown ∧ Grown state.persisted initial manifest.entries ∧
        Grown state.persisted saved manifest.entries ∧
        Grown next.persisted manifest.entries grown.entries) := by
  have hopened := holds_opened surroundings modules hread hapart
  obtain ⟨saved, hholds, hsaved⟩ := (hrun.grows hopened).file
  have hgrows := hmore.grows hholds
  obtain ⟨final, hfinal, hgrown⟩ := hgrows.file
  refine ⟨saved, final, hholds.saved_eq, hfinal.saved_eq, hsaved, hgrown, fun henabled => ?_⟩
  have hfits : Fits options state.session :=
    hholds.session.resolve_right fun hidle => by cases hidle.1.symm.trans henabled
  obtain ⟨manifest, hmanifest, -⟩ := hfits.path_eq
  obtain ⟨kept, hkept, hmemory⟩ := hgrows.memory manifest hmanifest
  have hheld := hholds.memory manifest hmanifest
  exact ⟨manifest, kept, hmanifest, hkept, hsaved.trans hheld, hheld, hmemory⟩

/-- A directory with a manifest that has one entry. -/
def manifestDisk : Disk :=
  .ofEntries [['w']]
    [(["persisted-queries.json".toList], .file (Utf8.encode "\x7b\"h\": \"\x7b a \x7d\"\x7d".toList))]

/-- The state in which a session with the usual options is opened there. -/
def manifestOpened : State := .opened { disk := manifestDisk } {} (.ofRoot manifestDisk "/w" [])

/-- A build of a text with a query keeps the entry, in memory and in the file. -/
theorem only_grows_entry :
    let code := "graphql(`query Q { a }`)".toList
    let started := manifestOpened.apply .start
    let ended := (started.apply (.transform (.unanswering .noImporter) code "/w/a.ts")).apply .finish
    ∃ initial saved final, readEntries manifestDisk "persisted-queries.json" = .ok initial ∧
      initial.get? "h" = some "{ a }" ∧
      readEntries started.surroundings.disk "persisted-queries.json" = .ok saved ∧
      readEntries ended.surroundings.disk "persisted-queries.json" = .ok final ∧
      Grown started.persisted initial saved ∧ Grown ended.persisted saved final ∧
      ∃ manifest grown, started.session.manifest = some manifest ∧
        ended.session.manifest = some grown ∧ Grown started.persisted initial manifest.entries ∧
        Grown started.persisted saved manifest.entries ∧
        Grown ended.persisted manifest.entries grown.entries := by
  intro code started ended
  have hentry : (readEntries manifestDisk "persisted-queries.json").toOption.bind (·.get? "h") =
      some "{ a }" := by
    decide +kernel
  cases hread : readEntries manifestDisk "persisted-queries.json" with
  | error fault =>
    rw [hread] at hentry
    cases hentry
  | ok initial =>
    rw [hread] at hentry
    have hrun : Run "persisted-queries.json" manifestOpened ([] ++ [.start]) started :=
      .use .nothing .start
    have hmore : Run "persisted-queries.json" started _ ended :=
      .use (.use .nothing (.transform (.unanswering .noImporter) code "/w/a.ts")) .finish
    have hapart : ¬ artifactPlaces {} manifestDisk
        (manifestDisk.placeOf "persisted-queries.json") := fun ⟨_, hschema, _⟩ => nomatch hschema
    obtain ⟨saved, final, hsaved, hfinal, hgrown, hgrown', hmemory⟩ :=
      only_grows { disk := manifestDisk } (.ofRoot manifestDisk "/w" []) hread hapart hrun hmore
    exact ⟨initial, saved, final, rfl, hentry, hsaved, hfinal, hgrown, hgrown', hmemory rfl⟩

end PersistedQueries.Session
