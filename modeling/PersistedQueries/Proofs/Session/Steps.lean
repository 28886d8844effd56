import PersistedQueries.Proofs.Introspection.Publishing
import PersistedQueries.Proofs.Session.Recording
import PersistedQueries.Proofs.Session.Transforming
import PersistedQueries.Session.Flush

/-!
# What the steps of a session keep and change

A session writes two kinds of files, the manifest and the artifacts of the schema. Whatever else is
on the disk stays as it is, in every step and also when a step fails.

- `Fits`: an enabled session has the manifest and the publisher of its options, at any time.
- `ownPlaces`: the places of the manifest and the artifacts.
- `Fits.publish`, `Fits.transform`, `Fits.finish`: what a step keeps, and where it changes the disk.
- `readEntries_finish`: the manifest on the disk has all entries once it is written.
- `close_of_clean`: there is nothing left to do for a session that is closed then.
-/

namespace PersistedQueries

/-! ## Writing a manifest -/

namespace Manifest

variable {disk later : Disk} {path : String} {places : Disk.Place → Prop}

/-- The entries of a file stay while nothing is written to its place. -/
theorem readEntries_of_touches {entries : Table String String}
    (hchanges : Disk.Touches places disk later) (hplace : ¬ places (disk.placeOf path))
    (h : readEntries disk path = .ok entries) : readEntries later path = .ok entries :=
  readEntries_of_readText (hchanges.readText hplace) h

/-- Writing the manifest touches only its file, which has the entries then unless it cannot be
written. Nothing is left to be written afterwards. -/
theorem flush_changes (manifest : Manifest) (disk : Disk) :
    (manifest.flush disk).manifest.path = manifest.path ∧
      (manifest.flush disk).manifest.isDirty = false ∧
      (manifest.flush disk).manifest.pending = none ∧
      Disk.Touches (· = disk.placeOf manifest.path) disk (manifest.flush disk).disk ∧
      ((manifest.flush disk).result = .ok () →
        readEntries (manifest.flush disk).disk manifest.path = .ok manifest.entries) := by
  have hpending : manifest.cancelPending.pending = none := by
    unfold cancelPending
    split
    · assumption
    · rfl
  obtain ⟨timers, pending, hcancel⟩ := cancelPending_eq manifest
  have hframe := (Disk.replaceFile_eq disk manifest.path (Disk.jsonOctets manifest.toJson)).1
  have hpath : (manifest.flush disk).manifest.path = manifest.path := by
    show manifest.cancelPending.path = manifest.path
    rw [hcancel]
  refine ⟨hpath, rfl, hpending, hframe, fun hresult => ?_⟩
  have hwritten : disk.writeJson manifest.path manifest.toJson =
      ((manifest.flush disk).disk, .ok ()) := Prod.ext rfl hresult
  exact readEntries_writeJson hwritten

end Manifest

namespace Session

open Introspection (Publisher Publishing.paths)

variable {options : Options} {session : Session} {surroundings : Surroundings} {disk later : Disk}
  {code : Text} {file : String} {manifest : Manifest}

/-! ## What a session keeps -/

/-- An enabled session has the options, a manifest at their path, and a publisher only for their
schema. -/
structure Fits (options : Options) (session : Session) : Prop where
  options_eq : session.options = options
  path_eq : ∃ manifest, session.manifest = some manifest ∧ manifest.path = options.outputPath
  config_eq : ∀ publisher, session.publisher = some publisher →
    options.schema = some publisher.config

theorem fits_opened (disk : Disk) (modules : Modules) (h : options.isEnabled = true) :
    Fits options (opened disk options modules).1 := by
  have hpath : (Manifest.opened disk options.outputPath options.debounce).1.path =
      options.outputPath := by
    unfold Manifest.opened Manifest.load
    split <;> rfl
  unfold opened
  rw [if_pos h]
  refine ⟨rfl, ⟨_, rfl, hpath⟩, fun publisher hpublisher => ?_⟩
  cases hschema : options.schema with
  | none =>
    rw [hschema] at hpublisher
    cases hpublisher
  | some config =>
    rw [hschema] at hpublisher
    cases hpublisher
    rfl

/-- The places of the artifacts of the schema. -/
def artifactPlaces (options : Options) (disk : Disk) (place : Disk.Place) : Prop :=
  ∃ config, options.schema = some config ∧ place ∈ (Publishing.paths config).map disk.placeOf

/-- The places of the files that a session writes by itself. -/
def ownPlaces (options : Options) (disk : Disk) (place : Disk.Place) : Prop :=
  place = disk.placeOf options.outputPath ∨ artifactPlaces options disk place

theorem artifactPlaces_of_working (h : ∀ path, later.placeOf path = disk.placeOf path) :
    artifactPlaces options later = artifactPlaces options disk := by
  unfold artifactPlaces
  rw [funext h]

theorem ownPlaces_of_working (h : ∀ path, later.placeOf path = disk.placeOf path) :
    ownPlaces options later = ownPlaces options disk := by
  unfold ownPlaces
  rw [artifactPlaces_of_working h, h]

/-! ## Steps -/

/-- Publishing touches only artifacts. -/
theorem Fits.publish (h : Fits options session) (surroundings : Surroundings) :
    Fits options (session.publish surroundings).session ∧
      (session.publish surroundings).session.manifest = session.manifest ∧
      Disk.Touches (artifactPlaces options surroundings.disk) surroundings.disk
        (session.publish surroundings).surroundings.disk := by
  unfold Session.publish
  split
  · exact ⟨h, rfl, .refl _ _⟩
  · next publisher hpublisher =>
    have hschema := h.config_eq publisher hpublisher
    obtain ⟨hconfig, hframe⟩ := publisher.publish_changes surroundings
    refine ⟨⟨h.options_eq, h.path_eq, ?_⟩, rfl,
      hframe.mono fun place hplace => ⟨_, hschema, hplace⟩⟩
    rintro _ ⟨⟩
    rw [hconfig, hschema]

theorem Fits.start (h : Fits options session) (surroundings : Surroundings) :
    Fits options (session.start surroundings).session ∧
      (session.start surroundings).session.manifest = session.manifest ∧
      Disk.Touches (artifactPlaces options surroundings.disk) surroundings.disk
        (session.start surroundings).surroundings.disk := by
  have hempty : Fits options { session with index := .empty } :=
    ⟨h.options_eq, h.path_eq, h.config_eq⟩
  unfold Session.start
  split
  · exact hempty.publish surroundings
  · exact ⟨h, rfl, .refl _ _⟩

theorem publisher_transformOn (session : Session) (host : Index.Host Modules.Failure)
    (code : Text) (file : String) :
    (session.transformOn host code file).1.publisher = session.publisher := by
  unfold transformOn
  split
  · rfl
  split
  · rfl
  dsimp only
  split
  · rfl
  split
  · rfl
  split <;> rfl

theorem Fits.transformOn (h : Fits options session) (host : Index.Host Modules.Failure)
    (code : Text) (file : String) : Fits options (session.transformOn host code file).1 := by
  obtain ⟨manifest, hmanifest, hpath⟩ := h.path_eq
  obtain ⟨hoptions, hcases⟩ := session.transformOn_cases host code file
  refine ⟨hoptions.trans h.options_eq, ?_,
    publisher_transformOn session host code file ▸ h.config_eq⟩
  rcases hcases with ⟨made, -, -, heq⟩ | ⟨-, heq⟩
  · rw [heq, hmanifest]
    exact ⟨_, rfl, (path_recorded ..).trans hpath⟩
  · rw [heq]
    exact ⟨manifest, hmanifest, hpath⟩

theorem Fits.transform (h : Fits options session) (disk : Disk) (code : Text) (file : String) :
    Fits options (session.transform disk code file).1 :=
  h.transformOn (session.modules.host disk) code file

theorem surroundings_republish (session : Session) (surroundings : Surroundings) :
    (session.republish surroundings).surroundings =
      (session.publish surroundings).surroundings := by
  unfold Session.republish
  dsimp only
  split
  · rfl
  · split <;> rfl
  · rfl

/-- Publishing once more touches only artifacts. -/
theorem Fits.republish (h : Fits options session) (surroundings : Surroundings) :
    Fits options (session.republish surroundings).session ∧
      (session.republish surroundings).session.manifest = session.manifest ∧
      Disk.Touches (artifactPlaces options surroundings.disk) surroundings.disk
        (session.republish surroundings).surroundings.disk := by
  have hpublish := h.publish surroundings
  unfold Session.republish
  dsimp only
  split
  · exact hpublish
  · split <;> exact hpublish
  · exact hpublish

/-! ## Ending a build -/

theorem Fits.flushed (h : Fits options session) (hmanifest : session.manifest = some manifest)
    (disk : Disk) :
    Fits options { session with manifest := some (manifest.flush disk).manifest } := by
  obtain ⟨_, hsome, hpath⟩ := h.path_eq
  cases hmanifest.symm.trans hsome
  exact ⟨h.options_eq, ⟨_, rfl, (manifest.flush_changes disk).1.trans hpath⟩, h.config_eq⟩

/-- What ending a build touches and keeps: the manifest is written, and in a development server the
artifacts are published once more. -/
theorem Fits.finish (h : Fits options session) (surroundings : Surroundings) :
    Disk.Touches (ownPlaces options surroundings.disk) surroundings.disk
        (session.finish surroundings).surroundings.disk ∧
      ∃ later, (session.finish surroundings).session.manifest = some later ∧
        later.isDirty = false ∧ later.pending = none := by
  obtain ⟨manifest, hmanifest, hpath⟩ := h.path_eq
  obtain ⟨-, hclean, hpending, hframe, -⟩ := manifest.flush_changes surroundings.disk
  have hframe : Disk.Touches (ownPlaces options surroundings.disk) surroundings.disk
      (manifest.flush surroundings.disk).disk :=
    hframe.mono fun place hplace => .inl (hpath ▸ hplace)
  have hfits := h.flushed hmanifest surroundings.disk
  unfold Session.finish
  rw [hmanifest]
  dsimp only
  unfold Session.flushed
  dsimp only
  split
  · exact ⟨hframe, _, rfl, hclean, hpending⟩
  split
  · obtain ⟨-, hkept, hartifacts⟩ := hfits.republish
      { surroundings with disk := (manifest.flush surroundings.disk).disk }
    rw [artifactPlaces_of_working hframe.placeOf] at hartifacts
    exact ⟨hframe.trans (hartifacts.mono fun place => .inr), _, hkept, hclean, hpending⟩
  · exact ⟨hframe, _, rfl, hclean, hpending⟩

/-- The manifest on the disk has all entries once a build has ended, unless an artifact has been put
in its place. -/
theorem Fits.readEntries_finish (h : Fits options session)
    (hplace : ¬ artifactPlaces options surroundings.disk
      (surroundings.disk.placeOf options.outputPath))
    (hmanifest : session.manifest = some manifest)
    (hresult : (session.finish surroundings).result = .ok ()) :
    Manifest.readEntries (session.finish surroundings).surroundings.disk options.outputPath =
      .ok manifest.entries := by
  obtain ⟨_, hsome, hpath⟩ := h.path_eq
  cases hmanifest.symm.trans hsome
  obtain ⟨-, -, -, hframe, hread⟩ := manifest.flush_changes surroundings.disk
  have hfits := h.flushed hmanifest surroundings.disk
  unfold Session.finish at hresult ⊢
  rw [hmanifest] at hresult ⊢
  dsimp only at hresult ⊢
  unfold Session.flushed at hresult ⊢
  dsimp only at hresult ⊢
  split at hresult
  · cases hresult
  next hwritten =>
  have hread := hpath ▸ hread hwritten
  split at hresult
  · next hserver =>
    rw [if_pos hserver]
    obtain ⟨-, -, hartifacts⟩ := hfits.republish
      { surroundings with disk := (manifest.flush surroundings.disk).disk }
    rw [artifactPlaces_of_working hframe.placeOf] at hartifacts
    refine Manifest.readEntries_of_touches hartifacts ?_ hread
    rwa [hframe.placeOf]
  · next hserver =>
    rw [if_neg hserver]
    exact hread

/-- Outside a development server ending a build is writing the manifest. -/
theorem finish_of_flush (hmanifest : session.manifest = some manifest)
    (hserver : session.options.isDevServer = false)
    (hflush : (manifest.flush surroundings.disk).result = .ok ()) :
    (session.finish surroundings).result = .ok () ∧
      (session.finish surroundings).surroundings.disk =
        (manifest.flush surroundings.disk).disk := by
  unfold Session.finish
  rw [hmanifest]
  dsimp only
  unfold Session.flushed
  dsimp only
  rw [hflush, hserver]
  exact ⟨rfl, rfl⟩

/-- A session with nothing to write is closed without a change. -/
theorem close_of_clean (hmanifest : session.manifest = some manifest)
    (hclean : manifest.isDirty = false) (hpending : manifest.pending = none) :
    (session.close surroundings).surroundings = surroundings ∧
      (session.close surroundings).result = .ok () := by
  unfold Session.close
  rw [hmanifest]
  dsimp only
  rw [Manifest.close_of_clean hclean hpending]
  exact ⟨rfl, rfl⟩

end Session

end PersistedQueries
