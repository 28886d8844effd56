import PersistedQueries.Proofs.Introspection.Failures
import PersistedQueries.Proofs.Session.Steps

/-!
# Writing the manifest when artifacts cannot be published

A development server publishes the artifacts of its schema each time it has written the manifest.
The manifest is on the disk by then, whatever comes of publishing; but only what is always reported
leaves the step in order, and everything else breaks it off.

- `Occasion`: when a session writes its manifest.
- `Flushing`: a development server that is about to write it, and can.
- `Flushing.step_eq`: what such a step does.
- `Flushing.readEntries_step`: the manifest is on the disk after it.
- `Flushing.step_of_error`: how it ends when publishing fails.
-/

namespace PersistedQueries.Session

open Introspection (Publisher)
open Introspection.Publishing (Reporting)

variable {session : Session} {surroundings : Surroundings} {publisher : Publisher}
  {fault : Introspection.Publishing.Fault}

/-! ## Publishing once more -/

/-- The words in which a failure is reported. -/
def failureText (fault : Introspection.Publishing.Fault) : String :=
  "Failed to publish introspection: " ++ fault.message

theorem result_publish (hpublisher : session.publisher = some publisher) :
    (session.publish surroundings).result =
      ((publisher.publish surroundings).result.mapError .publishing).map some := by
  unfold Session.publish
  rw [hpublisher]

/-- Publishing once more ends with what publishing ends with, but for a failure that is always
reported. -/
theorem republish_of_error (session : Session) (hpublisher : session.publisher = some publisher)
    (h : (publisher.publish surroundings).result = .error fault) :
    (fault.reporting = .always →
      (session.republish surroundings).result = .ok () ∧
        ∃ lines, (session.republish surroundings).output = lines ++ .error (failureText fault)) ∧
      (fault.reporting ≠ .always →
        (session.republish surroundings).result = .error (.publishing fault)) := by
  have hresult : (session.publish surroundings).result = .error (.publishing fault) := by
    rw [result_publish hpublisher, h]
    rfl
  unfold Session.republish
  dsimp only
  rw [hresult]
  dsimp only
  split
  · next hcaught =>
    exact ⟨fun _ => ⟨rfl, _, rfl⟩, fun hother => absurd (if_pos hcaught) hother⟩
  · next hmissed =>
    refine ⟨fun halways => ?_, fun _ => rfl⟩
    unfold Introspection.Publishing.Fault.reporting at halways
    rw [if_neg hmissed] at halways
    split at halways <;> cases halways

/-- Publishing once more writes no manifest. -/
theorem result_republish_ne (session : Session) (hpublisher : session.publisher = some publisher)
    (fault : Disk.Fault) :
    (session.republish surroundings).result ≠ .error (.write fault) := by
  cases hresult : (publisher.publish surroundings).result with
  | ok hash =>
    unfold Session.republish
    dsimp only
    rw [result_publish hpublisher, hresult]
    rintro ⟨⟩
  | error cause =>
    obtain ⟨hcaught, hmissed⟩ := republish_of_error session hpublisher hresult
    by_cases halways : cause.reporting = .always
    · rw [(hcaught halways).1]
      rintro ⟨⟩
    · rw [hmissed halways]
      rintro ⟨⟩

/-! ## Occasions -/

/-- When a session writes its manifest. -/
inductive Occasion where
  /-- A timer fires. -/
  | fire (timer : Nat)
  /-- A build ends. -/
  | finish
  /-- The session is closed. -/
  | close

namespace Occasion

/-- What a session does on an occasion. -/
def step (session : Session) (surroundings : Surroundings) : Occasion → Step Unit
  | fire timer => session.fire surroundings timer
  | finish => session.finish surroundings
  | close => session.close surroundings

/-- The manifest has to be written: a timer is the one that a write waits for, and a session that is
closed has something left to write. -/
def IsDue (manifest : Manifest) : Occasion → Prop
  | fire timer => manifest.pending = some timer
  | finish => True
  | close => manifest.pending.isSome = true ∨ manifest.isDirty = true

end Occasion

/-- A development server with a schema that is about to write its manifest, and can. -/
structure Flushing (session : Session) (surroundings : Surroundings) (occasion : Occasion) where
  /-- The manifest. -/
  manifest : Manifest
  /-- The publisher of the artifacts. -/
  publisher : Publisher
  /-- The disk once the manifest is written. -/
  written : Disk
  isServer : session.options.isDevServer = true
  manifest_eq : session.manifest = some manifest
  publisher_eq : session.publisher = some publisher
  isDue : occasion.IsDue manifest
  writeJson_eq : surroundings.disk.writeJson manifest.path manifest.toJson = (written, .ok ())
  apart : ∀ path ∈ Introspection.Publishing.paths publisher.config,
    surroundings.disk.placeOf path ≠ surroundings.disk.placeOf manifest.path

namespace Flushing

variable {occasion : Occasion} (flushing : Flushing session surroundings occasion)

/-- The surroundings in which the artifacts are published. -/
def between : Surroundings := { surroundings with disk := flushing.written }

theorem flush_of_eq {kept : Manifest} (hpath : kept.path = flushing.manifest.path)
    (hentries : kept.entries = flushing.manifest.entries) :
    (kept.flush surroundings.disk).disk = flushing.written ∧
      (kept.flush surroundings.disk).result = .ok () := by
  have hjson : kept.toJson = flushing.manifest.toJson := by
    unfold Manifest.toJson
    rw [hentries]
  unfold Manifest.flush
  dsimp only
  rw [hpath, hjson, flushing.writeJson_eq]
  exact ⟨rfl, rfl⟩

/-- What is written is followed by publishing the artifacts once more. -/
theorem flushed_eq (kept : Manifest) (hpath : kept.path = flushing.manifest.path)
    (hentries : kept.entries = flushing.manifest.entries) :
    ∃ later line, session.flushed surroundings (kept.flush surroundings.disk) =
      let step := { session with manifest := some later }.republish flushing.between
      { step with output := line ++ step.output } := by
  obtain ⟨hdisk, hresult⟩ := flushing.flush_of_eq hpath hentries
  unfold Session.flushed between
  dsimp only
  rw [hresult, hdisk]
  dsimp only
  rw [if_pos flushing.isServer]
  exact ⟨_, _, rfl⟩

/-- What a session does when it writes its manifest: the artifacts are published once more. -/
theorem step_eq : ∃ later line, occasion.step session surroundings =
    let step := { session with manifest := some later }.republish flushing.between
    { step with output := line ++ step.output } := by
  have hmanifest := flushing.manifest_eq
  cases occasion with
  | finish =>
    unfold Occasion.step Session.finish
    rw [hmanifest]
    exact flushing.flushed_eq flushing.manifest rfl rfl
  | close =>
    obtain ⟨timers, pending, hcancel⟩ := Manifest.cancelPending_eq flushing.manifest
    unfold Occasion.step Session.close Manifest.close
    rw [hmanifest]
    dsimp only
    rw [if_pos (Bool.or_eq_true_iff.2 flushing.isDue)]
    exact flushing.flushed_eq _ (by rw [hcancel]) (by rw [hcancel])
  | fire timer =>
    obtain ⟨later, line, heq⟩ := flushing.flushed_eq
      { flushing.manifest with pending := none } rfl rfl
    refine ⟨later, line, ?_⟩
    unfold Occasion.step Session.fire Manifest.fire
    rw [hmanifest]
    dsimp only
    rw [if_pos (show flushing.manifest.pending = some timer from flushing.isDue)]
    dsimp only
    -- the manifest is written, so no failure of writing it is left to report
    split
    · next hwrite =>
      rw [heq] at hwrite
      exact absurd hwrite
        (result_republish_ne { session with manifest := some later } flushing.publisher_eq _)
    · exact heq

/-! ## After the manifest is written -/

theorem placeOf_between (path : String) :
    flushing.between.disk.placeOf path = surroundings.disk.placeOf path := by
  obtain ⟨-, -, -, hframe, -⟩ := flushing.manifest.flush_changes surroundings.disk
  rw [← hframe.placeOf, (flushing.flush_of_eq rfl rfl).1]
  rfl

/-- The manifest is on the disk, whatever comes of publishing the artifacts. -/
theorem readEntries_step :
    Manifest.readEntries (occasion.step session surroundings).surroundings.disk
      flushing.manifest.path = .ok flushing.manifest.entries := by
  obtain ⟨-, -, -, -, hread⟩ := flushing.manifest.flush_changes surroundings.disk
  obtain ⟨hdisk, hresult⟩ := flushing.flush_of_eq rfl rfl
  have hread := hread hresult
  rw [hdisk] at hread
  obtain ⟨later, line, heq⟩ := flushing.step_eq
  rw [heq]
  dsimp only
  rw [surroundings_republish]
  unfold Session.publish
  dsimp only
  rw [flushing.publisher_eq]
  refine Manifest.readEntries_of_touches
    (flushing.publisher.publish_changes flushing.between).2 ?_ hread
  intro hplace
  obtain ⟨path, hpath, heq⟩ := List.mem_map.1 hplace
  rw [flushing.placeOf_between] at heq
  exact flushing.apart path hpath (heq.trans (flushing.placeOf_between _))

/-- The step is in order when the failure is always reported, and broken off otherwise. -/
theorem step_of_error (h : (flushing.publisher.publish flushing.between).result = .error fault) :
    (fault.reporting = .always →
      (occasion.step session surroundings).result = .ok () ∧
        ∃ lines, (occasion.step session surroundings).output.err =
          lines ++ (Output.error (failureText fault)).err) ∧
      (fault.reporting ≠ .always →
        (occasion.step session surroundings).result = .error (.publishing fault)) := by
  obtain ⟨later, line, heq⟩ := flushing.step_eq
  obtain ⟨hcaught, hmissed⟩ := republish_of_error { session with manifest := some later }
    flushing.publisher_eq h
  rw [heq]
  refine ⟨fun halways => ?_, hmissed⟩
  obtain ⟨hresult, lines, houtput⟩ := hcaught halways
  refine ⟨hresult, line.err ++ lines.err, ?_⟩
  dsimp only
  rw [houtput, String.append_assoc]
  rfl

end Flushing

end PersistedQueries.Session
