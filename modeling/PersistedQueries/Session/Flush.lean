import PersistedQueries.Session.Basic

/-!
# Writing the manifest

The manifest is written at the end of a build, when the session is closed with something left to
write, and in a development server when a timer fires. A development server publishes the
artifacts of the schema after each write, since no further build starts there; that they cannot be
published does not undo the write.

- `republish`: the artifacts once more, with failures of files and endpoints only printed.
- `flushed`: what follows a write.
- `finish`, `close`, `fire`: the three occasions.
-/

namespace PersistedQueries.Session

/-- Publish the artifacts once more. A failure of a file or an endpoint is printed. -/
def republish (session : Session) (surroundings : Surroundings) : Step Unit :=
  let step := session.publish surroundings
  match step.result with
  | .ok _ => { step with result := .ok () }
  | .error (.publishing fault) =>
    if fault.isFetchFault || fault.isOutside then
      { step with
        result := .ok ()
        output := step.output ++ .error ("Failed to publish introspection: " ++ fault.message) }
    else { step with result := .error (.publishing fault) }
  | .error fault => { step with result := .error fault }

/-- Take over what writing the manifest leaves, and do what follows. -/
def flushed (session : Session) (surroundings : Surroundings) (written : Manifest.Written) :
    Step Unit :=
  let session := { session with manifest := some written.manifest }
  let surroundings := { surroundings with disk := written.disk }
  match written.result with
  | .error fault => ⟨session, surroundings, .error (.write fault), .none⟩
  | .ok () =>
    let line := Output.onlyIf session.options.isDebug
      (.manifestWritten written.manifest.path written.manifest.entries.size)
    if session.options.isDevServer then
      let step := session.republish surroundings
      { step with output := line ++ step.output }
    else ⟨session, surroundings, .ok (), line⟩

/-- End a build: write the manifest. -/
def finish (session : Session) (surroundings : Surroundings) : Step Unit :=
  match session.manifest with
  | none => session.unchanged surroundings ()
  | some manifest => session.flushed surroundings (manifest.flush surroundings.disk)

/-- Close the session: write what has not been written. -/
def close (session : Session) (surroundings : Surroundings) : Step Unit :=
  match session.manifest with
  | none => session.unchanged surroundings ()
  | some manifest =>
    match manifest.close surroundings.disk with
    | .idle manifest => { session with manifest := some manifest }.unchanged surroundings ()
    | .flushed written => session.flushed surroundings written

/-- A timer of the manifest fires. That the manifest cannot be written is printed. -/
def fire (session : Session) (surroundings : Surroundings) (timer : Nat) : Step Unit :=
  match session.manifest with
  | none => session.unchanged surroundings ()
  | some manifest =>
    match manifest.fire surroundings.disk timer with
    | .idle manifest => { session with manifest := some manifest }.unchanged surroundings ()
    | .flushed written =>
      let step := session.flushed surroundings written
      match step.result with
      | .error (.write fault) =>
        if fault.isRefusal then
          { step with
            result := .ok ()
            output := step.output ++ written.manifest.delayedFailure fault }
        else step
      | _ => step

end PersistedQueries.Session
