import PersistedQueries.Proofs.Disk.Replacing
import PersistedQueries.Proofs.Manifest.Saving
import PersistedQueries.Proofs.Manifest.Timers
import PersistedQueries.Proofs.Session.Reporting

/-!
# Writes that are put off

A write that is put off waits for a timer, which is always the one that was started last. So a burst of
changes is written once, however its timers fire: nothing keeps a timer from firing after it has been
stopped, or from firing twice, but then it has no effect.

- `Watched`: a manifest in use, with the timers that have fired and the uses that have written.
- `Watched.use`, `Watched.Run`: what a use leaves, and any sequence of uses, with other changes of the
  disk in between.
- `Watched.Run.clocked`: in every run the manifest waits for the timer that is live.
- `Watched.fires`: what comes of this timer.
- `Watched.Run.due_le`, `Watched.Run.total_le`: what is still to be written is one write, whatever is
  done before.
- `firesIn`: a session does the same, with what follows a write as the listener.
- `Debounced`, `Watched.Run.debounced`: the protocol as a whole.
-/

namespace PersistedQueries.Manifest

variable {manifest : Manifest} {disk : Disk} {path : String} {debounce : Json}

/-! ## Uses -/

/-- A use leaves a manifest at its path. -/
theorem path_apply (store : Store) (use : Use) :
    (store.apply use).manifest.path = store.manifest.path := by
  have hwritten (manifest : Manifest) (disk : Disk) :
      (store.after (.flushed (manifest.flush disk))).manifest.path = manifest.path := by
    obtain ⟨timers, pending, hcancel⟩ := cancelPending_eq manifest
    unfold Store.after flush
    rw [hcancel]
  cases use with
  | record hash text => exact path_record store.manifest hash text
  | merge entries => exact path_recordEach store.manifest entries.entries
  | _ =>
    exact store.apply_of_not_recording
      (P := fun later => later.manifest.path = store.manifest.path) (fun _ _ => rfl)
      (fun _ _ => hwritten _ store.disk) rfl

/-- Somebody who is told about each write that has been done, and what this changes: the disk, and
whatever else there is. -/
abbrev Listener (σ : Type) : Type := Manifest → Disk → σ → Disk × σ

/-- A manifest in use, and what has come of its uses. -/
structure Watched (σ : Type) where
  /-- The manifest. -/
  manifest : Manifest
  /-- The disk. -/
  disk : Disk
  /-- What the listener changes besides the disk. -/
  heard : σ
  /-- What has been printed. -/
  output : Output := .none
  /-- The timers that have fired, whether or not that had an effect. -/
  fired : List Nat := []
  /-- The uses that have written the file, or have tried to. -/
  writes : List Use := []

namespace Watched

variable {σ : Type} {listen : Listener σ} {watched later mid : Watched σ} {uses burst rest : List Use}
  {number bound : Nat}

/-- What a write leaves. When it is done, the listener is told. -/
def wrote (listen : Listener σ) (watched : Watched σ) (use : Use) (written : Written) : Watched σ :=
  let writes := watched.writes ++ [use]
  match written.result with
  | .ok () =>
    let (disk, heard) := listen written.manifest written.disk watched.heard
    { watched with manifest := written.manifest, disk, heard, writes }
  | .error _ => { watched with manifest := written.manifest, disk := written.disk, writes }

/-- What an attempt to write leaves. -/
def after (listen : Listener σ) (watched : Watched σ) (use : Use) : Attempt → Watched σ
  | .idle manifest => { watched with manifest }
  | .flushed written => watched.wrote listen use written

/-- What a use leaves. When a timer fires, nobody waits for the result of the write, so a refusal is
printed. -/
def use (listen : Listener σ) (watched : Watched σ) : Use → Watched σ
  | .record hash text => { watched with manifest := (watched.manifest.record hash text).1 }
  | .merge entries => { watched with manifest := (watched.manifest.merge entries).1 }
  | .schedule => { watched with manifest := watched.manifest.schedule }
  | .fire number =>
    let attempt := watched.manifest.fire watched.disk number
    let later := watched.after listen (.fire number) attempt
    { later with
      fired := watched.fired ++ [number]
      output :=
        match attempt with
        | .flushed ⟨manifest, _, .error fault⟩ =>
          if fault.isRefusal then watched.output ++ manifest.delayedFailure fault
          else watched.output
        | _ => watched.output }
  | .flush => watched.after listen .flush (.flushed (watched.manifest.flush watched.disk))
  | .close => watched.after listen .close (watched.manifest.close watched.disk)

/-- A timer can fire once it has been started, also when it has been stopped or has fired already. -/
def Can (watched : Watched σ) (use : Use) : Prop :=
  ∀ number, use = .fire number → number < watched.manifest.timers.length

/-- A manifest that has just been opened. -/
def opened (disk : Disk) (path : String) (debounce : Json) (heard : σ) : Watched σ :=
  { manifest := (Manifest.opened disk path debounce).1, disk, heard }

/-- Some uses lead from one state to another. In between the disk may change in every way, so any
write may fail. -/
inductive Run (listen : Listener σ) (first : Watched σ) : List Use → Watched σ → Prop where
  | nothing : Run listen first [] first
  | use {uses : List Use} {watched : Watched σ} (h : Run listen first uses watched) (use : Use)
      (can : watched.Can use) : Run listen first (uses ++ [use]) (watched.use listen use)
  | meanwhile {uses : List Use} {watched : Watched σ} (h : Run listen first uses watched)
      (disk : Disk) : Run listen first uses { watched with disk }

/-- A timer has been started, and has neither been stopped nor fired. -/
def IsLive (watched : Watched σ) (number : Nat) : Prop :=
  watched.manifest.IsLive watched.fired number

/-! ## One use -/

/-- What a write leaves of the manifest. -/
theorem manifest_wrote (use : Use) (written : Written) :
    (watched.wrote listen use written).manifest = written.manifest ∧
      (watched.wrote listen use written).fired = watched.fired ∧
      (watched.wrote listen use written).writes = watched.writes ++ [use] := by
  unfold wrote
  dsimp only
  split
  · exact ⟨rfl, rfl, rfl⟩
  · exact ⟨rfl, rfl, rfl⟩

theorem manifest_after (use : Use) (attempt : Attempt) :
    (watched.after listen use attempt).manifest =
      (Store.after ⟨watched.manifest, watched.disk, none⟩ attempt).manifest := by
  cases attempt with
  | idle manifest => rfl
  | flushed written => exact (manifest_wrote use written).1

/-- The manifest is what the use makes of it, whoever listens. -/
theorem manifest_use (use : Use) : (watched.use listen use).manifest =
    (Store.apply ⟨watched.manifest, watched.disk, none⟩ use).manifest := by
  cases use with
  | record hash text => rfl
  | merge entries => rfl
  | schedule => rfl
  | fire number => exact manifest_after ..
  | flush => exact manifest_after ..
  | close => exact manifest_after ..

/-- A timer that no write waits for changes nothing. -/
theorem use_fire_of_ne (h : watched.manifest.pending ≠ some number) :
    watched.use listen (.fire number) =
      { watched with fired := watched.fired ++ [number] } := by
  unfold use
  dsimp only
  rw [fire_eq_idle h]
  rfl

/-- What comes of the timer that a write waits for. The file is written once, with all entries, and
then the listener is told once. When the system refuses the write, no file has changed, this is
printed, and nobody is told. A path that is none breaks the timer off: then nothing is printed
either. -/
inductive Fires (listen : Listener σ) (watched : Watched σ) (number : Nat) (later : Watched σ) :
    Prop where
  | done {made : Disk}
      (writeJson_eq : watched.disk.writeJson watched.manifest.path watched.manifest.toJson =
        (made, .ok ()))
      (readEntries_eq : readEntries made watched.manifest.path = .ok watched.manifest.entries)
      (later_eq : later =
        { watched with
          manifest := watched.manifest.settled
          disk := (listen watched.manifest.settled made watched.heard).1
          heard := (listen watched.manifest.settled made watched.heard).2
          fired := watched.fired ++ [number]
          writes := watched.writes ++ [.fire number] })
  | failed {made : Disk} {fault : Disk.Fault}
      (writeJson_eq : watched.disk.writeJson watched.manifest.path watched.manifest.toJson =
        (made, .error fault))
      (unwritten : Disk.WritesOnly (fun _ => False) watched.disk made)
      (later_eq : later =
        { watched with
          manifest := watched.manifest.settled
          disk := made
          output :=
            if fault.isRefusal then watched.output ++ watched.manifest.delayedFailure fault
            else watched.output
          fired := watched.fired ++ [number]
          writes := watched.writes ++ [.fire number] })

theorem Fires.leaves (h : Fires listen watched number later) :
    later.manifest = watched.manifest.settled ∧ later.fired = watched.fired ++ [number] ∧
      later.writes = watched.writes ++ [.fire number] := by
  cases h with
  | done _ _ heq =>
    rw [heq]
    exact ⟨rfl, rfl, rfl⟩
  | failed _ _ heq =>
    rw [heq]
    exact ⟨rfl, rfl, rfl⟩

theorem fires (h : watched.manifest.pending = some number) :
    Fires listen watched number (watched.use listen (.fire number)) := by
  have hfire := @fire_eq_flushed watched.manifest watched.disk number h
  generalize hwritten :
    watched.disk.writeJson watched.manifest.path watched.manifest.toJson = written at hfire
  obtain ⟨made, fault | _⟩ := written
  · have htouches := Disk.touches_replaceFile_error (congrArg Prod.snd hwritten)
    change Disk.Touches _ watched.disk (watched.disk.writeJson _ _).1 at htouches
    rw [hwritten] at htouches
    refine .failed hwritten htouches.toWritesOnly ?_
    unfold use
    dsimp only
    rw [hfire]
    rfl
  · refine .done hwritten (readEntries_writeJson hwritten) ?_
    unfold use
    dsimp only
    rw [hfire]
    rfl

/-- Every use keeps the timers in order, and all that have been started. -/
theorem clocked_use (h : Clocked watched.manifest watched.fired) (use : Use)
    (hcan : watched.Can use) :
    Clocked (watched.use listen use).manifest (watched.use listen use).fired ∧
      watched.manifest.timers.length ≤ (watched.use listen use).manifest.timers.length := by
  have hwritten (kept : Manifest) (hkept : Clocked kept watched.fired) (use : Use)
      (hlength : kept.timers.length = watched.manifest.timers.length) :
      let later := watched.wrote listen use (kept.flush watched.disk)
      Clocked later.manifest later.fired ∧
        watched.manifest.timers.length ≤ later.manifest.timers.length := by
    intro later
    obtain ⟨hmanifest, hfired, -⟩ :=
      @manifest_wrote _ listen watched use (kept.flush watched.disk)
    rw [hmanifest, hfired]
    refine ⟨hkept.flush watched.disk, ?_⟩
    show _ ≤ kept.cancelPending.timers.length
    rw [length_cancelPending, hlength]
  cases use with
  | record hash text =>
    obtain ⟨htimers, hpending⟩ := timers_record watched.manifest hash text
    exact ⟨h.congr htimers hpending, (congrArg List.length htimers).ge⟩
  | merge entries =>
    obtain ⟨htimers, hpending⟩ := timers_recordEach watched.manifest entries.entries
    exact ⟨h.congr htimers hpending, (congrArg List.length htimers).ge⟩
  | schedule =>
    refine ⟨h.schedule, ?_⟩
    show _ ≤ (watched.manifest.cancelPending.timers ++ [_]).length
    rw [List.length_append, length_cancelPending]
    omega
  | fire number =>
    have hstarted := hcan number rfl
    by_cases hwaits : watched.manifest.pending = some number
    · obtain ⟨hmanifest, hfired, -⟩ := (@fires _ listen _ _ hwaits).leaves
      rw [hmanifest, hfired]
      exact ⟨h.fires hstarted rfl (if_pos hwaits).symm, le_rfl⟩
    · rw [use_fire_of_ne hwaits]
      exact ⟨h.fires hstarted rfl (if_neg hwaits).symm, le_rfl⟩
  | flush => exact hwritten _ h .flush rfl
  | close =>
    have hidle := h.cancelPending
    have hlength := length_cancelPending watched.manifest
    unfold Watched.use Manifest.close
    dsimp only
    split
    · exact hwritten _ hidle .close hlength
    · exact ⟨hidle, hlength.ge⟩

/-! ## What is still to be written -/

/-- The use is that one of the first few timers fires. -/
def isEarly (bound : Nat) : Use → Bool
  | .fire number => decide (number < bound)
  | _ => false

/-- The number of writes that the first few timers have led to. -/
def writesOf (watched : Watched σ) (bound : Nat) : Nat := watched.writes.countP (isEarly bound)

/-- The number of writes that the first few timers have led to or may still lead to. -/
def due (watched : Watched σ) (bound : Nat) : Nat :=
  watched.writesOf bound + (watched.manifest.pending.any fun number => decide (number < bound)).toNat

theorem writesOf_le_due (watched : Watched σ) (bound : Nat) :
    watched.writesOf bound ≤ watched.due bound :=
  Nat.le_add_right ..

theorem due_le (watched : Watched σ) (bound : Nat) : watched.due bound ≤ watched.writesOf bound + 1 :=
  Nat.add_le_add_left (Bool.toNat_le _) _

/-- Stopping the pending timer or writing the file by another use leads to nothing more. -/
theorem due_of_pending_none {later : Watched σ} (hwrites : later.writesOf bound = watched.writesOf bound)
    (hpending : later.manifest.pending = none) : later.due bound ≤ watched.due bound := by
  unfold due
  rw [hwrites, hpending]
  exact Nat.add_le_add_left (Nat.zero_le _) _

theorem due_wrote (kept : Manifest) (use : Use) (huse : ∀ number, use ≠ .fire number) :
    (watched.wrote listen use (kept.flush watched.disk)).due bound ≤ watched.due bound := by
  obtain ⟨hmanifest, -, hwrites⟩ :=
    @manifest_wrote _ listen watched use (kept.flush watched.disk)
  refine due_of_pending_none ?_ ?_
  · unfold writesOf
    rw [hwrites, List.countP_append, List.countP_singleton]
    cases use with
    | fire number => exact absurd rfl (huse number)
    | _ => rfl
  · rw [hmanifest]
    exact pending_cancelPending kept

/-- No use adds to what timers lead to that have been started before. -/
theorem due_use_le (use : Use) (hbound : bound ≤ watched.manifest.timers.length) :
    (watched.use listen use).due bound ≤ watched.due bound := by
  cases use with
  | record hash text =>
    unfold due
    show watched.writesOf bound + _ ≤ _
    rw [show (watched.use listen (.record hash text)).manifest.pending = _ from
      (timers_record watched.manifest hash text).2]
  | merge entries =>
    unfold due
    show watched.writesOf bound + _ ≤ _
    rw [show (watched.use listen (.merge entries)).manifest.pending = _ from
      (timers_recordEach watched.manifest entries.entries).2]
  | schedule =>
    -- the timer that is started is none of the first ones
    unfold due
    show watched.writesOf bound +
      (decide (watched.manifest.cancelPending.timers.length < bound)).toNat ≤ _
    rw [length_cancelPending, decide_eq_false (Nat.not_lt.2 hbound)]
    exact Nat.le_add_right ..
  | fire number =>
    by_cases hwaits : watched.manifest.pending = some number
    · obtain ⟨hmanifest, -, hwrites⟩ := (@fires _ listen _ _ hwaits).leaves
      unfold due writesOf
      rw [hmanifest, hwrites, hwaits, List.countP_append, List.countP_singleton]
      -- what was still to be written has been written now
      show _ + (if decide (number < bound) = true then 1 else 0) + 0 ≤
        _ + (decide (number < bound)).toNat
      cases decide (number < bound) <;> exact le_rfl
    · rw [use_fire_of_ne hwaits]
      exact le_rfl
  | flush => exact due_wrote _ .flush nofun
  | close =>
    unfold Watched.use Manifest.close
    dsimp only
    split
    · exact due_wrote _ .close nofun
    · exact due_of_pending_none rfl (pending_cancelPending _)

/-- The number of writes so far, and the one that may still come when nothing else happens. -/
def total (watched : Watched σ) : Nat :=
  watched.writes.length + (watched.manifest.pending.isSome || watched.manifest.isDirty).toNat

theorem total_wrote (kept : Manifest) (use : Use)
    (hdue : watched.manifest.pending.isSome = true ∨ watched.manifest.isDirty = true) :
    (watched.wrote listen use (kept.flush watched.disk)).total = watched.total := by
  obtain ⟨hmanifest, -, hwrites⟩ :=
    @manifest_wrote _ listen watched use (kept.flush watched.disk)
  unfold total
  rw [hmanifest, hwrites, Bool.or_eq_true_iff.2 hdue, List.length_append, List.length_singleton,
    show (kept.flush watched.disk).manifest.pending = none from pending_cancelPending kept,
    show (kept.flush watched.disk).manifest.isDirty = false from rfl]
  rfl

/-- Timers that fire, and closing, write what is left to be written, and no more. -/
theorem total_use_le {use : Use} (huse : use = .close ∨ ∃ number, use = .fire number) :
    (watched.use listen use).total ≤ watched.total := by
  rcases huse with rfl | ⟨number, rfl⟩
  · unfold Watched.use Manifest.close
    dsimp only
    split
    · next hdue => exact (total_wrote _ _ (Bool.or_eq_true_iff.1 hdue)).le
    · next hclean =>
      rw [Bool.not_eq_true, Bool.or_eq_false_iff] at hclean
      obtain ⟨timers, pending, hcancel⟩ := cancelPending_eq watched.manifest
      unfold total
      show watched.writes.length + (watched.manifest.cancelPending.pending.isSome ||
        watched.manifest.cancelPending.isDirty).toNat ≤ _
      rw [pending_cancelPending, hcancel, hclean.2]
      exact Nat.le_add_right ..
  · by_cases hwaits : watched.manifest.pending = some number
    · obtain ⟨hmanifest, -, hwrites⟩ := (@fires _ listen _ _ hwaits).leaves
      unfold total
      rw [hmanifest, hwrites, hwaits, List.length_append]
      exact le_rfl
    · rw [use_fire_of_ne hwaits]
      exact le_rfl

/-! ## Runs -/

/-- Every run keeps the timers in order, and all that have been started. -/
theorem Run.clocked (hrun : Run listen watched uses later)
    (h : Clocked watched.manifest watched.fired) :
    Clocked later.manifest later.fired ∧
      watched.manifest.timers.length ≤ later.manifest.timers.length := by
  induction hrun with
  | nothing => exact ⟨h, le_rfl⟩
  | use _ use hcan ih =>
    obtain ⟨hclocked, hlength⟩ := ih
    obtain ⟨hnext, hmore⟩ := clocked_use hclocked use hcan
    exact ⟨hnext, hlength.trans hmore⟩
  | meanwhile _ _ ih => exact ih

/-- Timers that have been started lead to one write at most from then on, whatever follows. -/
theorem Run.due_le (hrun : Run listen watched uses later)
    (h : Clocked watched.manifest watched.fired)
    (hbound : bound ≤ watched.manifest.timers.length) : later.due bound ≤ watched.due bound := by
  induction hrun with
  | nothing => exact le_rfl
  | use hrun use _ ih => exact (due_use_le use (hbound.trans (hrun.clocked h).2)).trans ih
  | meanwhile _ _ ih => exact ih

/-- And so do all timers, when they only fire and the manifest is only closed. -/
theorem Run.total_le (hrun : Run listen watched uses later)
    (huses : ∀ use ∈ uses, use = .close ∨ ∃ number, use = .fire number) :
    later.total ≤ watched.total := by
  induction hrun with
  | nothing => exact le_rfl
  | use _ use _ ih =>
    have huse := huses use (List.mem_append_right _ (List.mem_singleton_self use))
    exact (total_use_le huse).trans (ih fun other hother =>
      huses other (List.mem_append_left _ hother))
  | meanwhile _ _ ih => exact ih huses

/-- A manifest that is used has recorded all that it was given, and stays at its path. -/
theorem Run.entries_eq (hrun : Run listen watched uses later) :
    later.manifest.entries = recorded uses watched.manifest.entries ∧
      later.manifest.path = watched.manifest.path := by
  induction hrun with
  | nothing => exact ⟨rfl, rfl⟩
  | use _ use _ ih =>
    obtain ⟨hentries, hpath⟩ := ih
    rw [manifest_use, entries_apply, path_apply, hentries, hpath]
    refine ⟨?_, rfl⟩
    unfold recorded
    rw [← List.foldl_append, ← List.flatMap_append]
  | meanwhile _ _ ih => exact ih

end Watched

/-! ## Sessions -/

section Sessions

variable {session : Session} {surroundings : Surroundings}

/-- Whatever follows a write that has been done, it is no failure to write the manifest. -/
theorem result_flushed_ne (session : Session) (surroundings : Surroundings) (manifest : Manifest)
    (made : Disk) (fault : Disk.Fault) :
    (session.flushed surroundings ⟨manifest, made, .ok ()⟩).result ≠ .error (.write fault) := by
  unfold Session.flushed
  dsimp only
  split
  · show (Session.republish _ _).result ≠ _
    cases hpublisher : session.publisher with
    | none =>
      unfold Session.republish Session.publish
      rintro ⟨⟩
    | some publisher => exact Session.result_republish_ne _ rfl fault
  · rintro ⟨⟩

/-- What a session makes of a timer that fires: nothing, unless its manifest waits for it; what
follows a write that has been done; and a message when the system has refused the write. -/
structure FiresIn (session : Session) (surroundings : Surroundings) (manifest : Manifest)
    (number : Nat) : Prop where
  idle : manifest.pending ≠ some number →
    session.fire surroundings number = session.unchanged surroundings ()
  done : ∀ {made}, manifest.pending = some number →
    surroundings.disk.writeJson manifest.path manifest.toJson = (made, .ok ()) →
    session.fire surroundings number = session.flushed surroundings ⟨manifest.settled, made, .ok ()⟩
  refused : ∀ {made fault}, manifest.pending = some number →
    surroundings.disk.writeJson manifest.path manifest.toJson = (made, .error fault) →
    fault.isRefusal = true →
    session.fire surroundings number =
      ⟨{ session with manifest := some manifest.settled }, { surroundings with disk := made },
        .ok (), .none ++ manifest.delayedFailure fault⟩

theorem firesIn (h : session.manifest = some manifest) (number : Nat) :
    FiresIn session surroundings manifest number := by
  have hkept : { session with manifest := some manifest } = session := by
    rw [← h]
  have hfire (hwaits : manifest.pending = some number) :=
    @fire_eq_flushed manifest surroundings.disk number hwaits
  refine ⟨?_, ?_, ?_⟩
  · intro hother
    unfold Session.fire
    rw [h]
    dsimp only
    rw [fire_eq_idle hother]
    dsimp only
    rw [hkept]
  · intro made hwaits hwritten
    unfold Session.fire
    rw [h]
    dsimp only
    rw [hfire hwaits, hwritten]
    dsimp only
    split
    · next hresult => exact absurd hresult (result_flushed_ne session surroundings _ made _)
    · rfl
  · intro made fault hwaits hwritten hrefused
    unfold Session.fire
    rw [h]
    dsimp only
    rw [hfire hwaits, hwritten]
    show (if fault.isRefusal = true then _ else _) = _
    rw [if_pos hrefused]
    rfl

end Sessions

/-! ## The protocol -/

/-- What holds of the timers of a manifest at any time. -/
structure Debounced {σ : Type} (listen : Listener σ) (watched : Watched σ) : Prop where
  /-- A timer that is live is the one that was started last, so there is one at most. -/
  last : ∀ number, watched.IsLive number → number + 1 = watched.manifest.timers.length
  /-- A write is waited for exactly when the timer that was started last is live. -/
  pending_iff : watched.manifest.pending.isSome = true ↔
    ∃ number, number + 1 = watched.manifest.timers.length ∧ watched.IsLive number
  /-- A timer has an effect exactly when it is live. -/
  idle_iff : ∀ number, watched.use listen (.fire number) =
    { watched with fired := watched.fired ++ [number] } ↔ ¬ watched.IsLive number
  /-- What this effect is. -/
  fires : ∀ number, watched.IsLive number →
    Watched.Fires listen watched number (watched.use listen (.fire number))

theorem Clocked.protocol {σ : Type} {listen : Listener σ} {watched : Watched σ}
    (h : Clocked watched.manifest watched.fired) : Debounced listen watched := by
  refine ⟨?_, ?_, ?_, ?_⟩
  · intro number hlive
    exact h.last number ((h.live_iff number).1 hlive)
  · rw [Option.isSome_iff_exists]
    constructor
    · rintro ⟨number, hwaits⟩
      exact ⟨number, h.last number hwaits, (h.live_iff number).2 hwaits⟩
    · rintro ⟨number, -, hlive⟩
      exact ⟨number, (h.live_iff number).1 hlive⟩
  · intro number
    have hlive : watched.IsLive number ↔ watched.manifest.pending = some number := h.live_iff number
    rw [hlive]
    constructor
    · intro hidle hwaits
      -- an effect shows in the list of the writes
      have hwrites := (@Watched.fires _ listen _ _ hwaits).leaves.2.2
      rw [hidle] at hwrites
      have hlength := congrArg List.length hwrites
      rw [List.length_append, List.length_singleton] at hlength
      change watched.writes.length = watched.writes.length + 1 at hlength
      omega
    · exact Watched.use_fire_of_ne
  · intro number hlive
    exact Watched.fires ((h.live_iff number).1 hlive)

namespace Watched

variable {σ : Type} {listen : Listener σ} {watched later mid : Watched σ} {uses burst rest : List Use}

/-- **Writes that are put off.** After any uses of a manifest, with any timers that fire in between and
any writes that fail: the timer that is waited for is the one that was started last, if this is live;
it alone has an effect, and this is one write of all that has been recorded and one call, or a
failure that is reported. A session whose manifest it is does just this. As long as nothing is
written, all timers together lead to one write at most, and so they do with closing. -/
theorem Run.debounced {heard : σ} (hrun : Run listen (opened disk path debounce heard) uses watched) :
    Debounced listen watched ∧
      watched.manifest.path = path ∧
      watched.manifest.entries = recorded uses (Manifest.opened disk path debounce).1.entries ∧
      (∀ (session : Session) (surroundings : Surroundings) (number : Nat),
        session.manifest = some watched.manifest →
        FiresIn session surroundings watched.manifest number) ∧
      ∀ {burst rest : List Use} {mid later : Watched σ},
        Run listen watched burst mid → mid.writes = watched.writes → Run listen mid rest later →
        later.writesOf mid.manifest.timers.length ≤
            watched.writesOf mid.manifest.timers.length + 1 ∧
          ((∀ use ∈ rest, use = .close ∨ ∃ number, use = .fire number) →
            later.writes.length ≤ watched.writes.length + 1) := by
  have hclocked := (hrun.clocked (clocked_opened disk path debounce)).1
  obtain ⟨hentries, hpath⟩ := hrun.entries_eq
  refine ⟨hclocked.protocol, ?_, hentries, fun session surroundings number h => firesIn h number, ?_⟩
  · rw [hpath]
    show (Manifest.opened disk path debounce).1.path = path
    exact (sound_opened disk path debounce).samePath
  intro burst rest mid later hburst hquiet hrest
  have hmid := (hburst.clocked hclocked).1
  constructor
  · have hsame : mid.writesOf mid.manifest.timers.length =
        watched.writesOf mid.manifest.timers.length := by
      unfold writesOf
      rw [hquiet]
    calc later.writesOf mid.manifest.timers.length
      _ ≤ later.due mid.manifest.timers.length := writesOf_le_due later _
      _ ≤ mid.due mid.manifest.timers.length := hrest.due_le hmid le_rfl
      _ ≤ mid.writesOf mid.manifest.timers.length + 1 := Watched.due_le mid _
      _ = watched.writesOf mid.manifest.timers.length + 1 := by rw [hsame]
  · intro huses
    calc later.writes.length
      _ ≤ later.total := Nat.le_add_right ..
      _ ≤ mid.total := hrest.total_le huses
      _ ≤ mid.writes.length + 1 := Nat.add_le_add_left (Bool.toNat_le _) _
      _ = watched.writes.length + 1 := by rw [hquiet]

/-- Two times put off, and both timers fire: the first has been stopped, and the second writes once. -/
theorem debounced_twice :
    let listen : Listener Nat := fun _ disk calls => (disk, calls + 1)
    let first := opened (Disk.withDirectory ['w']) "m.json" .null 0
    let recording := first.use listen (.record "h" "{ a }")
    let waiting := (recording.use listen .schedule).use listen .schedule
    let later := (waiting.use listen (.fire 0)).use listen (.fire 1)
    Debounced listen recording ∧ Run listen recording [.schedule, .schedule] waiting ∧
      Run listen waiting [.fire 0, .fire 1] later ∧ later.heard = 1 ∧
      later.writes.length ≤ recording.writes.length + 1 := by
  intro listen first recording waiting later
  have hrun : Run listen first [.record "h" "{ a }"] recording := .use .nothing _ nofun
  have hstarted : waiting.manifest.timers.length = 2 := by decide +kernel
  have hwaiting : Run listen recording [.schedule, .schedule] waiting :=
    .use (.use .nothing .schedule nofun) .schedule nofun
  have hlater : Run listen waiting [.fire 0, .fire 1] later := by
    refine .use (.use .nothing (.fire 0) ?_) (.fire 1) ?_
    · rintro number ⟨⟩
      decide +kernel
    · rintro number ⟨⟩
      decide +kernel
  have hheard : later.heard = 1 := by decide +kernel
  obtain ⟨hdebounced, -, -, -, hone⟩ := Run.debounced hrun
  refine ⟨hdebounced, hwaiting, hlater, hheard, (hone hwaiting rfl hlater).2 ?_⟩
  intro use huse
  rcases List.mem_pair.1 huse with rfl | rfl
  · exact .inr ⟨0, rfl⟩
  · exact .inr ⟨1, rfl⟩

end Watched

end PersistedQueries.Manifest
