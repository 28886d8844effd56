import PersistedQueries.Manifest.Basic

/-!
# The timer that a write waits for

Putting a write off starts a timer, and stops the one that was started for it before. A timer that has
been stopped may fire all the same, and one that has fired may fire again, so a manifest keeps in mind
which timer it waits for. It is always the only one that has neither been stopped nor fired, and it was
started last.

- `IsLive`: a timer that has been started and has neither been stopped nor fired.
- `Clocked`: the manifest waits for the timer that is live, which is the one started last.
- `Clocked.cancelPending`, `Clocked.schedule`, `Clocked.fires`, `Clocked.flush`: what stops, starts and
  uses up timers keeps this.
- `fire_eq_idle`, `fire_eq_flushed`: what comes of a timer that fires.
-/

namespace PersistedQueries.Manifest

variable {manifest : Manifest} {disk : Disk} {fired : List Nat}

/-! ## Timers and what they wait for -/

theorem timers_record (manifest : Manifest) (hash text : String) :
    (manifest.record hash text).1.timers = manifest.timers ∧
      (manifest.record hash text).1.pending = manifest.pending := by
  unfold record
  split
  · exact ⟨rfl, rfl⟩
  · exact ⟨rfl, rfl⟩

theorem timers_recordEach (manifest : Manifest) (entries : List (String × String)) :
    (manifest.recordEach entries).1.timers = manifest.timers ∧
      (manifest.recordEach entries).1.pending = manifest.pending := by
  induction entries generalizing manifest with
  | nil => exact ⟨rfl, rfl⟩
  | cons entry entries ih =>
    obtain ⟨htimers, hpending⟩ := timers_record manifest entry.1 entry.2
    obtain ⟨htimers', hpending'⟩ := ih (manifest.record entry.1 entry.2).1
    exact ⟨htimers'.trans htimers, hpending'.trans hpending⟩

theorem getElem?_cancelAt (timers : List Timer) (number other : Nat) :
    (cancelAt timers number)[other]? = timers[other]?.map fun timer =>
      if number = other then { timer with isCancelled := true } else timer :=
  List.getElem?_modify ..

theorem pending_cancelPending (manifest : Manifest) : manifest.cancelPending.pending = none := by
  unfold cancelPending
  split
  · assumption
  · rfl

theorem length_cancelPending (manifest : Manifest) :
    manifest.cancelPending.timers.length = manifest.timers.length := by
  unfold cancelPending
  split
  · rfl
  · exact List.length_modify ..

/-- A timer has been started, and has neither been stopped nor fired. -/
def IsLive (manifest : Manifest) (fired : List Nat) (number : Nat) : Prop :=
  (∃ timer, manifest.timers[number]? = some timer ∧ timer.isCancelled = false) ∧ number ∉ fired

/-- The timer that a write waits for is the one that was started last, and it is live. No other timer
is. -/
structure Clocked (manifest : Manifest) (fired : List Nat) : Prop where
  started : ∀ number ∈ fired, number < manifest.timers.length
  last : ∀ number, manifest.pending = some number → number + 1 = manifest.timers.length
  live_iff : ∀ number, manifest.IsLive fired number ↔ manifest.pending = some number

namespace Clocked

/-- Only the timers matter. -/
theorem congr {later : Manifest} (h : Clocked manifest fired)
    (htimers : later.timers = manifest.timers) (hpending : later.pending = manifest.pending) :
    Clocked later fired := by
  refine ⟨?_, ?_, ?_⟩
  · rw [htimers]
    exact h.started
  · rw [htimers, hpending]
    exact h.last
  · unfold IsLive
    rw [htimers, hpending]
    exact h.live_iff

/-- Stopping the pending timer leaves none that is live. -/
theorem cancelPending (h : Clocked manifest fired) : Clocked manifest.cancelPending fired := by
  have hlength := length_cancelPending manifest
  have hpending := pending_cancelPending manifest
  refine ⟨?_, ?_, ?_⟩
  · rw [hlength]
    exact h.started
  · rw [hpending]
    intro number hnone
    cases hnone
  intro number
  rw [hpending]
  constructor
  · rintro ⟨⟨timer, hget, hrunning⟩, hfired⟩
    exfalso
    unfold Manifest.cancelPending at hget
    split at hget
    · next hidle =>
      have hlive := (h.live_iff number).1 ⟨⟨timer, hget, hrunning⟩, hfired⟩
      rw [hidle] at hlive
      cases hlive
    next waiting hwaiting =>
    -- the timer that the write waited for has been stopped, and no other one was live before
    change (cancelAt manifest.timers waiting)[number]? = some timer at hget
    rw [getElem?_cancelAt] at hget
    obtain ⟨old, hold, rfl⟩ := Option.map_eq_some_iff.1 hget
    by_cases hsame : waiting = number
    · rw [if_pos hsame] at hrunning
      cases hrunning
    · rw [if_neg hsame] at hrunning
      have hlive := (h.live_iff number).1 ⟨⟨old, hold, hrunning⟩, hfired⟩
      rw [hwaiting] at hlive
      exact hsame (Option.some.inj hlive)
  · intro hnone
    cases hnone

/-- A timer that is started is the one that the write waits for. -/
theorem schedule (h : Clocked manifest fired) : Clocked manifest.schedule fired := by
  have hidle := h.cancelPending
  have hpending := pending_cancelPending manifest
  unfold Manifest.schedule
  generalize manifest.cancelPending = idle at hidle hpending
  refine ⟨?_, ?_, ?_⟩
  · intro number hnumber
    have hstarted := hidle.started number hnumber
    show number < (idle.timers ++ [_]).length
    rw [List.length_append, List.length_singleton]
    omega
  · rintro number ⟨⟩
    show idle.timers.length + 1 = (idle.timers ++ [_]).length
    rw [List.length_append, List.length_singleton]
  intro number
  show ((∃ timer, (idle.timers ++ [_])[number]? = some timer ∧ timer.isCancelled = false) ∧
    number ∉ fired) ↔ some idle.timers.length = some number
  constructor
  · rintro ⟨⟨timer, hget, hrunning⟩, hfired⟩
    by_cases hold : number < idle.timers.length
    · rw [List.getElem?_append_left hold] at hget
      have hlive := (hidle.live_iff number).1 ⟨⟨timer, hget, hrunning⟩, hfired⟩
      rw [hpending] at hlive
      cases hlive
    · obtain ⟨hnumber, -⟩ := List.getElem?_eq_some_iff.1 hget
      rw [List.length_append, List.length_singleton] at hnumber
      congr 1
      omega
  · rintro ⟨⟩
    refine ⟨⟨_, List.getElem?_concat_length, rfl⟩, ?_⟩
    intro hnumber
    exact Nat.lt_irrefl _ (hidle.started _ hnumber)

/-- A timer that has fired is not waited for any longer. -/
theorem fires (h : Clocked manifest fired) {number : Nat}
    (hstarted : number < manifest.timers.length) {later : Manifest}
    (htimers : later.timers = manifest.timers)
    (hpending : later.pending = if manifest.pending = some number then none else manifest.pending) :
    Clocked later (fired ++ [number]) := by
  refine ⟨?_, ?_, ?_⟩
  · intro other hother
    rw [htimers]
    rcases List.mem_append.1 hother with hother | hother
    · exact h.started other hother
    · rwa [List.mem_singleton.1 hother]
  · intro other hother
    rw [htimers]
    rw [hpending] at hother
    split at hother
    · cases hother
    · exact h.last other hother
  intro other
  have hlive := h.live_iff other
  unfold IsLive at hlive ⊢
  rw [htimers, hpending, List.mem_append, List.mem_singleton, not_or, ← and_assoc, hlive]
  constructor
  · rintro ⟨hwaits, hother⟩
    rw [if_neg, hwaits]
    rw [hwaits]
    intro hsame
    exact hother (Option.some.inj hsame)
  · intro hwaits
    split at hwaits
    · cases hwaits
    · next hnot =>
      refine ⟨hwaits, ?_⟩
      rintro rfl
      exact hnot hwaits

theorem flush (h : Clocked manifest fired) (disk : Disk) :
    Clocked (manifest.flush disk).manifest fired :=
  h.cancelPending.congr rfl rfl

end Clocked

/-- A manifest that has just been opened waits for no timer, and none has been started. -/
theorem clocked_opened (disk : Disk) (path : String) (debounce : Json) :
    Clocked (opened disk path debounce).1 [] := by
  have hnew : (opened disk path debounce).1.timers = [] ∧
      (opened disk path debounce).1.pending = none := by
    unfold opened load
    dsimp only
    split
    · exact ⟨rfl, rfl⟩
    · exact ⟨rfl, rfl⟩
  obtain ⟨htimers, hpending⟩ := hnew
  refine ⟨?_, ?_, ?_⟩
  · intro number hnone
    cases hnone
  · rw [hpending]
    intro number hnone
    cases hnone
  intro number
  unfold IsLive
  rw [htimers, hpending]
  constructor
  · rintro ⟨⟨timer, hget, -⟩, -⟩
    cases hget
  · intro hnone
    cases hnone

/-! ## Timers that fire -/

/-- The manifest once the timer that it waits for has fired: it waits for none, and has nothing left to
write. -/
def settled (manifest : Manifest) : Manifest :=
  { manifest with pending := none, isDirty := false }

theorem fire_eq_idle {number : Nat} (h : manifest.pending ≠ some number) :
    manifest.fire disk number = .idle manifest := by
  unfold fire
  rw [if_neg h]

theorem fire_eq_flushed {number : Nat} (h : manifest.pending = some number) :
    manifest.fire disk number =
      let written := disk.writeJson manifest.path manifest.toJson
      .flushed ⟨manifest.settled, written.1, written.2⟩ := by
  unfold fire
  rw [if_pos h]
  rfl

end PersistedQueries.Manifest
