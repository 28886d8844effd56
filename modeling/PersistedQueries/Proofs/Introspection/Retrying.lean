import Mathlib.Data.List.Basic
import PersistedQueries.Proofs.Introspection.Fetching

/-!
# How often an endpoint is asked

An endpoint that cannot be reached is asked again, and each further request comes after a pause.
How many requests there are is decided by the outcomes that they would have: the last one is the
first whose outcome is no failed connection, or else the last that is asked for. A request more or
less, or a pause in front of the first request or behind the last one, would show in what has been
done.

- `Network.after`: what has been done after some requests, with a pause between any two.
- `Network.sent`: how many requests are made.
- `Network.send_eq`: sending makes so many requests, and comes to the outcome of the last one.
- `attempts?`: how many requests a number of attempts allows.
- `fetch_attempts`: what has been done when an endpoint has been asked, and what comes of it.
-/

namespace PersistedQueries.Introspection

namespace Network

variable {network : Network} {request : Request} {delay : Json} {more : Nat}
  {failed rest : List Outcome} {outcome : Outcome}

/-! ## Requests and pauses -/

/-- What has been done after some requests: each has taken an outcome, and there is a pause between
any two of them. -/
def after (network : Network) (request : Request) (delay : Json) (sent : Nat) : Network where
  outcomes := network.outcomes.drop sent
  requests := network.requests ++ List.replicate sent request
  pauses := network.pauses ++ List.replicate (sent - 1) delay

/-- The outcome of a request that comes behind some others. -/
def outcomeAt (network : Network) (earlier : Nat) : Outcome :=
  network.outcomes.getD earlier (.unreachable "no more responses")

/-- How many requests are made when up to `more` may follow the first one. -/
def sent (network : Network) (more : Nat) : Nat :=
  min ((network.outcomes.findIdx? Outcome.isFinal).getD more) more + 1

theorem post_eq (network : Network) (request : Request) (delay : Json) :
    network.post request = (network.outcomeAt 0, network.after request delay 1) := by
  unfold post outcomeAt after
  cases network.outcomes with
  | nil => simp
  | cons outcome rest => simp

/-- A request, a pause, and some more requests. -/
theorem after_pause (network : Network) (request : Request) (delay : Json) (sent : Nat) :
    ((network.after request delay 1).pause delay).after request delay (sent + 1) =
      network.after request delay (sent + 2) := by
  have houtcomes : (network.outcomes.drop 1).drop (sent + 1) = network.outcomes.drop (sent + 2) := by
    rw [List.drop_drop, Nat.add_comm]
  have hrequests : network.requests ++ List.replicate 1 request ++ List.replicate (sent + 1) request =
      network.requests ++ List.replicate (sent + 2) request := by
    rw [List.append_assoc, List.replicate_append_replicate, Nat.add_comm]
  have hpauses : network.pauses ++ List.replicate 0 delay ++ [delay] ++ List.replicate sent delay =
      network.pauses ++ List.replicate (sent + 1) delay := by
    simp [List.replicate_succ]
  unfold pause after
  exact congr (congrArg₂ Network.mk houtcomes hrequests) hpauses

theorem outcomeAt_pause (network : Network) (request : Request) (delay : Json) (earlier : Nat) :
    ((network.after request delay 1).pause delay).outcomeAt earlier =
      network.outcomeAt (earlier + 1) := by
  unfold outcomeAt pause after
  simp [List.getD_eq_getElem?_getD]

theorem sent_of_final (h : (network.outcomeAt 0).isFinal = true) : network.sent more = 1 := by
  unfold outcomeAt at h
  unfold sent
  cases houtcomes : network.outcomes with
  | nil =>
    rw [houtcomes] at h
    cases h
  | cons outcome rest =>
    rw [houtcomes, List.getD_cons_zero] at h
    simp [List.findIdx?_cons, h]

theorem sent_of_not_final (h : (network.outcomeAt 0).isFinal = false) :
    network.sent (more + 1) = ((network.after request delay 1).pause delay).sent more + 1 := by
  unfold outcomeAt at h
  unfold sent pause after
  cases houtcomes : network.outcomes with
  | nil => simp
  | cons outcome rest =>
    rw [houtcomes, List.getD_cons_zero] at h
    rw [List.findIdx?_cons, h, List.drop_one, List.tail_cons]
    cases rest.findIdx? Outcome.isFinal with
    | none => simp
    | some index => simp

/-- Sending stops at the first outcome that is final, or with the last request that may be made. -/
theorem send_eq (network : Network) (request : Request) (delay : Json) (more : Nat) :
    network.send request delay more =
      (network.outcomeAt (network.sent more - 1),
        network.after request delay (network.sent more)) := by
  induction more generalizing network with
  | zero =>
    have hsent : network.sent 0 = 1 := by simp [sent]
    rw [send, hsent]
    exact post_eq network request delay
  | succ more ih =>
    rw [send, post_eq network request delay]
    cases hfirst : network.outcomeAt 0 with
    | unreachable message =>
      have hsent : network.sent (more + 1) =
          ((network.after request delay 1).pause delay).sent more + 1 :=
        sent_of_not_final (by rw [hfirst]; rfl)
      dsimp only
      rw [ih, hsent, outcomeAt_pause]
      exact congrArg (Prod.mk _) (after_pause network request delay _)
    | answered status body =>
      rw [sent_of_final (by rw [hfirst]; rfl)]
      exact congrArg (Prod.mk · _) hfirst.symm
    | rejected kind message =>
      rw [sent_of_final (by rw [hfirst]; rfl)]
      exact congrArg (Prod.mk · _) hfirst.symm

/-! ## The last request -/

theorem sent_le (network : Network) (more : Nat) : network.sent more ≤ more + 1 :=
  Nat.succ_le_succ (Nat.min_le_right _ _)

/-- The first outcome that is final is that of the last request. -/
theorem sent_of_outcomes (houtcomes : network.outcomes = failed ++ outcome :: rest)
    (hfew : failed.length ≤ more) (hfailed : ∀ other ∈ failed, other.isFinal = false)
    (hfinal : outcome.isFinal = true) :
    network.sent more = failed.length + 1 ∧ network.outcomeAt failed.length = outcome := by
  have hindex : network.outcomes.findIdx? Outcome.isFinal = some failed.length := by
    rw [houtcomes, List.findIdx?_append, List.findIdx?_eq_none_iff.2 hfailed, List.findIdx?_cons,
      hfinal]
    simp
  constructor
  · rw [sent, hindex, Option.getD_some, Nat.min_eq_left hfew]
  · rw [outcomeAt, houtcomes, List.getD_eq_getElem?_getD, List.getElem?_append_right le_rfl,
      Nat.sub_self, List.getElem?_cons_zero, Option.getD_some]

/-- When no outcome is final of those that there may be, all the requests are made. -/
theorem sent_of_failed (houtcomes : network.outcomes = failed ++ rest)
    (hmany : failed.length = more + 1) (hfailed : ∀ other ∈ failed, other.isFinal = false) :
    network.sent more = more + 1 ∧ failed.getLast? = some (network.outcomeAt more) := by
  constructor
  · unfold sent
    rw [houtcomes, List.findIdx?_append, List.findIdx?_eq_none_iff.2 hfailed, hmany]
    cases rest.findIdx? Outcome.isFinal with
    | none => simp
    | some index => simp; omega
  · have hmore : more < failed.length := by omega
    rw [List.getLast?_eq_getElem?, hmany, Nat.add_sub_cancel, outcomeAt, houtcomes,
      List.getD_eq_getElem?_getD, List.getElem?_append_left hmore, List.getElem?_eq_getElem hmore,
      Option.getD_some]

end Network

namespace Endpoint

/-! ## Fetching -/

/-- How many requests a number of attempts allows: so many, but always one. -/
def attempts? : Json → Option Nat
  | .int retries => some (max 1 retries).toNat
  | .bool _ => some 1
  | _ => none

theorem further?_of_attempts? {retries : Json} {attempts : Nat}
    (h : attempts? retries = some attempts) : ∃ more, further? retries = some more ∧
      attempts = more + 1 := by
  cases retries with
  | int retries =>
    refine ⟨(retries - 1).toNat, rfl, ?_⟩
    have := Option.some.inj h
    omega
  | bool value => exact ⟨0, rfl, (Option.some.inj h).symm⟩
  | _ => cases h

/-- A final outcome is what it is, however often the endpoint may be asked. -/
theorem ofOutcome_of_final {outcome : Outcome} (h : outcome.isFinal = true) (url : String)
    (retries other : Json) : ofOutcome url retries outcome = ofOutcome url other outcome := by
  cases outcome with
  | unreachable message => cases h
  | answered status body => rfl
  | rejected kind message => rfl

/-- What is done and what comes of it when the query can be asked. -/
theorem fetch_of_query {query : Query} {network : Network} {url : String} {settings : Settings}
    {more : Nat} (hquery : Query.forEndpoint settings.options = .ok query)
    (hmore : further? settings.retries = some more) :
    fetch network url settings =
      (network.after ⟨url, query.text, headersWith settings.headers, settings.timeout⟩
        settings.delay (network.sent more),
        ofOutcome url settings.retries (network.outcomeAt (network.sent more - 1))) := by
  unfold fetch
  rw [hquery, hmore]
  dsimp only
  rw [Option.getD_some, Network.send_eq]

/-- **Counting requests.** When the query can be asked, there is at least one request, and there are
no more than so many attempts allow; all of them are the same, and there is a pause of the given
length between any two. If one of the outcomes that they may have is no failed connection, the last
request is the one with the first such outcome, and it alone decides what is fetched. If all of them
are failed connections, all the requests are made, and the fault is a failure to fetch with the
message of the last one. -/
theorem fetch_attempts (network : Network) (url : String) (settings : Settings) {query : Query}
    {attempts : Nat} (hquery : Query.forEndpoint settings.options = .ok query)
    (hattempts : attempts? settings.retries = some attempts) :
    ∃ sent, 1 ≤ sent ∧ sent ≤ attempts ∧
      (fetch network url settings).1 =
        network.after ⟨url, query.text, headersWith settings.headers, settings.timeout⟩
          settings.delay sent ∧
      (∀ failed outcome rest, network.outcomes = failed ++ outcome :: rest →
        failed.length < attempts → (∀ other ∈ failed, other.isFinal = false) →
        outcome.isFinal = true →
          sent = failed.length + 1 ∧
          ∀ retries, (fetch network url settings).2 = ofOutcome url retries outcome) ∧
      ∀ failed rest, network.outcomes = failed ++ rest → failed.length = attempts →
        (∀ other ∈ failed, other.isFinal = false) →
          sent = attempts ∧ ∃ message, failed.getLast? = some (.unreachable message) ∧
            (fetch network url settings).2 =
              .error (.unreachable url settings.retries message) := by
  obtain ⟨more, hmore, rfl⟩ := further?_of_attempts? hattempts
  rw [fetch_of_query hquery hmore]
  refine ⟨network.sent more, Nat.succ_le_succ (Nat.zero_le _), network.sent_le more, rfl, ?_, ?_⟩
  · intro failed outcome rest houtcomes hfew hfailed hfinal
    obtain ⟨hsent, hat⟩ :=
      Network.sent_of_outcomes houtcomes (Nat.le_of_lt_succ hfew) hfailed hfinal
    refine ⟨hsent, fun retries => ?_⟩
    rw [hsent, Nat.add_sub_cancel, hat]
    exact ofOutcome_of_final hfinal url settings.retries retries
  · intro failed rest houtcomes hmany hfailed
    obtain ⟨hsent, hlast⟩ := Network.sent_of_failed houtcomes hmany hfailed
    refine ⟨hsent, ?_⟩
    rw [hsent, Nat.add_sub_cancel, hlast]
    have hunreached := hfailed _ (List.mem_of_getLast? hlast)
    cases hat : network.outcomeAt more with
    | unreachable message =>
      refine ⟨message, rfl, ?_⟩
      show ofOutcome url settings.retries (.unreachable message) = _
      rw [ofOutcome, hmore]
    | answered status body =>
      rw [hat] at hunreached
      cases hunreached
    | rejected kind message =>
      rw [hat] at hunreached
      cases hunreached

/-- An endpoint that is busy when it is reached at the third attempt. -/
def busyAtLast : Network where
  outcomes := [.unreachable "down", .unreachable "slow", .answered 503 "busy".toList,
    .answered 200 []]

/-- The third attempt is the last of three, and it decides what is fetched; without attempts there
is one request, and no pause. -/
theorem fetch_attempts_third :
    (∃ request, (fetch busyAtLast "http://api/graphql" {}).1 =
        ⟨[.answered 200 []], List.replicate 3 request, [.int 2, .int 2]⟩ ∧
      (fetch busyAtLast "http://api/graphql" {}).2 = .error (.refused "busy")) ∧
    ∃ request, (fetch busyAtLast "http://api/graphql" { retries := .int 0 }).1 =
        ⟨busyAtLast.outcomes.drop 1, [request], []⟩ ∧
      (fetch busyAtLast "http://api/graphql" { retries := .int 0 }).2 =
        .error (.unreachable "http://api/graphql" (.int 0) "down") := by
  constructor
  · obtain ⟨sent, -, -, hdone, hfinal, -⟩ :=
      fetch_attempts busyAtLast "http://api/graphql" {} rfl (show attempts? (.int 3) = some 3 from rfl)
    obtain ⟨rfl, hresult⟩ := hfinal [.unreachable "down", .unreachable "slow"]
      (.answered 503 "busy".toList) [.answered 200 []] rfl (by decide) (by simp [Outcome.isFinal]) rfl
    exact ⟨_, hdone, hresult (.int 3)⟩
  · obtain ⟨sent, -, -, hdone, -, hfailed⟩ :=
      fetch_attempts busyAtLast "http://api/graphql" { retries := .int 0 } rfl
        (show attempts? (.int 0) = some 1 from rfl)
    obtain ⟨rfl, message, hlast, hresult⟩ := hfailed [.unreachable "down"]
      (busyAtLast.outcomes.drop 1) rfl rfl (by simp [Outcome.isFinal])
    cases hlast
    exact ⟨_, hdone, hresult⟩

end Endpoint

end PersistedQueries.Introspection
