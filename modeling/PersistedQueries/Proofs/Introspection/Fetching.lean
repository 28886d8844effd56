import PersistedQueries.Proofs.Introspection.Failures
import PersistedQueries.Proofs.Text.Splitting

/-!
# What an answer has to be

An endpoint may not be reached a few times, and then answer anything. Here it is said by the
outcomes and the body alone which answers are taken for introspection results, and which faults come
of all the others. The name of the schema is looked for in the data of an answer whatever they are.
So an object has to have the schema, but a list or a text in which its name stands passes for an
introspection result too, and a number or a truth value is a fault of another kind.

- `Network.reached?`: the first outcome that is no failed connection, of the attempts that are made
  (`Network.reached?_eq`).
- `Offers`: a body holds data and lists no errors.
- `PassesForSchema`, `IsScalar`: data that are taken for an introspection result, and data in which
  nothing can be looked for.
- `ofBody_eq_ok_iff`, `ofBody_strays_iff`: what the body of a successful answer is taken for.
- `Astray`: what a fault other than a failure to fetch comes of.
- `fetch_result`: what is fetched is what a successful answer offers if it passes for a schema, and
  every fault is a failure to fetch unless something goes astray.
- `not_fetch_result`: a text is fetched for an introspection result.
-/

namespace PersistedQueries.Introspection

open Publishing (errorsOf dataOf ofAnswer_reported ofAnswer_eq)

/-! ## Outcomes -/

/-- The request is not made again after the outcome. -/
def Outcome.isFinal : Outcome → Bool
  | .unreachable _ => false
  | _ => true

/-- The first outcome that is no failed connection, when a request is made again up to `more`
times. -/
def Network.reached? (network : Network) (more : Nat) : Option Outcome :=
  (network.outcomes.take (more + 1)).find? Outcome.isFinal

/-- Sending a request comes to the outcome that is reached, and to a failed connection without
one. -/
theorem Network.reached?_eq (network : Network) (request : Request) (delay : Json) (more : Nat) :
    network.reached? more = Option.guard Outcome.isFinal (network.send request delay more).1 := by
  induction more generalizing network with
  | zero =>
    unfold reached? send post
    cases network.outcomes with
    | nil => rfl
    | cons outcome rest => cases outcome <;> rfl
  | succ more ih =>
    unfold reached? send post
    cases houtcomes : network.outcomes with
    | nil =>
      rw [← ih]
      rfl
    | cons outcome rest =>
      cases outcome with
      | unreachable message =>
        rw [← ih]
        rfl
      | answered status body => rfl
      | rejected kind message => rfl

namespace Endpoint

/-! ## Bodies -/

/-- The body is an object with the data, and its errors are missing, null, empty, zero or false. -/
def Offers (body : Text) (data : Json) : Prop :=
  ∃ fields, Json.parse body = .ok (.object fields) ∧
    (errorsOf (.object fields)).isTruthy = false ∧ Json.lookupField "data" fields = some data

/-- Data that are taken for an introspection result: the name of the schema is one of their
fields, or one of their items, or a part of their text. -/
inductive PassesForSchema : Json → Prop where
  | object {fields : List (String × Json)} {schema : Json}
      (field : Json.lookupField "__schema" fields = some schema) : PassesForSchema (.object fields)
  | array {items : List Json} (item : .string "__schema" ∈ items) : PassesForSchema (.array items)
  | string {text : String} (part : "__schema".toList <:+: text.toList) :
      PassesForSchema (.string text)

/-- Data in which nothing can be looked for. -/
inductive IsScalar : Json → Prop where
  | bool (value : Bool) : IsScalar (.bool value)
  | int (value : Int) : IsScalar (.int value)
  | real (value : Binary64) : IsScalar (.real value)

theorem any_name_iff {name : String} {fields : List (String × Json)} :
    fields.any (·.1 = name) = true ↔ ∃ value, Json.lookupField name fields = some value := by
  induction fields with
  | nil => simp [Json.lookupField]
  | cons field rest ih =>
    obtain ⟨key, first⟩ := field
    rw [List.any_cons, Json.lookupField]
    by_cases hkey : key = name
    · simp [hkey]
    · simp only [hkey, decide_false, Bool.false_or, if_false]
      exact ih

theorem hasMember_eq_true_iff {data : Json} :
    hasMember "__schema" data = .ok true ↔ PassesForSchema data := by
  constructor
  · intro h
    cases data with
    | object fields =>
      obtain ⟨schema, hschema⟩ := any_name_iff.1 (Except.ok.inj h)
      exact .object hschema
    | array items =>
      obtain ⟨item, hitem, hname⟩ := List.any_eq_true.1 (Except.ok.inj h)
      cases item with
      | string item =>
        obtain rfl : item = "__schema" := of_decide_eq_true hname
        exact .array hitem
      | _ => cases hname
    | string text => exact .string (Text.occursIn_iff.1 (Except.ok.inj h))
    | _ => cases h
  · intro h
    cases h with
    | object field => exact congrArg Except.ok (any_name_iff.2 ⟨_, field⟩)
    | array item => exact congrArg Except.ok (List.any_eq_true.2 ⟨_, item, decide_eq_true rfl⟩)
    | string part => exact congrArg Except.ok (Text.occursIn_iff.2 part)

/-- Nothing can be looked for in a value that is neither null nor empty, but in a scalar. -/
theorem hasMember_eq_error_iff {data : Json} (htruthy : data.isTruthy = true) :
    (∃ mismatch, hasMember "__schema" data = .error mismatch) ↔ IsScalar data := by
  constructor
  · rintro ⟨mismatch, h⟩
    cases data with
    | null => cases htruthy
    | bool value => exact .bool value
    | int value => exact .int value
    | real value => exact .real value
    | _ => cases h
  · intro h
    cases h <;> exact ⟨_, rfl⟩

theorem PassesForSchema.isTruthy {data : Json} (h : PassesForSchema data) :
    data.isTruthy = true := by
  cases h with
  | @object fields schema field =>
    cases fields with
    | nil => cases field
    | cons => rfl
  | @array items item =>
    cases items with
    | nil => cases item
    | cons => rfl
  | @string text part =>
    have hne : text ≠ "" := by
      rintro rfl
      exact absurd (List.infix_nil.1 part) (by decide)
    simpa [Json.isTruthy] using hne

section Answers

variable {url : String} {body : Text} {fields : List (String × Json)} {data : Json}

theorem lookupField_data (hdata : (dataOf (.object fields)).isTruthy = true) :
    Json.lookupField "data" fields = some (dataOf (.object fields)) := by
  unfold dataOf at hdata ⊢
  show Json.lookupField "data" fields = some ((Json.lookupField "data" fields).getD .null)
  change ((Json.lookupField "data" fields).getD .null).isTruthy = true at hdata
  cases hfield : Json.lookupField "data" fields with
  | none =>
    rw [hfield] at hdata
    cases hdata
  | some data => rfl

theorem dataOf_of_lookupField (h : Json.lookupField "data" fields = some data) :
    dataOf (.object fields) = data := by
  show (Json.lookupField "data" fields).getD .null = data
  rw [h]
  rfl

/-- An answer is taken for an introspection result if it lists no errors and its data pass for
one. -/
theorem ofAnswer_eq_ok_iff : ofAnswer url body (.object fields) = .ok data ↔
    ((errorsOf (.object fields)).isTruthy = false ∧ Json.lookupField "data" fields = some data) ∧
      PassesForSchema data := by
  cases herrors : (errorsOf (.object fields)).isTruthy with
  | true =>
    rw [ofAnswer_reported herrors]
    constructor
    · rintro ⟨⟩
    · rintro ⟨⟨⟨⟩, -⟩, -⟩
  | false =>
    rw [ofAnswer_eq herrors]
    constructor
    · intro h
      split at h
      · next htruthy =>
        split at h
        · next hmember =>
          obtain rfl := Except.ok.inj h
          exact ⟨⟨rfl, lookupField_data htruthy⟩, hasMember_eq_true_iff.1 hmember⟩
        · cases h
        · cases h
      · cases h
    · rintro ⟨⟨-, hdata⟩, hpasses⟩
      rw [dataOf_of_lookupField hdata, if_pos hpasses.isTruthy, hasMember_eq_true_iff.2 hpasses]

/-- The fault of an answer is a failure to fetch, unless its data are a number or a truth value. -/
theorem ofAnswer_strays_iff :
    (∃ fault, ofAnswer url body (.object fields) = .error fault ∧ fault.isFetchFault = false) ↔
      ∃ data, ((errorsOf (.object fields)).isTruthy = false ∧
        Json.lookupField "data" fields = some data) ∧ data.isTruthy = true ∧ IsScalar data := by
  cases herrors : (errorsOf (.object fields)).isTruthy with
  | true =>
    rw [ofAnswer_reported herrors]
    constructor
    · rintro ⟨_, ⟨⟩, ⟨⟩⟩
    · rintro ⟨_, ⟨⟨⟩, -⟩, -⟩
  | false =>
    rw [ofAnswer_eq herrors]
    constructor
    · rintro ⟨fault, h, hstrays⟩
      split at h
      · next htruthy =>
        split at h
        · cases h
        · cases h
          cases hstrays
        · next mismatch hmember =>
          exact ⟨_, ⟨rfl, lookupField_data htruthy⟩, htruthy,
            (hasMember_eq_error_iff htruthy).1 ⟨mismatch, hmember⟩⟩
      · cases h
        cases hstrays
    · rintro ⟨data, ⟨-, hdata⟩, htruthy, hscalar⟩
      obtain ⟨mismatch, hmember⟩ := (hasMember_eq_error_iff htruthy).2 hscalar
      rw [dataOf_of_lookupField hdata, if_pos htruthy, hmember]
      exact ⟨.mismatch mismatch, rfl, rfl⟩

/-- The body of a successful answer is taken for what it offers, if that passes for an introspection
result. -/
theorem ofBody_eq_ok_iff :
    ofBody url body = .ok data ↔ Offers body data ∧ PassesForSchema data := by
  unfold ofBody Offers
  cases hparse : Json.parse body with
  | error fault => simp
  | ok answer =>
    cases answer with
    | object fields => simp [ofAnswer_eq_ok_iff]
    | _ => simp [ofAnswer, throw, throwThe, MonadExceptOf.throw]

/-- What the body of a successful answer strays for. -/
theorem ofBody_strays_iff :
    (∃ fault, ofBody url body = .error fault ∧ fault.isFetchFault = false) ↔
      (∃ fault, Json.parse body = .error fault) ∨
        ∃ data, Offers body data ∧ data.isTruthy = true ∧ IsScalar data := by
  unfold ofBody Offers
  cases hparse : Json.parse body with
  | error fault => simp [Fault.isFetchFault]
  | ok answer =>
    cases answer with
    | object fields => simp [ofAnswer_strays_iff]
    | _ => simp [ofAnswer, throw, throwThe, MonadExceptOf.throw, Fault.isFetchFault]

end Answers

/-! ## Fetching -/

/-- A final outcome that is neither an introspection result nor a failure to fetch one. -/
inductive Strays : Outcome → Prop where
  /-- The request could not be made. -/
  | rejected (kind message : String) : Strays (.rejected kind message)
  /-- The body of a successful answer is not JSON, or has a number with more digits than are
  read. -/
  | unreadable {status : Int} {body : Text} {fault : Json.Fault}
      (success : isFailure status = false) (parse_eq : Json.parse body = .error fault) :
      Strays (.answered status body)
  /-- Its data are a number other than zero, or true. -/
  | scalar {status : Int} {body : Text} {data : Json} (success : isFailure status = false)
      (offers : Offers body data) (truthy : data.isTruthy = true) (scalar : IsScalar data) :
      Strays (.answered status body)

/-- What a fault other than a failure to fetch comes of. -/
inductive Astray (network : Network) (settings : Settings) : Prop where
  /-- The options ask for what there is not. -/
  | query {fault : Query.Fault} (query_eq : Query.forEndpoint settings.options = .error fault)
  /-- The endpoint is not reached, and nothing says how often to try. -/
  | uncounted (further_eq : further? settings.retries = none)
      (reached_eq : network.reached? 0 = none)
  /-- The outcome that is reached is another one. -/
  | outcome {outcome : Outcome}
      (reached_eq : network.reached? ((further? settings.retries).getD 0) = some outcome)
      (strays : Strays outcome)

section Fetching

variable {network : Network} {url : String} {settings : Settings} {retries data : Json}
  {outcome : Outcome}

/-- An outcome has an introspection result if it is a successful answer whose body has one. -/
theorem ofOutcome_eq_ok_iff : ofOutcome url retries outcome = .ok data ↔
    ∃ status body, outcome = .answered status body ∧ isFailure status = false ∧
      Offers body data ∧ PassesForSchema data := by
  cases outcome with
  | unreachable message =>
    unfold ofOutcome
    cases further? retries <;> simp
  | rejected kind message => simp [ofOutcome]
  | answered status body =>
    unfold ofOutcome
    cases hfailure : isFailure status with
    | true => simp [hfailure]
    | false => simp [hfailure, ofBody_eq_ok_iff]

/-- The fault of a final outcome is a failure to fetch unless the outcome strays. -/
theorem ofOutcome_strays_iff (hfinal : outcome.isFinal = true) :
    (∃ fault, ofOutcome url retries outcome = .error fault ∧ fault.isFetchFault = false) ↔
      Strays outcome := by
  cases outcome with
  | unreachable message => cases hfinal
  | rejected kind message =>
    exact ⟨fun _ => .rejected kind message, fun _ => ⟨_, rfl, rfl⟩⟩
  | answered status body =>
    have hof : ofOutcome url retries (.answered status body) =
        if isFailure status then .error (.refused (String.ofList body)) else ofBody url body := rfl
    rw [hof]
    cases hfailure : isFailure status with
    | true =>
      rw [if_pos rfl]
      constructor
      · rintro ⟨_, ⟨⟩, ⟨⟩⟩
      · rintro (_ | ⟨hsuccess, -⟩ | ⟨hsuccess, -⟩) <;> cases hfailure.symm.trans hsuccess
    | false =>
      rw [if_neg Bool.false_ne_true, ofBody_strays_iff]
      constructor
      · rintro (⟨fault, hparse⟩ | ⟨data, hoffers, htruthy, hscalar⟩)
        · exact .unreadable hfailure hparse
        · exact .scalar hfailure hoffers htruthy hscalar
      · rintro (_ | ⟨-, hparse⟩ | ⟨-, hoffers, htruthy, hscalar⟩)
        · exact .inl ⟨_, hparse⟩
        · exact .inr ⟨_, hoffers, htruthy, hscalar⟩

/-- That an endpoint is not reached is a failure to fetch if something says how often to try. -/
theorem strays_of_not_final_iff {fault : Fault} (hfinal : outcome.isFinal = false)
    (hfault : ofOutcome url retries outcome = .error fault) :
    fault.isFetchFault = false ↔ further? retries = none := by
  cases outcome with
  | unreachable message =>
    rw [ofOutcome] at hfault
    cases hcount : further? retries with
    | some more =>
      rw [hcount] at hfault
      obtain rfl := Except.error.inj hfault
      exact ⟨fun h => (by cases h), fun h => (by cases h)⟩
    | none =>
      rw [hcount] at hfault
      obtain rfl := Except.error.inj hfault
      exact ⟨fun _ => rfl, fun _ => rfl⟩
  | rejected kind message => cases hfinal
  | answered status body => cases hfinal

/-- What is fetched with a query is what an outcome says, and this outcome is the one that is
reached, if any is. -/
theorem exists_outcome {query : Query} (network : Network) (url : String)
    (hquery : Query.forEndpoint settings.options = .ok query) : ∃ outcome,
      (fetch network url settings).2 = ofOutcome url settings.retries outcome ∧
      network.reached? ((further? settings.retries).getD 0) =
        Option.guard Outcome.isFinal outcome := by
  let request : Request := ⟨url, query.text, headersWith settings.headers, settings.timeout⟩
  refine ⟨(network.send request settings.delay ((further? settings.retries).getD 0)).1, ?_,
    network.reached?_eq request settings.delay _⟩
  rw [fetch, hquery]

/-- Only an outcome that is reached has an introspection result. -/
theorem ofOutcome_eq_ok_iff_reached {reached : Option Outcome}
    (hreached : reached = Option.guard Outcome.isFinal outcome) :
    ofOutcome url retries outcome = .ok data ↔
      ∃ status body, reached = some (.answered status body) ∧ isFailure status = false ∧
        Offers body data ∧ PassesForSchema data := by
  have hanswer (status : Int) (body : Text) :
      reached = some (.answered status body) ↔ outcome = .answered status body := by
    rw [hreached, Option.guard_eq_some_iff]
    constructor
    · exact fun h => h.1
    · rintro rfl
      exact ⟨rfl, rfl⟩
  simp only [ofOutcome_eq_ok_iff, hanswer]

/-- When the query can be asked, the fault of an outcome is a failure to fetch unless something goes
astray. -/
theorem ofOutcome_astray_iff {query : Query} {fault : Fault}
    (hquery : Query.forEndpoint settings.options = .ok query)
    (hreached : network.reached? ((further? settings.retries).getD 0) =
      Option.guard Outcome.isFinal outcome)
    (hfault : ofOutcome url settings.retries outcome = .error fault) :
    fault.isFetchFault = false ↔ Astray network settings := by
  cases hfinal : outcome.isFinal with
  | true =>
    rw [Option.guard_eq_some_iff.2 ⟨rfl, hfinal⟩] at hreached
    constructor
    · intro hfetch
      exact .outcome hreached ((ofOutcome_strays_iff hfinal).1 ⟨fault, hfault, hfetch⟩)
    · rintro (hrefused | ⟨hcount, hnone⟩ | ⟨hother, hstrays⟩)
      · cases hquery.symm.trans hrefused
      · rw [hcount] at hreached
        cases hreached.symm.trans hnone
      · obtain rfl := Option.some.inj (hreached.symm.trans hother)
        obtain ⟨fault', hfault', hfetch⟩ := (ofOutcome_strays_iff hfinal).2 hstrays
        obtain rfl := Except.error.inj (hfault.symm.trans hfault')
        exact hfetch
  | false =>
    -- no connection was made, and a failure of it can be told only with a number of attempts
    rw [Option.guard_eq_none_iff.2 hfinal] at hreached
    rw [strays_of_not_final_iff hfinal hfault]
    constructor
    · intro hcount
      rw [hcount] at hreached
      exact .uncounted hcount hreached
    · rintro (hrefused | ⟨hcount, -⟩ | ⟨hother, -⟩)
      · cases hquery.symm.trans hrefused
      · exact hcount
      · cases hreached.symm.trans hother

/-- **What is fetched.** A value is fetched exactly when the query can be asked, the outcome that is
reached is an answer without a status of failure, its body is an object without errors, and the
value is the data of this object and passes for an introspection result: it is an object with a
schema, or a list or a text in which the name of the schema stands. Otherwise there is a fault, and
it is a failure to fetch unless something goes astray. -/
theorem fetch_result (network : Network) (url : String) (settings : Settings) :
    (∀ data, (fetch network url settings).2 = .ok data ↔
      (∃ query, Query.forEndpoint settings.options = .ok query) ∧
      ∃ status body,
        network.reached? ((further? settings.retries).getD 0) = some (.answered status body) ∧
        isFailure status = false ∧ Offers body data ∧ PassesForSchema data) ∧
    ∀ fault, (fetch network url settings).2 = .error fault →
      (fault.isFetchFault = false ↔ Astray network settings) := by
  cases hquery : Query.forEndpoint settings.options with
  | error cause =>
    have hfetch : (fetch network url settings).2 = .error (.query cause) := by
      rw [fetch, hquery]
    rw [hfetch]
    constructor
    · intro data
      simp
    · intro fault hfault
      obtain rfl := Except.error.inj hfault
      exact ⟨fun _ => .query hquery, fun _ => rfl⟩
  | ok query =>
    obtain ⟨outcome, hfetch, hreached⟩ := exists_outcome network url hquery
    rw [hfetch]
    constructor
    · intro data
      rw [ofOutcome_eq_ok_iff_reached hreached]
      exact (and_iff_right ⟨query, rfl⟩).symm
    · intro fault hfault
      exact ofOutcome_astray_iff hquery hreached hfault

/-- An endpoint that is not reached at first, and then answers with some data. -/
def answering (data : Text) : Network where
  outcomes := [.unreachable "down", .answered 200 ("\x7b\"data\": ".toList ++ data ++ ['\x7d'])]

/-- The schema of an endpoint is fetched when it is reached. -/
theorem fetch_result_schema :
    (fetch (answering "\x7b\"__schema\": \x7b\x7d\x7d".toList) "http://api/graphql" {}).2 =
      .ok (.object [("__schema", .object [])]) := by
  let fields := [("data", Json.object [("__schema", .object [])])]
  refine ((fetch_result _ _ _).1 _).2
    ⟨⟨_, rfl⟩, _, _, rfl, rfl, ⟨fields, eq_ok_of_toOption ?_, rfl, rfl⟩, .object rfl⟩
  decide +kernel

/-- A text in which the name of the schema stands is fetched for an introspection result, and a
number is a fault that is no failure to fetch. -/
theorem not_fetch_result :
    (∃ data, (fetch (answering "\"__schema\"".toList) "http://api/graphql" {}).2 = .ok data ∧
      ∀ fields, data ≠ .object fields) ∧
    ∃ fault, (fetch (answering ['5']) "http://api/graphql" {}).2 = .error fault ∧
      fault.isFetchFault = false := by
  constructor
  · refine ⟨.string "__schema", eq_ok_of_toOption (by decide +kernel), ?_⟩
    rintro fields ⟨⟩
  · have hstrays : (match (fetch (answering ['5']) "http://api/graphql" {}).2 with
        | .ok _ => true
        | .error fault => fault.isFetchFault) = false := by
      decide +kernel
    cases hresult : (fetch (answering ['5']) "http://api/graphql" {}).2 with
    | ok data =>
      rw [hresult] at hstrays
      cases hstrays
    | error fault =>
      rw [hresult] at hstrays
      exact ⟨fault, rfl, hstrays⟩

end Fetching

end Endpoint

end PersistedQueries.Introspection
