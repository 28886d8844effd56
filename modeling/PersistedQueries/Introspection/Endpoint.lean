import PersistedQueries.Introspection.Query
import PersistedQueries.Json.Access
import PersistedQueries.Json.Reader
import PersistedQueries.Table

/-!
# Schema endpoints

A schema behind an endpoint is asked for its introspection result. A connection that fails is
tried again after a pause; an answer that reports a failure is final.

- `Request`, `Outcome`: a request, and what came of it.
- `Network`: the outcomes to come, and the requests and pauses so far.
- `send`: requests until one has an outcome other than a failed connection.
- `Fault`: why there is no introspection result.
- `ofBody`: the introspection result in the body of a successful answer.
- `further?`: how often an endpoint is tried again.
- `fetch`: the introspection result of an endpoint.
-/

namespace PersistedQueries.Introspection

/-- A request for an introspection result. -/
structure Request where
  /-- The address of the endpoint. -/
  url : String
  /-- The text of the query. -/
  query : String
  /-- The headers. -/
  headers : Table String Json
  /-- The seconds to wait for the answer. -/
  timeout : Json

/-- What came of a request. -/
inductive Outcome where
  | answered (status : Int) (body : Text)
  /-- The connection failed or took too long. -/
  | unreachable (message : String)
  /-- The request could not be made, for a reason that stays. -/
  | rejected (kind message : String)

/-- The outcomes of the requests to come, and what has been done so far. -/
structure Network where
  /-- The outcomes of the requests to come. -/
  outcomes : List Outcome := []
  /-- The requests so far. -/
  requests : List Request := []
  /-- The pauses so far, in seconds. -/
  pauses : List Json := []

namespace Network

/-- Make a request. Without a further outcome the endpoint cannot be reached. -/
def post (network : Network) (request : Request) : Outcome × Network :=
  let sent := { network with requests := network.requests ++ [request] }
  match network.outcomes with
  | [] => (.unreachable "no more responses", sent)
  | outcome :: rest => (outcome, { sent with outcomes := rest })

/-- Pause. -/
def pause (network : Network) (delay : Json) : Network :=
  { network with pauses := network.pauses ++ [delay] }

/-- Make a request, and make it again up to `more` times while the endpoint cannot be reached,
with a pause before each further time. -/
def send (network : Network) (request : Request) (delay : Json) : (more : Nat) → Outcome × Network
  | 0 => network.post request
  | more + 1 =>
    match network.post request with
    | (.unreachable _, network) => send (network.pause delay) request delay more
    | (outcome, network) => (outcome, network)

end Network

namespace Endpoint

/-! ## Faults -/

/-- Why there is no introspection result. -/
inductive Fault where
  /-- The query cannot be asked. -/
  | query (fault : Query.Fault)
  /-- No attempt reached the endpoint. -/
  | unreachable (url : String) (attempts : Json) (message : String)
  /-- The endpoint was not reached, and a value of the kind does not say how often to try. -/
  | noCount (kind : String)
  /-- The answer has a status of failure. -/
  | refused (body : String)
  /-- The answer lists errors. -/
  | reported (errors : Json)
  /-- The answer is no introspection result. -/
  | noSchema (url body : String)
  /-- The request could not be made. -/
  | rejected (kind message : String)
  /-- The answer is not JSON. -/
  | malformed (body : Text) (fault : Json.Fault)
  /-- The data of the answer can have no fields. -/
  | mismatch (mismatch : Json.Mismatch)

/-- The message of a fault. -/
def Fault.message : Fault → String
  | query fault => fault.message
  | unreachable url attempts message =>
    "Failed to fetch introspection from " ++ url ++ " after " ++ attempts.plain ++ " attempts: " ++
      message
  | noCount kind => s!"'>=' not supported between instances of 'int' and '{kind}'"
  | refused body => s!"Failed to fetch introspection: {body}"
  | reported errors => "Failed to fetch introspection: " ++ errors.plain
  | noSchema url body => s!"Introspection response from {url} has no data.__schema: {body}"
  | rejected _ message => message
  | malformed body fault => fault.message body
  | mismatch fault => fault.message

/-- The endpoint answered with a failure, or not at all. -/
def Fault.isFetchFault : Fault → Bool
  | unreachable .. | refused _ | reported _ | noSchema .. => true
  | _ => false

/-! ## Answers -/

/-- The value has something of the name: a field, an item or a part of its text. -/
def hasMember (name : String) : Json → Except Json.Mismatch Bool
  | .object fields => .ok (fields.any (·.1 = name))
  | .array items => .ok (items.any fun | .string item => item = name | _ => false)
  | .string text => .ok (Text.occursIn name.toList text.toList)
  | value => .error (.noMembers value.kindName)

/-- The introspection result in an answer. -/
def ofAnswer (url : String) (body : Text) (answer : Json) : Except Fault Json := do
  let missing := Fault.noSchema url (String.ofList body)
  match answer with
  | .object _ =>
    let errors := (answer.field? "errors").getD .null
    if errors.isTruthy then throw (.reported errors)
    let data := (answer.field? "data").getD .null
    if !data.isTruthy then throw missing
    if ← (hasMember "__schema" data).mapError .mismatch then return data else throw missing
  | _ => throw missing

/-- The introspection result in the body of a successful answer. -/
def ofBody (url : String) (body : Text) : Except Fault Json :=
  match Json.parse body with
  | .error fault => .error (.malformed body fault)
  | .ok answer => ofAnswer url body answer

/-- The status is one of those that say that a request failed. -/
def isFailure (status : Int) : Bool := 400 ≤ status && status < 600

/-- How many attempts may follow the first one, by the number of attempts that is asked for. There
is always a first one, and a part of an attempt counts as one. -/
def further? : Json → Option Nat
  | .int retries => some (retries - 1).toNat
  | .bool _ => some 0
  | .real retries => some ((retries.ceil?.getD 0) - 1).toNat
  | _ => none

/-- The introspection result in an outcome. -/
def ofOutcome (url : String) (retries : Json) : Outcome → Except Fault Json
  | .unreachable message =>
    match further? retries with
    | some _ => .error (.unreachable url retries message)
    | none => .error (.noCount retries.kindName)
  | .rejected kind message => .error (.rejected kind message)
  | .answered status body =>
    if isFailure status then .error (.refused (String.ofList body)) else ofBody url body

/-! ## Fetching -/

/-- How an endpoint is asked. -/
structure Settings where
  /-- The options of the query. -/
  options : List (String × Json) := []
  /-- Headers besides those that every request has. -/
  headers : Table String Json := .empty
  /-- The seconds to wait for an answer. -/
  timeout : Json := .int 30
  /-- How often an endpoint is tried that cannot be reached. -/
  retries : Json := .int 3
  /-- The seconds between two attempts. -/
  delay : Json := .int 2

/-- The headers that every request has, and some more. -/
def headersWith (more : Table String Json) : Table String Json :=
  more.entries.foldl (fun table (name, value) => table.insert name value) <|
    .ofList [("Content-Type", .string "application/json"), ("Accept", .string "application/json")]

/-- Ask an endpoint for its introspection result. -/
def fetch (network : Network) (url : String) (settings : Settings) :
    Network × Except Fault Json :=
  match Query.forEndpoint settings.options with
  | .error fault => (network, .error (.query fault))
  | .ok query =>
    let request : Request := ⟨url, query.text, headersWith settings.headers, settings.timeout⟩
    let more := (further? settings.retries).getD 0
    let (outcome, network) := network.send request settings.delay more
    (network, ofOutcome url settings.retries outcome)

end Endpoint

end PersistedQueries.Introspection
