import PersistedQueries.Proofs.Introspection.Publishing

/-!
# Why artifacts are not published

A schema text, the answer of an endpoint and a disk can each keep the artifacts of a schema from
being published. What is done about it is decided by the fault that comes of it, in two places that
do not agree: the start of a run reports more faults than what follows a write of the manifest. Here
it is said by the contents themselves which of them are reported where.

- `Reporting`: where a failure is reported instead of breaking off what it happens in.
- `SchemaFails`, `TextFails`, `FileFails`: what keeps a text from being a schema, and what is wrong
  with a schema text and with a schema file.
- `AnswerFails`, `BodyFails`, `OutcomeFails`, `EndpointFails`: what is wrong with an answer and its
  text, with what came of a request, and with an endpoint.
- `WritingFails`: an artifact cannot be made or written.
- `Publisher.Fails`: what keeps a publisher from publishing.
- `Publisher.fails_iff`: that is when publishing fails, and the fault is reported accordingly.
-/

namespace PersistedQueries.Introspection

variable {text : Text} {options : List (String × Json)} {disk : Disk} {path : String}
  {config : SchemaOptions}

namespace Publishing

/-- Where it is reported that artifacts cannot be published. -/
inductive Reporting where
  /-- At the start of a run, and after the manifest has been written. -/
  | always
  /-- At the start of a run; after the manifest has been written it breaks off the step. -/
  | atStart
  /-- Nowhere: it breaks off the run or the step. -/
  | never
  deriving DecidableEq

/-- Where a fault is reported. -/
def Fault.reporting (fault : Fault) : Reporting :=
  if fault.isFetchFault || fault.isOutside then .always
  else if fault.isPlaced then .atStart
  else .never

variable {reporting : Reporting}

/-- Where it is reported that the system refuses something, but for a path that is no path. -/
def ofRefusal (fault : Disk.Fault) : Reporting := if fault.isRefusal then .always else .never

/-! ## Schema texts -/

/-- What keeps a text from being a schema. -/
inductive SchemaFails (text : Text) : Reporting → Prop where
  /-- It does not parse. -/
  | malformed {fault : GraphQL.Fault} (parse_eq : GraphQL.parse text = .error fault) :
      SchemaFails text .atStart
  /-- It breaks the rules for documents. -/
  | unlawful {document : GraphQL.Document} (parse_eq : GraphQL.parse text = .ok document)
      (broken : Schema.violations document ≠ []) : SchemaFails text .never
  /-- An annotation says something that it cannot mean. -/
  | mark {document : GraphQL.Document} {misfit : Schema.Misfit}
      (parse_eq : GraphQL.parse text = .ok document) (lawful : Schema.violations document = [])
      (build_eq : Schema.build document = .error misfit) (placed : misfit.isPlaced = true) :
      SchemaFails text .atStart
  /-- Its types do not fit together. -/
  | misfit {document : GraphQL.Document} {misfit : Schema.Misfit}
      (parse_eq : GraphQL.parse text = .ok document) (lawful : Schema.violations document = [])
      (build_eq : Schema.build document = .error misfit) (unplaced : misfit.isPlaced = false) :
      SchemaFails text .never

theorem schema_ofText_of_lawful {document : GraphQL.Document}
    (hparse : GraphQL.parse text = .ok document) (hlawful : Schema.violations document = []) :
    Schema.ofText text = (Schema.build document).mapError (.misfit text) := by
  unfold Schema.ofText
  rw [hparse]
  dsimp only
  rw [hlawful]

theorem schema_ofText_of_unlawful {document : GraphQL.Document}
    (hparse : GraphQL.parse text = .ok document) (hbroken : Schema.violations document ≠ []) :
    Schema.ofText text = .error (.unlawful (Schema.violations document)) := by
  unfold Schema.ofText
  rw [hparse]
  dsimp only
  split
  · next hlawful => exact absurd hlawful hbroken
  · rfl

/-- A text is a schema unless something keeps it from being one. -/
theorem schemaFails_iff : SchemaFails text reporting ↔
    ∃ fault, Schema.ofText text = .error fault ∧ (Fault.schema fault).reporting = reporting := by
  constructor
  · intro h
    cases h with
    | @malformed fault hparse =>
      refine ⟨.malformed text fault, ?_, rfl⟩
      rw [Schema.ofText, hparse]
    | unlawful hparse hbroken => exact ⟨_, schema_ofText_of_unlawful hparse hbroken, rfl⟩
    | mark hparse hlawful hbuild hplaced =>
      rw [schema_ofText_of_lawful hparse hlawful, hbuild]
      exact ⟨_, rfl, if_pos hplaced⟩
    | misfit hparse hlawful hbuild hunplaced =>
      rw [schema_ofText_of_lawful hparse hlawful, hbuild]
      exact ⟨_, rfl, if_neg (Bool.eq_false_iff.1 hunplaced)⟩
  · rintro ⟨fault, h, rfl⟩
    cases hparse : GraphQL.parse text with
    | error cause =>
      rw [Schema.ofText, hparse] at h
      cases h
      exact .malformed hparse
    | ok document =>
    by_cases hlawful : Schema.violations document = []
    · rw [schema_ofText_of_lawful hparse hlawful] at h
      cases hbuild : Schema.build document with
      | ok schema =>
        rw [hbuild] at h
        cases h
      | error misfit =>
        rw [hbuild] at h
        cases h
        show SchemaFails text (if misfit.isPlaced then .atStart else .never)
        split
        · next hplaced => exact .mark hparse hlawful hbuild hplaced
        · next hunplaced => exact .misfit hparse hlawful hbuild (Bool.eq_false_iff.2 hunplaced)
    · cases (schema_ofText_of_unlawful hparse hlawful).symm.trans h
      exact .unlawful hparse hlawful

/-- What is wrong with a schema text. -/
inductive TextFails (text : Text) (options : List (String × Json)) : Reporting → Prop where
  /-- Something keeps it from being a schema. -/
  | schema {reporting : Reporting} (fails : SchemaFails text reporting) :
      TextFails text options reporting
  /-- The options ask for what there is not. -/
  | query {schema : Schema} {fault : Query.Fault} (schema_eq : Schema.ofText text = .ok schema)
      (query_eq : Query.forSchema options = .error fault) : TextFails text options .never
  /-- Its schema is of no use. -/
  | flawed {schema : Schema} {query : Query} (schema_eq : Schema.ofText text = .ok schema)
      (query_eq : Query.forSchema options = .ok query) (broken : Schema.flaws schema ≠ []) :
      TextFails text options .never
  /-- A default value of its schema has no literal. -/
  | unwritable {schema : Schema} {query : Query} {fault : Schema.Unwritable}
      (schema_eq : Schema.ofText text = .ok schema) (query_eq : Query.forSchema options = .ok query)
      (sound : Schema.flaws schema = []) (result_eq : result schema query = .error fault) :
      TextFails text options .atStart

theorem introspect_of_schema {fault : Schema.Fault} (h : Schema.ofText text = .error fault) :
    introspect text options = .error (.schema fault) := by
  unfold introspect
  rw [h]
  rfl

/-- What a schema that can be asked has for an answer. -/
theorem introspect_eq {schema : Schema} {query : Query} (hschema : Schema.ofText text = .ok schema)
    (hquery : Query.forSchema options = .ok query) :
    introspect text options =
      if Schema.flaws schema = [] then (result schema query).mapError (.unwritable query)
      else .error (.schema (.invalid (Schema.flaws schema))) := by
  unfold introspect Schema.validate
  rw [hschema, hquery]
  cases hflaws : Schema.flaws schema with
  | nil =>
    rw [if_pos rfl]
    simp only [Except.mapError, bind, Except.bind, hflaws]
  | cons flaw flaws =>
    rw [if_neg (List.cons_ne_nil flaw flaws)]
    simp only [Except.mapError, bind, Except.bind, hflaws]

/-- A schema text has an introspection result unless something is wrong with it. -/
theorem textFails_iff : TextFails text options reporting ↔
    ∃ fault, introspect text options = .error fault ∧ fault.reporting = reporting := by
  constructor
  · intro h
    cases h with
    | schema hfails =>
      obtain ⟨fault, hschema, hreporting⟩ := schemaFails_iff.1 hfails
      exact ⟨_, introspect_of_schema hschema, hreporting⟩
    | query hschema hquery =>
      unfold introspect
      rw [hschema, hquery]
      exact ⟨_, rfl, rfl⟩
    | flawed hschema hquery hbroken =>
      exact ⟨_, (introspect_eq hschema hquery).trans (if_neg hbroken), rfl⟩
    | unwritable hschema hquery hsound hresult =>
      rw [introspect_eq hschema hquery, if_pos hsound, hresult]
      exact ⟨_, rfl, rfl⟩
  · rintro ⟨fault, h, rfl⟩
    cases hschema : Schema.ofText text with
    | error cause =>
      cases (introspect_of_schema hschema).symm.trans h
      exact .schema (schemaFails_iff.2 ⟨cause, hschema, rfl⟩)
    | ok schema =>
    cases hquery : Query.forSchema options with
    | error cause =>
      unfold introspect at h
      rw [hschema, hquery] at h
      cases h
      exact .query hschema hquery
    | ok query =>
    rw [introspect_eq hschema hquery] at h
    split at h
    · next hsound =>
      cases hresult : result schema query with
      | ok introspection =>
        rw [hresult] at h
        cases h
      | error cause =>
        rw [hresult] at h
        cases h
        exact .unwritable hschema hquery hsound hresult
    · next hbroken =>
      cases h
      exact .flawed hschema hquery hbroken

/-! ## Schema files -/

/-- What is wrong with a schema file. -/
inductive FileFails (disk : Disk) (path : String) (options : List (String × Json)) :
    Reporting → Prop where
  /-- It cannot be read. -/
  | unreadable {fault : Disk.Fault} (read_eq : disk.readOctets path = .error fault) :
      FileFails disk path options (ofRefusal fault)
  /-- It is no UTF-8. -/
  | encoding {octets : List UInt8} {fault : Utf8.Fault}
      (read_eq : disk.readOctets path = .ok octets)
      (decode_eq : Utf8.decode octets = .error fault) : FileFails disk path options .never
  /-- Something is wrong with its text. -/
  | text {octets : List UInt8} {text : Text} {reporting : Reporting}
      (read_eq : disk.readOctets path = .ok octets) (decode_eq : Utf8.decode octets = .ok text)
      (fails : TextFails (Text.normalizeNewlines text) options reporting) :
      FileFails disk path options reporting

/-- A schema file has an introspection result unless something is wrong with it. -/
theorem fileFails_iff : FileFails disk path options reporting ↔
    ∃ fault, introspectFile disk path options = .error fault ∧ fault.reporting = reporting := by
  constructor
  · intro h
    unfold introspectFile Disk.readText
    cases h with
    | unreadable hread =>
      rw [hread]
      exact ⟨_, rfl, rfl⟩
    | encoding hread hdecode =>
      rw [hread]
      dsimp only
      rw [hdecode]
      exact ⟨_, rfl, rfl⟩
    | text hread hdecode hfails =>
      rw [hread]
      dsimp only
      rw [hdecode]
      exact textFails_iff.1 hfails
  · rintro ⟨fault, h, rfl⟩
    unfold introspectFile Disk.readText at h
    cases hread : disk.readOctets path with
    | error cause =>
      rw [hread] at h
      cases h
      show FileFails disk path options (ofRefusal cause)
      exact .unreadable hread
    | ok octets =>
    rw [hread] at h
    cases hdecode : Utf8.decode octets with
    | error cause =>
      simp only [hdecode] at h
      cases h
      exact .encoding hread hdecode
    | ok text =>
      simp only [hdecode] at h
      exact .text hread hdecode (textFails_iff.2 ⟨fault, h, rfl⟩)

/-! ## Endpoints -/

/-- What an answer lists as errors. -/
def errorsOf (answer : Json) : Json := (answer.field? "errors").getD .null

/-- What an answer has as its data. -/
def dataOf (answer : Json) : Json := (answer.field? "data").getD .null

/-- What is wrong with the fields of an answer. -/
inductive AnswerFails (fields : List (String × Json)) : Reporting → Prop where
  /-- They list errors. -/
  | reported (errors : (errorsOf (.object fields)).isTruthy = true) : AnswerFails fields .always
  /-- They have no data. -/
  | empty (errors : (errorsOf (.object fields)).isTruthy = false)
      (data : (dataOf (.object fields)).isTruthy = false) : AnswerFails fields .always
  /-- Their data have no schema. -/
  | missing (errors : (errorsOf (.object fields)).isTruthy = false)
      (data : (dataOf (.object fields)).isTruthy = true)
      (member_eq : Endpoint.hasMember "__schema" (dataOf (.object fields)) = .ok false) :
      AnswerFails fields .always
  /-- Their data are a number or a truth value. -/
  | data {mismatch : Json.Mismatch} (errors : (errorsOf (.object fields)).isTruthy = false)
      (data : (dataOf (.object fields)).isTruthy = true)
      (member_eq : Endpoint.hasMember "__schema" (dataOf (.object fields)) = .error mismatch) :
      AnswerFails fields .never

theorem ofAnswer_reported {url : String} {body : Text} {fields : List (String × Json)}
    (herrors : (errorsOf (.object fields)).isTruthy = true) :
    Endpoint.ofAnswer url body (.object fields) =
      .error (.reported (errorsOf (.object fields))) := by
  unfold errorsOf at herrors ⊢
  unfold Endpoint.ofAnswer
  dsimp only
  rw [herrors, if_pos rfl]
  rfl

/-- What an answer without errors has for an introspection result. -/
theorem ofAnswer_eq {url : String} {body : Text} {fields : List (String × Json)}
    (herrors : (errorsOf (.object fields)).isTruthy = false) :
    Endpoint.ofAnswer url body (.object fields) =
      if (dataOf (.object fields)).isTruthy then
        match Endpoint.hasMember "__schema" (dataOf (.object fields)) with
        | .ok true => .ok (dataOf (.object fields))
        | .ok false => .error (.noSchema url (String.ofList body))
        | .error mismatch => .error (.mismatch mismatch)
      else .error (.noSchema url (String.ofList body)) := by
  unfold errorsOf at herrors
  unfold Endpoint.ofAnswer dataOf
  dsimp only
  rw [herrors, if_neg Bool.false_ne_true]
  generalize ((Json.object fields).field? "data").getD .null = data
  cases hdata : data.isTruthy with
  | false => rfl
  | true =>
    rw [if_neg (by decide), if_pos rfl]
    rcases Endpoint.hasMember "__schema" data with mismatch | _ | _ <;> rfl

/-- An answer has an introspection result unless something is wrong with its fields. -/
theorem answerFails_iff (url : String) (body : Text) {fields : List (String × Json)} :
    AnswerFails fields reporting ↔
      ∃ fault, Endpoint.ofAnswer url body (.object fields) = .error fault ∧
        (Fault.endpoint fault).reporting = reporting := by
  constructor
  · intro h
    cases h with
    | reported herrors => exact ⟨_, ofAnswer_reported herrors, rfl⟩
    | empty herrors hdata =>
      rw [ofAnswer_eq herrors, hdata, if_neg Bool.false_ne_true]
      exact ⟨_, rfl, rfl⟩
    | missing herrors hdata hmember =>
      rw [ofAnswer_eq herrors, hdata, if_pos rfl, hmember]
      exact ⟨_, rfl, rfl⟩
    | data herrors hdata hmember =>
      rw [ofAnswer_eq herrors, hdata, if_pos rfl, hmember]
      exact ⟨_, rfl, rfl⟩
  · rintro ⟨fault, h, rfl⟩
    cases herrors : (errorsOf (.object fields)).isTruthy with
    | true =>
      cases (ofAnswer_reported herrors).symm.trans h
      exact .reported herrors
    | false =>
    rw [ofAnswer_eq herrors] at h
    split at h
    · next hdata =>
      split at h
      · cases h
      · next hmember =>
        cases h
        exact .missing herrors hdata hmember
      · next hmember =>
        cases h
        exact .data herrors hdata hmember
    · next hdata =>
      cases h
      exact .empty herrors (Bool.eq_false_iff.2 hdata)

/-- What is wrong with the body of a successful answer. -/
inductive BodyFails (body : Text) : Reporting → Prop where
  /-- It is not JSON. -/
  | malformed {fault : Json.Fault} (parse_eq : Json.parse body = .error fault)
      (text : fault.isOfText = true) : BodyFails body .always
  /-- It has a number with more digits than are read. -/
  | digits {fault : Json.Fault} (parse_eq : Json.parse body = .error fault)
      (limit : fault.isOfText = false) : BodyFails body .never
  /-- It is no object. -/
  | shape {answer : Json} (parse_eq : Json.parse body = .ok answer)
      (shapeless : ∀ fields, answer ≠ .object fields) : BodyFails body .always
  /-- Something is wrong with its fields. -/
  | answer {fields : List (String × Json)} {reporting : Reporting}
      (parse_eq : Json.parse body = .ok (.object fields)) (fails : AnswerFails fields reporting) :
      BodyFails body reporting

/-- The body of a successful answer has an introspection result unless something is wrong
with it. -/
theorem bodyFails_iff (url : String) {body : Text} : BodyFails body reporting ↔
    ∃ fault, Endpoint.ofBody url body = .error fault ∧
      (Fault.endpoint fault).reporting = reporting := by
  unfold Endpoint.ofBody
  constructor
  · intro h
    cases h with
    | malformed hparse htext =>
      rw [hparse]
      exact ⟨_, rfl, if_pos htext⟩
    | digits hparse hlimit =>
      rw [hparse]
      exact ⟨_, rfl, if_neg (Bool.eq_false_iff.1 hlimit)⟩
    | @shape answer hparse hshapeless =>
      rw [hparse]
      cases answer with
      | object fields => exact absurd rfl (hshapeless fields)
      | _ => exact ⟨_, rfl, rfl⟩
    | answer hparse hfails =>
      rw [hparse]
      exact (answerFails_iff url body).1 hfails
  · rintro ⟨fault, h, rfl⟩
    split at h
    · next cause hparse =>
      cases h
      show BodyFails body (if cause.isOfText then .always else .never)
      split
      · next htext => exact .malformed hparse htext
      · next hlimit => exact .digits hparse (Bool.eq_false_iff.2 hlimit)
    · next answer hparse =>
      cases answer with
      | object fields => exact .answer hparse ((answerFails_iff url body).2 ⟨fault, h, rfl⟩)
      | _ =>
        cases h
        exact .shape hparse (by rintro _ ⟨⟩)

/-- What came of a request is no introspection result. -/
inductive OutcomeFails : Outcome → Reporting → Prop where
  /-- The connection failed. -/
  | unreachable (message : String) : OutcomeFails (.unreachable message) .always
  /-- The request could not be made. -/
  | rejected (kind message : String) : OutcomeFails (.rejected kind message) .always
  /-- The answer reports a failure. -/
  | refused {status : Int} (body : Text) (failure : Endpoint.isFailure status = true) :
      OutcomeFails (.answered status body) .always
  /-- Something is wrong with the body of the answer. -/
  | body {status : Int} {body : Text} {reporting : Reporting}
      (success : Endpoint.isFailure status = false) (fails : BodyFails body reporting) :
      OutcomeFails (.answered status body) reporting

/-- What came of a request is an introspection result unless something is wrong with it. -/
theorem outcomeFails_iff {url : String} {outcome : Outcome} : OutcomeFails outcome reporting ↔
    ∃ fault, Endpoint.ofOutcome url (.int 3) outcome = .error fault ∧
      (Fault.endpoint fault).reporting = reporting := by
  constructor
  · intro h
    cases h with
    | unreachable message => exact ⟨_, rfl, rfl⟩
    | rejected kind message => exact ⟨_, rfl, rfl⟩
    | refused body hfailure => exact ⟨_, if_pos hfailure, rfl⟩
    | body hsuccess hfails =>
      obtain ⟨fault, hbody, hreporting⟩ := (bodyFails_iff url).1 hfails
      exact ⟨fault, (if_neg (Bool.eq_false_iff.1 hsuccess)).trans hbody, hreporting⟩
  · rintro ⟨fault, h, rfl⟩
    cases outcome with
    | unreachable message =>
      cases h
      exact .unreachable message
    | rejected kind message =>
      cases h
      exact .rejected kind message
    | answered status body =>
      rw [Endpoint.ofOutcome] at h
      split at h
      · next hfailure =>
        cases h
        exact .refused body hfailure
      · next hsuccess =>
        exact .body (Bool.eq_false_iff.2 hsuccess) ((bodyFails_iff url).2 ⟨fault, h, rfl⟩)

/-- What comes of asking the configured endpoint, which is tried again twice. -/
def outcomeOf (network : Network) (config : SchemaOptions) (query : Query) : Outcome :=
  (network.send ⟨config.schema, query.text, Endpoint.headersWith config.headers, config.timeout⟩
    (.int 2) 2).1

/-- What is wrong with an endpoint. -/
inductive EndpointFails (network : Network) (config : SchemaOptions) : Reporting → Prop where
  /-- The options ask for what there is not. -/
  | query {fault : Query.Fault} (query_eq : Query.forEndpoint config.query = .error fault) :
      EndpointFails network config .never
  /-- What comes of asking it is no introspection result. -/
  | outcome {query : Query} {reporting : Reporting}
      (query_eq : Query.forEndpoint config.query = .ok query)
      (fails : OutcomeFails (outcomeOf network config query) reporting) :
      EndpointFails network config reporting

/-- An endpoint has an introspection result unless something is wrong with it. -/
theorem endpointFails_iff {network : Network} : EndpointFails network config reporting ↔
    ∃ fault, (Endpoint.fetch network config.schema
        { options := config.query, headers := config.headers, timeout := config.timeout }).2 =
        .error fault ∧ (Fault.endpoint fault).reporting = reporting := by
  unfold Endpoint.fetch
  constructor
  · intro h
    cases h with
    | query hquery =>
      rw [hquery]
      exact ⟨_, rfl, rfl⟩
    | outcome hquery hfails =>
      rw [hquery]
      exact outcomeFails_iff.1 hfails
  · rintro ⟨fault, h, rfl⟩
    split at h
    · next hquery =>
      cases h
      exact .query hquery
    · next hquery =>
      exact .outcome hquery (outcomeFails_iff.2 ⟨fault, h, rfl⟩)

/-! ## Artifacts -/

/-- An artifact cannot be made or written, when those before it have been written. -/
inductive WritingFails : Disk → List (String × Except Fault Json) → Reporting → Prop where
  /-- The first one cannot be made. -/
  | content (disk : Disk) (path : String) (fault : Fault)
      (rest : List (String × Except Fault Json)) :
      WritingFails disk ((path, .error fault) :: rest) .never
  /-- The first one cannot be written. -/
  | refused {disk later : Disk} {path : String} {value : Json} {fault : Disk.Fault}
      (rest : List (String × Except Fault Json))
      (written : disk.writeJson path value = (later, .error fault)) :
      WritingFails disk ((path, .ok value) :: rest) (ofRefusal fault)
  /-- One that comes later cannot be made or written. -/
  | later {disk later : Disk} {path : String} {value : Json}
      {rest : List (String × Except Fault Json)} {reporting : Reporting}
      (written : disk.writeJson path value = (later, .ok ()))
      (fails : WritingFails later rest reporting) :
      WritingFails disk ((path, .ok value) :: rest) reporting

/-- Artifacts are written unless one cannot be made or written. -/
theorem writingFails_iff {entries : List (String × Except Fault Json)}
    (hmade : ∀ path fault, (path, .error fault) ∈ entries → fault.reporting = .never) :
    WritingFails disk entries reporting ↔
      ∃ fault, (writeEach disk entries).2 = .error fault ∧ fault.reporting = reporting := by
  induction entries generalizing disk with
  | nil =>
    constructor
    · rintro ⟨⟩
    · rintro ⟨fault, h, -⟩
      cases h
  | cons entry entries ih =>
    obtain ⟨path, fault | value⟩ := entry
    · have hnever := hmade path fault List.mem_cons_self
      constructor
      · rintro ⟨⟩
        exact ⟨fault, rfl, hnever⟩
      · rintro ⟨_, ⟨⟩, rfl⟩
        rw [hnever]
        exact .content disk path fault entries
    have ih (later : Disk) := @ih later fun path fault hmem =>
      hmade path fault (List.mem_cons_of_mem _ hmem)
    rw [writeEach]
    constructor
    · rintro (_ | ⟨_, hwritten⟩ | ⟨hwritten, hfails⟩)
      · rw [hwritten]
        exact ⟨_, rfl, rfl⟩
      · rw [hwritten]
        exact (ih _).1 hfails
    · rintro ⟨fault, h, rfl⟩
      split at h
      · next cause hwritten =>
        cases h
        show WritingFails disk _ (ofRefusal cause)
        exact .refused entries hwritten
      · next hwritten => exact .later hwritten ((ih _).2 ⟨fault, h, rfl⟩)

theorem eq_of_mem_artifact {asked : Option String} {content other : Except Fault Json}
    (h : (path, other) ∈ artifact asked content) : other = content := by
  unfold artifact at h
  split at h
  · split at h
    · cases h
    · exact congrArg Prod.snd (List.mem_singleton.1 h)
  · cases h

/-- That an artifact cannot be made is reported nowhere. -/
theorem reporting_of_mem_artifacts {introspection : Json} {fault : Fault}
    (h : (path, .error fault) ∈ artifacts config introspection) : fault.reporting = .never := by
  unfold artifacts at h
  rw [List.mem_append, List.mem_append] at h
  obtain (hschema | hpossible) | hminified := h
  · cases eq_of_mem_artifact hschema
  · have heq := eq_of_mem_artifact hpossible
    cases hmade : possibleTypes introspection with
    | ok made =>
      rw [hmade] at heq
      cases heq
    | error mismatch =>
      rw [hmade] at heq
      cases heq
      rfl
  · have heq := eq_of_mem_artifact hminified
    unfold minified at heq
    cases hinclusion : Inclusion.ofSettings config.minify with
    | error cause =>
      rw [hinclusion] at heq
      cases heq
      rfl
    | ok inclusion =>
    rw [hinclusion] at heq
    cases hmade : minify inclusion introspection with
    | ok made =>
      simp only [Except.mapError, bind, Except.bind, hmade] at heq
      cases heq
    | error mismatch =>
      simp only [Except.mapError, bind, Except.bind, hmade] at heq
      cases heq
      rfl

/-! ## Publishers -/

/-- What is wrong with a configured schema. -/
inductive LoadFails (surroundings : Surroundings) (config : SchemaOptions) : Reporting → Prop where
  /-- Something is wrong with its file. -/
  | file {reporting : Reporting} (place : config.schema.startsWith "http" = false)
      (fails : FileFails surroundings.disk config.schema config.query reporting) :
      LoadFails surroundings config reporting
  /-- Something is wrong with its endpoint. -/
  | endpoint {reporting : Reporting} (place : config.schema.startsWith "http" = true)
      (fails : EndpointFails surroundings.network config reporting) :
      LoadFails surroundings config reporting

theorem mapError_eq_error_iff {α ε ε' : Type} {f : ε → ε'} {x : Except ε α} {e : ε'} :
    x.mapError f = .error e ↔ ∃ cause, x = .error cause ∧ f cause = e := by
  cases x with
  | error cause => simp [Except.mapError]
  | ok value => simp [Except.mapError]

/-- A schema has an introspection result unless something is wrong with it. -/
theorem loadFails_iff {surroundings : Surroundings} : LoadFails surroundings config reporting ↔
    ∃ fault, (load surroundings config).2 = .error fault ∧ fault.reporting = reporting := by
  unfold load
  cases hplace : config.schema.startsWith "http" with
  | false =>
    rw [if_neg Bool.false_ne_true, ← fileFails_iff]
    constructor
    · rintro (⟨_, hfails⟩ | ⟨hremote, -⟩)
      · exact hfails
      · cases hplace.symm.trans hremote
    · exact .file hplace
  | true =>
    rw [if_pos rfl]
    constructor
    · rintro (⟨hlocal, -⟩ | ⟨_, hfails⟩)
      · cases hplace.symm.trans hlocal
      · obtain ⟨fault, hfetch, hreporting⟩ := endpointFails_iff.1 hfails
        exact ⟨_, mapError_eq_error_iff.2 ⟨fault, hfetch, rfl⟩, hreporting⟩
    · rintro ⟨fault, h, hreporting⟩
      obtain ⟨cause, hfetch, rfl⟩ := mapError_eq_error_iff.1 h
      exact .endpoint hplace (endpointFails_iff.2 ⟨cause, hfetch, hreporting⟩)

end Publishing

open Publishing (Reporting LoadFails WritingFails artifacts writeEach)

/-- What keeps a publisher from publishing. -/
inductive Publisher.Fails (publisher : Publisher) (surroundings : Surroundings) :
    Reporting → Prop where
  /-- Something is wrong with the schema. -/
  | loading {reporting : Reporting}
      (fails : LoadFails surroundings publisher.config reporting) :
      Fails publisher surroundings reporting
  /-- An artifact of a new introspection result cannot be made or written. -/
  | writing {introspection : Json} {reporting : Reporting}
      (load_eq : (load surroundings publisher.config).2 = .ok introspection)
      (new : publisher.last ≠ some (digest (Json.digestText introspection)))
      (fails : WritingFails surroundings.disk (artifacts publisher.config introspection)
        reporting) : Fails publisher surroundings reporting

theorem Publisher.result_publish (publisher : Publisher) (surroundings : Surroundings) :
    (publisher.publish surroundings).result =
      (Introspection.publish surroundings publisher.config publisher.last).2 := by
  unfold Publisher.publish
  split
  · next heq => rw [heq]
  · next heq => rw [heq]

/-- Publishing fails when the schema is not loaded, or when a new result is not written. -/
theorem publish_eq_error_iff {surroundings : Surroundings} {config : SchemaOptions}
    {previous : Option String} {fault : Publishing.Fault} :
    (publish surroundings config previous).2 = .error fault ↔
      (load surroundings config).2 = .error fault ∨
        ∃ introspection, (load surroundings config).2 = .ok introspection ∧
          previous ≠ some (digest (Json.digestText introspection)) ∧
          (writeEach surroundings.disk (artifacts config introspection)).2 = .error fault := by
  have hdisk := disk_load surroundings config
  unfold publish
  generalize load surroundings config = loaded at hdisk
  obtain ⟨made, cause | introspection⟩ := loaded
  · simp
  dsimp only at hdisk ⊢
  rw [hdisk]
  split
  · next hlast => simp [hlast]
  · next hnew =>
    cases hwritten : (writeEach surroundings.disk (artifacts config introspection)).2 with
    | error cause => simp [Except.map, hnew, hwritten]
    | ok _ => simp [Except.map, hwritten]

/-- **Why artifacts are not published.** Publishing fails exactly when something keeps the publisher
from it, and the fault is reported where it says. -/
theorem Publisher.fails_iff {publisher : Publisher} {surroundings : Surroundings}
    {reporting : Reporting} : publisher.Fails surroundings reporting ↔
      ∃ fault, (publisher.publish surroundings).result = .error fault ∧
        fault.reporting = reporting := by
  have hmade (introspection : Json) (path : String) (fault : Publishing.Fault)
      (hmem : (path, .error fault) ∈ artifacts publisher.config introspection) :
      fault.reporting = .never := Publishing.reporting_of_mem_artifacts hmem
  rw [Publisher.result_publish]
  constructor
  · rintro (hfails | ⟨hload, hnew, hfails⟩)
    · obtain ⟨fault, hload, hreporting⟩ := Publishing.loadFails_iff.1 hfails
      exact ⟨fault, publish_eq_error_iff.2 (.inl hload), hreporting⟩
    · obtain ⟨fault, hwritten, hreporting⟩ := (Publishing.writingFails_iff (hmade _)).1 hfails
      exact ⟨fault, publish_eq_error_iff.2 (.inr ⟨_, hload, hnew, hwritten⟩), hreporting⟩
  · rintro ⟨fault, h, hreporting⟩
    obtain hload | ⟨introspection, hload, hnew, hwritten⟩ := publish_eq_error_iff.1 h
    · exact .loading (Publishing.loadFails_iff.2 ⟨fault, hload, hreporting⟩)
    · exact .writing hload hnew
        ((Publishing.writingFails_iff (hmade _)).2 ⟨fault, hwritten, hreporting⟩)

end PersistedQueries.Introspection
