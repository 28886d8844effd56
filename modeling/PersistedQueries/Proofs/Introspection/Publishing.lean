import PersistedQueries.Proofs.Disk.Replacing
import PersistedQueries.Proofs.Introspection.Artifacts

/-!
# What a publisher leaves on the disk

A publisher writes its artifacts one after the other, and remembers the digest of an introspection
result only when all of them are written. So a call that fails halfway leaves some artifacts of the
new result beside others of the one before, while the digest is still that of the one before.

- `Publishing.Stored`: the artifacts of a result are on a disk, up to the order of fields.
- `stored_of_writeEach`: they are, once all of them are written.
- `Publisher.Call`, `Publisher.publish_changes`: what one call does, in its four cases, and what it
  leaves alone.
- `Publishing.Run`: calls of one publisher; in between the schema and the endpoint may change in any
  way, and only the artifacts stay as they are.
- `Run.artifacts_of_publish`: the digest of a call is that of the result it has loaded, and the
  artifacts of that result are on the disk, unless a call that came to nothing has mixed them and
  the digest is the remembered one.
- `stale_after_failure`: in that case the artifacts on the disk may be those of another result.
-/

namespace PersistedQueries

/-- A result that is there as far as it is an option. -/
theorem eq_ok_of_toOption {α ε : Type} {x : Except ε α} {a : α} (h : x.toOption = some a) :
    x = .ok a := by
  cases x with
  | error fault => cases h
  | ok value => exact congrArg Except.ok (Option.some.inj h)

namespace Introspection

open Json (SameFields Agrees)

variable {config : SchemaOptions} {disk later : Disk} {introspection other : Json}

/-! ## Stored artifacts -/

namespace Publishing

/-- A path that is configured and not empty. -/
def pathOf (path : Option String) : List String := (path.filter (· ≠ "")).toList

/-- The configured paths, in the order in which they are written. -/
def paths (config : SchemaOptions) : List String :=
  pathOf config.schemaPath ++ pathOf config.possibleTypesPath ++ pathOf config.minifiedPath

theorem map_fst_artifact (path : Option String) (content : Except Fault Json) :
    (artifact path content).map Prod.fst = pathOf path := by
  cases path with
  | none => rfl
  | some path =>
    unfold artifact pathOf
    dsimp only [Option.filter]
    by_cases hpath : path = ""
    · rw [if_pos hpath, if_neg (by simpa using hpath)]
      rfl
    · rw [if_neg hpath, if_pos (by simpa using hpath)]
      rfl

theorem map_fst_artifacts (config : SchemaOptions) (introspection : Json) :
    (artifacts config introspection).map Prod.fst = paths config := by
  unfold artifacts paths
  rw [List.map_append, List.map_append, map_fst_artifact, map_fst_artifact, map_fst_artifact]

/-- Every artifact of an introspection result is on a disk, up to the order of fields. -/
def Stored (config : SchemaOptions) (introspection : Json) (disk : Disk) : Prop :=
  ∀ path content, (path, content) ∈ artifacts config introspection →
    ∃ value stored, content = .ok value ∧ SameFields value stored ∧
      disk.readOctets path = .ok (Disk.jsonOctets stored)

/-- The artifacts of a result are those of any other that is equal up to the order of fields. -/
theorem Stored.congr (h : Stored config introspection disk)
    (hsame : SameFields introspection other) : Stored config other disk := by
  intro path content hmem
  obtain ⟨i, hi, hget⟩ := List.mem_iff_getElem.1 hmem
  have hall := agrees_artifacts config hsame
  have hi' : i < (artifacts config introspection).length := hall.length_eq ▸ hi
  obtain ⟨hpath, hagrees⟩ := hall.get hi' hi
  rw [List.get_eq_getElem, List.get_eq_getElem, hget] at hpath hagrees
  obtain ⟨value, stored, hvalue, hstored, hread⟩ := h _ _ (List.getElem_mem hi')
  obtain ⟨value', hvalue', hvalues⟩ := hagrees.of_ok hvalue
  refine ⟨value', stored, hvalue', hvalues.symm.trans hstored, ?_⟩
  rw [← hread]
  exact congrArg disk.readOctets hpath.symm

/-- Artifacts stay while their files do. -/
theorem Stored.mono (h : Stored config introspection disk)
    (hkept : ∀ path ∈ paths config, ∀ octets, disk.readOctets path = .ok octets →
      later.readOctets path = .ok octets) : Stored config introspection later := by
  intro path content hmem
  obtain ⟨value, stored, hvalue, hstored, hread⟩ := h path content hmem
  refine ⟨value, stored, hvalue, hstored, hkept path ?_ _ hread⟩
  rw [← map_fst_artifacts config introspection]
  exact List.mem_map_of_mem hmem

/-- Writing artifacts touches no other file, also when one of them fails. -/
theorem touches_writeEach (disk : Disk) (entries : List (String × Except Fault Json)) :
    Disk.Touches (· ∈ entries.map fun entry => disk.placeOf entry.1) disk
      (writeEach disk entries).1 := by
  induction entries generalizing disk with
  | nil => exact .refl _ disk
  | cons entry entries ih =>
    obtain ⟨path, _ | content⟩ := entry
    · exact .refl _ disk
    rw [writeEach]
    have hfirst : Disk.Touches
        (· ∈ disk.placeOf path :: entries.map fun entry => disk.placeOf entry.1) disk
        (disk.writeJson path content).1 :=
      (Disk.replaceFile_eq disk path (Disk.jsonOctets content)).1.mono
        fun place hplace => List.mem_cons.2 (.inl hplace)
    generalize disk.writeJson path content = outcome at hfirst
    obtain ⟨made, _ | _⟩ := outcome
    · exact hfirst
    have hrest := ih made
    simp only [hfirst.placeOf] at hrest
    exact hfirst.trans (hrest.mono fun place hplace => List.mem_cons.2 (.inr hplace))

/-- Once all of some artifacts are written, each of them is on the disk, if they are written to
different places: none is written over by one that comes later. -/
theorem read_of_writeEach {entries : List (String × Except Fault Json)}
    (hplaces : (entries.map fun entry => disk.placeOf entry.1).Nodup)
    (h : writeEach disk entries = (later, .ok ())) :
    ∀ path content, (path, content) ∈ entries →
      ∃ value, content = .ok value ∧ later.readOctets path = .ok (Disk.jsonOctets value) := by
  induction entries generalizing disk with
  | nil => exact fun _ _ hmem => nomatch hmem
  | cons entry entries ih =>
    obtain ⟨first, fault | content⟩ := entry
    · cases h
    obtain ⟨hfirst, hread⟩ := Disk.replaceFile_eq disk first (Disk.jsonOctets content)
    rw [writeEach] at h
    split at h
    · cases h
    next made hmade =>
    change disk.replaceFile first (Disk.jsonOctets content) = _ at hmade
    rw [hmade] at hfirst hread
    obtain ⟨hnew, hrest⟩ := List.nodup_cons.1 hplaces
    have hframe := touches_writeEach made entries
    rw [h] at hframe
    simp only [← hfirst.placeOf] at hnew hrest
    intro path content' hmem
    rcases List.mem_cons.1 hmem with heq | hmem
    · cases heq
      exact ⟨content, rfl, hframe.readOctets hnew (hread rfl)⟩
    · exact ih hrest h path content' hmem

theorem stored_of_writeEach (hplaces : ((paths config).map disk.placeOf).Nodup)
    (h : writeEach disk (artifacts config introspection) = (later, .ok ())) :
    Stored config introspection later := by
  rw [← map_fst_artifacts config introspection, List.map_map] at hplaces
  intro path content hmem
  obtain ⟨value, hvalue, hread⟩ := read_of_writeEach hplaces h path content hmem
  exact ⟨value, value, hvalue, .refl value, hread⟩

end Publishing

/-! ## One call -/

theorem disk_load (surroundings : Surroundings) (config : SchemaOptions) :
    (load surroundings config).1.disk = surroundings.disk := by
  unfold load
  split <;> rfl

/-- What one call of a publisher does with what it has loaded: nothing, if that is a fault or has
the digest of the last time; otherwise it writes the artifacts, and remembers the digest if it has
written all of them. -/
inductive Publisher.Call (publisher : Publisher) (disk : Disk) :
    Except Publishing.Fault Json → Published → Prop where
  | unloaded {fault : Publishing.Fault} {published : Published}
      (publisher_eq : published.publisher = publisher)
      (disk_eq : published.surroundings.disk = disk) (result_eq : published.result = .error fault) :
      Call publisher disk (.error fault) published
  | unchanged {introspection : Json} {published : Published}
      (last_eq : publisher.last = some (digest (Json.digestText introspection)))
      (publisher_eq : published.publisher = publisher)
      (disk_eq : published.surroundings.disk = disk)
      (result_eq : published.result = .ok (digest (Json.digestText introspection))) :
      Call publisher disk (.ok introspection) published
  | failed {introspection : Json} {published : Published} {fault : Publishing.Fault}
      (publisher_eq : published.publisher = publisher)
      (written : Publishing.writeEach disk (Publishing.artifacts publisher.config introspection) =
        (published.surroundings.disk, .error fault))
      (result_eq : published.result = .error fault) :
      Call publisher disk (.ok introspection) published
  | written {introspection : Json} {published : Published}
      (last_ne : publisher.last ≠ some (digest (Json.digestText introspection)))
      (publisher_eq : published.publisher =
        { publisher with last := some (digest (Json.digestText introspection)) })
      (written : Publishing.writeEach disk (Publishing.artifacts publisher.config introspection) =
        (published.surroundings.disk, .ok ()))
      (result_eq : published.result = .ok (digest (Json.digestText introspection))) :
      Call publisher disk (.ok introspection) published

theorem Publisher.call (publisher : Publisher) (surroundings : Surroundings) :
    publisher.Call surroundings.disk (load surroundings publisher.config).2
      (publisher.publish surroundings) := by
  have hdisk := disk_load surroundings publisher.config
  unfold Publisher.publish Introspection.publish
  generalize load surroundings publisher.config = loaded at hdisk
  obtain ⟨surroundings', fault | introspection⟩ := loaded
  · exact .unloaded rfl hdisk rfl
  dsimp only at hdisk ⊢
  by_cases hlast : publisher.last = some (digest (Json.digestText introspection))
  · rw [if_pos hlast]
    refine .unchanged hlast ?_ hdisk rfl
    show { publisher with last := some (digest (Json.digestText introspection)) } = publisher
    rw [← hlast]
  rw [if_neg hlast, hdisk]
  cases hwritten : Publishing.writeEach surroundings.disk
      (Publishing.artifacts publisher.config introspection) with
  | mk later outcome =>
    cases outcome with
    | error fault => exact .failed rfl hwritten rfl
    | ok _ => exact .written hlast rfl hwritten rfl

/-- A call keeps what is configured, and touches nothing but the artifacts. -/
theorem Publisher.publish_changes (publisher : Publisher) (surroundings : Surroundings) :
    (publisher.publish surroundings).publisher.config = publisher.config ∧
      Disk.Touches
        (· ∈ (Publishing.paths publisher.config).map surroundings.disk.placeOf)
        surroundings.disk (publisher.publish surroundings).surroundings.disk := by
  have hframe (introspection : Json) := Publishing.touches_writeEach surroundings.disk
    (Publishing.artifacts publisher.config introspection)
  have hpaths (introspection : Json) :
      (Publishing.artifacts publisher.config introspection).map
          (fun entry => surroundings.disk.placeOf entry.1) =
        (Publishing.paths publisher.config).map surroundings.disk.placeOf := by
    rw [← Publishing.map_fst_artifacts publisher.config introspection, List.map_map]
    rfl
  have hcall := publisher.call surroundings
  generalize publisher.publish surroundings = published,
    (load surroundings publisher.config).2 = loaded at hcall
  cases hcall with
  | unloaded hpublisher hdisk _ =>
    rw [hpublisher, hdisk]
    exact ⟨rfl, .refl _ _⟩
  | unchanged _ hpublisher hdisk _ =>
    rw [hpublisher, hdisk]
    exact ⟨rfl, .refl _ _⟩
  | @failed introspection _ _ hpublisher hwritten _ =>
    have hframe := hframe introspection
    rw [hwritten, hpaths] at hframe
    exact ⟨congrArg Publisher.config hpublisher, hframe⟩
  | @written introspection _ _ hpublisher hwritten _ =>
    have hframe := hframe introspection
    rw [hwritten, hpaths] at hframe
    rw [hpublisher]
    exact ⟨rfl, hframe⟩

/-! ## Runs -/

namespace Publishing

/-- A publisher between two calls, with what it works with and what its calls have come to so
far. -/
structure State where
  /-- The publisher. -/
  publisher : Publisher
  /-- The files and the endpoints. -/
  surroundings : Surroundings
  /-- The introspection results that have been loaded. -/
  loaded : List Json := []
  /-- A call has failed after it had loaded a result, and none has written all artifacts since. -/
  isMixed : Bool := false

/-- What a call leaves that has loaded a result or a fault. -/
def State.after (state : State) (loaded : Except Fault Json) (published : Published) : State where
  publisher := published.publisher
  surroundings := published.surroundings
  loaded :=
    match loaded with
    | .error _ => state.loaded
    | .ok introspection => state.loaded ++ [introspection]
  isMixed :=
    match loaded, published.result with
    | .error _, _ => state.isMixed
    | .ok _, .error _ => true
    | .ok _, .ok hash => if state.publisher.last = some hash then state.isMixed else false

/-- Publish the artifacts once more. -/
def State.call (state : State) : State :=
  state.after (load state.surroundings state.publisher.config).2
    (state.publisher.publish state.surroundings)

/-- What the calls of one publisher leave that has not published before. Between calls the files and
the endpoints may change in any way, but for the artifacts and the working directory. -/
inductive Run (config : SchemaOptions) (disk : Disk) : State → Prop where
  | start (publisher : Publisher) (surroundings : Surroundings)
      (config_eq : publisher.config = config) (last_eq : publisher.last = none)
      (disk_eq : surroundings.disk = disk) : Run config disk { publisher, surroundings }
  | call {state : State} (run : Run config disk state) : Run config disk state.call
  | meanwhile {state : State} (run : Run config disk state) (surroundings : Surroundings)
      (working_eq : surroundings.disk.working = state.surroundings.disk.working)
      (kept : ∀ path ∈ paths config, ∀ octets,
        state.surroundings.disk.readOctets path = .ok octets →
          surroundings.disk.readOctets path = .ok octets) :
      Run config disk { state with surroundings }

/-- The artifacts of the remembered result are on the disk, unless they have been mixed. -/
structure State.Sound (config : SchemaOptions) (disk : Disk) (state : State) : Prop where
  config_eq : state.publisher.config = config
  working_eq : state.surroundings.disk.working = disk.working
  stored : ∀ hash, state.publisher.last = some hash → state.isMixed = false →
    ∃ introspection ∈ state.loaded, hash = digest (Json.digestText introspection) ∧
      Stored config introspection state.surroundings.disk

variable {state : State} {hash : String}

theorem State.Sound.nodup (h : state.Sound config disk)
    (hplaces : ((paths config).map disk.placeOf).Nodup) :
    ((paths config).map state.surroundings.disk.placeOf).Nodup := by
  have hplace (path : String) : state.surroundings.disk.placeOf path = disk.placeOf path := by
    unfold Disk.placeOf Disk.startOf
    rw [h.working_eq]
  rwa [funext hplace]

/-- Every call keeps a publisher sound. -/
theorem State.Sound.call (h : state.Sound config disk)
    (hplaces : ((paths config).map disk.placeOf).Nodup) : state.call.Sound config disk := by
  have hnodup := h.nodup hplaces
  obtain ⟨hconfig, hchanges⟩ := state.publisher.publish_changes state.surroundings
  refine ⟨hconfig.trans h.config_eq, hchanges.working.trans h.working_eq,
    fun hash hlast hmixed => ?_⟩
  obtain ⟨rfl, -, hstored⟩ := h
  have hcall := state.publisher.call state.surroundings
  unfold State.call at hlast hmixed ⊢
  generalize (load state.surroundings state.publisher.config).2 = loaded,
    state.publisher.publish state.surroundings = published at hcall hlast hmixed ⊢
  dsimp only [State.after] at hlast hmixed ⊢
  cases hcall with
  | unloaded hpublisher hdisk hresult =>
    rw [hdisk]
    exact hstored hash (hpublisher ▸ hlast) hmixed
  | unchanged hremembered hpublisher hdisk hresult =>
    rw [hresult] at hmixed
    dsimp only at hmixed
    rw [if_pos hremembered] at hmixed
    rw [hpublisher] at hlast
    obtain ⟨introspection, hmem, hhash, hon⟩ := hstored hash hlast hmixed
    exact ⟨introspection, List.mem_append_left _ hmem, hhash, hdisk ▸ hon⟩
  | failed hpublisher hwritten hresult =>
    rw [hresult] at hmixed
    cases hmixed
  | @written introspection _ hnew hpublisher hwritten hresult =>
    rw [hpublisher] at hlast
    exact ⟨introspection, List.mem_append_right _ (List.mem_singleton_self introspection),
      (Option.some.inj hlast).symm, stored_of_writeEach hnodup hwritten⟩

/-- Every run leaves a sound publisher. -/
theorem Run.sound (hrun : Run config disk state)
    (hplaces : ((paths config).map disk.placeOf).Nodup) : state.Sound config disk := by
  induction hrun with
  | start publisher surroundings hconfig hlast hdisk =>
    refine ⟨hconfig, congrArg Disk.working hdisk, ?_⟩
    intro hash hlast'
    cases hlast.symm.trans hlast'
  | call _ ih => exact ih.call hplaces
  | meanwhile _ surroundings hworking hkept ih =>
    refine ⟨ih.config_eq, hworking.trans ih.working_eq, ?_⟩
    intro hash hlast hmixed
    obtain ⟨introspection, hmem, hhash, hon⟩ := ih.stored hash hlast hmixed
    exact ⟨introspection, hmem, hhash, hon.mono hkept⟩

/-- **What a publisher leaves on the disk.** A call of any run that results in a digest has loaded
an introspection result with that digest. The artifacts of the result are on the disk then, in the
order of fields of the result or another one, if the call has written them, or else if no call that
failed halfway has mixed them since they were written. -/
theorem Run.artifacts_of_publish (hrun : Run config disk state)
    (hplaces : ((paths config).map disk.placeOf).Nodup)
    (hdigest : ∀ a ∈ state.call.loaded, ∀ b ∈ state.call.loaded,
      digest (Json.digestText a) = digest (Json.digestText b) → SameFields a b)
    (h : (state.publisher.publish state.surroundings).result = .ok hash) :
    ∃ introspection, (load state.surroundings config).2 = .ok introspection ∧
      hash = digest (Json.digestText introspection) ∧
      (state.publisher.last ≠ some hash ∨ state.isMixed = false →
        Stored config introspection
          (state.publisher.publish state.surroundings).surroundings.disk) := by
  have hnodup := (hrun.sound hplaces).nodup hplaces
  obtain ⟨rfl, -, hstored⟩ := hrun.sound hplaces
  have hcall := state.publisher.call state.surroundings
  unfold State.call at hdigest
  generalize (load state.surroundings state.publisher.config).2 = loaded,
    state.publisher.publish state.surroundings = published at hcall hdigest h ⊢
  cases hcall with
  | unloaded _ _ hresult => cases hresult.symm.trans h
  | failed _ _ hresult => cases hresult.symm.trans h
  | @unchanged introspection _ hlast hpublisher hdisk hresult =>
    have hhash := Except.ok.inj (h.symm.trans hresult)
    refine ⟨introspection, rfl, hhash, fun hclean => ?_⟩
    have hclean := hclean.resolve_left (not_not.2 (hhash ▸ hlast))
    -- what is on the disk was written for a result with the same digest
    obtain ⟨stored, hmem, heq, hon⟩ := hstored _ hlast hclean
    have hloaded : introspection ∈ state.loaded ++ [introspection] :=
      List.mem_append_right _ (List.mem_singleton_self introspection)
    rw [hdisk]
    exact hon.congr (hdigest _ (List.mem_append_left _ hmem) _ hloaded heq.symm)
  | @written introspection _ hlast hpublisher hwritten hresult =>
    refine ⟨introspection, rfl, Except.ok.inj (h.symm.trans hresult), fun _ => ?_⟩
    exact stored_of_writeEach hnodup hwritten

/-! ## Two artifacts of an endpoint -/

/-- The introspection result and the map of possible types of an endpoint. -/
def endpointConfig : SchemaOptions where
  schema := "http://api/graphql"
  schemaPath := some "schema.json"
  possibleTypesPath := some "possible.json"

/-- An empty directory, and an endpoint that will answer with some results. -/
def endpointSurroundings (results : List Json) : Surroundings where
  disk := .withDirectory ['w']
  network :=
    { outcomes := results.map fun result =>
        .answered 200 (Json.write Json.compact (.object [("data", result)])) }

/-- A publisher that has not published before, with such an endpoint. -/
def endpointStart (results : List Json) : State where
  publisher := { config := endpointConfig }
  surroundings := endpointSurroundings results

theorem run_endpointStart (results : List Json) :
    Run endpointConfig (.withDirectory ['w']) (endpointStart results) :=
  .start _ (endpointSurroundings results) rfl rfl rfl

theorem nodup_endpointConfig :
    ((paths endpointConfig).map (Disk.withDirectory ['w']).placeOf).Nodup := by
  decide +kernel

/-- The result of a schema without types. -/
def plainSchema : Json :=
  .object [("__schema", .object [("queryType", .null), ("types", .array [])])]

/-- The same with its fields in another order. -/
def reorderedSchema : Json :=
  .object [("__schema", .object [("types", .array []), ("queryType", .null)])]

theorem sameFields_reorderedSchema : SameFields plainSchema reorderedSchema := by
  decide +kernel

/-- An endpoint that answers with another order of fields: nothing is written again, and what has
been written is right. -/
theorem artifacts_of_publish_reordered :
    let state := (endpointStart [plainSchema, reorderedSchema]).call
    let published := state.publisher.publish state.surroundings
    published.result = .ok (digest (Json.digestText reorderedSchema)) ∧
      state.publisher.last = some (digest (Json.digestText reorderedSchema)) ∧
      Stored endpointConfig reorderedSchema published.surroundings.disk := by
  intro state published
  have hrun : Run endpointConfig (.withDirectory ['w']) state := (run_endpointStart _).call
  have hcomputed : state.call.loaded = [plainSchema, reorderedSchema] ∧
      (load state.surroundings endpointConfig).2.toOption = some reorderedSchema ∧
      published.result.toOption = some (digest (Json.digestText reorderedSchema)) ∧
      state.publisher.last = some (digest (Json.digestText reorderedSchema)) ∧
      state.isMixed = false := by
    decide +kernel
  obtain ⟨hloaded, hload, hresult, hlast, hclean⟩ := hcomputed
  have hdigest : ∀ a ∈ state.call.loaded, ∀ b ∈ state.call.loaded,
      digest (Json.digestText a) = digest (Json.digestText b) → SameFields a b := by
    intro a ha b hb _
    rw [hloaded, List.mem_pair] at ha hb
    rcases ha with rfl | rfl <;> rcases hb with rfl | rfl
    · exact .refl _
    · exact sameFields_reorderedSchema
    · exact sameFields_reorderedSchema.symm
    · exact .refl _
  obtain ⟨introspection, hintrospection, -, hstored⟩ :=
    hrun.artifacts_of_publish nodup_endpointConfig hdigest (eq_ok_of_toOption hresult)
  cases (eq_ok_of_toOption hload).symm.trans hintrospection
  exact ⟨eq_ok_of_toOption hresult, hlast, hstored (.inr hclean)⟩

/-- The result of a schema of which only the types are known, and there are none. -/
def emptySchema : Json := .object [("__schema", .object [("types", .array [])])]

/-- A result that no map of possible types can be made of. -/
def brokenSchema : Json := .object [("__schema", .object [])]

/-- Where every object has one field there is no other order. -/
theorem eq_of_sameFields_emptySchema {stored : Json} (h : SameFields emptySchema stored) :
    stored = emptySchema := by
  have hsingle : ∀ {name value stored}, SameFields (.object [(name, value)]) stored →
      ∃ value', stored = .object [(name, value')] ∧ SameFields value value' := by
    intro name value stored h
    rcases h.cases with rfl | ⟨_, _, heq, -⟩ | ⟨_, fields, heq, rfl, hsort⟩
    · exact ⟨value, rfl, .refl value⟩
    · cases heq
    · cases heq
      have hlength := Json.length_eq_of_sortFields hsort
      obtain ⟨⟨name', value'⟩, rfl⟩ := List.length_eq_one_iff.1 hlength.symm
      obtain ⟨hfield, -⟩ := List.cons.inj hsort
      obtain ⟨rfl, hvalue⟩ := Prod.mk.inj hfield
      exact ⟨value', rfl, hvalue⟩
  obtain ⟨schema, rfl, hschema⟩ := hsingle h
  obtain ⟨types, rfl, htypes⟩ := hsingle hschema
  rcases htypes.cases with rfl | ⟨_, items, heq, rfl, hitems⟩ | ⟨_, _, heq, -⟩
  · rfl
  · cases heq
    cases hitems
    rfl
  · cases heq

/-- **Artifacts of another result.** An endpoint answers with a result, then with one that has no
types, and then with the first one again. The second call fails when its result is on the disk
already; the third one has the remembered digest, and leaves it there. -/
theorem stale_after_failure :
    ∃ state, Run endpointConfig (.withDirectory ['w']) state ∧
      (load state.surroundings endpointConfig).2 = .ok emptySchema ∧
      (state.publisher.publish state.surroundings).result =
        .ok (digest (Json.digestText emptySchema)) ∧
      ¬ Stored endpointConfig emptySchema
        (state.publisher.publish state.surroundings).surroundings.disk := by
  let state := (endpointStart [emptySchema, brokenSchema, emptySchema]).call.call
  have hcomputed : (load state.surroundings endpointConfig).2.toOption = some emptySchema ∧
      (state.publisher.publish state.surroundings).result.toOption =
        some (digest (Json.digestText emptySchema)) ∧
      (state.publisher.publish state.surroundings).surroundings.disk.readOctets "schema.json" =
        .ok (Disk.jsonOctets brokenSchema) := by
    decide +kernel
  obtain ⟨hload, hresult, hbroken⟩ := hcomputed
  refine ⟨state, (run_endpointStart _).call.call, eq_ok_of_toOption hload,
    eq_ok_of_toOption hresult, fun hstored => ?_⟩
  have hmem : ("schema.json", .ok emptySchema) ∈ artifacts endpointConfig emptySchema :=
    List.mem_cons_self
  obtain ⟨value, stored, hvalue, hsame, hread⟩ := hstored _ _ hmem
  cases hvalue
  rw [eq_of_sameFields_emptySchema hsame, hbroken] at hread
  have hne : Disk.jsonOctets brokenSchema ≠ Disk.jsonOctets emptySchema := by decide +kernel
  exact hne (Except.ok.inj hread)

end Publishing

end Introspection

end PersistedQueries
