import PersistedQueries.Introspection.Publisher
import PersistedQueries.Proofs.Json.FieldOrder

/-!
# Artifacts up to the order of fields

What is published of an introspection result does not depend on the order of its fields: artifacts
of two results that are equal up to that order are equal up to it, or cannot be made for the same
reason.

- `agrees_possibleTypes`, `agrees_minify`: the map of possible types and the minified result.
- `Publishing.agrees_artifacts`: all the configured artifacts.
-/

namespace PersistedQueries.Introspection

open Json (SameFields SameItems Agrees Mismatch)

variable {a b : Json} {inclusion : Inclusion}

/-! ## Possible types -/

theorem agrees_typeNames (h : SameFields a b) : Agrees SameFields (typeNames a) (typeNames b) :=
  h.elements.bind fun _ _ hitems =>
    (hitems.mapM (fun _ _ htype => htype.get "name") (fun _ => rfl) fun _ => rfl).bind
      fun _ _ hnames => Json.sameFields_array.2 hnames

/-- Keys are equal, since they are neither lists nor objects; and such values are equal already. -/
theorem agrees_key (h : SameFields a b) :
    Agrees (fun key key' => key = key' ∧ a = b) (Key.of a) (Key.of b) := by
  rcases h.cases with rfl | ⟨items, items', rfl, rfl, -⟩ | ⟨fields, fields', rfl, rfl, -⟩
  · cases a <;> first
      | exact ⟨rfl, rfl⟩
      | rfl
  · rfl
  · rfl

/-- Two maps of possible types have the same keys with the same spellings, and names that are equal
up to the order of fields. -/
def SamePossible (map map' : Table Key (Json × Json)) : Prop :=
  List.Forall₂ (fun entry entry' => entry.1 = entry'.1 ∧ entry.2.1 = entry'.2.1 ∧
    SameFields entry.2.2 entry'.2.2) map.entries map'.entries

namespace SamePossible

variable {map map' : Table Key (Json × Json)}

theorem spelling (h : SamePossible map map') (key : Key) :
    (map.get? key).map Prod.fst = (map'.get? key).map Prod.fst := by
  unfold Table.get?
  unfold SamePossible at h
  generalize map.entries = entries, map'.entries = entries' at h
  induction h with
  | nil => rfl
  | cons hentry _ ih =>
    obtain ⟨hkey, hname, -⟩ := hentry
    rw [Table.lookup, Table.lookup, hkey]
    split
    · exact congrArg some hname
    · exact ih

theorem insert (h : SamePossible map map') (key : Key) (name : Json) {names names' : Json}
    (hnames : SameFields names names') :
    SamePossible (map.insert key (name, names)) (map'.insert key (name, names')) := by
  unfold SamePossible at h ⊢
  unfold Table.insert
  dsimp only
  generalize map.entries = entries, map'.entries = entries' at h
  induction h with
  | nil => exact .cons ⟨rfl, rfl, hnames⟩ .nil
  | cons hentry hrest ih =>
    obtain ⟨hkey, hname⟩ := hentry
    rw [Table.put, Table.put, hkey]
    split
    · exact .cons ⟨rfl, rfl, hnames⟩ hrest
    · exact .cons ⟨rfl, hname⟩ ih

theorem object (h : SamePossible map map') :
    SameFields (.object (map.entries.map fun (_, name, names) => (keyText name, names)))
      (.object (map'.entries.map fun (_, name, names) => (keyText name, names))) := by
  refine Json.SameParts.object ?_
  unfold Json.SameParts
  rw [List.forall₂_map_left_iff, List.forall₂_map_right_iff]
  exact List.Forall₂.imp (fun _ _ hentry => ⟨congrArg keyText hentry.2.1, hentry.2.2⟩) h

end SamePossible

theorem enterPossible_string (map : Table Key (Json × Json)) (text : String) :
    enterPossible map (.string text) = .error (.noOperation "str" "get") := rfl

theorem agrees_enterPossible {map map' : Table Key (Json × Json)} (hmap : SamePossible map map')
    (h : SameFields a b) : Agrees SamePossible (enterPossible map a) (enterPossible map' b) := by
  refine (h.getD "possibleTypes" .null).bind fun possible possible' hpossible => ?_
  rw [hpossible.isTruthy]
  split
  · refine (agrees_typeNames hpossible).bind fun names names' hnames => ?_
    refine (h.get "name").bind fun name name' hname => ?_
    refine (agrees_key hname).bind fun key key' hkeys => ?_
    obtain ⟨rfl, rfl⟩ := hkeys
    rw [hmap.spelling key]
    exact hmap.insert key _ hnames
  · exact hmap

/-- The maps of possible types are equal up to the order of fields, or fail alike. -/
theorem agrees_possibleTypes (h : SameFields a b) :
    Agrees SameFields (possibleTypes a) (possibleTypes b) := by
  refine (h.get "__schema").bind fun _ _ hschema => ?_
  refine (hschema.get "types").bind fun _ _ htypes => ?_
  refine htypes.elements.bind fun _ _ hitems => ?_
  have hempty : SamePossible .empty .empty := List.Forall₂.nil
  exact (hitems.foldlM (fun _ _ _ _ hmap htype => agrees_enterPossible hmap htype)
    enterPossible_string enterPossible_string hempty).bind fun _ _ hmap => hmap.object

/-! ## Minified results -/

namespace Minified

/-- An object of two fields. -/
theorem sameFields_pair {first second : String} {v v' w w' : Json} (hv : SameFields v v')
    (hw : SameFields w w') :
    SameFields (.object [(first, v), (second, w)]) (.object [(first, v'), (second, w')]) :=
  Json.SameParts.object (.cons ⟨rfl, hv⟩ (.cons ⟨rfl, hw⟩ .nil))

theorem keeps_congr (h : SameFields a b) : inclusion.keeps a = inclusion.keeps b := by
  rcases h.cases with rfl | ⟨_, _, rfl, rfl, -⟩ | ⟨_, _, rfl, rfl, -⟩ <;> rfl

theorem isWrapper_congr (h : SameFields a b) : isWrapper a = isWrapper b := by
  rcases h.cases with rfl | ⟨_, _, rfl, rfl, -⟩ | ⟨_, _, rfl, rfl, -⟩ <;> rfl

theorem agrees_namedReference {kind kind' : Json} (hkind : SameFields kind kind')
    (h : SameFields a b) :
    Agrees SameFields (namedReference inclusion kind a) (namedReference inclusion kind' b) := by
  unfold namedReference
  rw [keeps_congr hkind]
  split
  · refine (h.get "name").bind fun _ _ hname => hname.asKey.bind ?_
    rintro name _ rfl
    split
    · exact .refl anyScalar
    · exact sameFields_pair hkind (.refl name)
  · exact .refl anyScalar

/-- A reference, as what is made of the fields of the type in turn. -/
theorem reference_eq (type : Json) : reference inclusion type =
    ((type.get "kind").bind fun kind =>
      if isWrapper kind then
        (type.get "ofType").bind fun inner =>
          (reference inclusion inner).map fun inner => .object [("kind", kind), ("ofType", inner)]
      else namedReference inclusion kind type) := by
  rw [reference]
  cases type.get "kind" with
  | error mismatch => rfl
  | ok kind =>
    dsimp only [Except.bind]
    split
    · split <;> next hinner => rw [hinner]
    · rfl

/-- References, by induction on the type within the type. -/
theorem agrees_reference (h : SameFields a b) :
    Agrees SameFields (reference inclusion a) (reference inclusion b) := by
  fun_induction reference inclusion a generalizing b with
  | case1 a fault hkind =>
    rw [reference_eq b, (h.get "kind").of_error hkind]
    rfl
  | case2 a kind hkind hwrapper fault hinner =>
    obtain ⟨kind', hkind', hkinds⟩ := (h.get "kind").of_ok hkind
    rw [reference_eq b, hkind', (h.get "ofType").of_error hinner]
    dsimp only [Except.bind]
    rw [if_pos (isWrapper_congr hkinds ▸ hwrapper)]
    rfl
  | case3 a kind hkind hwrapper inner hinner ih =>
    obtain ⟨kind', hkind', hkinds⟩ := (h.get "kind").of_ok hkind
    obtain ⟨inner', hinner', hinners⟩ := (h.get "ofType").of_ok hinner
    rw [reference_eq b, hkind', hinner']
    dsimp only [Except.bind]
    rw [if_pos (isWrapper_congr hkinds ▸ hwrapper)]
    exact (ih hinners).map fun _ _ htype => sameFields_pair hkinds htype
  | case4 a kind hkind hwrapper =>
    obtain ⟨kind', hkind', hkinds⟩ := (h.get "kind").of_ok hkind
    rw [reference_eq b, hkind']
    dsimp only [Except.bind]
    rw [if_neg (isWrapper_congr hkinds ▸ hwrapper)]
    exact agrees_namedReference hkinds h

/-! ### Parts of types -/

theorem agrees_argument (h : SameFields a b) :
    Agrees SameFields (argument inclusion a) (argument inclusion b) := by
  refine (h.get "name").bind fun _ _ hname => ?_
  refine (h.get "type").bind fun _ _ htype => ?_
  exact (agrees_reference htype).bind fun _ _ hreference => sameFields_pair hname hreference

theorem agrees_arguments (h : SameFields a b) :
    Agrees SameFields (arguments inclusion a) (arguments inclusion b) := by
  refine h.elementsOrNone.bind fun _ _ hitems => ?_
  refine (hitems.mapM (fun _ _ hargument => agrees_argument hargument) (fun _ => rfl)
    fun _ => rfl).bind fun _ _ hmade => ?_
  exact Json.sameFields_array.2 hmade

theorem agrees_field (h : SameFields a b) :
    Agrees SameFields (field inclusion a) (field inclusion b) := by
  refine (h.get "name").bind fun _ _ hname => ?_
  refine (h.get "type").bind fun _ _ htype => ?_
  refine (agrees_reference htype).bind fun _ _ hreference => ?_
  refine (h.getD "args" .null).bind fun _ _ hargs => ?_
  refine (agrees_arguments hargs).bind fun _ _ harguments => ?_
  exact Json.SameParts.object
    (.cons ⟨rfl, hname⟩ (.cons ⟨rfl, hreference⟩ (.cons ⟨rfl, harguments⟩ .nil)))

/-- The items of a part of a type agree, if each one does and every string fails alike. -/
theorem agrees_items {item item' : Json → Except Mismatch Json} {fault : Mismatch} (name : String)
    (h : SameFields a b) (hitem : ∀ a b, SameFields a b → Agrees SameFields (item a) (item' b))
    (hstring : ∀ text, item (.string text) = .error fault)
    (hstring' : ∀ text, item' (.string text) = .error fault) :
    Agrees SameFields (items a name item) (items b name item') := by
  refine (h.getD name .null).bind fun _ _ hpart => ?_
  refine hpart.elementsOrNone.bind fun _ _ hitems => ?_
  exact (hitems.mapM hitem hstring hstring').bind fun _ _ hmade => Json.sameFields_array.2 hmade

theorem agrees_interface (h : SameFields a b) : Agrees SameFields (interface a) (interface b) :=
  (h.get "name").bind fun _ _ hname => sameFields_pair (.refl _) hname

theorem agrees_enumValue (h : SameFields a b) : Agrees SameFields (enumValue a) (enumValue b) :=
  (h.get "name").bind fun _ _ hname => Json.SameParts.object (.cons ⟨rfl, hname⟩ .nil)

/-- The same names with kinds that are equal up to the order of fields. -/
def SameKinds (kinds kinds' : Kinds) : Prop :=
  List.Forall₂ (fun entry entry' => entry.1 = entry'.1 ∧ SameFields entry.2 entry'.2) kinds kinds'

theorem SameKinds.kind {kinds kinds' : Kinds} (h : SameKinds kinds kinds') (name : Json) :
    SameFields (kinds.kind name) (kinds'.kind name) := by
  unfold Kinds.kind
  dsimp only
  have hreverse := List.rel_reverse h
  generalize kinds.reverse = last, kinds'.reverse = last' at hreverse
  induction hreverse with
  | nil => exact .refl _
  | cons hentry _ ih =>
    rw [List.find?_cons, List.find?_cons, hentry.1]
    split
    · exact hentry.2
    · exact ih

theorem agrees_kindsOf {types types' : List Json} (h : SameItems types types') :
    Agrees SameKinds (kindsOf types) (kindsOf types') := by
  refine h.mapM (fun _ _ htype => ?_) (fun _ => rfl) fun _ => rfl
  refine (htype.get "name").bind fun _ _ hname => ?_
  refine (htype.get "kind").bind fun _ _ hkind => ?_
  exact hname.asKey.bind fun _ _ hkey => ⟨hkey, hkind⟩

/-- A type is listed or left out, whatever the order of fields. -/
theorem agrees_isListed {name name' kind kind' : Json} (hname : SameFields name name')
    (hkind : SameFields kind kind') :
    Agrees (· = ·) (isListed inclusion name kind) (isListed inclusion name' kind') := by
  unfold isListed
  rw [keeps_congr hkind]
  rcases hname.cases with rfl | ⟨_, _, rfl, rfl, -⟩ | ⟨_, _, rfl, rfl, -⟩
  · cases name <;> rfl
  · rfl
  · rfl

section Types

variable {kinds kinds' : Kinds} (hkinds : SameKinds kinds kinds')
include hkinds

theorem agrees_possibleType (h : SameFields a b) :
    Agrees SameFields (possibleType kinds a) (possibleType kinds' b) := by
  refine (h.get "name").bind fun _ _ hname => hname.asKey.bind ?_
  rintro name _ rfl
  exact sameFields_pair (hkinds.kind name) (.refl name)

/-- What is made of a type, by the word for its kind. -/
theorem agrees_typeBody (kind : String) (h : SameFields a b) :
    Agrees Json.SameParts (typeBody inclusion kinds kind a) (typeBody inclusion kinds' kind b) := by
  have hpossible := agrees_items "possibleTypes" h
    (fun _ _ htype => agrees_possibleType hkinds htype) (fun _ => rfl) fun _ => rfl
  have hfield : ∀ a b, SameFields a b →
      Agrees SameFields (field inclusion a) (field inclusion b) := fun _ _ => agrees_field
  have hfields := agrees_items "fields" h hfield (fun _ => rfl) fun _ => rfl
  have hinterfaces := agrees_items "interfaces" h
    (fun _ _ hinterface => agrees_interface hinterface) (fun _ => rfl) fun _ => rfl
  unfold typeBody
  split
  · refine hfields.bind fun _ _ hfields => hinterfaces.bind fun _ _ hinterfaces => ?_
    exact List.Forall₂.cons ⟨rfl, hfields⟩ (.cons ⟨rfl, hinterfaces⟩ .nil)
  · refine hfields.bind fun _ _ hfields => hinterfaces.bind fun _ _ hinterfaces => ?_
    refine hpossible.bind fun _ _ hpossible => ?_
    exact List.Forall₂.cons ⟨rfl, hfields⟩
      (.cons ⟨rfl, hinterfaces⟩ (.cons ⟨rfl, hpossible⟩ .nil))
  · exact hpossible.bind fun _ _ hpossible => List.Forall₂.cons ⟨rfl, hpossible⟩ .nil
  · refine (agrees_items "enumValues" h (fun _ _ hvalue => agrees_enumValue hvalue) (fun _ => rfl)
      fun _ => rfl).bind fun _ _ hvalues => ?_
    exact List.Forall₂.cons ⟨rfl, hvalues⟩ .nil
  · refine (agrees_items "inputFields" h (fun _ _ hfield => agrees_argument hfield) (fun _ => rfl)
      fun _ => rfl).bind fun _ _ hinputs => ?_
    exact List.Forall₂.cons ⟨rfl, hinputs⟩ .nil
  · exact List.Forall₂.nil

theorem agrees_type? (h : SameFields a b) :
    Agrees (Option.Rel SameFields) (type? inclusion kinds a) (type? inclusion kinds' b) := by
  refine (h.get "name").bind fun name name' hname => ?_
  refine (h.get "kind").bind fun kind kind' hkind => ?_
  have hdone : ∀ {body body'}, Json.SameParts body body' →
      Option.Rel SameFields (some (.object ([("kind", kind), ("name", name)] ++ body)))
        (some (.object ([("kind", kind'), ("name", name')] ++ body'))) := fun hbody =>
    .some (Json.SameParts.object (.cons ⟨rfl, hkind⟩ (.cons ⟨rfl, hname⟩ hbody)))
  refine (agrees_isListed hname hkind).bind ?_
  rintro listed _ rfl
  split
  · rcases hkind.cases with rfl | ⟨_, _, rfl, rfl, -⟩ | ⟨_, _, rfl, rfl, -⟩
    · cases kind with
      | string word => exact (agrees_typeBody hkinds word h).bind fun _ _ hbody => hdone hbody
      | _ => exact hdone .nil
    · exact hdone .nil
    · exact hdone .nil
  · exact .none

theorem agrees_types {items items' : List Json} (h : SameItems items items') :
    Agrees (List.Forall₂ SameFields) (types inclusion kinds items)
      (types inclusion kinds' items') := by
  refine (h.filterMapM (fun _ _ htype => agrees_type? hkinds htype) (fun _ => rfl)
    fun _ => rfl).bind fun _ _ hlisted => ?_
  split
  · exact hlisted
  · exact List.rel_append hlisted (.cons (.refl anyScalar) .nil)

end Types

theorem agrees_root (h : SameFields a b) (key : String) :
    Agrees SameFields (root a key) (root b key) := by
  refine (h.getD key .null).bind fun _ _ hroot => ?_
  rw [hroot.isTruthy]
  split
  · exact (hroot.get "name").bind fun _ _ hname => Json.SameParts.object (.cons ⟨rfl, hname⟩ .nil)
  · exact .refl .null

theorem agrees_directive (h : SameFields a b) :
    Agrees SameFields (directive inclusion a) (directive inclusion b) := by
  refine (h.get "name").bind fun _ _ hname => ?_
  refine (h.getD "args" .null).bind fun _ _ hargs => ?_
  exact (agrees_arguments hargs).bind fun _ _ harguments => sameFields_pair hname harguments

/-- A result of parts that are equal up to the order of fields. -/
theorem sameFields_result {query query' mutation mutation' subscription subscription' types types'
    directives directives' : Json} (hquery : SameFields query query')
    (hmutation : SameFields mutation mutation')
    (hsubscription : SameFields subscription subscription') (htypes : SameFields types types')
    (hdirectives : SameFields directives directives') :
    SameFields
      (.object [("__schema", .object [
        ("queryType", query), ("mutationType", mutation), ("subscriptionType", subscription),
        ("types", types), ("directives", directives)])])
      (.object [("__schema", .object [
        ("queryType", query'), ("mutationType", mutation'), ("subscriptionType", subscription'),
        ("types", types'), ("directives", directives')])]) := by
  refine Json.SameParts.object (.cons ⟨rfl, Json.SameParts.object ?_⟩ .nil)
  exact .cons ⟨rfl, hquery⟩ (.cons ⟨rfl, hmutation⟩ (.cons ⟨rfl, hsubscription⟩
    (.cons ⟨rfl, htypes⟩ (.cons ⟨rfl, hdirectives⟩ .nil))))

end Minified

/-- The minified forms are equal up to the order of fields, or fail alike. -/
theorem agrees_minify (h : SameFields a b) :
    Agrees SameFields (minify inclusion a) (minify inclusion b) := by
  refine (h.get "__schema").bind fun _ _ hschema => ?_
  refine (hschema.get "types").bind fun _ _ htypes => ?_
  refine htypes.elements.bind fun _ _ hitems => ?_
  refine (Minified.agrees_kindsOf hitems).bind fun _ _ hkinds => ?_
  refine (hschema.get "types").bind fun _ _ htypes => ?_
  refine htypes.elements.bind fun _ _ hitems => ?_
  refine (Minified.agrees_types hkinds hitems).bind fun _ _ htypes => ?_
  refine (Minified.agrees_root hschema "queryType").bind fun _ _ hquery => ?_
  refine (Minified.agrees_root hschema "mutationType").bind fun _ _ hmutation => ?_
  refine (Minified.agrees_root hschema "subscriptionType").bind fun _ _ hsubscription => ?_
  have htypes := Json.sameFields_array.2 htypes
  dsimp only
  split
  · refine (Minified.agrees_items "directives" hschema
      (fun _ _ hdirective => Minified.agrees_directive hdirective)
      (fun _ => rfl) fun _ => rfl).bind fun _ _ hdirectives => ?_
    exact Minified.sameFields_result hquery hmutation hsubscription htypes hdirectives
  · exact Minified.sameFields_result hquery hmutation hsubscription htypes (.refl (.array []))

/-! ## All artifacts -/

namespace Publishing

theorem agrees_minified (settings : List (String × Json)) (h : SameFields a b) :
    Agrees SameFields (minified settings a) (minified settings b) := by
  refine Agrees.bind (R := Eq) ?_ ?_
  · cases (Inclusion.ofSettings settings).mapError Fault.setting <;> rfl
  · rintro inclusion _ rfl
    exact (agrees_minify h).mapError Fault.mismatch

/-- One artifact of two results: the same path, and contents that agree. -/
theorem agrees_artifact (path : Option String) {content content' : Except Fault Json}
    (h : Agrees SameFields content content') :
    List.Forall₂ (fun entry entry' => entry.1 = entry'.1 ∧ Agrees SameFields entry.2 entry'.2)
      (artifact path content) (artifact path content') := by
  unfold artifact
  split
  · split
    · exact .nil
    · exact .cons ⟨rfl, h⟩ .nil
  · exact .nil

/-- The artifacts of two results that are equal up to the order of fields are for the same paths,
and their contents are equal up to that order or cannot be made for the same reason. -/
theorem agrees_artifacts (config : SchemaOptions) (h : SameFields a b) :
    List.Forall₂ (fun entry entry' => entry.1 = entry'.1 ∧ Agrees SameFields entry.2 entry'.2)
      (artifacts config a) (artifacts config b) := by
  have hloaded : Agrees SameFields (.ok a : Except Fault Json) (.ok b) := h
  have hschema := agrees_artifact config.schemaPath hloaded
  have hpossible := agrees_artifact config.possibleTypesPath
    ((agrees_possibleTypes h).mapError Fault.mismatch)
  have hminified := agrees_artifact config.minifiedPath (agrees_minified config.minify h)
  exact List.rel_append (List.rel_append hschema hpossible) hminified

end Publishing

end PersistedQueries.Introspection
