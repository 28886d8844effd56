import Mathlib.Data.List.Induction
import PersistedQueries.Proofs.Index.Refusal
import PersistedQueries.Proofs.Index.WellFormed

/-!
# Histories of an index

An index is used in steps: a definition is registered by hand, a file is indexed with some host,
a file is forgotten, or everything is. A history is any list of steps that starts from the empty
index. The steps carry along the text that each file was last indexed from.

- `Step`, `Traced`, `run`: the steps, the index with its texts, and what a history leaves.
- `run_sound`: every history leaves an index that is `Sound`.
- `run_exact`: a history that registers nothing by hand leaves an index that is `Exact`.
- `Sound.get?_runFrom`: a registered name keeps its definition until its file is forgotten.
- `run_partition`: what the registry, the files and the tables about them hold after a history.
-/

namespace PersistedQueries.Index

variable {ε : Type}

/-! ## Steps -/

/-- One use of an index. Each call for a file brings its own host. -/
inductive Step (ε : Type) where
  /-- Register a definition by hand. -/
  | register (site : CallSite)
  /-- Index a file with a text, whether or not that succeeds. -/
  | index (host : Host ε) (file : String) (source : Text)
  /-- Forget a file. -/
  | invalidate (file : String)
  /-- Forget everything. -/
  | reset

/-- An index and the text that each of its files was last indexed from. -/
structure Traced where
  /-- The index. -/
  index : Index
  /-- The texts of the indexed files. -/
  texts : String → Option Text

/-- The index of no files. -/
def Traced.empty : Traced := ⟨.empty, fun _ => none⟩

/-- The index after a step. A call that fails leaves what it has entered so far, and a definition
whose name is taken is not registered. -/
def Step.apply (state : Traced) : Step ε → Traced
  | .register site =>
    match state.index.register (ε := ε) site with
    | .error _ => state
    | .ok later => { state with index := later }
  | .index host file source =>
    let later := (indexFile host state.index file source).index
    let refreshed := state.index.refresh file source
    ⟨later, carry state.texts (callTexts host file source) refreshed later⟩
  | .invalidate file => ⟨state.index.invalidate file, Function.update state.texts file none⟩
  | .reset => .empty

theorem Step.apply_register_of_some {state : Traced} {site known : CallSite}
    (h : state.index.registry.get? site.name = some known) :
    (Step.register site : Step ε).apply state = state := by
  simp only [Step.apply, Index.register, h]

theorem Step.apply_register_of_none {state : Traced} {site : CallSite}
    (h : state.index.registry.get? site.name = none) :
    (Step.register site : Step ε).apply state = ⟨state.index.enter site, state.texts⟩ := by
  simp only [Step.apply, Index.register, h]

/-- The index after some steps. -/
def runFrom (state : Traced) (steps : List (Step ε)) : Traced := steps.foldl Step.apply state

/-- The index that a history leaves. -/
def run (steps : List (Step ε)) : Traced := runFrom .empty steps

theorem run_append (steps later : List (Step ε)) :
    run (steps ++ later) = runFrom (run steps) later :=
  List.foldl_append

/-! ## What steps keep -/

/-- An index that forgets a file when its text is new keeps what forgetting a file keeps. -/
theorem refresh_preserves {P : (String → Option Text) → Index → Prop}
    (hinvalidate : ∀ {texts index} (file : String), P texts index →
      P (Function.update texts file none) (index.invalidate file))
    {texts : String → Option Text} {index : Index} (h : P texts index) (file : String)
    (source : Text) : ∃ kept, P kept (index.refresh file source) ∧
      ∀ id ∈ (index.refresh file source).files, texts id = kept id := by
  unfold refresh
  split
  · refine ⟨_, hinvalidate file h, fun id hid => ?_⟩
    rw [Function.update_of_ne (mem_files_invalidate.1 hid).2]
  · exact ⟨texts, h, fun _ _ => rfl⟩

theorem carry_congr {texts kept texts' : String → Option Text} {index later : Index}
    (h : ∀ id ∈ index.files, texts id = kept id) :
    carry texts texts' index later = carry kept texts' index later := by
  funext id
  unfold carry
  split
  · next hid => exact h id hid
  · rfl

/-- A call keeps what forgetting a file keeps and what growing keeps. -/
theorem Step.apply_index_preserves {P : (String → Option Text) → Index → Prop}
    (hinvalidate : ∀ {texts index} (file : String), P texts index →
      P (Function.update texts file none) (index.invalidate file))
    (hgrow : ∀ {texts texts' index later}, P texts index → Grows texts' index later →
      P (carry texts texts' index later) later)
    {state : Traced} (h : P state.texts state.index) (host : Host ε) (file : String)
    (source : Text) : P ((Step.index host file source).apply state).texts
      ((Step.index host file source).apply state).index := by
  obtain ⟨kept, hkept, hagree⟩ := refresh_preserves hinvalidate h file source
  unfold Step.apply
  dsimp only
  rw [carry_congr hagree]
  exact hgrow hkept (indexFile_grows host state.index file source)

theorem Sound.apply {state : Traced} (h : Sound state.texts state.index) (step : Step ε) :
    Sound (step.apply state).texts (step.apply state).index := by
  cases step with
  | register site =>
    cases hname : state.index.registry.get? site.name with
    | some known =>
      rw [Step.apply_register_of_some hname]
      exact h
    | none =>
      rw [Step.apply_register_of_none hname]
      exact h.enter hname
  | index host file source =>
    exact Step.apply_index_preserves (fun file h => h.invalidate file) (fun h hgrows => h.grows hgrows)
      h host file source
  | invalidate file => exact h.invalidate file
  | reset => exact Exact.empty.toSound

theorem Exact.apply {state : Traced} (h : Exact state.texts state.index) (step : Step ε)
    (hcall : ∀ site, step ≠ .register site) :
    Exact (step.apply state).texts (step.apply state).index := by
  cases step with
  | register site => exact absurd rfl (hcall site)
  | index host file source =>
    exact Step.apply_index_preserves (fun file h => h.invalidate file) (fun h hgrows => h.grows hgrows)
      h host file source
  | invalidate file => exact h.invalidate file
  | reset => exact Exact.empty

/-- Every history leaves a sound index. -/
theorem run_sound (steps : List (Step ε)) : Sound (run steps).texts (run steps).index := by
  induction steps using List.reverseRecOn with
  | nil => exact Exact.empty.toSound
  | append_singleton steps step ih =>
    rw [run_append]
    exact ih.apply step

/-- A history without definitions that are registered by hand leaves an exact index. -/
theorem run_exact {steps : List (Step ε)} (hcalls : ∀ site, .register site ∉ steps) :
    Exact (run steps).texts (run steps).index := by
  induction steps using List.reverseRecOn with
  | nil => exact Exact.empty
  | append_singleton steps step ih =>
    rw [run_append]
    refine (ih fun site hsite => ?_).apply step fun site hsite => ?_
    · exact hcalls site (List.mem_append_left _ hsite)
    · exact hcalls site (List.mem_append_right _ (hsite ▸ List.mem_singleton_self step))

/-! ## What stays registered -/

/-- The step forgets a file: by its name, with everything, or since the file is indexed with a text
that is not the one that was indexed. -/
def Step.Forgets (index : Index) (file : String) : Step ε → Prop
  | .register _ => False
  | .index _ other source =>
    other = file ∧ file ∈ index.files ∧ index.digests.get? file ≠ some (digest source)
  | .invalidate other => other = file
  | .reset => True

/-- None of some steps forgets a file. -/
def Spares (file : String) : Traced → List (Step ε) → Prop
  | _, [] => True
  | state, step :: steps => ¬ step.Forgets state.index file ∧ Spares file (step.apply state) steps

/-- A name keeps its definition through a step that does not forget the file of the definition. -/
theorem Sound.get?_apply {state : Traced} (h : Sound state.texts state.index) {step : Step ε}
    {file name : String} {site : CallSite} (hspared : ¬ step.Forgets state.index file)
    (hsite : state.index.registry.get? name = some site) (hfile : site.file = some file) :
    (step.apply state).index.registry.get? name = some site := by
  cases step with
  | register own =>
    cases hname : state.index.registry.get? own.name with
    | some known =>
      rw [Step.apply_register_of_some hname]
      exact hsite
    | none =>
      have hother : own.name ≠ name := by
        rintro rfl
        cases hname.symm.trans hsite
      rw [Step.apply_register_of_none hname, get?_enter, if_neg hother]
      exact hsite
  | index host other source =>
    refine (indexFile_grows host state.index other source).get?_registry ?_
    -- growth keeps the definition; only a new text of its file could drop it before
    unfold refresh
    split
    · next hstale =>
      refine h.get?_invalidate_eq_some_iff.2 ⟨hsite, fun hown => hspared ?_⟩
      obtain rfl : other = file := Option.some.inj (hown.symm.trans hfile)
      exact ⟨rfl, hstale⟩
    · exact hsite
  | invalidate other =>
    refine h.get?_invalidate_eq_some_iff.2 ⟨hsite, fun hown => hspared ?_⟩
    exact Option.some.inj (hown.symm.trans hfile)
  | reset => exact absurd trivial hspared

/-- A name keeps its definition until the file of the definition is forgotten. -/
theorem Sound.get?_runFrom {state : Traced} (h : Sound state.texts state.index)
    {steps : List (Step ε)} {file name : String} {site : CallSite}
    (hspared : Spares file state steps) (hsite : state.index.registry.get? name = some site)
    (hfile : site.file = some file) :
    (runFrom state steps).index.registry.get? name = some site := by
  induction steps generalizing state with
  | nil => exact hsite
  | cons step steps ih =>
    exact ih (h.apply step) hspared.2 (h.get?_apply hspared.1 hsite hfile)

/-! ## What a file contributes -/

/-- The registry is the disjoint union of what the indexed files contribute. -/
structure Partition (texts : String → Option Text) (index : Index) : Prop where
  /-- The imports of exactly the indexed files are known. -/
  imports : ∀ file, file ∈ index.imports.keys ↔ file ∈ index.files
  /-- The digests of exactly the indexed files are known. -/
  digests : ∀ file, file ∈ index.digests.keys ↔ file ∈ index.files
  /-- The known digest of a file is that of its text. -/
  digest : ∀ file ∈ index.files, ∃ text, texts file = some text ∧
    index.digests.get? file = some (digest text)
  /-- The registered definitions are those of the indexed files, each under its own name. -/
  registry : ∀ name site, index.registry.get? name = some site ↔
    site.name = name ∧ ∃ file ∈ index.files, Contributes texts file site
  /-- No name comes twice in the text of one file. -/
  distinct : ∀ file text, texts file = some text →
    ((CallSite.extract text (some file)).map CallSite.name).Nodup
  /-- No name comes in the texts of two files. -/
  disjoint : ∀ file other site site', Contributes texts file site → Contributes texts other site' →
    site.name = site'.name → file = other ∧ site = site'
  /-- The names that a file lists are those of its own definitions. -/
  definedIn : ∀ file name, name ∈ index.definedIn file ↔
    ∃ site, Contributes texts file site ∧ site.name = name

/-- A file has left nothing in an index. -/
structure Absent (index : Index) (file : String) : Prop where
  files : file ∉ index.files
  registry : ∀ name site, index.registry.get? name = some site → site.file ≠ some file
  definedIn : ∀ name, name ∉ index.definedIn file
  imports : index.imports.get? file = none
  digests : index.digests.get? file = none

section Exact

variable {texts : String → Option Text} {index : Index}

/-- A registered definition is contributed by the file that it names. -/
theorem Exact.contributes (h : Exact texts index) {file name : String} {site : CallSite}
    (hsite : index.registry.get? name = some site) (hfile : site.file = some file) :
    Contributes texts file site := by
  obtain ⟨other, hown⟩ := h.owned hsite
  obtain rfl : other = file := Option.some.inj (hown.file.symm.trans hfile)
  exact hown

theorem Exact.partition (h : Exact texts index) : Partition texts index where
  imports file := by
    rw [Table.mem_keys_iff, h.imports, h.indexed]
    cases texts file <;> simp
  digests file := by
    rw [Table.mem_keys_iff, h.digests, h.indexed]
    cases texts file <;> simp
  digest file hfile := by
    obtain ⟨text, htext⟩ := h.indexed.1 hfile
    exact ⟨text, htext, by rw [h.digests, htext, Option.map_some]⟩
  registry name site := by
    constructor
    · intro hsite
      obtain ⟨file, hown⟩ := h.owned hsite
      exact ⟨h.named hsite, file, h.mem_files_of_contributes hown, hown⟩
    · rintro ⟨rfl, file, -, hsite⟩
      exact h.registered hsite
  distinct file text htext := h.distinct htext
  disjoint file other site site' hsite hsite' hname := by
    have heq : some site = some site' := by
      rw [← h.registered hsite, hname, h.registered hsite']
    obtain rfl : site = site' := Option.some.inj heq
    exact ⟨Option.some.inj (hsite.file.symm.trans hsite'.file), rfl⟩
  definedIn file name := by
    rw [h.listed]
    constructor
    · rintro ⟨site, hsite, hfile⟩
      exact ⟨site, h.contributes hsite hfile, h.named hsite⟩
    · rintro ⟨site, hsite, rfl⟩
      exact ⟨site, h.registered hsite, hsite.file⟩

theorem Exact.absent (h : Exact texts index) {file : String} (hfile : file ∉ index.files) :
    Absent index file := by
  have htext := h.text_eq_none hfile
  have hsites : ∀ site, ¬ Contributes texts file site := by
    rintro site ⟨text, hsome, -⟩
    cases htext.symm.trans hsome
  refine ⟨hfile, fun name site hsite hown => ?_, fun name hname => ?_, ?_, ?_⟩
  · exact hsites site (h.contributes hsite hown)
  · obtain ⟨site, hsite, -⟩ := (h.partition.definedIn file name).1 hname
    exact hsites site hsite
  · rw [h.imports, htext, Option.map_none]
  · rw [h.digests, htext, Option.map_none]

/-- Forgetting a file removes what the file contributes, and nothing else. -/
theorem Exact.get?_invalidate_eq_some_iff (h : Exact texts index) {file name : String}
    {site : CallSite} : (index.invalidate file).registry.get? name = some site ↔
      index.registry.get? name = some site ∧ ¬ Contributes texts file site := by
  rw [h.toSound.get?_invalidate_eq_some_iff]
  refine and_congr_right fun hsite => not_congr ?_
  exact ⟨h.contributes hsite, Contributes.file⟩

end Exact

/-! ## Histories of calls -/

/-- After any history of calls, failed ones among them, the registry is the disjoint union of what
the indexed files contribute. Each file that the next call begins to index is indexed, or its
indexing has failed and it is absent. Forgetting a file removes what it contributes. A name keeps
its definition as long as no step forgets the file of the definition. -/
theorem run_partition (steps : List (Step ε)) (hcalls : ∀ site, .register site ∉ steps) :
    Partition (run steps).texts (run steps).index ∧
    (∀ (host : Host ε) (file : String) (source : Text) (begun : String),
      Begun (indexFile host (run steps).index file source).events begun →
      begun ∈ (run (steps ++ [.index host file source])).index.files ∨
        Absent (run (steps ++ [.index host file source])).index begun ∧
          Refuses (callSurvey host file source) (indexFile host (run steps).index file source)
            begun) ∧
    (∀ (file name : String) (site : CallSite),
      (run (steps ++ [.invalidate file])).index.registry.get? name = some site ↔
        (run steps).index.registry.get? name = some site ∧
          ¬ Contributes (run steps).texts file site) ∧
    (∀ (later : List (Step ε)) (file name : String) (site : CallSite),
      (run steps).index.registry.get? name = some site → site.file = some file →
      Spares file (run steps) later →
      (run (steps ++ later)).index.registry.get? name = some site) := by
  have hexact := run_exact hcalls
  refine ⟨hexact.partition, fun host file source begun hbegun => ?_, fun file name site => ?_,
    fun later file name site hsite hfile hspared => ?_⟩
  · have hlater : Exact (run (steps ++ [.index host file source])).texts
        (run (steps ++ [.index host file source])).index := by
      rw [run_append]
      refine hexact.apply (.index host file source) fun site hsite => ?_
      cases hsite
    refine (indexFile_settles host _ file source begun hbegun).imp ?_ ?_
    · rw [run_append]
      exact id
    · intro hrefused
      refine ⟨hlater.absent ?_, hrefused⟩
      rw [run_append]
      exact hrefused.1
  · rw [run_append]
    exact hexact.get?_invalidate_eq_some_iff
  · rw [run_append]
    exact (run_sound steps).get?_runFrom hspared hsite hfile

/-- A fragment is indexed, and stays registered when another file is forgotten. -/
theorem run_partition_fragment :
    let host : Host String := .ofTable heroes .empty id
    let steps : List (Step String) := [.index host "names.ts" fragmentFile]
    (∀ site, .register site ∉ steps) ∧ Partition (run steps).texts (run steps).index ∧
    Spares "names.ts" (run steps) [(.invalidate "query.ts" : Step String)] ∧
    (run (steps ++ [.invalidate "query.ts"])).index.registry.get? "Names" = some namesFragment := by
  intro host steps
  have hcalls : ∀ site, .register site ∉ steps := by
    intro site hsite
    cases List.mem_singleton.1 hsite
  have hother : "query.ts" ≠ "names.ts" := by decide
  have hspares : Spares "names.ts" (run steps) [(.invalidate "query.ts" : Step String)] :=
    ⟨hother, trivial⟩
  have hnames : heroes.get? "names.ts" = some fragmentFile :=
    get?_heroes_eq_some.2 (.inr ⟨rfl, rfl⟩)
  obtain ⟨hok, hfits⟩ := wellFormed_heroes.indexFile_ok (Fits.empty _) hnames
  have hregistered : (run steps).index.registry.get? "Names" = some namesFragment :=
    (wellFormed_heroes.holds hfits).registered (mem_files_indexFile hok)
      (contributes_heroes.2 (.inr ⟨rfl, rfl⟩))
  obtain ⟨hpartition, -, -, hkept⟩ := run_partition steps hcalls
  exact ⟨hcalls, hpartition, hspares, hkept _ "names.ts" _ _ hregistered rfl hspares⟩

end PersistedQueries.Index
