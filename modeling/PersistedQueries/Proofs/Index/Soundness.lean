import Mathlib.Logic.Function.Basic
import PersistedQueries.Proofs.Index.Growth

/-!
# What an index holds

An index is about the texts that its files were last indexed from. Those texts are not part of
it; the statements below are about an index and a function that gives them.

- `Contributes`: a definition was read from the text of a file.
- `Sound`: the parts of an index say the same, and what they say is true of the texts. A
  definition may also have been registered by hand.
- `Exact`: the registry holds the definitions of the texts and no others.
- `Sound.add`, `Sound.invalidate`, `Sound.enter`, and the same for `Exact`: the operations of an
  index keep both.
- `Sound.grows`, `Exact.grows`: so does every call of `indexFile`. Which text each file has after
  the call is `carry`.
-/

namespace PersistedQueries.Index

variable {ε : Type} {texts texts' : String → Option Text} {index later : Index}

/-- A definition was read from the text of a file. -/
def Contributes (texts : String → Option Text) (file : String) (site : CallSite) : Prop :=
  ∃ text, texts file = some text ∧ site ∈ CallSite.extract text (some file)

theorem Contributes.file {file : String} {site : CallSite} (h : Contributes texts file site) :
    site.file = some file := by
  obtain ⟨text, -, hsite⟩ := h
  exact CallSite.file_of_mem_extract hsite

/-- The parts of an index agree with each other and with the texts of its files. -/
structure Sound (texts : String → Option Text) (index : Index) : Prop where
  /-- A definition is registered under its name. -/
  named : ∀ {name site}, index.registry.get? name = some site → site.name = name
  /-- A file lists the names of the definitions that were read from it, and no file lists others. -/
  listed : ∀ {file name}, name ∈ index.definedIn file ↔
    ∃ site, index.registry.get? name = some site ∧ site.file = some file
  /-- The indexed files are those that have a text. -/
  indexed : ∀ {file}, file ∈ index.files ↔ ∃ text, texts file = some text
  /-- The imports of a file are those of its text. -/
  imports : ∀ file, index.imports.get? file = (texts file).map CallSite.parseImports
  /-- The digest of a file is that of its text. -/
  digests : ∀ file, index.digests.get? file = (texts file).map digest
  /-- No name comes twice in a text. -/
  distinct : ∀ {file text}, texts file = some text →
    ((CallSite.extract text (some file)).map CallSite.name).Nodup
  /-- Every definition of a text is registered. -/
  registered : ∀ {file site}, Contributes texts file site →
    index.registry.get? site.name = some site

/-- The registry holds the definitions of the texts and no others. -/
structure Exact (texts : String → Option Text) (index : Index) : Prop
    extends Sound texts index where
  /-- Every registered definition was read from a text. -/
  owned : ∀ {name site}, index.registry.get? name = some site → ∃ file, Contributes texts file site

theorem Exact.empty : Exact (fun _ => none) Index.empty where
  named h := nomatch h
  listed := ⟨fun h => absurd h (NameSet.not_mem_empty _), fun ⟨_, h, _⟩ => nomatch h⟩
  indexed := ⟨fun h => absurd h (NameSet.not_mem_empty _), fun ⟨_, h⟩ => nomatch h⟩
  imports _ := rfl
  digests _ := rfl
  distinct h := nomatch h
  registered := fun ⟨_, h, _⟩ => nomatch h
  owned h := nomatch h

/-- A file without a text is not indexed. -/
theorem Sound.text_eq_none (h : Sound texts index) {file : String} (hfile : file ∉ index.files) :
    texts file = none := by
  cases htext : texts file with
  | none => rfl
  | some text => exact absurd (h.indexed.2 ⟨text, htext⟩) hfile

/-- A file that contributes a definition is indexed. -/
theorem Sound.mem_files_of_contributes (h : Sound texts index) {file : String} {site : CallSite}
    (hsite : Contributes texts file site) : file ∈ index.files := by
  obtain ⟨text, htext, -⟩ := hsite
  exact h.indexed.2 ⟨text, htext⟩

/-- A new text takes nothing from the other files. -/
theorem Contributes.update {file other : String} {site : CallSite} {text : Option Text}
    (h : Contributes texts other site) (hfile : texts file = none) :
    Contributes (Function.update texts file text) other site := by
  obtain ⟨own, hown, hsite⟩ := h
  have hother : other ≠ file := by
    rintro rfl
    cases hfile.symm.trans hown
  exact ⟨own, (Function.update_of_ne hother ..).trans hown, hsite⟩

/-! ## Entering a file -/

/-- After a file with free names is entered, its definitions are registered besides those that
were. -/
theorem get?_add_eq_some_iff {file name : String} {source : Text} {site : CallSite}
    (free : index.Free (CallSite.extract source (some file))) :
    (index.add (additionOf file source)).registry.get? name = some site ↔
      site ∈ CallSite.extract source (some file) ∧ site.name = name ∨
        index.registry.get? name = some site := by
  constructor
  · intro h
    by_cases hname : name ∈ (CallSite.extract source (some file)).map CallSite.name
    · obtain ⟨own, hown, rfl⟩ := List.mem_map.1 hname
      rw [get?_add_of_mem free.distinct hown, Option.some.injEq] at h
      exact .inl ⟨h ▸ hown, h ▸ rfl⟩
    · rw [get?_add_of_not_mem hname] at h
      exact .inr h
  · rintro (⟨hsite, rfl⟩ | h)
    · exact get?_add_of_mem free.distinct hsite
    · rw [get?_add_of_not_mem, h]
      intro hname
      obtain ⟨own, hown, rfl⟩ := List.mem_map.1 hname
      cases (free.untaken own hown).symm.trans h

theorem Sound.add (h : Sound texts index) {file : String} {source : Text}
    (new : file ∉ index.files) (free : index.Free (CallSite.extract source (some file))) :
    Sound (Function.update texts file (some source)) (index.add (additionOf file source)) where
  named {name site} hsite := by
    rcases (get?_add_eq_some_iff free).1 hsite with ⟨-, hname⟩ | hsite
    · exact hname
    · exact h.named hsite
  listed {other name} := by
    rw [mem_definedIn_add, h.listed]
    simp only [get?_add_eq_some_iff free, List.mem_map]
    constructor
    · rintro (⟨rfl, site, hsite, rfl⟩ | ⟨site, hsite, hfile⟩)
      · exact ⟨site, .inl ⟨hsite, rfl⟩, CallSite.file_of_mem_extract hsite⟩
      · exact ⟨site, .inr hsite, hfile⟩
    · rintro ⟨site, ⟨hsite, rfl⟩ | hsite, hfile⟩
      · have hown := CallSite.file_of_mem_extract hsite
        exact .inl ⟨Option.some.inj (hfile.symm.trans hown), site, hsite, rfl⟩
      · exact .inr ⟨site, hsite, hfile⟩
  indexed {other} := by
    rw [mem_files_add, h.indexed]
    by_cases hother : other = file
    · simp [hother]
    · simp [hother]
  imports other := by
    rw [get?_imports_add, h.imports, Function.update_apply]
    by_cases hother : other = file
    · simp [hother]
    · simp [hother, Ne.symm hother]
  digests other := by
    rw [get?_digests_add, h.digests, Function.update_apply]
    by_cases hother : other = file
    · simp [hother]
    · simp [hother, Ne.symm hother]
  distinct {other text} htext := by
    rw [Function.update_apply] at htext
    split at htext
    · next hother =>
      subst hother
      exact Option.some.inj htext ▸ free.distinct
    · exact h.distinct htext
  registered := by
    rintro other site ⟨text, htext, hsite⟩
    rw [Function.update_apply] at htext
    refine (get?_add_eq_some_iff free).2 ?_
    split at htext
    · next hother =>
      subst hother
      exact .inl ⟨Option.some.inj htext ▸ hsite, rfl⟩
    · exact .inr (h.registered ⟨text, htext, hsite⟩)

theorem Exact.add (h : Exact texts index) {file : String} {source : Text}
    (new : file ∉ index.files) (free : index.Free (CallSite.extract source (some file))) :
    Exact (Function.update texts file (some source)) (index.add (additionOf file source)) where
  toSound := h.toSound.add new free
  owned {name site} hsite := by
    rcases (get?_add_eq_some_iff free).1 hsite with ⟨hsite, -⟩ | hsite
    · exact ⟨file, source, Function.update_self .., hsite⟩
    · obtain ⟨other, hsite⟩ := h.owned hsite
      exact ⟨other, hsite.update (h.text_eq_none new)⟩

/-! ## Forgetting a file -/

/-- Forgetting a file removes its definitions and no others. -/
theorem Sound.get?_invalidate_eq_some_iff (h : Sound texts index) {file name : String}
    {site : CallSite} : (index.invalidate file).registry.get? name = some site ↔
      index.registry.get? name = some site ∧ site.file ≠ some file := by
  rw [get?_invalidate]
  -- forgetting goes by the names that the file lists, which are those of its definitions
  split
  · next hname =>
    obtain ⟨own, hown, hfile⟩ := h.listed.1 hname
    constructor
    · intro hsite
      cases hsite
    · rintro ⟨hsite, hother⟩
      rw [← Option.some.inj (hown.symm.trans hsite)] at hother
      exact absurd hfile hother
  · next hname =>
    constructor
    · intro hsite
      exact ⟨hsite, fun hfile => hname (h.listed.2 ⟨site, hsite, hfile⟩)⟩
    · exact And.left

theorem Sound.invalidate (h : Sound texts index) (file : String) :
    Sound (Function.update texts file none) (index.invalidate file) where
  named hsite := h.named (h.get?_invalidate_eq_some_iff.1 hsite).1
  listed {other name} := by
    rw [mem_definedIn_invalidate, h.listed]
    simp only [h.get?_invalidate_eq_some_iff]
    constructor
    · rintro ⟨hother, site, hsite, hfile⟩
      exact ⟨site, ⟨hsite, fun hown => hother (Option.some.inj (hfile.symm.trans hown))⟩, hfile⟩
    · rintro ⟨site, ⟨hsite, hown⟩, hfile⟩
      exact ⟨fun hother => hown (hother ▸ hfile), site, hsite, hfile⟩
  indexed {other} := by
    rw [mem_files_invalidate, h.indexed, Function.update_apply]
    by_cases hother : other = file
    · simp [hother]
    · simp [hother]
  imports other := by
    rw [get?_imports_invalidate, h.imports, Function.update_apply]
    by_cases hother : other = file
    · simp [hother]
    · simp [hother, Ne.symm hother]
  digests other := by
    rw [get?_digests_invalidate, h.digests, Function.update_apply]
    by_cases hother : other = file
    · simp [hother]
    · simp [hother, Ne.symm hother]
  distinct {other text} htext := by
    rw [Function.update_apply] at htext
    split at htext
    · cases htext
    · exact h.distinct htext
  registered := by
    rintro other site ⟨text, htext, hsite⟩
    rw [Function.update_apply] at htext
    split at htext
    · cases htext
    · next hother =>
      refine h.get?_invalidate_eq_some_iff.2 ⟨h.registered ⟨text, htext, hsite⟩, ?_⟩
      rw [CallSite.file_of_mem_extract hsite]
      exact fun hown => hother (Option.some.inj hown)

theorem Exact.invalidate (h : Exact texts index) (file : String) :
    Exact (Function.update texts file none) (index.invalidate file) where
  toSound := h.toSound.invalidate file
  owned {name site} hsite := by
    obtain ⟨hsite, hown⟩ := h.get?_invalidate_eq_some_iff.1 hsite
    obtain ⟨other, hkept⟩ := h.owned hsite
    have hother : other ≠ file := by
      rintro rfl
      exact hown hkept.file
    obtain ⟨text, htext, hextract⟩ := hkept
    exact ⟨other, text, (Function.update_of_ne hother ..).trans htext, hextract⟩

/-! ## Registering a definition by hand -/

theorem Sound.enter (h : Sound texts index) {site : CallSite}
    (new : index.registry.get? site.name = none) : Sound texts (index.enter site) := by
  have hget : ∀ {name other}, (index.enter site).registry.get? name = some other ↔
      site.name = name ∧ other = site ∨ index.registry.get? name = some other := by
    intro name other
    rw [get?_enter]
    by_cases hname : site.name = name
    · subst hname
      simp [new, eq_comm]
    · simp [hname]
  refine { h with named := ?_, listed := ?_, registered := ?_ }
  · intro name other hother
    rcases hget.1 hother with ⟨hname, rfl⟩ | hother
    · exact hname
    · exact h.named hother
  · intro file name
    rw [mem_definedIn_enter, h.listed]
    simp only [hget]
    constructor
    · rintro (⟨hfile, rfl⟩ | ⟨other, hother, hfile⟩)
      · exact ⟨site, .inl ⟨rfl, rfl⟩, hfile⟩
      · exact ⟨other, .inr hother, hfile⟩
    · rintro ⟨other, ⟨rfl, rfl⟩ | hother, hfile⟩
      · exact .inl ⟨hfile, rfl⟩
      · exact .inr ⟨other, hother, hfile⟩
  · intro file own hown
    exact hget.2 (.inr (h.registered hown))

/-! ## Growth -/

/-- The texts of the files of an index that has grown: a file that was indexed before has its old
text, and a file that was entered has the text it was entered with. -/
def carry (texts texts' : String → Option Text) (index later : Index) (id : String) : Option Text :=
  if id ∈ index.files then texts id else if id ∈ later.files then texts' id else none

/-- A text that is there after growth was there before, or is one that was entered. -/
theorem carry_eq_some {id : String} {text : Text}
    (h : carry texts texts' index later id = some text) :
    texts id = some text ∨ texts' id = some text := by
  unfold carry at h
  split at h
  · exact .inl h
  · split at h
    · exact .inr h
    · cases h

theorem carry_self (hnew : ∀ file, file ∉ index.files → texts file = none) :
    carry texts texts' index index = texts := by
  funext id
  unfold carry
  split
  · rfl
  · next hid => rw [hnew id hid]

theorem carry_add {file : String} {source : Text} (hgrows : Grows texts' index later)
    (text : texts' file = some source) (new : file ∉ later.files) :
    carry texts texts' index (later.add (additionOf file source)) =
      Function.update (carry texts texts' index later) file (some source) := by
  funext id
  rw [Function.update_apply]
  unfold carry
  by_cases hid : id = file
  · subst hid
    -- a file that is entered late was not there in the beginning
    rw [if_neg fun h => new (hgrows.files h), if_pos (mem_files_add.2 (.inl rfl)), if_pos rfl, text]
  · simp only [mem_files_add, hid, false_or, if_false]

/-- What entering a file keeps, growth keeps. -/
theorem Grows.preserves {P : (String → Option Text) → Index → Prop}
    (hadd : ∀ {texts index file source}, P texts index → file ∉ index.files →
      index.Free (CallSite.extract source (some file)) →
      P (Function.update texts file (some source)) (index.add (additionOf file source)))
    (hstart : P texts index) (hnew : ∀ file, file ∉ index.files → texts file = none)
    (hgrows : Grows texts' index later) : P (carry texts texts' index later) later := by
  induction hgrows with
  | refl =>
    rw [carry_self hnew]
    exact hstart
  | tail hgrows hstep ih =>
    obtain ⟨text, new, free⟩ := hstep
    rw [carry_add hgrows text new]
    exact hadd ih new free

theorem Sound.grows (h : Sound texts index) (hgrows : Grows texts' index later) :
    Sound (carry texts texts' index later) later :=
  hgrows.preserves (fun h new free => h.add new free) h fun _ => h.text_eq_none

theorem Exact.grows (h : Exact texts index) (hgrows : Grows texts' index later) :
    Exact (carry texts texts' index later) later :=
  hgrows.preserves (fun h new free => h.add new free) h fun _ => h.text_eq_none

end PersistedQueries.Index
