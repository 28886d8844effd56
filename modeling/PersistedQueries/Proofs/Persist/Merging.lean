import PersistedQueries.Proofs.Canonical.RoundTrip
import PersistedQueries.Proofs.Persist.Order

/-!
# What merged documents define

The texts of a merged document stand on lines of their own, so what it defines is what its texts
define, one behind the other. A canonical text shows no order of the definitions, as long as no two
texts define the same name.

- `parse_lines`: documents on lines of their own are one document.
- `merge_definitions`: a merged document defines the operation and fragments that it reaches, each
  once, and all of them just in case no text was left out but a repeated one.
- `not_merge_complete`: a fragment is missing when its text occurs in a comment of the operation.
- `persist_of_texts`: where only repeats are left out, a persisted query depends on the texts that are
  reached and on nothing else.
-/

namespace PersistedQueries

open PersistedQueries.Text
open PersistedQueries.GraphQL

/-! ## Documents one behind the other -/

/-- The document of a text that is one. -/
def documentOf (text : Text) : Document :=
  match parse text with
  | .ok document => document
  | .error _ => []

theorem documentOf_eq {text : Text} {document : Document} (h : parse text = .ok document) :
    documentOf text = document := by
  rw [documentOf, h]

/-- A text is a document of operations and fragments. -/
def IsExecutableText (text : Text) : Prop :=
  ∃ document, parse text = .ok document ∧ ∀ d ∈ document, d.IsExecutable

theorem GraphQL.Each.append {α : Type} {Spells : α → List Token → Prop} {as bs : List α}
    {front back : List Token} (h : Each Spells as front) (h' : Each Spells bs back) :
    Each Spells (as ++ bs) (front ++ back) := by
  induction h with
  | nil => exact h'
  | @cons a as front middle hfirst _ ih =>
    rw [List.cons_append, List.append_assoc]
    exact .cons hfirst ih

/-- The tokens of an executable document spell it as it is. -/
theorem spells_of_isExecutableText {text : Text} (h : IsExecutableText text) :
    ∃ tokens, lexemes text = some tokens ∧ documentOf text ≠ [] ∧
      Each SpellsDefinition (documentOf text) tokens ∧ ∀ d ∈ documentOf text, d.IsExecutable := by
  obtain ⟨document, hparse, hexecutable⟩ := h
  obtain ⟨tokens, htokens, hne, heach⟩ := parse_sound hparse
  rw [map_eq_self.2 fun d hd => unplaced_of_isExecutable (hexecutable d hd)] at heach
  rw [documentOf_eq hparse]
  exact ⟨tokens, htokens, hne, heach, hexecutable⟩

/-- Executable documents on lines of their own are one document. -/
theorem parse_lines {texts : List Text} (hne : texts ≠ [])
    (h : ∀ text ∈ texts, IsExecutableText text) :
    parse (joinWith ['\n'] texts) = .ok (texts.flatMap documentOf) := by
  have hspells : ∃ tokens, lexemes (joinWith ['\n'] texts) = some tokens ∧
      Each SpellsDefinition (texts.flatMap documentOf) tokens := by
    clear hne
    induction texts with
    | nil => exact ⟨[], lexemes_nil, .nil⟩
    | cons text texts ih =>
      obtain ⟨htext, hmore⟩ := List.forall_mem_cons.1 h
      obtain ⟨front, hfront, -, heach, -⟩ := spells_of_isExecutableText htext
      obtain ⟨back, hback, heach'⟩ := ih hmore
      cases texts with
      | nil => exact ⟨front, hfront, by simpa using heach⟩
      | cons next texts =>
        have hjoin : joinWith ['\n'] (text :: next :: texts) =
            text ++ '\n' :: joinWith ['\n'] (next :: texts) := by
          simp [joinWith]
        refine ⟨front ++ back, ?_, heach.append heach'⟩
        rw [hjoin, lexemes_append hfront, hback]
        rfl
  have hexecutable : ∀ d ∈ texts.flatMap documentOf, d.IsExecutable := by
    intro d hd
    obtain ⟨text, htext, hd⟩ := List.mem_flatMap.1 hd
    obtain ⟨-, -, -, -, hexecutable⟩ := spells_of_isExecutableText (h text htext)
    exact hexecutable d hd
  have hsome : texts.flatMap documentOf ≠ [] := by
    obtain ⟨text, texts, rfl⟩ := List.exists_cons_of_ne_nil hne
    obtain ⟨-, -, hfull, -⟩ := spells_of_isExecutableText (h text List.mem_cons_self)
    simp [hfull]
  obtain ⟨tokens, htokens, heach⟩ := hspells
  obtain ⟨document, hunplaced, hparse⟩ := parse_complete htokens hsome
    (spellsDocument_of_each heach hexecutable)
  rw [hparse, eq_of_map_unplaced hexecutable hunplaced]

/-! ## The canonical form of a definition -/

/-- A definition in canonical order, with the names of types if they are wanted. -/
def orderedDefinition (withTypenames : Bool) (d : Definition) : Definition :=
  sortDefinition (if withTypenames then addTypenameToDefinition d else d)

/-- A definition as a canonical text has it. -/
def canonicalDefinition (withTypenames : Bool) (d : Definition) : Definition :=
  (orderedDefinition withTypenames d).flat

theorem canonicalDocument_eq (withTypenames : Bool) (document : Document) :
    canonicalDocument withTypenames document =
      sortOn definitionKey (document.map (orderedDefinition withTypenames)) := by
  cases withTypenames with
  | true => exact congrArg (sortOn definitionKey) (List.map_map ..)
  | false => rfl

theorem definitionKey_orderedDefinition (withTypenames : Bool) (d : Definition) :
    definitionKey (orderedDefinition withTypenames d) = definitionKey d := by
  rw [orderedDefinition, definitionKey_sortDefinition]
  cases withTypenames with
  | true => cases d <;> rfl
  | false => rfl

/-- The canonical text of an executable document has the canonical forms of its definitions, each as
often as it was there. -/
theorem parse_canonicalize_perm {text : Text} {document : Document}
    (hparse : parse text = .ok document) (hexecutable : ∀ d ∈ document, d.IsExecutable)
    (withTypenames : Bool) : ∃ canonical document',
      canonicalize text withTypenames = .ok canonical ∧ parse canonical = .ok document' ∧
      document'.Perm (document.map (canonicalDefinition withTypenames)) := by
  obtain ⟨canonical, document', hcanonical, hparse', hflat⟩ := parse_canonicalize hparse withTypenames
  refine ⟨canonical, document', hcanonical, hparse', ?_⟩
  have hflat' : ∀ d ∈ (canonicalDocument withTypenames document).map Definition.flat,
      d.IsExecutable := by
    refine List.forall_mem_map.2 fun d hd => ?_
    have hd := isExecutable_canonicalDocument withTypenames hexecutable d hd
    cases d <;> exact hd
  rw [eq_of_map_unplaced hflat' hflat, canonicalDocument_eq]
  have hperm := (perm_sortOn definitionKey
    (document.map (orderedDefinition withTypenames))).map Definition.flat
  rw [List.map_map] at hperm
  exact hperm

/-! ## What a merged document defines -/

/-- A name is registered with a text that is one fragment. -/
def Defines (registry : Registry) (name : String) (frag : Fragment) : Prop :=
  ∃ via, registry.get? name = some via ∧ parse via.source.toList = .ok [.fragment frag]

/-- The fragment of a text that is one. -/
def fragmentIn? (text : Text) : Option Fragment :=
  match parse text with
  | .ok [.fragment frag] => some frag
  | _ => none

theorem fragmentIn?_eq_some {text : Text} {frag : Fragment} :
    fragmentIn? text = some frag ↔ parse text = .ok [.fragment frag] := by
  unfold fragmentIn?
  constructor
  · intro h
    split at h
    · next found hparse => rwa [Option.some.inj h] at hparse
    · cases h
  · intro h
    rw [h]

theorem flatMap_documentOf {texts : List Text}
    (h : ∀ text ∈ texts, ∃ frag, parse text = .ok [.fragment frag]) :
    texts.flatMap documentOf = (texts.filterMap fragmentIn?).map Definition.fragment := by
  induction texts with
  | nil => rfl
  | cons text texts ih =>
    obtain ⟨⟨frag, hfrag⟩, hmore⟩ := List.forall_mem_cons.1 h
    rw [List.flatMap_cons, documentOf_eq hfrag, ih hmore,
      List.filterMap_cons_some (fragmentIn?_eq_some.2 hfrag), List.map_cons, List.singleton_append]

section Definitions

variable {registry : Registry} {site : CallSite} {op : Operation}

/-- Each reachable name is registered with a text that is one fragment, and no two names with
fragments of one name. -/
structure DefinesEach (registry : Registry) (site : CallSite) : Prop where
  defined : ∀ name, Reaches registry site name → ∃ frag, Defines registry name frag
  distinct : ∀ name name' frag frag', Reaches registry site name → Reaches registry site name' →
    Defines registry name frag → Defines registry name' frag' → frag.name = frag'.name → name = name'

theorem DefinesEach.contains (h : DefinesEach registry site) (name : String)
    (hname : Reaches registry site name) : registry.contains name = true := by
  obtain ⟨_, via, hvia, -⟩ := h.defined name hname
  exact Table.contains_iff.2 ⟨via, hvia⟩

/-- A reached text is the fragment of a reached name. -/
theorem DefinesEach.mem_reachedTexts (h : DefinesEach registry site) {text : Text} :
    text ∈ reachedTexts registry site ↔ ∃ name frag, Reaches registry site name ∧
      Defines registry name frag ∧ parse text = .ok [.fragment frag] ∧
      Merge.sourceOf registry name = text := by
  rw [PersistedQueries.mem_reachedTexts h.contains]
  constructor
  · rintro ⟨name, via, hname, hvia, rfl⟩
    obtain ⟨frag, own, hown, hparse⟩ := h.defined name hname
    obtain rfl : via = own := Option.some.inj (hvia.symm.trans hown)
    exact ⟨name, frag, hname, ⟨via, hvia, hparse⟩, hparse, Merge.sourceOf_eq hvia⟩
  · rintro ⟨name, frag, hname, ⟨via, hvia, -⟩, -, rfl⟩
    exact ⟨name, via, hname, hvia, (Merge.sourceOf_eq hvia).symm⟩

/-- Texts with fragments of one name are one text. -/
theorem DefinesEach.text_unique (h : DefinesEach registry site) {text text' : Text}
    {frag frag' : Fragment} (htext : text ∈ reachedTexts registry site)
    (htext' : text' ∈ reachedTexts registry site) (hfrag : parse text = .ok [.fragment frag])
    (hfrag' : parse text' = .ok [.fragment frag']) (hname : frag.name = frag'.name) :
    text = text' := by
  obtain ⟨name, own, hreaches, hdefines, hparse, rfl⟩ := h.mem_reachedTexts.1 htext
  obtain ⟨name', own', hreaches', hdefines', hparse', rfl⟩ := h.mem_reachedTexts.1 htext'
  have heq : [Definition.fragment frag] = [.fragment own] :=
    Except.ok.inj (hfrag.symm.trans hparse)
  have heq' : [Definition.fragment frag'] = [.fragment own'] :=
    Except.ok.inj (hfrag'.symm.trans hparse')
  obtain rfl : frag = own := by simpa using heq
  obtain rfl : frag' = own' := by simpa using heq'
  rw [h.distinct name name' frag frag' hreaches hreaches' hdefines hdefines' hname]

theorem DefinesEach.nodup (h : DefinesEach registry site)
    (hoperation : parse site.source.toList = .ok [.operation op]) :
    (site.source.toList :: reachedTexts registry site).Nodup := by
  refine List.nodup_cons.2 ⟨fun hmem => ?_, ?_⟩
  · obtain ⟨_, frag, -, -, hparse, -⟩ := h.mem_reachedTexts.1 hmem
    have heq : [Definition.operation op] = [.fragment frag] :=
      Except.ok.inj (hoperation.symm.trans hparse)
    simp at heq
  · refine (nodup_visitOrder registry site).map_on fun name hname name' hname' hsame => ?_
    have hreaches := (mem_visitOrder h.contains).1 hname
    have hreaches' := (mem_visitOrder h.contains).1 hname'
    obtain ⟨frag, hdefines⟩ := h.defined name hreaches
    obtain ⟨frag', hdefines'⟩ := h.defined name' hreaches'
    obtain ⟨via, hvia, hparse⟩ := id hdefines
    obtain ⟨via', hvia', hparse'⟩ := id hdefines'
    rw [Merge.sourceOf_eq hvia, Merge.sourceOf_eq hvia'] at hsame
    rw [hsame, hparse'] at hparse
    have heq : frag' = frag := by simpa using hparse
    exact h.distinct name name' frag frag' hreaches hreaches' hdefines hdefines' (by rw [heq])

/-- **Merged documents.** A call site of one operation, whose reachable names are registered with one
fragment each, is merged to a document of that operation and of fragments that it reaches, none of
them twice. All of them are there just in case no text was left out but a repeated one. The canonical
text has the same definitions in canonical form. -/
theorem merge_definitions (hoperation : parse site.source.toList = .ok [.operation op])
    (hdefines : DefinesEach registry site) :
    ∃ (merged : Text) (fragments : List Fragment), merge registry site = .ok merged ∧
      parse merged = .ok (.operation op :: fragments.map Definition.fragment) ∧
      (fragments.map Fragment.name).Nodup ∧
      (∀ frag ∈ fragments, ∃ name, Reaches registry site name ∧ Defines registry name frag) ∧
      ((∀ name frag, Reaches registry site name → Defines registry name frag → frag ∈ fragments) ↔
        OnlyRepeats site.source.toList (reachedTexts registry site)) ∧
      ∀ withTypenames, ∃ canonical document, canonicalize merged withTypenames = .ok canonical ∧
        parse canonical = .ok document ∧
        document.Perm ((.operation op :: fragments.map Definition.fragment).map
          (canonicalDefinition withTypenames)) := by
  have hnodup := hdefines.nodup hoperation
  have hsublist := Merge.appended_sublist site.source.toList (reachedTexts registry site)
  have hmerge := merge_eq_lines hdefines.contains
  have honly := Merge.onlyRepeats_iff hnodup
  generalize Merge.appended site.source.toList (reachedTexts registry site) = texts at *
  have hfragment : ∀ text ∈ texts, ∃ frag, parse text = .ok [.fragment frag] := fun text htext =>
    have ⟨_, frag, _, _, hparse, _⟩ := hdefines.mem_reachedTexts.1 (hsublist.mem htext)
    ⟨frag, hparse⟩
  have hexecutable : ∀ text ∈ site.source.toList :: texts, IsExecutableText text := by
    refine List.forall_mem_cons.2
      ⟨⟨_, hoperation, List.forall_mem_singleton.2 trivial⟩, fun text htext => ?_⟩
    obtain ⟨frag, hfrag⟩ := hfragment text htext
    exact ⟨_, hfrag, List.forall_mem_singleton.2 trivial⟩
  have hparse := parse_lines (List.cons_ne_nil _ _) hexecutable
  rw [List.flatMap_cons, documentOf_eq hoperation, flatMap_documentOf hfragment] at hparse
  refine ⟨_, texts.filterMap fragmentIn?, hmerge, hparse, ?_, ?_, ?_, ?_⟩
  · rw [List.map_filterMap, List.Nodup, List.pairwise_filterMap]
    have htexts : texts.Nodup := (List.nodup_cons.1 hnodup).2.sublist hsublist
    refine htexts.imp_of_mem fun {text text'} htext htext' hne name hname name' hname' heq => ?_
    obtain ⟨frag, hfrag, rfl⟩ := Option.map_eq_some_iff.1 hname
    obtain ⟨frag', hfrag', rfl⟩ := Option.map_eq_some_iff.1 hname'
    exact hne (hdefines.text_unique (hsublist.mem htext) (hsublist.mem htext')
      (fragmentIn?_eq_some.1 hfrag) (fragmentIn?_eq_some.1 hfrag') heq)
  · intro frag hfrag
    obtain ⟨text, htext, hfrag⟩ := List.mem_filterMap.1 hfrag
    obtain ⟨name, own, hname, hown, hparse', -⟩ := hdefines.mem_reachedTexts.1 (hsublist.mem htext)
    have heq : [Definition.fragment frag] = [.fragment own] :=
      Except.ok.inj ((fragmentIn?_eq_some.1 hfrag).symm.trans hparse')
    obtain rfl : frag = own := by simpa using heq
    exact ⟨name, hname, hown⟩
  · rw [honly]
    constructor
    · intro hall
      -- every reached text is there, so nothing was left out
      refine hsublist.eq_of_length_le (List.Subperm.length_le ?_)
      refine List.subperm_of_subset (List.nodup_cons.1 hnodup).2 fun text htext => ?_
      obtain ⟨name, frag, hname, hfrag, hparse', -⟩ := hdefines.mem_reachedTexts.1 htext
      obtain ⟨text', htext', hfrag'⟩ := List.mem_filterMap.1 (hall name frag hname hfrag)
      rwa [hdefines.text_unique htext (hsublist.mem htext') hparse'
        (fragmentIn?_eq_some.1 hfrag') rfl]
    · rintro rfl name frag hname ⟨via, hvia, hparse'⟩
      refine List.mem_filterMap.2 ⟨_, hdefines.mem_reachedTexts.2
        ⟨name, frag, hname, ⟨via, hvia, hparse'⟩, hparse', Merge.sourceOf_eq hvia⟩, ?_⟩
      exact fragmentIn?_eq_some.2 hparse'
  · intro withTypenames
    refine parse_canonicalize_perm hparse (List.forall_mem_cons.2 ⟨trivial, ?_⟩) withTypenames
    exact List.forall_mem_map.2 fun frag _ => trivial

end Definitions

/-- A call site of a text that depends on some names. -/
def siteOf (source : String) (dependsOn : List String) : CallSite :=
  ⟨"Site", source, ⟨0, 0⟩, .ofList dependsOn, none⟩

/-- The text of a fragment. -/
def rowText : String := "fragment Row on T{a}"

/-- A fragment. -/
def rowFragment : Fragment := ⟨none, "Row", "T", [], [.field none "a" [] [] []]⟩

/-- A registry of that fragment alone. -/
def rowRegistry : Registry := .ofList [("Row", siteOf rowText [])]

set_option maxRecDepth 8000 in
theorem parse_rowText : parse rowText.toList = .ok [.fragment rowFragment] := by
  cbv

theorem get?_rowRegistry : rowRegistry.get? "Row" = some (siteOf rowText []) := by
  cbv

/-- The operation that spreads the fragment. -/
def rowOperation : Operation := ⟨none, .query, none, [], [], [.spread "Row" []]⟩

/-- Whatever depends on the fragment alone reaches it and nothing else. -/
theorem definesEach_row (source : String) : DefinesEach rowRegistry (siteOf source ["Row"]) := by
  have hclosed : Closed rowRegistry (· = "Row") := by
    rintro name rfl
    exact ⟨_, get?_rowRegistry, fun next hnext => absurd hnext List.not_mem_nil⟩
  have honly : ∀ name, Reaches rowRegistry (siteOf source ["Row"]) name → name = "Row" := by
    refine fun name hname => hclosed.of_reaches (fun next hnext => ?_) hname
    exact List.mem_singleton.1 (NameSet.mem_ofList.1 hnext)
  constructor
  · intro name hname
    rw [honly name hname]
    exact ⟨rowFragment, _, get?_rowRegistry, parse_rowText⟩
  · intro name name' frag frag' hname hname' _ _ _
    rw [honly name hname, honly name' hname']

set_option maxRecDepth 8000 in
theorem parse_rowOperation : parse "{...Row}".toList = .ok [.operation rowOperation] := by
  cbv

theorem merge_definitions_row :
    parse (siteOf "{...Row}" ["Row"]).source.toList = .ok [.operation rowOperation] ∧
    DefinesEach rowRegistry (siteOf "{...Row}" ["Row"]) ∧
    ∃ (merged : Text) (fragments : List Fragment),
      merge rowRegistry (siteOf "{...Row}" ["Row"]) = .ok merged ∧
      parse merged = .ok (.operation rowOperation :: fragments.map Definition.fragment) ∧
      (fragments.map Fragment.name).Nodup ∧
      (∀ frag ∈ fragments, ∃ name, Reaches rowRegistry (siteOf "{...Row}" ["Row"]) name ∧
        Defines rowRegistry name frag) ∧
      ((∀ name frag, Reaches rowRegistry (siteOf "{...Row}" ["Row"]) name →
          Defines rowRegistry name frag → frag ∈ fragments) ↔
        OnlyRepeats (siteOf "{...Row}" ["Row"]).source.toList
          (reachedTexts rowRegistry (siteOf "{...Row}" ["Row"]))) ∧
      ∀ withTypenames, ∃ canonical document, canonicalize merged withTypenames = .ok canonical ∧
        parse canonical = .ok document ∧
        document.Perm ((.operation rowOperation :: fragments.map Definition.fragment).map
          (canonicalDefinition withTypenames)) :=
  ⟨parse_rowOperation, definesEach_row "{...Row}",
    merge_definitions parse_rowOperation (definesEach_row "{...Row}")⟩

/-- The same operation, with the fragment in a comment behind it. -/
def commented : String := "{...Row} #fragment Row on T{a}"

set_option maxRecDepth 8000 in
/-- Not every merged document defines all that the call site reaches: a fragment whose text stands in
a comment of the operation is left out. -/
theorem not_merge_complete :
    ¬ ∀ (registry : Registry) (site : CallSite) (op : Operation),
      parse site.source.toList = .ok [.operation op] → DefinesEach registry site →
      ∃ (merged : Text) (document : Document), merge registry site = .ok merged ∧
        parse merged = .ok document ∧ document.Nodup ∧
        ∀ d, d ∈ document ↔ d = .operation op ∨ ∃ name frag, Reaches registry site name ∧
          Defines registry name frag ∧ d = .fragment frag := by
  intro hcomplete
  have hparse : parse commented.toList = .ok [.operation rowOperation] := by
    cbv
  have hmerge : merge rowRegistry (siteOf commented ["Row"]) = .ok commented.toList := by
    cbv
  obtain ⟨merged, document, hmerged, hdocument, -, hmem⟩ :=
    hcomplete rowRegistry (siteOf commented ["Row"]) rowOperation hparse (definesEach_row commented)
  obtain rfl : commented.toList = merged := Except.ok.inj (hmerge.symm.trans hmerged)
  obtain rfl : [.operation rowOperation] = document := Except.ok.inj (hparse.symm.trans hdocument)
  have hreaches : Reaches rowRegistry (siteOf commented ["Row"]) "Row" :=
    .direct (NameSet.mem_ofList.2 List.mem_cons_self)
  have hrow := (hmem (.fragment rowFragment)).2
    (.inr ⟨"Row", rowFragment, hreaches, ⟨_, get?_rowRegistry, parse_rowText⟩, rfl⟩)
  simp at hrow

/-! ## What a persisted query depends on -/

/-- A text that a call site brings into its merged document. -/
def Involves (registry : Registry) (site : CallSite) (text : Text) : Prop :=
  text = site.source.toList ∨ ∃ name via, Reaches registry site name ∧
    registry.get? name = some via ∧ via.source.toList = text

/-- Items of texts that share no key are sorted alike, whatever the order of the texts. -/
theorem sortOn_flatMap_of_perm {α β : Type} {key : α → List Text} {itemsOf : β → List α}
    {texts texts' : List β} (hperm : texts.Perm texts')
    (hapart : ∀ text ∈ texts, ∀ text' ∈ texts, ∀ a ∈ itemsOf text, ∀ b ∈ itemsOf text',
      key a = key b → text = text') :
    sortOn key (texts.flatMap itemsOf) = sortOn key (texts'.flatMap itemsOf) := by
  refine sortOn_congr fun item => ?_
  induction hperm with
  | nil => rfl
  | cons text _ ih =>
    have hmore := ih fun first hfirst second hsecond =>
      hapart first (List.mem_cons_of_mem _ hfirst) second (List.mem_cons_of_mem _ hsecond)
    simp only [sameKey, List.flatMap_cons, List.filter_append] at hmore ⊢
    rw [hmore]
  | swap text text' texts =>
    -- one of the two has no item of the key, unless they are the same
    by_cases hsame : text = text'
    · rw [hsame]
    · have hnone : sameKey key (itemsOf text) item = [] ∨ sameKey key (itemsOf text') item = [] := by
        by_contra hboth
        obtain ⟨hsome, hsome'⟩ := not_or.1 hboth
        obtain ⟨a, ha⟩ := List.exists_mem_of_ne_nil _ hsome
        obtain ⟨b, hb⟩ := List.exists_mem_of_ne_nil _ hsome'
        obtain ⟨ha, hkey⟩ := mem_sameKey.1 ha
        obtain ⟨hb, hkey'⟩ := mem_sameKey.1 hb
        exact hsame (hapart text (by simp) text' (by simp) a ha b hb (hkey.trans hkey'.symm))
      simp only [sameKey, List.flatMap_cons, List.filter_append] at hnone ⊢
      rcases hnone with hnone | hnone <;> simp [hnone]
  | trans hfirst _ ih ih' =>
    rw [ih hapart, ih' fun text htext text' htext' =>
      hapart text (hfirst.mem_iff.2 htext) text' (hfirst.mem_iff.2 htext')]

/-- Definitions that a text can have share a key only when they share a name. -/
theorem name?_eq_of_definitionKey {d d' : Definition} (h : IsReadable d) (h' : IsReadable d')
    (hexecutable : d.IsExecutable) (hexecutable' : d'.IsExecutable)
    (hkey : definitionKey d = definitionKey d') : d.name? = d'.name? := by
  have hfull : ∀ {d : Definition}, IsReadable d → d.IsExecutable → d.name? ≠ some "" := by
    intro d hd hexecutable hname
    have htoken : Token.name "" ∈ d.tokens := by
      cases d with
      | operation op =>
        have hname : op.name = some "" := hname
        simp [Definition.tokens, Operation.tokens, hname]
      | fragment frag =>
        have hname : frag.name = "" := Option.some.inj hname
        simp [Definition.tokens, Fragment.tokens, hname]
      | system definition => cases hexecutable
    obtain ⟨c, rest, hempty, -⟩ := hd.lexical _ htoken
    cases hempty
  have hname : (d.name?.getD "").toList = (d'.name?.getD "").toList := by
    rw [← elim_toList, ← elim_toList]
    exact (List.cons.inj (List.cons.inj hkey).2).1
  have hname : d.name?.getD "" = d'.name?.getD "" := String.toList_inj.1 hname
  cases hd : d.name? with
  | none =>
    cases hd' : d'.name? with
    | none => rfl
    | some name =>
      rw [hd, hd'] at hname
      obtain rfl : "" = name := hname
      exact absurd hd' (hfull h' hexecutable')
  | some name =>
    cases hd' : d'.name? with
    | none =>
      rw [hd, hd'] at hname
      obtain rfl : name = "" := hname
      exact absurd hd (hfull h hexecutable)
    | some name' =>
      rw [hd, hd'] at hname
      exact congrArg some hname

/-- The order of texts that define different names makes no difference to the canonical document. -/
theorem canonicalDocument_flatMap_of_perm {lines lines' : List Text} (hperm : lines.Perm lines')
    (hexecutable : ∀ text ∈ lines, IsExecutableText text)
    (hapart : ∀ text ∈ lines, ∀ text' ∈ lines, text ≠ text' →
      ∀ d ∈ documentOf text, ∀ d' ∈ documentOf text', d.name? ≠ d'.name?)
    (withTypenames : Bool) : canonicalDocument withTypenames (lines.flatMap documentOf) =
      canonicalDocument withTypenames (lines'.flatMap documentOf) := by
  have hread : ∀ text ∈ lines, ∀ d ∈ documentOf text, IsReadable d ∧ d.IsExecutable := by
    intro text htext d hd
    obtain ⟨document, hdocument, hall⟩ := hexecutable text htext
    rw [documentOf_eq hdocument] at hd
    exact ⟨(readable_of_parse hdocument).2 d hd, hall d hd⟩
  rw [canonicalDocument_eq, canonicalDocument_eq, List.map_flatMap, List.map_flatMap]
  refine sortOn_flatMap_of_perm hperm fun text htext text' htext' a ha b hb hkey => ?_
  by_contra hdifferent
  obtain ⟨d, hd, rfl⟩ := List.mem_map.1 ha
  obtain ⟨d', hd', rfl⟩ := List.mem_map.1 hb
  rw [definitionKey_orderedDefinition, definitionKey_orderedDefinition] at hkey
  obtain ⟨hreadable, hexec⟩ := hread text htext d hd
  obtain ⟨hreadable', hexec'⟩ := hread text' htext' d' hd'
  exact hapart text htext text' htext' hdifferent d hd d' hd'
    (name?_eq_of_definitionKey hreadable hreadable' hexec hexec' hkey)

section Texts

variable {registry registry' : Registry} {site site' : CallSite}

theorem involves_iff (h : ∀ name, Reaches registry site name → registry.contains name = true)
    {text : Text} : Involves registry site text ↔
      text = site.source.toList ∨ text ∈ reachedTexts registry site := by
  rw [mem_reachedTexts h]
  rfl

/-- The lines of a merged document where only repeats are left out: each text that the call site
involves, once. -/
theorem lines_of_involves
    (hpresent : ∀ name, Reaches registry site name → registry.contains name = true)
    (honly : OnlyRepeats site.source.toList (reachedTexts registry site)) :
    ∃ lines, merge registry site = .ok (joinWith ['\n'] lines) ∧ lines ≠ [] ∧ lines.Nodup ∧
      ∀ text, text ∈ lines ↔ Involves registry site text := by
  obtain ⟨hnodup, hmem⟩ := Merge.lines_of_onlyRepeats honly
  refine ⟨_, merge_eq_lines hpresent, List.cons_ne_nil _ _, hnodup, fun text => ?_⟩
  rw [hmem, involves_iff hpresent]

theorem persist_eq_ok {lines : List Text}
    (hmerge : merge registry site = .ok (joinWith ['\n'] lines))
    (hparse : parse (joinWith ['\n'] lines) = .ok (lines.flatMap documentOf))
    (withTypenames : Bool) : persist registry site withTypenames = .ok (.ofCanonical
      (canonicalText (canonicalDocument withTypenames (lines.flatMap documentOf)))) :=
  persist_of_merge hmerge (canonicalize_of_parse hparse withTypenames)

/-- **Persisted queries are made of texts.** Two call sites of one text that reach the same texts have
one persisted query, under whatever names and in whatever order they reach them: provided that
each text is an executable document, that no two texts define one name, and that merging leaves
nothing out but repeats. -/
theorem persist_of_texts (hsource : site.source = site'.source)
    (hpresent : ∀ name, Reaches registry site name → registry.contains name = true)
    (hpresent' : ∀ name, Reaches registry' site' name → registry'.contains name = true)
    (htexts : ∀ text, (∃ name via, Reaches registry site name ∧ registry.get? name = some via ∧
        via.source.toList = text) ↔
      ∃ name via, Reaches registry' site' name ∧ registry'.get? name = some via ∧
        via.source.toList = text)
    (hexecutable : ∀ text, Involves registry site text → IsExecutableText text)
    (hapart : ∀ text text' d d', Involves registry site text → Involves registry site text' →
      text ≠ text' → d ∈ documentOf text → d' ∈ documentOf text' → d.name? ≠ d'.name?)
    (honly : OnlyRepeats site.source.toList (reachedTexts registry site))
    (honly' : OnlyRepeats site'.source.toList (reachedTexts registry' site'))
    (withTypenames : Bool) :
    ∃ persisted, persist registry site withTypenames = .ok persisted ∧
      persist registry' site' withTypenames = .ok persisted := by
  obtain ⟨lines, hmerge, hne, hnodup, hmem⟩ := lines_of_involves hpresent honly
  obtain ⟨lines', hmerge', hne', hnodup', hmem'⟩ := lines_of_involves hpresent' honly'
  have hsame : ∀ text, text ∈ lines ↔ text ∈ lines' := by
    intro text
    rw [hmem, hmem', Involves, Involves, hsource, htexts]
  have hperm : lines.Perm lines' := (List.perm_ext_iff_of_nodup hnodup hnodup').2 hsame
  have hlines : ∀ text ∈ lines, IsExecutableText text := fun text htext =>
    hexecutable text ((hmem text).1 htext)
  have hlines' : ∀ text ∈ lines', IsExecutableText text := fun text htext =>
    hlines text ((hsame text).2 htext)
  have hcanonical := canonicalDocument_flatMap_of_perm hperm hlines
    (fun text htext text' htext' hne d hd d' hd' =>
      hapart text text' d d' ((hmem text).1 htext) ((hmem text').1 htext') hne hd hd') withTypenames
  refine ⟨_, persist_eq_ok hmerge (parse_lines hne hlines) withTypenames, ?_⟩
  rw [persist_eq_ok hmerge' (parse_lines hne' hlines') withTypenames, hcanonical]

end Texts

/-- The text of another fragment. -/
def cellText : String := "fragment Cell on T{b}"

/-- The other fragment. -/
def cellFragment : Fragment := ⟨none, "Cell", "T", [], [.field none "b" [] [] []]⟩

/-- The text of an operation that spreads the other fragment. -/
def cellSource : String := "{...Cell}"

/-- A registry in which the other fragment depends on the first. -/
def chainRegistry : Registry :=
  .ofList [("Row", siteOf rowText []), ("Cell", siteOf cellText ["Row"])]

/-- A registry of the two fragments under other names, behind what no call site reaches. -/
def flatRegistry : Registry :=
  .ofList [("Stray", siteOf "" []), ("A", siteOf rowText []), ("B", siteOf cellText [])]

theorem reachedTexts_chain : reachedTexts chainRegistry (siteOf cellSource ["Cell"]) =
    [cellText.toList, rowText.toList] := by
  cbv

theorem reachedTexts_flat : reachedTexts flatRegistry (siteOf cellSource ["A", "B"]) =
    [rowText.toList, cellText.toList] := by
  cbv

theorem present_chain (name : String) (h : Reaches chainRegistry (siteOf cellSource ["Cell"]) name) :
    chainRegistry.contains name = true := by
  have hrow : chainRegistry.get? "Row" = some (siteOf rowText []) := by
    cbv
  have hcell : chainRegistry.get? "Cell" = some (siteOf cellText ["Row"]) := by
    cbv
  have hclosed : Closed chainRegistry fun name => name = "Row" ∨ name = "Cell" := by
    rintro name (rfl | rfl)
    · exact ⟨_, hrow, fun next hnext => absurd hnext List.not_mem_nil⟩
    · exact ⟨_, hcell, fun next hnext => .inl (List.mem_singleton.1 (NameSet.mem_ofList.1 hnext))⟩
  obtain ⟨via, hvia, -⟩ := hclosed name (hclosed.of_reaches
    (fun next hnext => .inr (List.mem_singleton.1 (NameSet.mem_ofList.1 hnext))) h)
  exact Table.contains_iff.2 ⟨via, hvia⟩

theorem present_flat (name : String) (h : Reaches flatRegistry (siteOf cellSource ["A", "B"]) name) :
    flatRegistry.contains name = true := by
  have hrow : flatRegistry.get? "A" = some (siteOf rowText []) := by
    cbv
  have hcell : flatRegistry.get? "B" = some (siteOf cellText []) := by
    cbv
  have hclosed : Closed flatRegistry fun name => name = "A" ∨ name = "B" := by
    rintro name (rfl | rfl)
    · exact ⟨_, hrow, fun next hnext => absurd hnext List.not_mem_nil⟩
    · exact ⟨_, hcell, fun next hnext => absurd hnext List.not_mem_nil⟩
  obtain ⟨via, hvia, -⟩ := hclosed name (hclosed.of_reaches (fun next hnext => by
    have hmem : next ∈ ["A", "B"] := NameSet.mem_ofList.1 hnext
    simpa using hmem) h)
  exact Table.contains_iff.2 ⟨via, hvia⟩

/-- The documents of the three texts, with the names that they define. -/
def namesOf : List (Text × Document × List (Option String)) :=
  [(cellSource.toList, [.operation ⟨none, .query, none, [], [], [.spread "Cell" []]⟩], [none]),
   (rowText.toList, [.fragment rowFragment], [some "Row"]),
   (cellText.toList, [.fragment cellFragment], [some "Cell"])]

set_option maxRecDepth 8000 in
theorem parse_namesOf : ∀ entry ∈ namesOf, parse entry.1 = .ok entry.2.1 ∧
    entry.2.1.map Definition.name? = entry.2.2 ∧ ∀ d ∈ entry.2.1, d.IsExecutable := by
  have hcell : parse cellText.toList = .ok [.fragment cellFragment] := by
    cbv
  have hsource : parse cellSource.toList =
      .ok [.operation ⟨none, .query, none, [], [], [.spread "Cell" []]⟩] := by
    cbv
  simp only [namesOf, List.forall_mem_cons, List.not_mem_nil, false_implies, implies_true, and_true]
  exact ⟨⟨hsource, rfl, trivial⟩, ⟨parse_rowText, rfl, trivial⟩, ⟨hcell, rfl, trivial⟩⟩

theorem distinct_namesOf : ∀ entry ∈ namesOf, ∀ entry' ∈ namesOf, entry.1 ≠ entry'.1 →
    ∀ name ∈ entry.2.2, name ∉ entry'.2.2 := by
  simp [namesOf, cellSource, rowText, cellText]

/-- The same two fragments, reached one from the other or both at once. -/
theorem persist_of_texts_chain : ∃ persisted,
    persist chainRegistry (siteOf cellSource ["Cell"]) true = .ok persisted ∧
    persist flatRegistry (siteOf cellSource ["A", "B"]) true = .ok persisted := by
  have hinvolves : ∀ text, Involves chainRegistry (siteOf cellSource ["Cell"]) text →
      ∃ entry ∈ namesOf, entry.1 = text := by
    intro text htext
    rw [involves_iff present_chain, reachedTexts_chain] at htext
    simp only [List.mem_cons, List.not_mem_nil, or_false] at htext
    rcases htext with rfl | rfl | rfl <;> simp [namesOf, siteOf]
  refine @persist_of_texts chainRegistry flatRegistry (siteOf cellSource ["Cell"])
    (siteOf cellSource ["A", "B"]) rfl present_chain present_flat (fun text => ?_)
    (fun text htext => ?_) (fun text text' d d' htext htext' hne hd hd' => ?_) ?_ ?_ true
  · rw [← mem_reachedTexts present_chain, ← mem_reachedTexts present_flat, reachedTexts_chain,
      reachedTexts_flat]
    simp [or_comm]
  · obtain ⟨entry, hentry, rfl⟩ := hinvolves text htext
    obtain ⟨hparse, -, hexecutable⟩ := parse_namesOf entry hentry
    exact ⟨_, hparse, hexecutable⟩
  · obtain ⟨entry, hentry, rfl⟩ := hinvolves text htext
    obtain ⟨entry', hentry', rfl⟩ := hinvolves text' htext'
    obtain ⟨hparse, hnames, -⟩ := parse_namesOf entry hentry
    obtain ⟨hparse', hnames', -⟩ := parse_namesOf entry' hentry'
    rw [documentOf_eq hparse] at hd
    rw [documentOf_eq hparse'] at hd'
    intro hname
    refine distinct_namesOf entry hentry entry' hentry' hne d.name? ?_ ?_
    · rw [← hnames]
      exact List.mem_map_of_mem hd
    · rw [← hnames', hname]
      exact List.mem_map_of_mem hd'
  · rw [reachedTexts_chain]
    refine (Merge.onlyRepeats_iff ?_).2 ?_
    · decide
    · cbv
  · rw [reachedTexts_flat]
    refine (Merge.onlyRepeats_iff ?_).2 ?_
    · decide
    · cbv

end PersistedQueries
