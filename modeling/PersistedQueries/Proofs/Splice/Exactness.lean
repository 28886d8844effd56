import Mathlib.Data.List.Perm.Basic
import PersistedQueries.Proofs.CallSite.Spans
import PersistedQueries.Splice.PersistedCall

/-!
# Persisting the call sites of a text

The edits of a splicer stand in one order, whatever the order in which they came, and the spans of
the call sites of a text do not overlap. So every order of the replacements is accepted, and all of
them give the text in which each call site is replaced and all else is kept.

- `replacedFrom`: the text with the spans of some edits replaced, said without chunks.
- `text_eq_replacedFrom`: a splicer gives that text.
- `overwrite_eq_ok`: an edit that overlaps no earlier one is accepted.
- `spliceCalls_eq_ok`: so are the replacements of call sites that stand apart.
- `spliceSource_eq_ok`: so the text with the persisted calls in their places is what comes out.
- `spliceSource_extract`: the call sites of a text are replaced exactly.
-/

namespace PersistedQueries.Splice

/-! ## The text of a splicer -/

/-- A text from an offset on, in which the spans of some edits, given in order, are replaced. -/
def replacedFrom (base : Text) (offset : Nat) : List Edit → Text
  | [] => base.drop offset
  | edit :: rest =>
    Text.slice base ⟨offset, edit.span.start⟩ ++ edit.content ++
      replacedFrom base edit.span.stop rest

namespace Splicer

theorem flatMap_keptChunk (base : Text) (start stop : Nat) :
    (keptChunk start stop).flatMap (Chunk.text base) = Text.slice base ⟨start, stop⟩ := by
  unfold keptChunk
  split
  · simp [Chunk.text]
  · next h => simp [Text.slice, Nat.sub_eq_zero_of_le (Nat.le_of_not_lt h)]

theorem flatMap_chunksFrom (base : Text) (offset : Nat) (edits : List Edit) :
    (chunksFrom base.length offset edits).flatMap (Chunk.text base) =
      replacedFrom base offset edits := by
  induction edits generalizing offset with
  | nil =>
    rw [chunksFrom, flatMap_keptChunk, replacedFrom, Text.slice]
    exact List.take_of_length_le (by simp)
  | cons edit rest ih =>
    rw [chunksFrom, List.flatMap_append, List.flatMap_cons, flatMap_keptChunk, ih, replacedFrom,
      List.append_assoc]
    rfl

theorem text_eq_replacedFrom (splicer : Splicer) :
    splicer.text = replacedFrom splicer.base 0 splicer.edits :=
  flatMap_chunksFrom splicer.base 0 splicer.edits

end Splicer

/-! ## The order of edits -/

theorem perm_insertEdit (edit : Edit) (edits : List Edit) :
    (insertEdit edit edits).Perm (edit :: edits) := by
  induction edits with
  | nil => exact .refl _
  | cons first rest ih =>
    unfold insertEdit
    split
    · exact .refl _
    · exact (ih.cons first).trans (.swap edit first rest)

/-- The edits of a text stand in one order. -/
theorem eq_of_perm_of_before {edits edits' : List Edit}
    (hspans : ∀ edit ∈ edits, edit.span.start < edit.span.stop) (h : edits.Pairwise Edit.Before)
    (h' : edits'.Pairwise Edit.Before) (hperm : edits.Perm edits') : edits = edits' := by
  refine List.Perm.eq_of_pairwise (fun a b ha hb hab hba => ?_) h h' hperm
  -- neither of two edits can end before the other one starts and begin behind its end
  have hspan := hspans a ha
  have hspan' := hspans b (hperm.mem_iff.2 hb)
  simp only [Edit.Before] at hab hba
  omega

/-- An edit within the base that overlaps no earlier edit is accepted. -/
theorem overwrite_eq_ok {splicer : Splicer} {edit : Edit}
    (hwithin : edit.Within splicer.base.length)
    (hfree : ∀ other ∈ splicer.edits, ¬ other.Overlaps edit.span.start edit.span.stop) :
    ∃ later, splicer.overwrite edit.span.start edit.span.stop edit.content = .ok later ∧
      later.base = splicer.base ∧ later.edits.Perm (edit :: splicer.edits) := by
  obtain ⟨hstart, hstop⟩ := hwithin
  have hspan : (0 : Int) ≤ edit.span.start ∧ (edit.span.start : Int) < edit.span.stop ∧
      (edit.span.stop : Int) ≤ splicer.base.length := by omega
  unfold Splicer.overwrite
  rw [dif_pos hspan]
  dsimp only
  split
  · next earlier hfound =>
    have hoverlaps := List.find?_some hfound
    exact absurd (of_decide_eq_true hoverlaps) (hfree earlier (List.mem_of_find?_eq_some hfound))
  · exact ⟨_, rfl, rfl, perm_insertEdit edit splicer.edits⟩

/-! ## Call sites -/

variable (style : Style) (hash document : CallSite → String)

/-- The edit that persists a call site. -/
def callEdit (site : CallSite) : Edit where
  span := site.span
  content := persistedCall site.name (hash site)
    (if style.removeSource then none else some (document site)) style.isPure

/-- Two call sites share no character. -/
def Apart (site other : CallSite) : Prop :=
  site.span.stop ≤ other.span.start ∨ other.span.stop ≤ site.span.start

theorem spliceCalls_cons {style : Style} {replacement : Replacement} {rest : List Replacement}
    {splicer later : Splicer} (h : splicer.overwrite replacement.start replacement.stop
      (replacement.call style) = .ok later) :
    spliceCalls style (replacement :: rest) splicer = spliceCalls style rest later := by
  rw [spliceCalls, h]

section Items

variable {α : Type} (site : α → CallSite) (hash document : α → String) {items order : List α}

/-- The edit that persists the call site of an item. -/
def itemEdit (item : α) : Edit :=
  callEdit style (fun _ => hash item) (fun _ => document item) (site item)

/-- The replacements of call sites that stand apart are accepted in every order. -/
theorem spliceCalls_eq_ok {splicer : Splicer}
    (hwithin : ∀ item ∈ items,
      (site item).span.start < (site item).span.stop ∧ (site item).span.stop ≤ splicer.base.length)
    (hapart : items.Pairwise fun item other => Apart (site item) (site other))
    (hfree : ∀ item ∈ items, ∀ edit ∈ splicer.edits,
      ¬ edit.Overlaps (site item).span.start (site item).span.stop) :
    ∃ later, spliceCalls style
        (items.map fun item => .ofCallSite (site item) (hash item) (document item)) splicer =
          .ok later ∧
      later.base = splicer.base ∧
      later.edits.Perm (items.map (itemEdit style site hash document) ++ splicer.edits) := by
  induction items generalizing splicer with
  | nil => exact ⟨splicer, rfl, rfl, .refl _⟩
  | cons item rest ih =>
    obtain ⟨hitem, hrest⟩ := List.forall_mem_cons.1 hwithin
    obtain ⟨hnext, hapart⟩ := List.pairwise_cons.1 hapart
    obtain ⟨hown, hfree⟩ := List.forall_mem_cons.1 hfree
    obtain ⟨next, hok, hbase, hedits⟩ :=
      @overwrite_eq_ok splicer (itemEdit style site hash document item) hitem hown
    -- the rest overlaps neither the earlier edits nor the one just made
    have hlater : ∀ other ∈ rest, ∀ edit ∈ next.edits,
        ¬ edit.Overlaps (site other).span.start (site other).span.stop := by
      intro other hother edit hedit
      rcases List.mem_cons.1 (hedits.mem_iff.1 hedit) with rfl | hedit
      · have hdisjoint := hnext other hother
        simp only [Apart, Edit.Overlaps, itemEdit, callEdit] at hdisjoint ⊢
        omega
      · exact hfree other hother edit hedit
    obtain ⟨later, hrun, hbase', hedits'⟩ := ih (hbase ▸ hrest) hapart hlater
    refine ⟨later, ?_, hbase'.trans hbase,
      hedits'.trans ((hedits.append_left _).trans List.perm_middle)⟩
    exact (spliceCalls_cons hok).trans hrun

/-- Persisting call sites that come in order gives the text with the persisted calls in their
places, whatever the order of the replacements. -/
theorem spliceSource_eq_ok {code : Text} (source : Option String)
    (hordered : items.Pairwise fun item other => (site item).span.stop ≤ (site other).span.start)
    (hspans : ∀ item ∈ items,
      (site item).span.start < (site item).span.stop ∧ (site item).span.stop ≤ code.length)
    (horder : order.Perm items) :
    ∃ map, spliceSource code
        (order.map fun item => .ofCallSite (site item) (hash item) (document item)) style source =
      .ok ⟨replacedFrom code 0 (items.map (itemEdit style site hash document)), map⟩ := by
  have hapart : order.Pairwise fun item other => Apart (site item) (site other) :=
    (horder.pairwise_iff fun h => h.symm).2 (hordered.imp Or.inl)
  have hwithin : ∀ item ∈ order, (site item).span.start < (site item).span.stop ∧
      (site item).span.stop ≤ (Splicer.ofText code).base.length :=
    fun item hitem => hspans item (horder.mem_iff.1 hitem)
  obtain ⟨later, hok, hbase, hedits⟩ := spliceCalls_eq_ok style site hash document hwithin hapart
    fun _ _ edit hedit => absurd hedit List.not_mem_nil
  -- the edits are those of the call sites, and both lists are in order
  have hsorted : later.edits = items.map (itemEdit style site hash document) := by
    refine eq_of_perm_of_before (fun edit hedit => (later.within edit hedit).1) later.ordered
      (hordered.map _ fun _ _ h => h) ?_
    rw [show (Splicer.ofText code).edits = [] from rfl, List.append_nil] at hedits
    exact hedits.trans (horder.map _)
  refine ⟨later.sourceMap source none true, ?_⟩
  rw [spliceSource, hok, Except.map, Splicer.text_eq_replacedFrom, hbase, hsorted]
  rfl

end Items

/-- The spans of the call sites of a text come in order, have characters and lie within the text.
Each covers the name of its call site first, the document between two backticks, and a closing
parenthesis last, and begins outside the comments and literals. Whatever the hashes, the documents,
the order of the replacements and the style, persisting the call sites succeeds, and gives the text
with the persisted calls in the place of the spans. -/
theorem spliceSource_extract (code : Text) (file : Option String) :
    let sites := CallSite.extract code file
    sites.Pairwise (fun a b => a.span.stop ≤ b.span.start) ∧
    (∀ site ∈ sites, site.span.start < site.span.stop ∧ site.span.stop ≤ code.length ∧
      (∃ between behind, Text.slice code site.span = site.name.toList ++
        (between ++ '\x60' :: (site.source.toList ++ '\x60' :: (behind ++ [')'])))) ∧
      ∀ range ∈ CallSite.ignoredRanges code, ¬ range.Contains site.span.start) ∧
    ∀ (order : List CallSite) (hash document : CallSite → String) (style : Style)
      (source : Option String), order.Perm sites →
      ∃ map, spliceSource code
          (order.map fun site => .ofCallSite site (hash site) (document site)) style source =
        .ok ⟨replacedFrom code 0 (sites.map (callEdit style hash document)), map⟩ := by
  intro sites
  have hordered := CallSite.pairwise_extract code file
  have hspans : ∀ site ∈ sites, site.span.start < site.span.stop ∧ site.span.stop ≤ code.length :=
    fun site hsite =>
      have ⟨hstart, hstop, _⟩ := CallSite.slice_of_mem_extract hsite
      ⟨hstart, hstop⟩
  refine ⟨hordered, fun site hsite => ?_, fun order hash document style source horder => ?_⟩
  · obtain ⟨hstart, hstop, hpieces⟩ := CallSite.slice_of_mem_extract hsite
    exact ⟨hstart, hstop, hpieces, fun range hrange =>
      CallSite.not_contains_of_mem_extract hsite hrange⟩
  · exact spliceSource_eq_ok style id hash document source hordered hspans horder

/-- A text with a fragment and a query, behind a comment that looks like a call. -/
def twoCalls : Text :=
  "// X = graphql(`x`)
const A = graphql(`fragment A on T { a }`);
export const Q = graphql(`query Q { ...A }`, [A]);".toList

/-- The call sites of the text are replaced, the last one first. -/
theorem spliceSource_two_calls :
    let sites := CallSite.extract twoCalls none
    sites.reverse.Perm sites ∧
    ∃ map, spliceSource twoCalls
        (sites.reverse.map fun site => .ofCallSite site site.name site.source) ⟨true, false⟩ none =
      .ok ⟨"// X = graphql(`x`)
const A = graphql.persisted(`A`);
export const Q = graphql.persisted(`Q`);".toList, map⟩ := by
  intro sites
  refine ⟨sites.reverse_perm, ?_⟩
  obtain ⟨-, -, hsplice⟩ := spliceSource_extract twoCalls none
  obtain ⟨map, hok⟩ := hsplice sites.reverse CallSite.name CallSite.source ⟨true, false⟩ none
    sites.reverse_perm
  refine ⟨map, hok.trans ?_⟩
  have htext : replacedFrom twoCalls 0
      (sites.map (callEdit ⟨true, false⟩ CallSite.name CallSite.source)) =
        "// X = graphql(`x`)
const A = graphql.persisted(`A`);
export const Q = graphql.persisted(`Q`);".toList := by
    decide +kernel
  rw [htext]

end PersistedQueries.Splice
