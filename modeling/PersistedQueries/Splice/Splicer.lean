import PersistedQueries.Text.Basic

/-!
# Overwriting spans

A splicer holds a base text and replacements for parts of it, which never overlap.

- `Edit`: a span and the text that takes its place.
- `Splicer`: a base with its edits in source order; that they are disjoint and lie
  within the base is part of the type.
- `Splicer.overwrite`: one more edit, or the reason why there is no room for it.
- `Splicer.chunks`: the base cut into what is kept and what is replaced.
- `Splicer.text`: the base with every edited span replaced.
-/

namespace PersistedQueries.Splice

/-- A span of the base and the text that takes its place. -/
structure Edit where
  span : Span
  content : Text
  deriving DecidableEq, Repr

/-- Two edits touch a common character. -/
def Edit.Overlaps (start stop : Nat) (edit : Edit) : Prop :=
  start < edit.span.stop ∧ edit.span.start < stop

instance (start stop : Nat) (edit : Edit) : Decidable (edit.Overlaps start stop) :=
  inferInstanceAs (Decidable (_ ∧ _))

/-- The first edit ends where the second starts or before. -/
def Edit.Before (first second : Edit) : Prop := first.span.stop ≤ second.span.start

/-- The span has a character and lies within a text of a length. -/
def Edit.Within (length : Nat) (edit : Edit) : Prop :=
  edit.span.start < edit.span.stop ∧ edit.span.stop ≤ length

/-- Put an edit in front of the first one that does not start before it. -/
def insertEdit (edit : Edit) : List Edit → List Edit
  | [] => [edit]
  | first :: rest =>
    if edit.span.start ≤ first.span.start then edit :: first :: rest
    else first :: insertEdit edit rest

theorem mem_insertEdit {edit other : Edit} {edits : List Edit} :
    other ∈ insertEdit edit edits ↔ other = edit ∨ other ∈ edits := by
  induction edits with
  | nil => simp [insertEdit]
  | cons first rest ih => grind [insertEdit]

/-- An edit that overlaps none of a list in order finds its place in the order. -/
theorem pairwise_insertEdit {edit : Edit} {edits : List Edit}
    (hedit : edit.span.start < edit.span.stop)
    (hedits : ∀ e ∈ edits, e.span.start < e.span.stop)
    (hfree : ∀ e ∈ edits, ¬ e.Overlaps edit.span.start edit.span.stop)
    (h : edits.Pairwise Edit.Before) : (insertEdit edit edits).Pairwise Edit.Before := by
  induction edits with
  | nil => simp [insertEdit]
  | cons first rest ih =>
    obtain ⟨hfirst, hrest⟩ := List.pairwise_cons.1 h
    have hlt := hedits first (by simp)
    have hne := hfree first (by simp)
    simp only [Edit.Overlaps] at hne
    unfold insertEdit
    split
    · refine List.pairwise_cons.2 ⟨fun other hother => ?_, h⟩
      rcases List.mem_cons.1 hother with rfl | hother
      · simp only [Edit.Before]; omega
      · have := hfirst other hother
        simp only [Edit.Before] at this ⊢
        omega
    · refine List.pairwise_cons.2 ⟨fun other hother => ?_, ih
        (fun e he => hedits e (by simp [he])) (fun e he => hfree e (by simp [he])) hrest⟩
      rcases mem_insertEdit.1 hother with rfl | hother
      · simp only [Edit.Before]; omega
      · exact hfirst other hother

/-- A base text and the replacements for parts of it. -/
structure Splicer where
  base : Text
  /-- The edits in source order. -/
  edits : List Edit
  /-- Each edit ends before the next one starts. -/
  ordered : edits.Pairwise Edit.Before
  /-- Each edit replaces characters of the base. -/
  within : ∀ edit ∈ edits, edit.Within base.length

/-- Why a span cannot be overwritten. -/
inductive SpliceError where
  /-- The span is empty or reversed or leaves the base. -/
  | outside (start stop : Int)
  /-- The span shares a character with an earlier edit. -/
  | overlap (span earlier : Span)
  deriving DecidableEq, Repr

/-- The words for a refusal. -/
def SpliceError.message : SpliceError → String
  | .outside start stop => s!"Span ({start}, {stop}) is outside the source text"
  | .overlap span earlier =>
    s!"Span ({span.start}, {span.stop}) overlaps an earlier edit ({earlier.start}, {earlier.stop})"

namespace Splicer

/-- The splicer of a text without edits. -/
def ofText (base : Text) : Splicer := ⟨base, [], .nil, by simp⟩

/-- Replace the characters from one offset to another. -/
def overwrite (splicer : Splicer) (start stop : Int) (content : Text) :
    Except SpliceError Splicer :=
  if hspan : 0 ≤ start ∧ start < stop ∧ stop ≤ splicer.base.length then
    let edit : Edit := ⟨⟨start.toNat, stop.toNat⟩, content⟩
    match hfind : splicer.edits.find? fun e => e.Overlaps edit.span.start edit.span.stop with
    | some earlier => .error (.overlap edit.span earlier.span)
    | none =>
      have hedit : edit.Within splicer.base.length :=
        ⟨show start.toNat < stop.toNat by omega, show stop.toNat ≤ _ by omega⟩
      .ok {
        base := splicer.base
        edits := insertEdit edit splicer.edits
        ordered := pairwise_insertEdit hedit.1 (fun e he => (splicer.within e he).1)
          (fun e he => by simpa using List.find?_eq_none.1 hfind e he) splicer.ordered
        within := fun e he => by
          rcases mem_insertEdit.1 he with rfl | he
          · exact hedit
          · exact splicer.within e he }
  else .error (.outside start stop)

/-- The splicer has an edit. -/
def isModified (splicer : Splicer) : Bool := !splicer.edits.isEmpty

/-- A part of the base: kept, or replaced by a text. -/
structure Chunk where
  span : Span
  /-- The replacement, or nothing where the base is kept. -/
  content : Option Text
  deriving DecidableEq, Repr

/-- The part of the base between two offsets, when there is any. -/
def keptChunk (start stop : Nat) : List Chunk :=
  if start < stop then [⟨⟨start, stop⟩, none⟩] else []

/-- The chunks from an offset to the end of a base of a length. -/
def chunksFrom (length offset : Nat) : List Edit → List Chunk
  | [] => keptChunk offset length
  | edit :: rest =>
    keptChunk offset edit.span.start ++
      ⟨edit.span, some edit.content⟩ :: chunksFrom length edit.span.stop rest

/-- The base cut into what is kept and what is replaced. -/
def chunks (splicer : Splicer) : List Chunk :=
  chunksFrom splicer.base.length 0 splicer.edits

/-- The text that a chunk contributes. -/
def Chunk.text (base : Text) (chunk : Chunk) : Text :=
  chunk.content.getD (Text.slice base chunk.span)

/-- The base with every edited span replaced. -/
def text (splicer : Splicer) : Text :=
  splicer.chunks.flatMap (Chunk.text splicer.base)

end Splicer

end PersistedQueries.Splice
