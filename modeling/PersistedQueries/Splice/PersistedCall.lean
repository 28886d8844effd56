import PersistedQueries.Splice.SourceMap
import PersistedQueries.CallSite.Basic

/-!
# Persisted calls

A persisted call refers to its document by the hash, and may keep the document:

    Name = graphql.persisted(`hash`, graphql(`document`))

- `escapeTemplate`: a text as the interior of a template literal that evaluates to it.
- `persistedCall`: the text of a persisted call.
- `Replacement`: a span with the name, hash and document of its persisted call.
- `spliceSource`: a source text with every given call persisted, and the source map.
-/

namespace PersistedQueries.Splice

/-- Escape the dollar signs that would start an interpolation. -/
def escapeInterpolations : Text → Text
  | [] => []
  | '$' :: '\x7b' :: rest => '\\' :: '$' :: '\x7b' :: escapeInterpolations rest
  | c :: rest => c :: escapeInterpolations rest

/-- A text as the interior of a template literal that evaluates to it. -/
def escapeTemplate (text : Text) : Text :=
  escapeInterpolations (Text.replaceChar '\x60' ['\\', '\x60'] (Text.replaceChar '\\' ['\\', '\\'] text))

/-- A template literal. -/
def template (interior : Text) : Text := '\x60' :: interior ++ ['\x60']

/-- The note by which a bundler knows a call without effects. -/
def pureNote : String := "/* @__PURE__ */ "

/-- The text of a persisted call; without a document only the hash stays. -/
def persistedCall (name hash : String) (document : Option String) (isPure : Bool) : Text :=
  let note := if isPure then pureNote.toList else []
  let inline :=
    match document with
    | none => []
    | some document =>
      ", graphql(".toList ++ template (escapeTemplate document.toList) ++ [')']
  name.toList ++ " = ".toList ++ note ++ "graphql.persisted(".toList ++ template hash.toList ++
    inline ++ [')']

/-- A part of a source text to be replaced. -/
structure Replacement where
  start : Int
  stop : Int
  name : String
  hash : String
  /-- The canonical document. -/
  document : String
  deriving DecidableEq, Repr

/-- The replacement of a call site by its persisted document. -/
def Replacement.ofCallSite (site : CallSite) (hash document : String) : Replacement :=
  ⟨site.span.start, site.span.stop, site.name, hash, document⟩

/-- How calls are persisted. -/
structure Style where
  /-- Leave only the hash. -/
  removeSource : Bool
  /-- Note that the call has no effects. -/
  isPure : Bool
  deriving DecidableEq, Repr

/-- The persisted call of a replacement. -/
def Replacement.call (style : Style) (replacement : Replacement) : Text :=
  persistedCall replacement.name replacement.hash
    (if style.removeSource then none else some replacement.document) style.isPure

/-- A splicer with every given call persisted. -/
def spliceCalls (style : Style) : List Replacement → Splicer → Except SpliceError Splicer
  | [], splicer => .ok splicer
  | replacement :: rest, splicer =>
    match splicer.overwrite replacement.start replacement.stop (replacement.call style) with
    | .ok splicer => spliceCalls style rest splicer
    | .error error => .error error

/-- A source text with its calls persisted. -/
structure Spliced where
  code : Text
  map : SourceMap
  deriving DecidableEq, Repr

/-- A source text with every given call persisted, and the source map. -/
def spliceSource (code : Text) (replacements : List Replacement) (style : Style)
    (source : Option String) : Except SpliceError Spliced :=
  (spliceCalls style replacements (Splicer.ofText code)).map fun splicer =>
    ⟨splicer.text, splicer.sourceMap source none true⟩

end PersistedQueries.Splice
