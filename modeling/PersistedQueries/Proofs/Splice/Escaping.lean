import PersistedQueries.Proofs.CallSite.Scanning
import PersistedQueries.Splice.PersistedCall

/-!
# Escaping

A persisted call keeps its document as the interior of a template literal. Two readers come to it:
the program that evaluates the literal, and the walk over a source text that passes literals over.
For the first one the literal has to stand for the document, for the second one it has to end where
it was made to end. Both follow from how an escaped text is spelled, character by character.

- `Sealed`: an interior of a template literal that does not close it (`Sealed.literalLength_eq`).
- `Escapes`: how the characters of a text are spelled. `escapes` says that `escapeTemplate` spells
  them so, although it goes over the text three times.
- `evaluate`: what a template literal stands for, and what the reading of it ends at.
- `Escapes.evaluate_append`: an escaped text stands for itself, whatever comes behind it.
- `evaluate_escapeTemplate`: so the interior is read as the text, and both readers find the end of
  the literal at its last backtick.
-/

namespace PersistedQueries.Splice

open CallSite (literalLength)

/-! ## Interiors of template literals -/

/-- An interior of a template literal: no backtick stands in it without a backslash in front. -/
inductive Sealed : Text → Prop where
  | nil : Sealed []
  | escaped {text : Text} (c : Char) (sealed : Sealed text) : Sealed ('\\' :: c :: text)
  | plain {text : Text} {c : Char} (not_backslash : c ≠ '\\') (not_backtick : c ≠ '\x60')
      (sealed : Sealed text) : Sealed (c :: text)

theorem Sealed.of_forall {text : Text} (h : ∀ c ∈ text, c ≠ '\\' ∧ c ≠ '\x60') : Sealed text := by
  induction text with
  | nil => exact .nil
  | cons c text ih =>
    obtain ⟨⟨hbackslash, hbacktick⟩, htext⟩ := List.forall_mem_cons.1 h
    exact .plain hbackslash hbacktick (ih htext)

/-- A template literal ends behind its interior. -/
theorem Sealed.literalLength_eq {interior : Text} (h : Sealed interior) (rest : Text) :
    literalLength '\x60' (interior ++ '\x60' :: rest) = interior.length + 1 := by
  induction h with
  | nil =>
    rw [List.nil_append, CallSite.literalLength_cons (by decide), if_pos rfl, List.length_nil]
  | escaped c _ ih => exact congrArg (· + 2) ih
  | plain hbackslash hbacktick _ ih =>
    rw [List.cons_append, CallSite.literalLength_cons hbackslash, if_neg hbacktick,
      if_neg fun h => h.2 rfl, ih, List.length_cons]

/-! ## Escaped texts -/

/-- The characters of a text are spelled for the interior of a template literal. -/
inductive Escapes : Text → Text → Prop where
  | nil : Escapes [] []
  /-- A backslash or a backtick has a backslash in front. -/
  | mark {text spelled : Text} {c : Char} (special : c = '\\' ∨ c = '\x60')
      (rest : Escapes text spelled) : Escapes (c :: text) ('\\' :: c :: spelled)
  /-- So has a dollar sign in front of a brace. -/
  | opening {text spelled : Text} (rest : Escapes text spelled) :
      Escapes ('$' :: '\x7b' :: text) ('\\' :: '$' :: '\x7b' :: spelled)
  /-- All else is spelled as it is. -/
  | plain {text spelled : Text} {c : Char} (not_backslash : c ≠ '\\') (not_backtick : c ≠ '\x60')
      (not_opening : ¬ (c = '$' ∧ text.head? = some '\x7b')) (rest : Escapes text spelled) :
      Escapes (c :: text) (c :: spelled)

/-- A character as it stands in a template literal, unless it starts an interpolation. -/
def escapeChar (c : Char) : Text :=
  if c = '\\' then ['\\', '\\'] else if c = '\x60' then ['\\', '\x60'] else [c]

theorem escapeTemplate_eq (text : Text) :
    escapeTemplate text = escapeInterpolations (text.flatMap escapeChar) := by
  unfold escapeTemplate Text.replaceChar
  rw [List.flatMap_assoc]
  refine congrArg escapeInterpolations (congrArg text.flatMap (funext fun c => ?_))
  unfold escapeChar
  split
  · rfl
  · exact List.append_nil _

/-- A character stays as it is, but for a dollar sign in front of a brace. -/
theorem escapeInterpolations_cons {c : Char} {rest : Text}
    (h : ¬ (c = '$' ∧ rest.head? = some '\x7b')) :
    escapeInterpolations (c :: rest) = c :: escapeInterpolations rest := by
  rw [escapeInterpolations]
  rintro tail rfl rfl
  exact h ⟨rfl, rfl⟩

/-- Only a brace is escaped as something that begins with a brace. -/
theorem head?_flatMap_escapeChar {text : Text}
    (h : (text.flatMap escapeChar).head? = some '\x7b') : ∃ rest, text = '\x7b' :: rest := by
  cases text with
  | nil => cases h
  | cons c rest =>
    rw [List.flatMap_cons, escapeChar] at h
    split at h
    · cases h
    split at h
    · cases h
    · exact ⟨rest, congrArg (· :: rest) (Option.some.inj h)⟩

/-- Escaping spells the characters of a text, although it escapes one kind of them after the
other. -/
theorem escapes (text : Text) : Escapes text (escapeTemplate text) := by
  rw [escapeTemplate_eq]
  induction hn : text.length using Nat.strong_induction_on generalizing text with
  | _ n ih =>
    subst hn
    cases text with
    | nil => exact .nil
    | cons c rest =>
      have hrest : Escapes rest (escapeInterpolations (rest.flatMap escapeChar)) :=
        ih rest.length (Nat.lt_succ_self _) rest rfl
      rw [List.flatMap_cons]
      by_cases hmark : c = '\\' ∨ c = '\x60'
      · have hspelled : escapeChar c = ['\\', c] := by
          rcases hmark with rfl | rfl <;> rfl
        have hplain : ¬ (c = '$' ∧ (rest.flatMap escapeChar).head? = some '\x7b') := by
          rcases hmark with rfl | rfl <;> simp
        rw [hspelled, List.cons_append, List.singleton_append,
          escapeInterpolations_cons (by simp), escapeInterpolations_cons hplain]
        exact .mark hmark hrest
      obtain ⟨hbackslash, hbacktick⟩ := not_or.1 hmark
      rw [escapeChar, if_neg hbackslash, if_neg hbacktick, List.singleton_append]
      by_cases hopen : c = '$' ∧ (rest.flatMap escapeChar).head? = some '\x7b'
      · -- the brace behind the dollar sign is one of the text, and is passed over with it
        obtain ⟨rfl, hbrace⟩ := hopen
        obtain ⟨more, rfl⟩ := head?_flatMap_escapeChar hbrace
        exact .opening (ih more.length (Nat.lt_add_of_pos_right Nat.two_pos) more rfl)
      · rw [escapeInterpolations_cons hopen]
        refine .plain hbackslash hbacktick (fun hopen' => hopen ⟨hopen'.1, ?_⟩) hrest
        obtain ⟨more, rfl⟩ := List.head?_eq_some_iff.1 hopen'.2
        rfl

/-- An escaped text does not close its template literal. -/
theorem Escapes.isSealed {text spelled : Text} (h : Escapes text spelled) : Sealed spelled := by
  induction h with
  | nil => exact .nil
  | mark _ _ ih => exact .escaped _ ih
  | opening _ ih => exact .escaped '$' (.plain (by decide) (by decide) ih)
  | plain hbackslash hbacktick _ _ ih => exact .plain hbackslash hbacktick ih

theorem sealed_escapeTemplate (text : Text) : Sealed (escapeTemplate text) :=
  (escapes text).isSealed

/-! ## Evaluating template literals -/

/-- What the reading of a template literal ends at. -/
inductive Stop where
  /-- The end of the text. -/
  | atEnd
  /-- A backtick, which ends the literal. -/
  | backtick (behind : Text)
  /-- A dollar sign and a brace, which start an interpolation. -/
  | interpolation (behind : Text)
  /-- A backslash in front of anything but a backslash, a backtick or a dollar sign. -/
  | escape (behind : Text)
  deriving DecidableEq, Repr

/-- What a template literal stands for, up to where the reading of it ends. -/
structure Evaluation where
  value : Text
  stop : Stop
  deriving DecidableEq, Repr

/-- Put a character in front of what a literal stands for. -/
def Evaluation.cons (c : Char) (evaluation : Evaluation) : Evaluation :=
  { evaluation with value := c :: evaluation.value }

/-- What the text behind the opening backtick of a template literal stands for. A backslash makes
the backslash, backtick or dollar sign behind it stand for itself, line ends stand for line feeds,
and every other character stands for itself. -/
def evaluate : Text → Evaluation
  | [] => ⟨[], .atEnd⟩
  | '\x60' :: rest => ⟨[], .backtick rest⟩
  | '$' :: '\x7b' :: rest => ⟨[], .interpolation rest⟩
  | '\r' :: '\n' :: rest => (evaluate rest).cons '\n'
  | '\r' :: rest => (evaluate rest).cons '\n'
  | '\\' :: '\\' :: rest => (evaluate rest).cons '\\'
  | '\\' :: '\x60' :: rest => (evaluate rest).cons '\x60'
  | '\\' :: '$' :: rest => (evaluate rest).cons '$'
  | '\\' :: rest => ⟨[], .escape rest⟩
  | c :: rest => (evaluate rest).cons c

/-- A character that is not special stands for itself. -/
theorem evaluate_cons {c : Char} {rest : Text} (hbackslash : c ≠ '\\') (hbacktick : c ≠ '\x60')
    (hreturn : c ≠ '\r') (hopening : ¬ (c = '$' ∧ rest.head? = some '\x7b')) :
    evaluate (c :: rest) = (evaluate rest).cons c := by
  rw [evaluate]
  · exact hbacktick
  · rintro behind rfl rfl
    exact hopening ⟨rfl, rfl⟩
  · exact fun _ h _ => hreturn h
  · exact hreturn
  · exact fun _ h _ => hbackslash h
  · exact fun _ h _ => hbackslash h
  · exact fun _ h _ => hbackslash h
  · exact hbackslash

/-- Only a text that begins with a brace is spelled so. -/
theorem Escapes.head?_eq {text spelled : Text} (h : Escapes text spelled)
    (hbrace : spelled.head? = some '\x7b') : text.head? = some '\x7b' := by
  cases h with
  | nil => exact hbrace
  | mark => cases hbrace
  | opening => cases hbrace
  | plain => exact hbrace

/-- An escaped text stands for itself, and the reading goes on behind it. -/
theorem Escapes.evaluate_append {text spelled : Text} (h : Escapes text spelled)
    (hreturn : '\r' ∉ text) (behind : Text) (hbehind : behind.head? ≠ some '\x7b') :
    evaluate (spelled ++ behind) = ⟨text ++ (evaluate behind).value, (evaluate behind).stop⟩ := by
  induction h with
  | nil => rfl
  | mark hmark _ ih =>
    have hrest := ih fun hmem => hreturn (List.mem_cons_of_mem _ hmem)
    rcases hmark with rfl | rfl <;> exact congrArg (Evaluation.cons _) hrest
  | @opening text spelled _ ih =>
    have hrest := ih fun hmem => hreturn (List.mem_cons_of_mem _ (List.mem_cons_of_mem _ hmem))
    show (evaluate ('\x7b' :: (spelled ++ behind))).cons '$' = _
    rw [evaluate_cons (by decide) (by decide) (by decide) (by simp), hrest]
    rfl
  | @plain text spelled c hbackslash hbacktick hopening hescapes ih =>
    obtain ⟨hown, htext⟩ := not_or.1 (mt List.mem_cons.2 hreturn)
    -- a brace that comes next would be one of the text, or the first character behind it
    have hnext : ¬ (c = '$' ∧ (spelled ++ behind).head? = some '\x7b') := by
      rintro ⟨hdollar, hbrace⟩
      cases spelled with
      | nil => exact hbehind hbrace
      | cons first more => exact hopening ⟨hdollar, hescapes.head?_eq hbrace⟩
    rw [List.cons_append, evaluate_cons hbackslash hbacktick (Ne.symm hown) hnext, ih htext]
    rfl

/-- **Escaping is faithful and closes itself.** The escaped text, which is met by no interpolation
and no end, stands for the text. In any code, the template literal with the escaped text stands for
the text too, and the walk over the code finds its closing quote where it is: at the last backtick
of the literal. -/
theorem evaluate_escapeTemplate (text : Text) (hreturn : '\r' ∉ text) :
    evaluate (escapeTemplate text) = ⟨text, .atEnd⟩ ∧
    ∀ before behind : Text,
      let opening := before ++ ['\x60']
      let code := opening ++ escapeTemplate text ++ '\x60' :: behind
      evaluate (code.drop opening.length) = ⟨text, .backtick behind⟩ ∧
      opening.length + literalLength '\x60' (code.drop opening.length) =
        (opening ++ escapeTemplate text).length + 1 := by
  have hread (behind : Text) (hbehind : behind.head? ≠ some '\x7b') :
      evaluate (escapeTemplate text ++ behind) =
        ⟨text ++ (evaluate behind).value, (evaluate behind).stop⟩ :=
    (escapes text).evaluate_append hreturn behind hbehind
  constructor
  · have hall := hread [] (by simp)
    rwa [List.append_nil, evaluate, List.append_nil] at hall
  · intro before behind opening code
    have hcode : code.drop opening.length = escapeTemplate text ++ '\x60' :: behind := by
      show (opening ++ escapeTemplate text ++ '\x60' :: behind).drop opening.length = _
      rw [List.append_assoc, List.drop_left]
    rw [hcode, (sealed_escapeTemplate text).literalLength_eq]
    constructor
    · have hall := hread ('\x60' :: behind) (by simp)
      rwa [evaluate, List.append_nil] at hall
    · have hlength : (opening ++ escapeTemplate text).length =
          opening.length + (escapeTemplate text).length := List.length_append
      omega

/-- Marks in front of each other, of braces and of the end. -/
def marks : Text := "\\$\x7ba\x7d$$\x7bb\x7d`$\\".toList

theorem evaluate_escapeTemplate_marks :
    '\r' ∉ marks ∧ evaluate (escapeTemplate marks) = ⟨marks, .atEnd⟩ ∧
    evaluate (("Q = `".toList ++ escapeTemplate marks ++ "`;".toList).drop 5) =
      ⟨marks, .backtick [';']⟩ := by
  have hreturn : '\r' ∉ marks := by decide
  obtain ⟨hall, hcode⟩ := evaluate_escapeTemplate marks hreturn
  exact ⟨hreturn, hall, (hcode "Q = ".toList [';']).1⟩

end PersistedQueries.Splice
