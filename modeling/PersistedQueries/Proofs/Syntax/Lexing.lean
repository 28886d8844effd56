import PersistedQueries.Proofs.Syntax.Numbers
import PersistedQueries.Proofs.Syntax.Reading

/-!
# The tokens of a text

What a scanner found at the front of a text it finds again when more text follows that does not go
on with the token, and offsets play no part in it. So the tokens of a text can be read off piece by
piece.

- `scanEscape_append`, `scanString_append`, `scanBlock_append`, `scanToken_append`: the scanners in
  front of more text.
- `Token.Lexical`: the names and numbers that are written as such; those of a text are.
- `lexemes`: the tokens of a text, with an equation for each thing that may stand at its front.
- `lexemes_append`: texts on lines of their own have the tokens of the one and then of the other.
-/

namespace PersistedQueries.GraphQL

variable {text more : Text} {offset n : Nat}

/-! ## Escapes -/

theorem length_of_mapM {α β : Type} {f : α → Option β} {items : List α} {found : List β}
    (h : items.mapM f = some found) : found.length = items.length := by
  induction items generalizing found with
  | nil =>
    cases h
    rfl
  | cons a items ih =>
    rw [List.mapM_cons] at h
    obtain ⟨b, -, h⟩ := Option.bind_eq_some_iff.1 h
    obtain ⟨found, hfound, h⟩ := Option.bind_eq_some_iff.1 h
    cases h
    simp [ih hfound]

theorem hex16?_append {code : Nat} (h : hex16? text = some code) :
    4 ≤ text.length ∧ ∀ more, hex16? (text ++ more) = some code := by
  have hlength : 4 ≤ text.length := by
    obtain ⟨digits, hdigits, hcode⟩ := Option.bind_eq_some_iff.1 h
    have hsame := length_of_mapM hdigits
    split at hcode
    · next hfour =>
      rw [hfour, List.length_take] at hsame
      omega
    · cases hcode
  refine ⟨hlength, fun more => ?_⟩
  rw [← h, hex16?, hex16?, List.take_append_of_le_length hlength]

theorem scanBracedEscape_append {size point : Nat} {c : Char} {length : Nat}
    (h : scanBracedEscape size point text = .ok (c, length)) :
    size < length ∧ length ≤ size + text.length ∧
      ∀ more, scanBracedEscape size point (text ++ more) = .ok (c, length) := by
  induction text generalizing size point with
  | nil => cases h
  | cons d text ih =>
    simp only [scanBracedEscape, List.cons_append, List.length_cons] at h ⊢
    split at h
    · cases h
    · next hsize =>
      simp only [hsize, if_false]
      split at h
      · next hbrace =>
        simp only [hbrace, if_true]
        split at h
        · cases h
        · next hpoint =>
          cases h
          simp only [hpoint]
          exact ⟨by omega, by omega, fun _ => rfl⟩
      · next hbrace =>
        simp only [hbrace, if_false]
        cases hdigit : hexDigit? d with
        | none =>
          rw [hdigit] at h
          cases h
        | some digit =>
          rw [hdigit] at h
          obtain ⟨hlt, hle, happend⟩ := ih h
          exact ⟨by omega, by omega, happend⟩

theorem scanFixedEscape_append {c : Char} {length : Nat}
    (h : scanFixedEscape text = .ok (c, length)) :
    2 < length ∧ length ≤ 2 + text.length ∧
      ∀ more, scanFixedEscape (text ++ more) = .ok (c, length) := by
  unfold scanFixedEscape at h
  cases hcode : hex16? text with
  | none =>
    rw [hcode] at h
    cases h
  | some code =>
    obtain ⟨hfour, happend⟩ := hex16?_append hcode
    simp only [hcode] at h
    simp only [scanFixedEscape, happend]
    split at h
    · next hscalar =>
      cases h
      exact ⟨by omega, by omega, fun more => by rw [if_pos hscalar]⟩
    · next hscalar =>
      split at h
      · next hpair =>
        cases hlow : hex16? (text.drop 6) with
        | none =>
          rw [hlow] at h
          cases h
        | some low =>
          obtain ⟨hten, happend'⟩ := hex16?_append hlow
          rw [List.length_drop] at hten
          have hlength : 12 ≤ 2 + text.length := by omega
          simp only [hlow] at h
          split at h
          · next hrange =>
            simp only [Except.ok.injEq, Prod.mk.injEq] at h
            obtain ⟨rfl, rfl⟩ := h
            refine ⟨by decide, hlength, fun more => ?_⟩
            have htake : ((text ++ more).drop 4).take 2 = (text.drop 4).take 2 := by
              rw [List.drop_append_of_le_length (by omega),
                List.take_append_of_le_length (by simp; omega)]
            rw [if_neg hscalar, htake, if_pos hpair, List.drop_append_of_le_length (by omega),
              happend']
            simp only [if_pos hrange]
          · cases h
      · cases h

theorem scanEscape_braced (offset : Nat) (b : Char) (rest : Text) :
    scanEscape offset (b :: 'u' :: '\x7b' :: rest) =
      match scanBracedEscape 3 0 rest with
      | .ok found => .ok found
      | .error size => .error ⟨.invalidUnicodeEscape
          (String.ofList ((b :: 'u' :: '\x7b' :: rest).take size)), offset⟩ := rfl

theorem scanEscape_fixed (offset : Nat) (b : Char) {rest : Text} (h : rest.head? ≠ some '\x7b') :
    scanEscape offset (b :: 'u' :: rest) =
      match scanFixedEscape rest with
      | .ok found => .ok found
      | .error size => .error ⟨.invalidUnicodeEscape
          (String.ofList ((b :: 'u' :: rest).take size)), offset⟩ := by
  unfold scanEscape
  split
  · next hbrace =>
    cases hbrace
    exact absurd rfl h
  · next htext =>
    cases htext
    rfl
  · next hother htext =>
    cases htext
    exact absurd rfl hother
  · next hnone => exact absurd rfl (hnone b 'u' rest)

theorem scanEscape_simple (offset : Nat) (b : Char) {c : Char} (rest : Text) (h : c ≠ 'u') :
    scanEscape offset (b :: c :: rest) =
      match simpleEscape? c with
      | some escaped => .ok (escaped, 2)
      | none => .error ⟨.invalidEscape (String.ofList ((b :: c :: rest).take 2)), offset⟩ := by
  unfold scanEscape
  split
  · next htext =>
    cases htext
    exact absurd rfl h
  · next htext =>
    cases htext
    exact absurd rfl h
  · next htext =>
    cases htext
    rfl
  · next hnone => exact absurd rfl (hnone b c rest)

theorem scanEscape_append {c : Char} {length : Nat} (h : scanEscape offset text = .ok (c, length)) :
    2 ≤ length ∧ length ≤ text.length ∧
      ∀ n more, scanEscape n (text ++ more) = .ok (c, length) := by
  rcases text with _ | ⟨b, _ | ⟨d, rest⟩⟩
  · cases h
  · cases h
  · by_cases hunicode : d = 'u'
    · subst hunicode
      by_cases hbrace : rest.head? = some '\x7b'
      · obtain ⟨rest, rfl⟩ := List.head?_eq_some_iff.1 hbrace
        rw [scanEscape_braced] at h
        cases hbraced : scanBracedEscape 3 0 rest with
        | error size =>
          rw [hbraced] at h
          cases h
        | ok found =>
          rw [hbraced] at h
          cases h
          obtain ⟨hlt, hle, happend⟩ := scanBracedEscape_append hbraced
          refine ⟨by omega, by simp only [List.length_cons]; omega, fun n more => ?_⟩
          simp only [List.cons_append, scanEscape_braced, happend]
      · rw [scanEscape_fixed _ _ hbrace] at h
        cases hfixed : scanFixedEscape rest with
        | error size =>
          rw [hfixed] at h
          cases h
        | ok found =>
          rw [hfixed] at h
          cases h
          obtain ⟨hlt, hle, happend⟩ := scanFixedEscape_append hfixed
          have hhead : ∀ more, (rest ++ more).head? ≠ some '\x7b' := by
            cases rest with
            | nil => cases hfixed
            | cons => exact fun _ => hbrace
          refine ⟨by omega, by simp only [List.length_cons]; omega, fun n more => ?_⟩
          simp only [List.cons_append, scanEscape_fixed _ _ (hhead more), happend]
    · rw [scanEscape_simple _ _ _ hunicode] at h
      cases hsimple : simpleEscape? d with
      | none =>
        rw [hsimple] at h
        cases h
      | some escaped =>
        rw [hsimple] at h
        cases h
        refine ⟨by omega, by simp only [List.length_cons]; omega, fun n more => ?_⟩
        simp only [List.cons_append, scanEscape_simple _ _ _ hunicode, hsimple]

/-! ## Strings -/

theorem scanString_quote (offset : Nat) (rest : Text) :
    scanString offset ('\x22' :: rest) = .ok ([], 1) := by
  rw [scanString, if_pos rfl]

theorem scanString_escape {rest : Text} {escaped : Char} {size : Nat}
    (h : scanEscape offset ('\\' :: rest) = .ok (escaped, size)) :
    scanString offset ('\\' :: rest) =
      match scanString (offset + (size - 1 + 1)) (rest.drop (size - 1)) with
      | .error fault => .error fault
      | .ok (value, length) => .ok (escaped :: value, length + (size - 1 + 1)) := by
  rw [scanString, if_neg (by decide), if_pos rfl]
  exact h ▸ rfl

theorem scanString_plain {c : Char} (rest : Text) (hquote : c ≠ '\x22') (hslash : c ≠ '\\')
    (hend : isLineEnd c = false) : scanString offset (c :: rest) =
      match scanString (offset + 1) rest with
      | .error fault => .error fault
      | .ok (value, length) => .ok (c :: value, length + 1) := by
  rw [scanString]
  exact (if_neg hquote).trans ((if_neg hslash).trans (if_neg (by simp [hend])))

theorem scanString_append {value : Text} {length : Nat}
    (h : scanString offset text = .ok (value, length)) :
    0 < length ∧ length ≤ text.length ∧
      ∀ n more, scanString n (text ++ more) = .ok (value, length) := by
  fun_induction scanString offset text generalizing value length with
  | case1 | case3 | case4 | case6 | case7 => cases h
  | case2 offset rest =>
    cases h
    exact ⟨Nat.one_pos, by simp, fun n more => scanString_quote n _⟩
  | case5 offset rest escaped size _ _ hscan _ hescape ih =>
    obtain ⟨hsize, hle, happend⟩ := scanEscape_append hescape
    obtain ⟨hpos, hlength, happend'⟩ := ih hscan
    simp only [List.length_cons, List.length_drop] at hle hlength
    cases h
    refine ⟨by omega, by simp only [List.length_cons]; omega, fun n more => ?_⟩
    have hagain : scanEscape n ('\\' :: (rest ++ more)) = .ok (escaped, size) := happend n more
    rw [List.cons_append, scanString_escape hagain, List.drop_append_of_le_length (by omega),
      happend']
  | case8 offset c rest hquote hslash hend _ _ hscan ih =>
    obtain ⟨hpos, hlength, happend⟩ := ih hscan
    cases h
    refine ⟨by omega, by simp only [List.length_cons]; omega, fun n more => ?_⟩
    rw [List.cons_append, scanString_plain _ hquote hslash (by simpa using hend), happend]

/-! ## Block strings -/

theorem scanBlock_close (offset : Nat) (rest : Text) :
    scanBlock offset ('\x22' :: '\x22' :: '\x22' :: rest) = .ok ([[]], 3) := rfl

theorem scanBlock_escape (offset : Nat) (rest : Text) :
    scanBlock offset ('\\' :: '\x22' :: '\x22' :: '\x22' :: rest) =
      (scanBlock (offset + 4) rest).map fun (lines, length) =>
        (extendFirst '\x22' (extendFirst '\x22' (extendFirst '\x22' lines)), length + 4) := rfl

theorem scanBlock_pair (offset : Nat) (rest : Text) :
    scanBlock offset ('\r' :: '\n' :: rest) =
      (scanBlock (offset + 2) rest).map fun (lines, length) => ([] :: lines, length + 2) := rfl

/-- A character is taken as it is when it begins neither the closing quotes, nor an escape, nor a
pair of line ends. -/
theorem scanBlock_plain (offset : Nat) {c : Char} {rest : Text}
    (hclose : ¬(['\x22', '\x22', '\x22'] <+: c :: rest))
    (hescape : ¬(['\\', '\x22', '\x22', '\x22'] <+: c :: rest))
    (hpair : ¬(['\r', '\n'] <+: c :: rest)) : scanBlock offset (c :: rest) =
      (scanBlock (offset + 1) rest).map fun (lines, length) =>
        (if isLineEnd c then [] :: lines else extendFirst c lines, length + 1) := by
  rw [scanBlock]
  · rintro tail rfl rfl
    exact hclose (by simp)
  · rintro tail rfl rfl
    exact hescape (by simp)
  · rintro tail rfl rfl
    exact hpair (by simp)

theorem map_ok {ε α β : Type} {x : Except ε α} {f : α → β} {b : β} :
    x.map f = .ok b ↔ ∃ a, x = .ok a ∧ f a = b := by
  cases x <;> simp [Except.map]

theorem scanBlock_append {lines : List Text} {length : Nat}
    (h : scanBlock offset text = .ok (lines, length)) :
    3 ≤ length ∧ length ≤ text.length ∧
      ∀ n more, scanBlock n (text ++ more) = .ok (lines, length) := by
  fun_induction scanBlock offset text generalizing lines length with
  | case1 => cases h
  | case2 offset rest =>
    cases h
    exact ⟨Nat.le_refl 3, by simp, fun n more => scanBlock_close n _⟩
  | case3 offset rest ih =>
    obtain ⟨⟨found, size⟩, hscan, hfound⟩ := map_ok.1 h
    cases hfound
    obtain ⟨hthree, hlength, happend⟩ := ih hscan
    refine ⟨by omega, by simp only [List.length_cons]; omega, fun n more => ?_⟩
    simp only [List.cons_append, scanBlock_escape, happend, Except.map]
  | case4 offset rest ih =>
    obtain ⟨⟨found, size⟩, hscan, hfound⟩ := map_ok.1 h
    cases hfound
    obtain ⟨hthree, hlength, happend⟩ := ih hscan
    refine ⟨by omega, by simp only [List.length_cons]; omega, fun n more => ?_⟩
    simp only [List.cons_append, scanBlock_pair, happend, Except.map]
  | case5 offset c rest hclose hescape hpair ih =>
    obtain ⟨⟨found, size⟩, hscan, hfound⟩ := map_ok.1 h
    cases hfound
    obtain ⟨hthree, hlength, happend⟩ := ih hscan
    refine ⟨by omega, by simp only [List.length_cons]; omega, fun n more => ?_⟩
    -- the closing quotes are still to come, so what decides about this character is in the text
    obtain ⟨d₁, d₂, d₃, rest, rfl⟩ : ∃ d₁ d₂ d₃ more, rest = d₁ :: d₂ :: d₃ :: more := by
      rcases rest with _ | ⟨d₁, _ | ⟨d₂, _ | ⟨d₃, rest⟩⟩⟩
      · simp at hlength
        omega
      · simp at hlength
        omega
      · simp at hlength
        omega
      · exact ⟨d₁, d₂, d₃, rest, rfl⟩
    rw [List.cons_append, scanBlock_plain, happend]
    · rfl
    · simpa using fun hc h₁ h₂ => hclose _ hc.symm (by rw [← h₁, ← h₂])
    · simpa using fun hc h₁ h₂ h₃ => hescape _ hc.symm (by rw [← h₁, ← h₂, ← h₃])
    · simpa using fun hc h₁ => hpair _ hc.symm (by rw [← h₁])

/-! ## Tokens -/

/-- A character that could go on with a token in front of it. -/
def goesOn (c : Char) : Bool := goesOnNumber c || c = '\x22'

/-- A token ends in front of the text, whichever it is. -/
abbrev Boundary (text : Text) : Prop := Ends goesOn text

theorem Boundary.number (h : Boundary more) : Ends goesOnNumber more :=
  h.mono fun c hc => by simp [goesOn, hc]

theorem Boundary.name (h : Boundary more) : Ends isNameContinue more :=
  h.mono fun c hc => by simp [goesOn, goesOnNumber, hc]

theorem ends_append {p : Char → Bool} {front : Text} (hfront : Ends p front) (hmore : Ends p more) :
    Ends p (front ++ more) := by
  cases front with
  | nil => exact hmore
  | cons c front => exact hfront

/-- A run of characters does not grow in front of a text that ends it. -/
theorem takeWhile_append_more {p : Char → Bool} (hmore : Ends p more) :
    (text ++ more).takeWhile p = text.takeWhile p := by
  have hsplit := List.takeWhile_append_dropWhile (p := p) (l := text)
  calc (text ++ more).takeWhile p
      = (text.takeWhile p ++ (text.dropWhile p ++ more)).takeWhile p := by
        rw [← List.append_assoc, hsplit]
    _ = text.takeWhile p :=
        takeWhile_append_of_ends (fun c => List.mem_takeWhile_imp)
          (ends_append (ends_dropWhile p text) hmore)

theorem scanToken_number {c : Char} (hc : isDigit c || c = '-') (hpunct : punctuatorOf? c = none)
    (rest : Text) : scanToken offset c rest =
      (scanNumber offset (c :: rest)).map fun (number, isFloat) =>
        (if isFloat then .float (String.ofList number) else .int (String.ofList number),
          number.length - 1) := by
  have hpoint : c ≠ '.' := by
    rintro rfl
    exact absurd hc (by decide)
  simp only [scanToken, hpunct, hpoint, false_and, if_false, hc, if_true]
  cases scanNumber offset (c :: rest) <;> rfl

theorem scanToken_block (offset : Nat) (rest : Text) :
    scanToken offset '\x22' ('\x22' :: '\x22' :: rest) =
      (scanBlock (offset + 3) rest).map fun (lines, length) =>
        (.block (String.ofList (blockValue lines)), 2 + length) := by
  have hpunct : punctuatorOf? '\x22' = none := by decide
  have hnumber : (isDigit '\x22' || '\x22' = '-') = false := by decide
  have hname : isNameStart '\x22' = false := by decide
  have hpoint : ('\x22' : Char) ≠ '.' := by decide
  simp only [scanToken, hpunct, hpoint, hnumber, hname, Bool.false_eq_true, false_and, if_false,
    if_true, List.take_succ_cons, List.take_zero, List.drop_succ_cons, List.drop_zero]
  cases scanBlock (offset + 3) rest <;> rfl

theorem scanToken_string (offset : Nat) {rest : Text} (h : rest.take 2 ≠ ['\x22', '\x22']) :
    scanToken offset '\x22' rest =
      (scanString (offset + 1) rest).map fun (value, length) =>
        (.string (String.ofList value), length) := by
  have hpunct : punctuatorOf? '\x22' = none := by decide
  have hnumber : (isDigit '\x22' || '\x22' = '-') = false := by decide
  have hname : isNameStart '\x22' = false := by decide
  have hpoint : ('\x22' : Char) ≠ '.' := by decide
  simp only [scanToken, hpunct, hpoint, hnumber, hname, h, Bool.false_eq_true, false_and, if_false,
    if_true]
  cases scanString (offset + 1) rest <;> rfl

/-- Two quotes at the front of a string that is in the text stand there whatever follows. -/
theorem take_two_append {rest : Text} {value : Text} {length : Nat}
    (hscan : scanString offset rest = .ok (value, length)) (h : rest.take 2 ≠ ['\x22', '\x22'])
    (hmore : Boundary more) : (rest ++ more).take 2 ≠ ['\x22', '\x22'] := by
  rcases rest with _ | ⟨d, _ | ⟨e, rest⟩⟩
  · rw [scanString] at hscan
    cases hscan
  · intro htwo
    cases more with
    | nil => simp at htwo
    | cons e more =>
      obtain ⟨-, rfl⟩ : d = '\x22' ∧ e = '\x22' := by simpa using htwo
      exact absurd (hmore _ rfl) (by decide)
  · simpa using h

theorem scanQuoted_append {rest : Text} {token : Token} {length : Nat}
    (h : scanToken offset '\x22' rest = .ok (token, length)) (hmore : Boundary more) :
    length ≤ rest.length ∧ ∀ n, scanToken n '\x22' (rest ++ more) = .ok (token, length) := by
  by_cases htwo : rest.take 2 = ['\x22', '\x22']
  · obtain ⟨rest, rfl⟩ : ∃ more, rest = '\x22' :: '\x22' :: more := by
      rcases rest with _ | ⟨d, _ | ⟨e, rest⟩⟩
      · cases htwo
      · cases htwo
      · simp only [List.take_succ_cons, List.take_zero, List.cons.injEq, and_true] at htwo
        exact ⟨rest, by rw [htwo.1, htwo.2]⟩
    rw [scanToken_block] at h
    obtain ⟨⟨lines, size⟩, hscan, hfound⟩ := map_ok.1 h
    cases hfound
    obtain ⟨-, hlength, happend⟩ := scanBlock_append hscan
    refine ⟨by simp only [List.length_cons]; omega, fun n => ?_⟩
    simp only [List.cons_append, scanToken_block, happend, Except.map]
  · rw [scanToken_string offset htwo] at h
    obtain ⟨⟨value, size⟩, hscan, hfound⟩ := map_ok.1 h
    cases hfound
    obtain ⟨-, hlength, happend⟩ := scanString_append hscan
    refine ⟨hlength, fun n => ?_⟩
    rw [scanToken_string n (take_two_append hscan htwo hmore), happend]
    rfl

theorem scanToken_append {c : Char} {rest : Text} {token : Token} {length : Nat}
    (h : scanToken offset c rest = .ok (token, length)) (hmore : Boundary more) :
    length ≤ rest.length ∧ ∀ n, scanToken n c (rest ++ more) = .ok (token, length) := by
  by_cases hquote : c = '\x22'
  · subst hquote
    exact scanQuoted_append h hmore
  cases hpunct : punctuatorOf? c with
  | some p =>
    simp only [scanToken, hpunct] at h ⊢
    cases h
    exact ⟨Nat.zero_le _, fun n => rfl⟩
  | none =>
    by_cases hpoint : c = '.'
    · subst hpoint
      have hnone : isDigit '.' = false ∧ isNameStart '.' = false := by decide
      by_cases htwo : rest.take 2 = ['.', '.']
      · obtain ⟨d, e, rest, rfl⟩ : ∃ d e more, rest = d :: e :: more := by
          rcases rest with _ | ⟨d, _ | ⟨e, rest⟩⟩
          · cases htwo
          · cases htwo
          · exact ⟨d, e, rest, rfl⟩
        simp only [scanToken, hpunct, htwo, true_and, if_true] at h
        cases h
        refine ⟨by simp, fun n => ?_⟩
        simp only [List.take_succ_cons, List.take_zero] at htwo
        simp [scanToken, hpunct, htwo]
      · simp [scanToken, hpunct, htwo, hnone] at h
    · by_cases hnumber : isDigit c || c = '-'
      · rw [scanToken_number hnumber hpunct] at h
        obtain ⟨⟨number, isFloat⟩, hscan, hfound⟩ := map_ok.1 h
        cases hfound
        obtain ⟨hgrammar, behind, htext, hends⟩ := scanNumber_eq_ok.1 hscan
        refine ⟨?_, fun n => ?_⟩
        · have hlength := congrArg List.length htext
          simp only [List.length_cons, List.length_append] at hlength
          omega
        · have hagain : scanNumber n (c :: (rest ++ more)) = .ok (number, isFloat) := by
            rw [← List.cons_append, htext, List.append_assoc]
            exact scanNumber_complete hgrammar (ends_append hends hmore.number)
          rw [scanToken_number hnumber hpunct, hagain]
          rfl
      · simp only [scanToken, hpunct, hpoint, false_and, if_false, hnumber, Bool.false_eq_true]
          at h ⊢
        by_cases hname : isNameStart c
        · simp only [hname, if_true] at h ⊢
          cases h
          refine ⟨(List.takeWhile_sublist _).length_le, fun n => ?_⟩
          rw [takeWhile_append_more hmore.name]
        · simp only [hname, hquote, Bool.false_eq_true, if_false] at h
          split at h <;> cases h

/-! ## Texts -/

/-- All tokens of a stream, when no place in it is a fault. -/
def TokenStream.tokens? : TokenStream → Option (List Token)
  | .done _ => some []
  | .broken _ => none
  | .next token _ rest => rest.tokens?.map (token :: ·)

/-- The tokens of a text, when each place in it starts one. -/
def lexemes (text : Text) : Option (List Token) := (tokenize text).tokens?

theorem tokens?_eq_some {stream : TokenStream} {tokens : List Token} : stream.tokens? = some tokens ↔
    ∃ offset, Leads tokens stream (.done offset) := by
  induction stream generalizing tokens with
  | done offset =>
    constructor
    · intro h
      cases h
      exact ⟨offset, .nil⟩
    · rintro ⟨_, h⟩
      cases h
      rfl
  | broken fault =>
    constructor
    · intro h
      cases h
    · rintro ⟨_, h⟩
      cases h
  | next token offset stream ih =>
    simp only [TokenStream.tokens?, Option.map_eq_some_iff, ih]
    constructor
    · rintro ⟨more, ⟨offset, h⟩, rfl⟩
      exact ⟨offset, .cons h⟩
    · rintro ⟨offset, h⟩
      cases h with
      | cons h => exact ⟨_, ⟨offset, h⟩, rfl⟩

/-- The tokens of a text do not depend on the offset at which it begins. -/
theorem tokens?_tokenizeFrom (offset n : Nat) (text : Text) :
    (tokenizeFrom offset text).tokens? = (tokenizeFrom n text).tokens? := by
  have hagain : ∀ {offset c rest found}, scanToken offset c rest = .ok found →
      ∀ n, scanToken n c rest = .ok found := by
    intro offset c rest found h n
    simpa using (scanToken_append h (ends_nil _)).2 n
  induction offset, text using tokenizeFrom.induct generalizing n with
  | case1 offset => rw [tokenizeFrom, tokenizeFrom]; rfl
  | case2 offset c rest hc ih =>
    rw [tokenizeFrom, tokenizeFrom, if_pos hc, if_pos hc]
    exact ih (n + 1)
  | case3 offset rest comment hc ih =>
    rw [tokenizeFrom, tokenizeFrom, if_neg hc, if_neg hc, if_pos rfl, if_pos rfl]
    exact ih _
  | case4 offset c rest hc hne fault hscan =>
    rw [tokenizeFrom, tokenizeFrom, if_neg hc, if_neg hc, if_neg hne, if_neg hne, hscan]
    cases hother : scanToken n c rest with
    | error other => rfl
    | ok found =>
      rw [hagain hother] at hscan
      cases hscan
  | case5 offset c rest hc hne token length hscan ih =>
    rw [tokenizeFrom, tokenizeFrom, if_neg hc, if_neg hc, if_neg hne, if_neg hne, hscan,
      hagain hscan n]
    simp only [TokenStream.tokens?, ih (n + 1 + length)]

theorem lexemes_nil : lexemes [] = some [] := by
  rw [lexemes, tokenize, tokenizeFrom]
  rfl

/-- What is ignored has no tokens. -/
theorem lexemes_ignored {c : Char} (rest : Text) (h : isIgnored c) :
    lexemes (c :: rest) = lexemes rest := by
  rw [lexemes, tokenize, tokenizeFrom, if_pos h]
  exact tokens?_tokenizeFrom _ _ _

/-- A comment goes to the end of its line. -/
theorem lexemes_comment (rest : Text) :
    lexemes ('#' :: rest) = lexemes (rest.dropWhile fun c => !isLineEnd c) := by
  rw [lexemes, tokenize, tokenizeFrom, if_neg (by decide), if_pos rfl, ← drop_length_takeWhile]
  exact tokens?_tokenizeFrom _ _ _

theorem lexemes_token {c : Char} {rest : Text} {token : Token} {length : Nat}
    (h : scanToken offset c rest = .ok (token, length)) (hc : isIgnored c = false) (hne : c ≠ '#') :
    lexemes (c :: rest) = (lexemes (rest.drop length)).map (token :: ·) := by
  have hzero : scanToken 0 c rest = .ok (token, length) := by
    simpa using (scanToken_append h (ends_nil _)).2 0
  rw [lexemes, tokenize, tokenizeFrom, if_neg (by simp [hc]), if_neg hne, hzero]
  exact congrArg (Option.map _) (tokens?_tokenizeFrom _ _ _)

theorem lexemes_broken {c : Char} {rest : Text} {fault : Fault}
    (h : scanToken offset c rest = .error fault) (hc : isIgnored c = false) (hne : c ≠ '#') :
    lexemes (c :: rest) = none := by
  rw [lexemes, tokenize, tokens?_tokenizeFrom 0 offset, tokenizeFrom, if_neg (by simp [hc]),
    if_neg hne, h]
  rfl

/-- Behind a text that has tokens, up to the end of a line, come the tokens of what follows. -/
theorem lexemes_append {tokens : List Token} (h : lexemes text = some tokens) (more : Text) :
    lexemes (text ++ '\n' :: more) = (lexemes more).map (tokens ++ ·) := by
  have hline : Boundary ('\n' :: more) := ends_cons.2 (by decide)
  have hskip : lexemes ('\n' :: more) = lexemes more := lexemes_ignored more (by decide)
  generalize hoffset : 0 = offset at *
  clear hoffset
  induction offset, text using tokenizeFrom.induct generalizing tokens with
  | case1 offset =>
    rw [lexemes_nil] at h
    cases h
    rw [List.nil_append, hskip]
    exact Option.map_id'.symm
  | case2 offset c rest hc ih =>
    rw [lexemes_ignored _ hc] at h
    rw [List.cons_append, lexemes_ignored _ hc]
    exact ih h
  | case3 offset rest comment hc =>
    rename_i ih
    rw [lexemes_comment, ← drop_length_takeWhile] at h
    rw [List.cons_append, lexemes_comment, ← ih h, ← drop_length_takeWhile,
      takeWhile_append_more (ends_cons.2 (by decide)), List.drop_append_of_le_length
      (List.takeWhile_sublist _).length_le]
  | case4 offset c rest hc hne fault hscan =>
    rw [lexemes_broken hscan (by simpa using hc) hne] at h
    cases h
  | case5 offset c rest hc hne token length hscan ih =>
    obtain ⟨hlength, happend⟩ := scanToken_append hscan hline
    rw [lexemes_token hscan (by simpa using hc) hne] at h
    obtain ⟨found, hfound, rfl⟩ := Option.map_eq_some_iff.1 h
    rw [List.cons_append, lexemes_token (happend 0) (by simpa using hc) hne,
      List.drop_append_of_le_length hlength, ih hfound, Option.map_map]
    rfl

/-! ## Tokens as they are written -/

/-- A name as it is written. -/
def IsName (text : Text) : Prop :=
  ∃ c rest, text = c :: rest ∧ isNameStart c ∧ ∀ d ∈ rest, isNameContinue d

/-- A name or a number that is written as one. -/
def Token.Lexical : Token → Prop
  | .name text => IsName text.toList
  | .int text => IsNumber text.toList false
  | .float text => IsNumber text.toList true
  | _ => True

theorem lexical_of_scanToken {c : Char} {rest : Text} {token : Token} {length : Nat}
    (h : scanToken offset c rest = .ok (token, length)) : token.Lexical := by
  cases hpunct : punctuatorOf? c with
  | some p =>
    simp only [scanToken, hpunct] at h
    cases h
    trivial
  | none =>
    by_cases hnumber : isDigit c || c = '-'
    · rw [scanToken_number hnumber hpunct] at h
      obtain ⟨⟨number, isFloat⟩, hscan, hfound⟩ := map_ok.1 h
      cases hfound
      obtain ⟨hgrammar, -⟩ := scanNumber_eq_ok.1 hscan
      cases isFloat <;> simpa [Token.Lexical] using hgrammar
    · simp only [scanToken, hpunct, hnumber, Bool.false_eq_true, if_false] at h
      split at h
      · cases h
        trivial
      · split at h
        · next hname =>
          cases h
          exact ⟨c, rest.takeWhile isNameContinue, by simp, hname,
            fun d hd => List.mem_takeWhile_imp hd⟩
        · split at h
          · split at h
            · obtain ⟨_, -, hfound⟩ := bind_ok.1 h
              cases hfound
              trivial
            · obtain ⟨_, -, hfound⟩ := bind_ok.1 h
              cases hfound
              trivial
          · split at h <;> cases h

/-- The names and numbers of a text are written as such. -/
theorem lexical_of_lexemes {tokens : List Token} (h : lexemes text = some tokens) :
    ∀ token ∈ tokens, token.Lexical := by
  generalize hoffset : 0 = offset
  clear hoffset
  induction offset, text using tokenizeFrom.induct generalizing tokens with
  | case1 offset =>
    rw [lexemes_nil] at h
    cases h
    simp
  | case2 offset c rest hc ih =>
    rw [lexemes_ignored _ hc] at h
    exact ih h
  | case3 offset rest comment hc =>
    rename_i ih
    rw [lexemes_comment, ← drop_length_takeWhile] at h
    exact ih h
  | case4 offset c rest hc hne fault hscan =>
    rw [lexemes_broken hscan (by simpa using hc) hne] at h
    cases h
  | case5 offset c rest hc hne token length hscan ih =>
    rw [lexemes_token hscan (by simpa using hc) hne] at h
    obtain ⟨found, hfound, rfl⟩ := Option.map_eq_some_iff.1 h
    exact List.forall_mem_cons.2 ⟨lexical_of_scanToken hscan, ih hfound⟩

theorem punctuatorOf?_eq_some {c : Char} {p : Punctuator} (h : punctuatorOf? c = some p) :
    p.text = [c] := by
  simpa using List.find?_some h

/-- A character that is written in a name or a number is no punctuator. -/
theorem punctuatorOf?_eq_none {c : Char} (h : goesOnNumber c || c = '-') :
    punctuatorOf? c = none := by
  cases hpunct : punctuatorOf? c with
  | none => rfl
  | some p =>
    have htext := punctuatorOf?_eq_some hpunct
    cases p <;> simp only [Punctuator.text, List.cons.injEq, and_true, reduceCtorEq,
      and_false] at htext <;> subst htext <;> exact absurd h (by decide)

theorem lexemes_char {c : Char} {p : Punctuator} (h : punctuatorOf? c = some p)
    (hc : isIgnored c = false) (hne : c ≠ '#') (rest : Text) :
    lexemes (c :: rest) = (lexemes rest).map (.punct p :: ·) := by
  have hscan : scanToken 0 c rest = .ok (.punct p, 0) := by simp only [scanToken, h]
  exact lexemes_token hscan hc hne

/-- A punctuator is a token of its own, whatever follows. -/
theorem lexemes_punct (p : Punctuator) (rest : Text) :
    lexemes (p.text ++ rest) = (lexemes rest).map (.punct p :: ·) := by
  cases p with
  | spread =>
    have hpunct : punctuatorOf? '.' = none := by decide
    have hscan : scanToken 0 '.' ('.' :: '.' :: rest) = .ok (.punct .spread, 2) := by
      simp [scanToken, hpunct]
    exact lexemes_token hscan (by decide) (by decide)
  | _ => exact lexemes_char (by decide) (by decide) (by decide) rest

/-- A character of some kind is not ignored when no character of that kind is. -/
theorem not_isIgnored {p : Char → Bool} {c : Char} (h : p c)
    (hnone : [' ', '\t', ',', '\uFEFF', '\n', '\r'].all fun d => !p d) : isIgnored c = false := by
  by_contra hc
  simp only [isIgnored, Bool.not_eq_false, Bool.or_eq_true, decide_eq_true_eq] at hc
  rcases hc with ((((rfl | rfl) | rfl) | rfl) | rfl) | rfl <;> simp [h] at hnone

/-- What begins a name begins no number. -/
theorem isDigit_of_isNameStart {c : Char} (h : isNameStart c) :
    (isDigit c || c = '-') = false := by
  have hminus : c ≠ '-' := by
    rintro rfl
    exact absurd h (by decide)
  have hdigit : isDigit c = false := by
    simp only [isNameStart, isDigit, Bool.or_eq_true, Bool.and_eq_true, decide_eq_true_eq,
      Bool.and_eq_false_iff, decide_eq_false_iff_not, Char.le_def, UInt32.le_iff_toNat_le] at h ⊢
    have hA : 'A'.val.toNat = 65 := rfl
    have ha : 'a'.val.toNat = 97 := rfl
    have hnine : '9'.val.toNat = 57 := rfl
    rcases h with (h | h) | rfl
    · omega
    · omega
    · decide
  simp [hdigit, hminus]

/-- A name is a token when nothing follows that goes on with it. -/
theorem lexemes_name {name : String} (hname : IsName name.toList) (hmore : Boundary more) :
    lexemes (name.toList ++ more) = (lexemes more).map (.name name :: ·) := by
  obtain ⟨c, rest, htext, hstart, hrest⟩ := hname
  have hnumber := isDigit_of_isNameStart hstart
  have hpunct : punctuatorOf? c = none :=
    punctuatorOf?_eq_none (by simp [goesOnNumber, isNameContinue, hstart])
  have hpoint : c ≠ '.' := by
    rintro rfl
    exact absurd hstart (by decide)
  have hscan : scanToken 0 c (rest ++ more) = .ok (.name name, rest.length) := by
    simp only [scanToken, hpunct, hpoint, hnumber, hstart, false_and, Bool.false_eq_true, if_false,
      if_true, takeWhile_append_of_ends hrest hmore.name, ← htext, String.ofList_toList]
  have hne : c ≠ '#' := by
    rintro rfl
    exact absurd hstart (by decide)
  have hc : isIgnored c = false := not_isIgnored hstart (by decide)
  rw [htext, List.cons_append, lexemes_token hscan hc hne, List.drop_left]

/-- A number is a token when nothing follows that goes on with it. -/
theorem lexemes_number {number : String} {isFloat : Bool} (hnumber : IsNumber number.toList isFloat)
    (hmore : Boundary more) : lexemes (number.toList ++ more) =
      (lexemes more).map ((if isFloat then .float number else .int number) :: ·) := by
  obtain ⟨c, rest, htext, hstart⟩ := hnumber.starts
  have hpunct : punctuatorOf? c = none :=
    punctuatorOf?_eq_none (by
      simp only [goesOnNumber_iff, Bool.or_eq_true, decide_eq_true_eq] at hstart ⊢
      tauto)
  have hscan : scanNumber 0 (number.toList ++ more) = .ok (number.toList, isFloat) :=
    scanNumber_complete hnumber hmore.number
  rw [htext, List.cons_append] at hscan
  have htoken : scanToken 0 c (rest ++ more) =
      .ok (if isFloat then .float number else .int number, rest.length) := by
    rw [scanToken_number hstart hpunct, hscan]
    simp only [Except.map, ← htext, String.ofList_toList]
    simp [htext]
  have hne : c ≠ '#' := by
    rintro rfl
    exact absurd hstart (by decide)
  have hc : isIgnored c = false :=
    not_isIgnored (p := fun c => isDigit c || c = '-') hstart (by decide)
  rw [htext, List.cons_append, lexemes_token htoken hc hne, List.drop_left]

end PersistedQueries.GraphQL
