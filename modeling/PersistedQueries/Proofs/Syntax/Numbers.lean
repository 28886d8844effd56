import Mathlib.Data.List.TakeWhile
import PersistedQueries.GraphQL.Lexer

/-!
# Numbers

The scanner of numbers takes a sign, a whole part, perhaps a fraction and perhaps an exponent, each
as long as it can be. `IsNumber` is the grammar it recognizes, without offsets or faults.

- `Ends`: a text does not begin with a character of some kind.
- `IsDigits`, `IsWhole`, `IsFraction`, `IsExponent`, `IsNumber`: the parts of a number.
- `scanNumber_eq_ok`: the scanner finds exactly the numbers that no digit, point or letter follows.
-/

namespace PersistedQueries.GraphQL

variable {offset : Nat} {text rest : Text}

/-! ## Runs of characters -/

/-- The text does not begin with a character of some kind. -/
def Ends (p : Char → Bool) (text : Text) : Prop := ∀ c, text.head? = some c → p c = false

theorem Ends.mono {p q : Char → Bool} (h : Ends p text) (hpq : ∀ c, q c → p c) : Ends q text := by
  intro c hc
  have := h c hc
  by_contra hq
  rw [hpq c (by simpa using hq)] at this
  cases this

theorem ends_nil (p : Char → Bool) : Ends p [] := nofun

theorem ends_cons {p : Char → Bool} {c : Char} : Ends p (c :: text) ↔ p c = false := by
  simp [Ends]

theorem ends_dropWhile (p : Char → Bool) (text : Text) : Ends p (text.dropWhile p) := by
  intro c hc
  induction text with
  | nil => cases hc
  | cons d text ih =>
    rw [List.dropWhile_cons] at hc
    split at hc
    · exact ih hc
    · next hd =>
      cases hc
      simpa using hd

/-- A run of characters is as long as it can be. -/
theorem takeWhile_append_of_ends {p : Char → Bool} {run : Text} (hrun : ∀ c ∈ run, p c)
    (hrest : Ends p rest) : (run ++ rest).takeWhile p = run := by
  rw [List.takeWhile_append_of_pos hrun]
  cases rest with
  | nil => simp
  | cons c rest => simp [hrest c rfl]

theorem drop_length_takeWhile (p : Char → Bool) (text : Text) :
    text.drop (text.takeWhile p).length = text.dropWhile p := by
  have h := List.takeWhile_append_dropWhile (p := p) (l := text)
  calc text.drop (text.takeWhile p).length
      = (text.takeWhile p ++ text.dropWhile p).drop (text.takeWhile p).length := by rw [h]
    _ = text.dropWhile p := List.drop_left

/-! ## The parts of a number -/

/-- Digits, of which there must be some. -/
def IsDigits (run : Text) : Prop := run ≠ [] ∧ ∀ c ∈ run, isDigit c

/-- The sign of a number. -/
def IsSign (sign : Text) : Prop := sign = [] ∨ sign = ['-']

/-- The whole part of a number, which is zero or does not begin with it. -/
def IsWhole (whole : Text) : Prop := whole = ['0'] ∨ IsDigits whole ∧ whole.head? ≠ some '0'

/-- The fraction of a number. -/
def IsFraction (fraction : Text) : Prop :=
  fraction = [] ∨ ∃ digits, IsDigits digits ∧ fraction = '.' :: digits

/-- The exponent of a number. -/
def IsExponent (exponent : Text) : Prop :=
  exponent = [] ∨ ∃ e sign digits, (e = 'e' ∨ e = 'E') ∧
    (sign = [] ∨ sign = ['+'] ∨ sign = ['-']) ∧ IsDigits digits ∧ exponent = e :: sign ++ digits

/-- A number, and whether it has a fraction or an exponent. -/
def IsNumber (number : Text) (isFloat : Bool) : Prop :=
  ∃ sign whole fraction exponent, IsSign sign ∧ IsWhole whole ∧ IsFraction fraction ∧
    IsExponent exponent ∧ number = sign ++ whole ++ fraction ++ exponent ∧
    isFloat = (!fraction.isEmpty || !exponent.isEmpty)

/-- A character that a number must not be followed by. -/
def goesOnNumber (c : Char) : Bool := isNameContinue c || c = '.'

/-! ## The scanner of numbers -/

theorem scanDigits_eq_ok {run : Text} : scanDigits offset text = .ok (run, rest) ↔
    IsDigits run ∧ text = run ++ rest ∧ Ends isDigit rest := by
  have heq : scanDigits offset text = if (text.takeWhile isDigit).isEmpty then
      .error ⟨.expectedDigit text.head?, offset⟩
      else .ok (text.takeWhile isDigit, text.dropWhile isDigit) := by
    rw [← drop_length_takeWhile]
    rfl
  rw [heq]
  constructor
  · intro h
    split at h
    · cases h
    · next hne =>
      cases h
      exact ⟨⟨by simpa using hne, fun c hc => List.mem_takeWhile_imp hc⟩,
        (List.takeWhile_append_dropWhile).symm, ends_dropWhile _ _⟩
  · rintro ⟨⟨hne, hdigits⟩, rfl, hends⟩
    have hdrop : (run ++ rest).dropWhile isDigit = rest := by
      rw [← drop_length_takeWhile, takeWhile_append_of_ends hdigits hends, List.drop_left]
    rw [takeWhile_append_of_ends hdigits hends, hdrop]
    simp [hne]

/-- The sign of a number and what follows it. -/
def scanSign (text : Text) : Text × Text :=
  match text with
  | '-' :: rest => (['-'], rest)
  | _ => ([], text)

/-- The whole part of a number and what follows it. -/
def scanWhole (offset : Nat) (body : Text) : Except Fault (Text × Text) :=
  match body with
  | '0' :: rest =>
    match rest.head? with
    | some c => if isDigit c then throw ⟨.digitAfterZero c, offset + 1⟩ else pure (['0'], rest)
    | none => pure (['0'], rest)
  | _ => scanDigits offset body

/-- The fraction of a number, when it has one, and what follows it. -/
def scanFraction (offset : Nat) (text : Text) : Except Fault (Text × Text) :=
  match text with
  | '.' :: rest => do
    let (digits, rest) ← scanDigits (offset + 1) rest
    pure ('.' :: digits, rest)
  | _ => pure ([], text)

/-- The sign of an exponent and what follows it. -/
def scanExponentSign (text : Text) : Text × Text :=
  match text with
  | c :: more => if c = '+' || c = '-' then ([c], more) else ([], text)
  | [] => ([], text)

/-- The exponent of a number, when it has one, and what follows it. -/
def scanExponent (offset : Nat) (text : Text) : Except Fault (Text × Text) :=
  match text with
  | e :: rest =>
    if e = 'e' || e = 'E' then do
      let (sign, rest) := scanExponentSign rest
      let (digits, rest) ← scanDigits (offset + 1 + sign.length) rest
      pure (e :: sign ++ digits, rest)
    else pure ([], text)
  | [] => pure ([], text)

/-- Nothing follows a number that could go on with it. -/
def checkEnd (offset : Nat) (text : Text) : Except Fault Unit :=
  match text.head? with
  | some c => if c = '.' || isNameStart c then throw ⟨.expectedDigit (some c), offset⟩ else pure ()
  | none => pure ()

section Binds

variable {β : Type} (k : Text × Text → Except Fault β)

theorem scanWhole_bind (offset : Nat) (body : Text) : scanWhole offset body >>= k =
    match body with
    | '0' :: rest =>
      match rest.head? with
      | some c =>
        if isDigit c then throw ⟨.digitAfterZero c, offset + 1⟩ >>= k else pure (['0'], rest) >>= k
      | none => pure (['0'], rest) >>= k
    | _ => scanDigits offset body >>= k := by
  unfold scanWhole
  split
  · split
    · split <;> rfl
    · rfl
  · rfl

theorem scanFraction_bind (offset : Nat) (text : Text) : scanFraction offset text >>= k =
    match text with
    | '.' :: rest => do
      let (digits, rest) ← scanDigits (offset + 1) rest
      pure ('.' :: digits, rest) >>= k
    | _ => pure ([], text) >>= k := by
  unfold scanFraction
  split
  · rw [bind_assoc]
  · rfl

theorem scanExponent_bind (offset : Nat) (text : Text) : scanExponent offset text >>= k =
    match text with
    | e :: rest =>
      if e = 'e' || e = 'E' then do
        let (sign, rest) := scanExponentSign rest
        let (digits, rest) ← scanDigits (offset + 1 + sign.length) rest
        pure (e :: sign ++ digits, rest) >>= k
      else pure ([], text) >>= k
    | [] => pure ([], text) >>= k := by
  unfold scanExponent
  split
  · split
    · rw [bind_assoc]
    · rfl
  · rfl

theorem checkEnd_bind (offset : Nat) (text : Text) (k : Unit → Except Fault β) :
    checkEnd offset text >>= k =
    match text.head? with
    | some c =>
      if c = '.' || isNameStart c then throw ⟨.expectedDigit (some c), offset⟩ >>= k
      else pure () >>= k
    | none => pure () >>= k := by
  unfold checkEnd
  split
  · split <;> rfl
  · rfl

end Binds

theorem scanNumber_eq (offset : Nat) (text : Text) : scanNumber offset text = (do
    let (sign, body) := scanSign text
    let offset := offset + sign.length
    let (whole, rest) ← scanWhole offset body
    let offset := offset + whole.length
    let (fraction, rest) ← scanFraction offset rest
    let offset := offset + fraction.length
    let (exponent, rest) ← scanExponent offset rest
    let offset := offset + exponent.length
    checkEnd offset rest
    return (sign ++ whole ++ fraction ++ exponent, !fraction.isEmpty || !exponent.isEmpty)) := by
  simp only [scanWhole_bind, scanFraction_bind, scanExponent_bind, checkEnd_bind]
  rfl

/-! ## What the parts take -/

variable {body whole fraction exponent sign : Text}

theorem scanSign_eq : scanSign text = (sign, body) ↔
    IsSign sign ∧ text = sign ++ body ∧ (sign = [] → body.head? ≠ some '-') := by
  unfold scanSign IsSign
  split
  · next rest =>
    constructor
    · rintro h
      cases h
      exact ⟨.inr rfl, rfl, nofun⟩
    · rintro ⟨rfl | rfl, htext, hne⟩
      · exact absurd (by rw [← List.nil_append body, ← htext]; rfl) (hne rfl)
      · simpa using htext
  · next hne =>
    constructor
    · rintro h
      cases h
      refine ⟨.inl rfl, rfl, fun _ hhead => ?_⟩
      obtain ⟨more, rfl⟩ := List.head?_eq_some_iff.1 hhead
      exact hne more rfl
    · rintro ⟨rfl | rfl, rfl, -⟩
      · rfl
      · exact absurd rfl (hne body)

theorem scanWhole_eq_ok : scanWhole offset body = .ok (whole, rest) ↔
    IsWhole whole ∧ body = whole ++ rest ∧ Ends isDigit rest := by
  have hzero : ∀ {digits : Text}, IsDigits digits → digits.head? ≠ some '0' →
      ∀ more, body = '0' :: more → body ≠ digits ++ rest := by
    rintro digits ⟨hne, -⟩ hhead more rfl heq
    obtain ⟨c, digits, rfl⟩ := List.exists_cons_of_ne_nil hne
    cases heq
    exact hhead rfl
  unfold scanWhole
  split
  · next more =>
    have hpure : (pure (['0'], more) : Except Fault (Text × Text)) = .ok (whole, rest) ↔
        whole = ['0'] ∧ more = rest := by
      constructor
      · intro h
        cases h
        exact ⟨rfl, rfl⟩
      · rintro ⟨rfl, rfl⟩
        rfl
    have hwhole : (IsWhole whole ∧ '0' :: more = whole ++ rest ∧ Ends isDigit rest) ↔
        (whole = ['0'] ∧ more = rest) ∧ Ends isDigit more := by
      constructor
      · rintro ⟨rfl | ⟨hdigits, hhead⟩, heq, hends⟩
        · cases heq
          exact ⟨⟨rfl, rfl⟩, hends⟩
        · exact absurd heq (hzero hdigits hhead more rfl)
      · rintro ⟨⟨rfl, rfl⟩, hends⟩
        exact ⟨.inl rfl, rfl, hends⟩
    rw [hwhole]
    cases more with
    | nil =>
      rw [List.head?_nil]
      simp only [hpure, ends_nil, and_true]
    | cons c more =>
      rw [List.head?_cons, ends_cons]
      by_cases hdigit : isDigit c
      · simp only [hdigit, if_true, Bool.true_eq_false, and_false, iff_false]
        exact fun h => by cases h
      · simp only [hdigit, Bool.false_eq_true, if_false, hpure, and_true]
  · next hne =>
    rw [scanDigits_eq_ok]
    constructor
    · rintro ⟨hdigits, rfl, hends⟩
      refine ⟨.inr ⟨hdigits, fun hhead => ?_⟩, rfl, hends⟩
      obtain ⟨more, rfl⟩ := List.head?_eq_some_iff.1 hhead
      exact hne _ rfl
    · rintro ⟨rfl | ⟨hdigits, -⟩, rfl, hends⟩
      · exact absurd rfl (hne rest)
      · exact ⟨hdigits, rfl, hends⟩

theorem scanFraction_eq_ok : scanFraction offset text = .ok (fraction, rest) ↔
    IsFraction fraction ∧ text = fraction ++ rest ∧ (fraction = [] → rest.head? ≠ some '.') ∧
      (fraction ≠ [] → Ends isDigit rest) := by
  unfold scanFraction
  split
  · next more =>
    constructor
    · intro h
      cases hdigits : scanDigits (offset + 1) more with
      | error fault =>
        rw [hdigits] at h
        cases h
      | ok found =>
        obtain ⟨digits, last⟩ := found
        rw [hdigits] at h
        cases h
        obtain ⟨hrun, rfl, hends⟩ := scanDigits_eq_ok.1 hdigits
        exact ⟨.inr ⟨digits, hrun, rfl⟩, rfl, nofun, fun _ => hends⟩
    · rintro ⟨rfl | ⟨digits, hrun, rfl⟩, heq, hempty, hends⟩
      · exact absurd (by rw [← List.nil_append rest, ← heq]; rfl) (hempty rfl)
      · simp only [List.cons_append, List.cons.injEq, true_and] at heq
        subst heq
        have hdigits : scanDigits (offset + 1) (digits ++ rest) = .ok (digits, rest) :=
          scanDigits_eq_ok.2 ⟨hrun, rfl, hends (List.cons_ne_nil _ _)⟩
        rw [hdigits]
        rfl
  · next hne =>
    constructor
    · intro h
      cases h
      refine ⟨.inl rfl, rfl, fun _ hhead => ?_, fun h => absurd rfl h⟩
      obtain ⟨more, rfl⟩ := List.head?_eq_some_iff.1 hhead
      exact hne more rfl
    · rintro ⟨rfl | ⟨digits, -, rfl⟩, rfl, -, -⟩
      · rfl
      · exact absurd rfl (hne _)

theorem scanExponentSign_eq {more : Text} (hmore : ∀ c, more.head? = some c → isDigit c)
    (hsign : sign = [] ∨ sign = ['+'] ∨ sign = ['-']) :
    scanExponentSign (sign ++ more) = (sign, more) := by
  rcases hsign with rfl | rfl | rfl
  · cases more with
    | nil => rfl
    | cons c more =>
      have hdigit := hmore c rfl
      have hplus : c ≠ '+' := by rintro rfl; exact absurd hdigit (by decide)
      have hminus : c ≠ '-' := by rintro rfl; exact absurd hdigit (by decide)
      simp [scanExponentSign, hplus, hminus]
  · rfl
  · rfl

theorem sign_of_scanExponentSign (h : scanExponentSign text = (sign, rest)) :
    (sign = [] ∨ sign = ['+'] ∨ sign = ['-']) ∧ text = sign ++ rest := by
  unfold scanExponentSign at h
  split at h
  · next c more =>
    split at h
    · next hc =>
      cases h
      simp only [Bool.or_eq_true, decide_eq_true_eq] at hc
      rcases hc with rfl | rfl <;> simp
    · cases h
      simp
  · cases h
    simp

theorem IsDigits.head {digits : Text} (h : IsDigits digits) :
    ∀ c, (digits ++ rest).head? = some c → isDigit c := by
  obtain ⟨hne, hdigits⟩ := h
  obtain ⟨d, digits, rfl⟩ := List.exists_cons_of_ne_nil hne
  rintro c hc
  cases hc
  exact hdigits _ (by simp)

/-- Behind the mark of an exponent come a sign, which may be left out, and digits. -/
theorem scanExponent_marked {e : Char} {more : Text} (he : e = 'e' || e = 'E') :
    scanExponent offset (e :: more) = .ok (exponent, rest) ↔
      ∃ sign digits, (sign = [] ∨ sign = ['+'] ∨ sign = ['-']) ∧ IsDigits digits ∧
        exponent = e :: (sign ++ digits) ∧ more = sign ++ (digits ++ rest) ∧ Ends isDigit rest := by
  rw [scanExponent, if_pos he]
  constructor
  · intro h
    cases hsign : scanExponentSign more with
    | mk sign behind =>
      simp only [hsign] at h
      cases hdigits : scanDigits (offset + 1 + sign.length) behind with
      | error fault =>
        rw [hdigits] at h
        cases h
      | ok found =>
        obtain ⟨digits, last⟩ := found
        rw [hdigits] at h
        cases h
        obtain ⟨hrun, rfl, hends⟩ := scanDigits_eq_ok.1 hdigits
        obtain ⟨hsigns, rfl⟩ := sign_of_scanExponentSign hsign
        exact ⟨sign, digits, hsigns, hrun, rfl, rfl, hends⟩
  · rintro ⟨sign, digits, hsign, hrun, rfl, rfl, hends⟩
    have hdigits : scanDigits (offset + 1 + sign.length) (digits ++ rest) = .ok (digits, rest) :=
      scanDigits_eq_ok.2 ⟨hrun, rfl, hends⟩
    simp only [scanExponentSign_eq hrun.head hsign, hdigits]
    rfl

theorem scanExponent_eq_ok : scanExponent offset text = .ok (exponent, rest) ↔
    IsExponent exponent ∧ text = exponent ++ rest ∧
      (exponent = [] → Ends (fun c => c = 'e' || c = 'E') rest) ∧
      (exponent ≠ [] → Ends isDigit rest) := by
  cases text with
  | nil =>
    constructor
    · intro h
      cases h
      exact ⟨.inl rfl, rfl, fun _ => ends_nil _, fun h => absurd rfl h⟩
    · rintro ⟨rfl | ⟨e, sign, digits, -, -, -, rfl⟩, heq, -, -⟩
      · cases heq
        rfl
      · cases heq
  | cons c more =>
    by_cases hc : c = 'e' || c = 'E'
    · rw [scanExponent_marked hc]
      constructor
      · rintro ⟨sign, digits, hsign, hrun, rfl, rfl, hends⟩
        exact ⟨.inr ⟨c, sign, digits, by simpa using hc, hsign, hrun, rfl⟩, by simp, nofun,
          fun _ => hends⟩
      · rintro ⟨rfl | ⟨e, sign, digits, -, hsign, hrun, rfl⟩, heq, hempty, hends⟩
        · obtain rfl : c :: more = rest := heq
          have hfree : (c = 'e' || c = 'E') = false := hempty rfl c rfl
          exact absurd (hc.symm.trans hfree) (by decide)
        · simp only [List.cons_append, List.append_assoc, List.cons.injEq] at heq
          obtain ⟨rfl, rfl⟩ := heq
          exact ⟨sign, digits, hsign, hrun, rfl, rfl, hends (List.cons_ne_nil _ _)⟩
    · rw [scanExponent, if_neg hc]
      constructor
      · intro h
        cases h
        exact ⟨.inl rfl, rfl, fun _ => ends_cons.2 (by simpa using hc), fun h => absurd rfl h⟩
      · rintro ⟨rfl | ⟨e, sign, digits, he, -, -, rfl⟩, heq, -, -⟩
        · cases heq
          rfl
        · cases heq
          exact absurd (by simpa using he) hc

theorem checkEnd_eq_ok : checkEnd offset text = .ok () ↔
    Ends (fun c => c = '.' || isNameStart c) text := by
  unfold checkEnd
  cases text with
  | nil => exact ⟨fun _ => ends_nil _, fun _ => rfl⟩
  | cons c text =>
    rw [ends_cons, List.head?_cons]
    by_cases hc : c = '.' || isNameStart c
    · simp only [hc, if_true, Bool.true_eq_false, iff_false]
      exact fun h => by cases h
    · simp only [hc, Bool.false_eq_true, if_false]
      exact iff_of_true rfl trivial

/-! ## Numbers -/

theorem IsWhole.head (h : IsWhole whole) : ∀ c, (whole ++ rest).head? = some c → isDigit c := by
  rcases h with rfl | ⟨hdigits, -⟩
  · intro c hc
    cases hc
    decide
  · exact hdigits.head

theorem goesOnNumber_iff (c : Char) :
    goesOnNumber c ↔ isDigit c ∨ c = '.' ∨ isNameStart c := by
  simp only [goesOnNumber, isNameContinue, Bool.or_eq_true, decide_eq_true_eq]
  grind

theorem ends_goesOnNumber : Ends goesOnNumber rest ↔
    Ends isDigit rest ∧ Ends (fun c => c = '.' || isNameStart c) rest := by
  cases rest with
  | nil => exact iff_of_true (ends_nil _) ⟨ends_nil _, ends_nil _⟩
  | cons c rest =>
    simp only [ends_cons, ← Bool.not_eq_true, goesOnNumber_iff, Bool.or_eq_true, decide_eq_true_eq]
    grind

/-- A part that is empty, or that begins with a point or a letter, ends the digits before it. -/
theorem ends_fraction (h : IsFraction fraction) (hrest : fraction = [] → Ends isDigit rest) :
    Ends isDigit (fraction ++ rest) := by
  rcases h with rfl | ⟨digits, -, rfl⟩
  · exact hrest rfl
  · exact ends_cons.2 (by decide)

theorem ends_exponent (h : IsExponent exponent) (hrest : exponent = [] → Ends isDigit rest) :
    Ends isDigit (exponent ++ rest) := by
  rcases h with rfl | ⟨e, sign, digits, rfl | rfl, -, -, rfl⟩
  · exact hrest rfl
  · exact ends_cons.2 (by decide)
  · exact ends_cons.2 (by decide)

theorem bind_ok {ε α β : Type} {x : Except ε α} {f : α → Except ε β} {b : β} :
    (x >>= f) = .ok b ↔ ∃ a, x = .ok a ∧ f a = .ok b := by
  cases x <;> simp [bind, Except.bind]

theorem scanNumber_sound {number : Text} {isFloat : Bool}
    (h : scanNumber offset text = .ok (number, isFloat)) :
    IsNumber number isFloat ∧ ∃ rest, text = number ++ rest ∧ Ends goesOnNumber rest := by
  rw [scanNumber_eq] at h
  cases hfirst : scanSign text with
  | mk sign body =>
  simp only [hfirst] at h
  obtain ⟨⟨whole, rest₁⟩, hscan₁, h⟩ := bind_ok.1 h
  obtain ⟨⟨fraction, rest₂⟩, hscan₂, h⟩ := bind_ok.1 h
  obtain ⟨⟨exponent, rest₃⟩, hscan₃, h⟩ := bind_ok.1 h
  obtain ⟨_, hend, h⟩ := bind_ok.1 h
  cases h
  obtain ⟨hsign, rfl, -⟩ := scanSign_eq.1 hfirst
  obtain ⟨hwhole, rfl, hends₁⟩ := scanWhole_eq_ok.1 hscan₁
  obtain ⟨hfraction, rfl, -, hends₂⟩ := scanFraction_eq_ok.1 hscan₂
  obtain ⟨hexponent, rfl, -, hends₃⟩ := scanExponent_eq_ok.1 hscan₃
  refine ⟨⟨_, _, _, _, hsign, hwhole, hfraction, hexponent, rfl, rfl⟩, rest₃, by simp, ?_⟩
  -- an absent part leaves what ended the part before it
  refine ends_goesOnNumber.2 ⟨?_, checkEnd_eq_ok.1 hend⟩
  by_cases hexp : exponent = []
  · subst hexp
    by_cases hfrac : fraction = []
    · subst hfrac
      exact hends₁
    · exact hends₂ hfrac
  · exact hends₃ hexp

theorem scanNumber_complete {number : Text} {isFloat : Bool} (h : IsNumber number isFloat)
    (hrest : Ends goesOnNumber rest) :
    scanNumber offset (number ++ rest) = .ok (number, isFloat) := by
  obtain ⟨sign, whole, fraction, exponent, hsign, hwhole, hfraction, hexponent, rfl, rfl⟩ := h
  obtain ⟨hdigit, hend⟩ := ends_goesOnNumber.1 hrest
  have hfirst : scanSign (sign ++ whole ++ fraction ++ exponent ++ rest) =
      (sign, whole ++ (fraction ++ (exponent ++ rest))) := by
    refine scanSign_eq.2 ⟨hsign, by simp, fun _ hhead => ?_⟩
    exact absurd (hwhole.head '-' hhead) (by decide)
  have hexponent' : ∀ n, scanExponent n (exponent ++ rest) = .ok (exponent, rest) := by
    refine fun n => scanExponent_eq_ok.2 ⟨hexponent, rfl, fun _ => hend.mono ?_, fun _ => hdigit⟩
    intro c hc
    simp only [Bool.or_eq_true, decide_eq_true_eq] at hc ⊢
    rcases hc with rfl | rfl <;> exact .inr (by decide)
  have hpoint : (exponent ++ rest).head? ≠ some '.' := by
    rcases hexponent with rfl | ⟨e, sign, digits, rfl | rfl, -, -, rfl⟩
    · intro hhead
      exact absurd (hend '.' hhead) (by decide)
    · simp
    · simp
  have hfraction' : ∀ n, scanFraction n (fraction ++ (exponent ++ rest)) =
      .ok (fraction, exponent ++ rest) := fun n =>
    scanFraction_eq_ok.2 ⟨hfraction, rfl, fun _ => hpoint, fun _ =>
      ends_exponent hexponent fun _ => hdigit⟩
  have hwhole' : ∀ n, scanWhole n (whole ++ (fraction ++ (exponent ++ rest))) =
      .ok (whole, fraction ++ (exponent ++ rest)) := fun n =>
    scanWhole_eq_ok.2 ⟨hwhole, rfl, ends_fraction hfraction fun _ =>
      ends_exponent hexponent fun _ => hdigit⟩
  rw [scanNumber_eq, hfirst]
  refine bind_ok.2 ⟨_, hwhole' _, bind_ok.2 ⟨_, hfraction' _, bind_ok.2 ⟨_, hexponent' _, ?_⟩⟩⟩
  exact bind_ok.2 ⟨(), checkEnd_eq_ok.2 hend, rfl⟩

/-- The scanner takes a number that nothing follows with which the number could go on, and takes
nothing else. -/
theorem scanNumber_eq_ok {number : Text} {isFloat : Bool} :
    scanNumber offset text = .ok (number, isFloat) ↔
      IsNumber number isFloat ∧ ∃ rest, text = number ++ rest ∧ Ends goesOnNumber rest := by
  constructor
  · exact scanNumber_sound
  · rintro ⟨h, rest, rfl, hrest⟩
    exact scanNumber_complete h hrest

/-- A number begins with a digit or a minus sign. -/
theorem IsNumber.starts {number : Text} {isFloat : Bool} (h : IsNumber number isFloat) :
    ∃ c more, number = c :: more ∧ (isDigit c || c = '-') := by
  obtain ⟨sign, whole, fraction, exponent, rfl | rfl, hwhole, -, -, rfl, -⟩ := h
  · have hhead : ∀ c, (whole ++ (fraction ++ exponent)).head? = some c → isDigit c := hwhole.head
    rw [List.nil_append, List.append_assoc]
    cases hnumber : whole ++ (fraction ++ exponent) with
    | nil =>
      rcases hwhole with rfl | ⟨⟨hne, -⟩, -⟩
      · cases hnumber
      · exact absurd (List.append_eq_nil_iff.1 hnumber).1 hne
    | cons c more =>
      refine ⟨c, more, rfl, ?_⟩
      rw [hhead c (by rw [hnumber]; rfl)]
      rfl
  · exact ⟨'-', _, rfl, by decide⟩

/-- The characters of a number. -/
def isNumeric (c : Char) : Bool := isDigit c || "+-.eE".toList.contains c

theorem IsNumber.numeric {number : Text} {isFloat : Bool} (h : IsNumber number isFloat) :
    ∀ c ∈ number, isNumeric c := by
  have hdigits : ∀ {run : Text}, IsDigits run → ∀ c ∈ run, isNumeric c := by
    rintro run ⟨-, hrun⟩ c hc
    rw [isNumeric, hrun c hc]
    rfl
  obtain ⟨sign, whole, fraction, exponent, hsign, hwhole, hfraction, hexponent, rfl, -⟩ := h
  intro c hc
  simp only [List.mem_append] at hc
  rcases hc with ((hc | hc) | hc) | hc
  · rcases hsign with rfl | rfl
    · cases hc
    · obtain rfl := List.mem_singleton.1 hc
      decide
  · rcases hwhole with rfl | ⟨hrun, -⟩
    · obtain rfl := List.mem_singleton.1 hc
      decide
    · exact hdigits hrun c hc
  · rcases hfraction with rfl | ⟨digits, hrun, rfl⟩
    · cases hc
    · rcases List.mem_cons.1 hc with rfl | hc
      · decide
      · exact hdigits hrun c hc
  · rcases hexponent with rfl | ⟨e, sign, digits, he, hsign, hrun, rfl⟩
    · cases hc
    · rcases List.mem_cons.1 hc with rfl | hc
      · rcases he with rfl | rfl <;> decide
      · rcases List.mem_append.1 hc with hc | hc
        · rcases hsign with rfl | rfl | rfl
          · cases hc
          · obtain rfl := List.mem_singleton.1 hc
            decide
          · obtain rfl := List.mem_singleton.1 hc
            decide
        · exact hdigits hrun c hc

end PersistedQueries.GraphQL
