import PersistedQueries.Proofs.CallSite.Spans

/-!
# Walking from one place of a text to another

The walk that finds the comments and literals of a text can be cut at every place that no comment or
literal reaches across. What it finds up to such a place depends on what stands behind the place
only through its first character, because a token that ends there was closed, or was broken off by a
line end. And it depends on what stands in front only as far as a slash may open a regular
expression there, for which nothing counts that stands in front of a parenthesis or another mark.

- `Scans`: the walk comes from one place of a text to another.
- `Scans.rangesFrom_eq`: the comments and literals of a text are those in front of such a place and
  those behind it.
- `scans_of_ranges`: the walk comes to every place that no comment or literal reaches across.
- `Scans.congr_text`, `Scans.congr_before`: what the walk depends on.
- `Scans.exists_ranges`, `rangesFrom_of_slashAlike`, `rangesFrom_shift`: what its findings depend on.
-/

namespace PersistedQueries.CallSite

variable {before front text : Text} {c : Char}

/-! ## Walking -/

/-- Behind the text `before`, given with the nearest character first, the walk over `front` comes to
the place where `text` begins: no comment or literal that begins in the front reaches into it. -/
inductive Scans : Text → Text → Text → Prop where
  | done {before text : Text} : Scans before [] text
  | code {before front text : Text} {c : Char}
      (token_eq : tokenTail? before c (front ++ text) = none)
      (scans : Scans (c :: before) front text) : Scans before (c :: front) text
  | token {before tail front text : Text} {c : Char}
      (token_eq : tokenTail? before c (tail ++ (front ++ text)) = some tail.length)
      (scans : Scans (tail.reverse ++ c :: before) front text) :
      Scans before (c :: (tail ++ front)) text

namespace Scans

/-- A walk goes on where it came to. -/
theorem append {more : Text} (h : Scans before front (more ++ text))
    (h' : Scans (front.reverse ++ before) more text) : Scans before (front ++ more) text := by
  generalize hrest : more ++ text = rest at h
  induction h with
  | done => exact h'
  | @code before front rest c htoken _ ih =>
    subst hrest
    rw [List.cons_append]
    refine .code (by rwa [List.append_assoc]) (ih ?_ rfl)
    rwa [List.reverse_cons, List.append_assoc] at h'
  | @token before tail front rest c htoken _ ih =>
    subst hrest
    rw [List.cons_append, List.append_assoc]
    refine .token (by rwa [List.append_assoc]) (ih ?_ rfl)
    simpa using h'

/-- A walk over a character has passed it as code, or the token that begins with it. -/
theorem cons_cases (h : Scans before (c :: front) text) :
    (tokenTail? before c (front ++ text) = none ∧ Scans (c :: before) front text) ∨
      ∃ tail rest, front = tail ++ rest ∧
        tokenTail? before c (front ++ text) = some tail.length ∧
        Scans (tail.reverse ++ c :: before) rest text := by
  generalize hwhole : c :: front = whole at h
  cases h with
  | done => cases hwhole
  | code htoken h =>
    cases hwhole
    exact .inl ⟨htoken, h⟩
  | token htoken h =>
    cases hwhole
    exact .inr ⟨_, _, rfl, by rwa [List.append_assoc], h⟩

/-- What is left of a walk when a part of it is done. -/
theorem cancel {more : Text} (h : Scans before front (more ++ text))
    (hall : Scans before (front ++ more) text) : Scans (front.reverse ++ before) more text := by
  generalize hrest : more ++ text = rest at h
  induction h with
  | done => exact hall
  | @code before front rest c htoken _ ih =>
    subst hrest
    rw [List.cons_append] at hall
    rcases hall.cons_cases with ⟨-, hall⟩ | ⟨tail, rest, -, htoken', -⟩
    · rw [List.reverse_cons, List.append_assoc]
      exact ih hall rfl
    · rw [List.append_assoc] at htoken'
      cases htoken.symm.trans htoken'
  | @token before tail front rest c htoken _ ih =>
    subst hrest
    rw [List.cons_append] at hall
    rcases hall.cons_cases with ⟨htoken', -⟩ | ⟨tail', rest, hwhole, htoken', hall⟩
    · rw [List.append_assoc, List.append_assoc] at htoken'
      cases htoken.symm.trans htoken'
    · rw [List.append_assoc, List.append_assoc] at htoken'
      have hlength := Option.some.inj (htoken.symm.trans htoken')
      rw [List.append_assoc] at hwhole
      obtain ⟨rfl, rfl⟩ := List.append_inj hwhole hlength
      have hcontext : (c :: (tail ++ front)).reverse ++ before =
          front.reverse ++ (tail.reverse ++ c :: before) := by simp
      exact hcontext ▸ ih hall rfl

end Scans

/-- A character that begins no comment and no literal. -/
def IsPlain (c : Char) : Prop := c ≠ '/' ∧ c ≠ '\x27' ∧ c ≠ '\x22' ∧ c ≠ '\x60'

instance (c : Char) : Decidable (IsPlain c) := inferInstanceAs (Decidable (_ ∧ _))

theorem tokenTail?_of_isPlain (h : IsPlain c) (before rest : Text) :
    tokenTail? before c rest = none := by
  obtain ⟨hslash, hsingle, hdouble, hback⟩ := h
  unfold tokenTail?
  rw [if_neg fun h => hslash h.1, if_neg fun h => hslash h.1,
    if_neg fun h => h.elim hsingle fun h => h.elim hdouble hback, if_neg fun h => hslash h.1]

/-- The walk comes through characters that begin no comment and no literal. -/
theorem scans_of_isPlain (h : ∀ c ∈ front, IsPlain c) : Scans before front text := by
  induction front generalizing before with
  | nil => exact .done
  | cons c front ih =>
    obtain ⟨hc, hfront⟩ := List.forall_mem_cons.1 h
    exact .code (tokenTail?_of_isPlain hc _ _) (ih hfront)

/-! ## The comments and literals of a text -/

/-- The walk comes to every place that no comment or literal reaches across. -/
theorem scans_of_ranges (offset : Nat) (h : ∀ range ∈ rangesFrom before offset (front ++ text),
      ¬ (range.start < offset + front.length ∧ offset + front.length < range.stop)) :
    Scans before front text := by
  induction hn : front.length using Nat.strong_induction_on generalizing before offset front with
  | _ n ih =>
    subst hn
    cases front with
    | nil => exact .done
    | cons c front =>
      rw [List.cons_append, rangesFrom] at h
      rw [List.length_cons] at h ih
      cases htoken : tokenTail? before c (front ++ text) with
      | none =>
        rw [htoken] at h
        refine .code htoken (ih front.length (Nat.lt_succ_self _) (offset + 1) ?_ rfl)
        intro range hrange
        have := h range hrange
        omega
      | some length =>
        rw [htoken] at h
        obtain ⟨hfirst, hrest⟩ := List.forall_mem_cons.1 h
        -- the token does not reach across the end of the front
        have hlength : length ≤ front.length := by
          dsimp only at hfirst
          omega
        have htail : (front.take length).length = length := List.length_take_of_le hlength
        rw [← List.take_append_drop length front] at htoken ⊢
        rw [List.append_assoc] at htoken
        refine .token (htail.symm ▸ htoken) ?_
        have hcut : (front ++ text).take length = front.take length ∧
            (front ++ text).drop length = front.drop length ++ text :=
          ⟨List.take_append_of_le_length hlength, List.drop_append_of_le_length hlength⟩
        rw [hcut.1, hcut.2] at hrest
        refine ih (front.drop length).length ?_ (offset + 1 + length) ?_ rfl
        · rw [List.length_drop]
          omega
        · intro range hrange
          have := hrest range hrange
          rw [List.length_drop]
          omega

/-! ## What stands behind a place -/

section Behind

variable {other : Text} {quote : Char} {inClass : Bool}

/-- A text begins with a character that stands in a name. -/
def BeginsName (text : Text) : Prop := ∃ c rest, text = c :: rest ∧ isNameChar c = true

/-- Two texts go on alike for what stands in front of them: the first with a character that is no line end,
and both or neither with a slash, and with a star. -/
structure Alike (text other : Text) : Prop where
  begins : ∃ c rest, text = c :: rest ∧ c ≠ '\n'
  slash : other.head? = some '/' ↔ text.head? = some '/'
  star : other.head? = some '*' ↔ text.head? = some '*'

theorem BeginsName.alike (htext : BeginsName text) (hother : BeginsName other) : Alike text other := by
  obtain ⟨c, rest, rfl, hc⟩ := htext
  obtain ⟨d, rest', rfl, hd⟩ := hother
  have hapart {mark : Char} (hmark : isNameChar mark = false) :
      (d :: rest').head? = some mark ↔ (c :: rest).head? = some mark := by
    refine iff_of_false ?_ ?_
    · rintro ⟨⟩
      cases hmark.symm.trans hd
    · rintro ⟨⟩
      cases hmark.symm.trans hc
  refine ⟨⟨c, rest, rfl, ?_⟩, hapart (by decide), hapart (by decide)⟩
  rintro rfl
  cases hc

/-- Texts that begin with the same character go on alike. -/
theorem alike_cons {c : Char} (hc : c ≠ '\n') (rest rest' : Text) : Alike (c :: rest) (c :: rest') :=
  ⟨⟨c, rest, rfl, hc⟩, .rfl, .rfl⟩

theorem lineLength_congr (h : Alike text other) (hle : lineLength (front ++ text) ≤ front.length) :
    lineLength (front ++ other) = lineLength (front ++ text) := by
  obtain ⟨c, rest, rfl, hline⟩ := h.begins
  clear h
  induction front with
  | nil =>
    rw [List.nil_append, lineLength, if_neg hline] at hle
    cases hle
  | cons d front ih =>
    rw [List.cons_append, lineLength] at hle
    rw [List.cons_append, List.cons_append, lineLength, lineLength]
    split at hle
    · next hd => rw [if_pos hd, if_pos hd]
    · next hd =>
      rw [if_neg hd, if_neg hd, ih (Nat.le_of_succ_le_succ hle)]

theorem blockLength_cons (c : Char) (rest : Text) :
    blockLength (c :: rest) =
      if c = '*' ∧ rest.head? = some '/' then 2 else blockLength rest + 1 := by
  split
  · next h =>
    obtain ⟨rfl, hhead⟩ := h
    obtain ⟨tail, rfl⟩ := List.head?_eq_some_iff.1 hhead
    rfl
  · next h =>
    rw [blockLength]
    rintro tail rfl rfl
    exact h ⟨rfl, rfl⟩

theorem head?_append_iff (front : Text) {d : Char}
    (h : other.head? = some d ↔ text.head? = some d) :
    (front ++ other).head? = some d ↔ (front ++ text).head? = some d := by
  cases front with
  | nil => exact h
  | cons => exact .rfl

theorem blockLength_congr (h : Alike text other)
    (hle : blockLength (front ++ text) ≤ front.length) :
    blockLength (front ++ other) = blockLength (front ++ text) := by
  induction front with
  | nil =>
    obtain ⟨c, rest, rfl, -⟩ := h.begins
    rw [List.nil_append, blockLength_cons] at hle
    split at hle <;> cases hle
  | cons d front ih =>
    rw [List.cons_append, blockLength_cons] at hle
    rw [List.cons_append, List.cons_append, blockLength_cons, blockLength_cons]
    have hhead := head?_append_iff front h.slash
    split at hle
    · next hd => rw [if_pos hd, if_pos ⟨hd.1, hhead.2 hd.2⟩]
    · next hd =>
      rw [if_neg hd, if_neg fun h => hd ⟨h.1, hhead.1 h.2⟩, ih (Nat.le_of_succ_le_succ hle)]

theorem literalLength_escaped (quote c : Char) (rest : Text) :
    literalLength quote ('\\' :: c :: rest) = literalLength quote rest + 2 := rfl

theorem literalLength_cons (h : c ≠ '\\') (quote : Char) (rest : Text) :
    literalLength quote (c :: rest) =
      if c = quote then 1 else if c = '\n' ∧ quote ≠ '\x60' then 0
      else literalLength quote rest + 1 := by
  rw [literalLength.eq_def]
  exact if_neg h

/-- A literal goes on with every character but a line end. -/
theorem literalLength_pos (hc : c ≠ '\n') (quote : Char) (rest : Text) :
    0 < literalLength quote (c :: rest) := by
  by_cases hbackslash : c = '\\'
  · subst hbackslash
    cases rest <;> exact Nat.succ_pos _
  · rw [literalLength_cons hbackslash]
    split
    · exact Nat.one_pos
    · rw [if_neg fun h => hc h.1]
      exact Nat.succ_pos _

theorem literalLength_congr (halike : Alike text other)
    (h : literalLength quote (front ++ text) ≤ front.length) :
    literalLength quote (front ++ other) = literalLength quote (front ++ text) := by
  induction hn : front.length using Nat.strong_induction_on generalizing front with
  | _ n ih =>
    subst hn
    cases front with
    | nil =>
      obtain ⟨c, rest, rfl, hc⟩ := halike.begins
      exact absurd h (Nat.not_le_of_lt (literalLength_pos hc quote rest))
    | cons d front =>
      by_cases hd : d = '\\'
      · -- the escaped character is passed over with its backslash
        subst hd
        cases front with
        | nil =>
          obtain ⟨c, rest, rfl, -⟩ := halike.begins
          rw [List.singleton_append, literalLength_escaped] at h
          exact absurd h (by simp)
        | cons e front =>
          rw [List.cons_append, List.cons_append, literalLength_escaped] at h
          exact congrArg (· + 2)
            (ih front.length (Nat.lt_add_of_pos_right Nat.two_pos) (Nat.le_of_add_le_add_right h)
              rfl)
      · rw [List.cons_append, literalLength_cons hd] at h
        rw [List.cons_append, List.cons_append, literalLength_cons hd, literalLength_cons hd]
        split at h
        · next hquote => rw [if_pos hquote, if_pos hquote]
        next hquote =>
        rw [if_neg hquote, if_neg hquote]
        split at h
        · next hline => rw [if_pos hline, if_pos hline]
        next hline =>
        rw [if_neg hline, if_neg hline,
          ih front.length (Nat.lt_succ_self _) (Nat.le_of_succ_le_succ h) rfl]

theorem regexLength_escaped (inClass : Bool) (c : Char) (rest : Text) :
    regexLength inClass ('\\' :: c :: rest) = regexLength inClass rest + 2 := rfl

theorem regexLength_cons (h : c ≠ '\\') (inClass : Bool) (rest : Text) :
    regexLength inClass (c :: rest) =
      if c = '\n' then 0
      else if c = '[' then regexLength true rest + 1
      else if c = ']' then regexLength false rest + 1
      else if c = '/' ∧ ¬ inClass then 1
      else regexLength inClass rest + 1 := by
  rw [regexLength.eq_def]
  exact if_neg h

/-- A regular expression goes on with every character but a line end. -/
theorem regexLength_pos (hc : c ≠ '\n') (inClass : Bool) (rest : Text) :
    0 < regexLength inClass (c :: rest) := by
  by_cases hbackslash : c = '\\'
  · subst hbackslash
    cases rest <;> exact Nat.succ_pos _
  · rw [regexLength_cons hbackslash, if_neg hc]
    split <;> [skip; split <;> [skip; split]] <;> exact Nat.succ_pos _

theorem regexLength_congr (halike : Alike text other)
    (h : regexLength inClass (front ++ text) ≤ front.length) :
    regexLength inClass (front ++ other) = regexLength inClass (front ++ text) := by
  induction hn : front.length using Nat.strong_induction_on generalizing front inClass with
  | _ n ih =>
    subst hn
    cases front with
    | nil =>
      obtain ⟨c, rest, rfl, hc⟩ := halike.begins
      exact absurd h (Nat.not_le_of_lt (regexLength_pos hc inClass rest))
    | cons d front =>
      by_cases hd : d = '\\'
      · subst hd
        cases front with
        | nil =>
          obtain ⟨c, rest, rfl, -⟩ := halike.begins
          rw [List.singleton_append, regexLength_escaped] at h
          exact absurd h (by simp)
        | cons e front =>
          rw [List.cons_append, List.cons_append, regexLength_escaped] at h
          exact congrArg (· + 2)
            (ih front.length (Nat.lt_add_of_pos_right Nat.two_pos) (Nat.le_of_add_le_add_right h)
              rfl)
      · rw [List.cons_append, regexLength_cons hd] at h
        rw [List.cons_append, List.cons_append, regexLength_cons hd, regexLength_cons hd]
        have hrest (inClass : Bool)
            (h : regexLength inClass (front ++ text) + 1 ≤ front.length + 1) :
            regexLength inClass (front ++ other) = regexLength inClass (front ++ text) :=
          ih front.length (Nat.lt_succ_self _) (Nat.le_of_succ_le_succ h) rfl
        split at h
        · next hline => rw [if_pos hline, if_pos hline]
        next hline =>
        rw [if_neg hline, if_neg hline]
        split at h
        · next hopen => rw [if_pos hopen, if_pos hopen, hrest true h]
        next hopen =>
        rw [if_neg hopen, if_neg hopen]
        split at h
        · next hclose => rw [if_pos hclose, if_pos hclose, hrest false h]
        next hclose =>
        rw [if_neg hclose, if_neg hclose]
        split at h
        · next hslash => rw [if_pos hslash, if_pos hslash]
        next hslash =>
        rw [if_neg hslash, if_neg hslash, hrest inClass h]

/-- Whether a token begins, and where it ends, is the same in front of texts that go on alike, as long as it
does not reach into them. -/
theorem tokenTail?_congr (halike : Alike text other)
    (h : ∀ length, tokenTail? before c (front ++ text) = some length → length ≤ front.length) :
    tokenTail? before c (front ++ other) = tokenTail? before c (front ++ text) := by
  have hslash := head?_append_iff front halike.slash
  have hstar := head?_append_iff front halike.star
  unfold tokenTail? at h ⊢
  split at h
  · next hline =>
    rw [if_pos hline, if_pos ⟨hline.1, hslash.2 hline.2⟩, lineLength_congr halike (h _ rfl)]
  next hline =>
  rw [if_neg hline, if_neg fun h => hline ⟨h.1, hslash.1 h.2⟩]
  split at h
  · next hblock =>
    rw [if_pos hblock, if_pos ⟨hblock.1, hstar.2 hblock.2⟩]
    -- the star stands in the front
    cases front with
    | nil =>
      have hle := h _ rfl
      rw [List.length_nil] at hle
      omega
    | cons d front =>
      have hle : blockLength (front ++ text) ≤ front.length := by
        have := h _ rfl
        simp only [List.cons_append, List.drop_succ_cons, List.drop_zero, List.length_cons] at this
        omega
      exact congrArg (fun length => some (1 + length)) (blockLength_congr halike hle)
  next hblock =>
  rw [if_neg hblock, if_neg fun h => hblock ⟨h.1, hstar.1 h.2⟩]
  split at h
  · next hquote => rw [if_pos hquote, if_pos hquote, literalLength_congr halike (h _ rfl)]
  next hquote =>
  rw [if_neg hquote, if_neg hquote]
  split at h
  · next hregex => rw [if_pos hregex, if_pos hregex, regexLength_congr halike (h _ rfl)]
  · next hregex => rw [if_neg hregex, if_neg hregex]

/-- A walk comes to its place in front of every text that goes on alike. -/
theorem Scans.congr_alike (h : Scans before front text) (halike : Alike text other) :
    Scans before front other := by
  induction h with
  | done => exact .done
  | @code before front text c htoken _ ih =>
    refine .code ?_ (ih halike)
    rw [tokenTail?_congr halike, htoken]
    rw [htoken]
    exact nofun
  | @token before tail front text c htoken _ ih =>
    rw [← List.append_assoc] at htoken
    refine .token ?_ (ih halike)
    rw [← List.append_assoc, tokenTail?_congr halike, htoken]
    rw [htoken]
    rintro _ ⟨⟩
    rw [List.length_append]
    exact Nat.le_add_right _ _

/-- A walk comes to its place in front of every text that begins with a character of a name. -/
theorem Scans.congr_text (h : Scans before front text) (htext : BeginsName text)
    (hother : BeginsName other) : Scans before front other :=
  h.congr_alike (htext.alike hother)

/-- The comments and literals of a text are those in front of a place to which the walk comes and those
behind it. Those in front are the same before every text that goes on alike. -/
theorem Scans.exists_ranges (h : Scans before front text) (offset : Nat) :
    ∃ ranges, (∀ range ∈ ranges, range.stop ≤ offset + front.length) ∧
      ∀ other, other = text ∨ Alike text other → rangesFrom before offset (front ++ other) =
        ranges ++ rangesFrom (front.reverse ++ before) (offset + front.length) other := by
  induction h generalizing offset with
  | done => exact ⟨[], List.forall_mem_nil _, fun _ _ => rfl⟩
  | @code before front text c htoken _ ih =>
    obtain ⟨ranges, hstops, heq⟩ := ih (offset + 1)
    refine ⟨ranges, fun range hrange => ?_, fun other hother => ?_⟩
    · have := hstops range hrange
      rw [List.length_cons]
      omega
    · have hnone : tokenTail? before c (front ++ other) = none := by
        rcases hother with rfl | halike
        · exact htoken
        · rw [tokenTail?_congr halike, htoken]
          rw [htoken]
          exact nofun
      rw [List.cons_append, rangesFrom, hnone]
      dsimp only
      rw [heq other hother, List.reverse_cons, List.append_assoc, List.length_cons,
        Nat.add_right_comm offset 1 front.length]
      rfl
  | @token before tail front text c htoken _ ih =>
    obtain ⟨ranges, hstops, heq⟩ := ih (offset + 1 + tail.length)
    have hlength : offset + (c :: (tail ++ front)).length =
        offset + 1 + tail.length + front.length := by
      rw [List.length_cons, List.length_append]
      omega
    refine ⟨⟨offset, offset + 1 + tail.length⟩ :: ranges, ?_, fun other hother => ?_⟩
    · rw [hlength]
      refine List.forall_mem_cons.2 ⟨?_, hstops⟩
      dsimp only
      omega
    · have hsome : tokenTail? before c (tail ++ (front ++ other)) = some tail.length := by
        rcases hother with rfl | halike
        · exact htoken
        · rw [← List.append_assoc] at htoken ⊢
          rw [tokenTail?_congr halike, htoken]
          rw [htoken]
          rintro _ ⟨⟩
          rw [List.length_append]
          exact Nat.le_add_right _ _
      rw [List.cons_append, List.append_assoc, rangesFrom, hsome]
      dsimp only
      rw [List.take_left, List.drop_left, heq other hother, hlength]
      simp

theorem Scans.rangesFrom_eq (h : Scans before front text) (offset : Nat) :
    ∃ ranges, rangesFrom before offset (front ++ text) =
        ranges ++ rangesFrom (front.reverse ++ before) (offset + front.length) text ∧
      ∀ range ∈ ranges, range.stop ≤ offset + front.length := by
  obtain ⟨ranges, hstops, heq⟩ := h.exists_ranges offset
  exact ⟨ranges, heq text (.inl rfl), hstops⟩

end Behind

/-! ## What stands in front of a place -/

section Before

variable {other : Text}

/-- Whatever follows, a slash opens a regular expression behind one text if it does behind
another. -/
def SlashAlike (before other : Text) : Prop :=
  ∀ front, slashOpensRegex (front ++ before) = slashOpensRegex (front ++ other)

theorem SlashAlike.symm (h : SlashAlike before other) : SlashAlike other before :=
  fun front => (h front).symm

theorem SlashAlike.append (h : SlashAlike before other) (front : Text) :
    SlashAlike (front ++ before) (front ++ other) := by
  intro more
  rw [← List.append_assoc, ← List.append_assoc]
  exact h (more ++ front)

theorem takeWhile_append_cons {p : Char → Bool} (hc : p c = false) (front text : Text) :
    (front ++ c :: text).takeWhile p = front.takeWhile p := by
  induction front with
  | nil => rw [List.nil_append, List.takeWhile_cons_of_neg (by simp [hc]), List.takeWhile_nil]
  | cons d front ih =>
    rw [List.cons_append, List.takeWhile_cons, List.takeWhile_cons, ih]

theorem slashOpensRegex_append {run : Text}
    (h : ∃ c ∈ run.dropWhile isPlainSpace, isWordChar c = false) (before : Text) :
    slashOpensRegex (run ++ before) = slashOpensRegex run := by
  obtain ⟨c, hc, hword⟩ := h
  obtain ⟨front, back, hrun⟩ := List.append_of_mem hc
  have hdrop : (run ++ before).dropWhile isPlainSpace = front ++ c :: (back ++ before) := by
    rw [List.dropWhile_append, if_neg, hrun]
    · simp
    · rw [hrun]
      simp
  unfold slashOpensRegex
  rw [hdrop, hrun]
  cases front with
  | nil =>
    dsimp only [List.nil_append]
    rw [List.takeWhile_cons_of_neg (by simp [hword]), List.takeWhile_cons_of_neg (by simp [hword])]
  | cons d front =>
    have htake (more : Text) : (d :: (front ++ c :: more)).takeWhile isWordChar =
        (d :: front).takeWhile isWordChar := takeWhile_append_cons hword (d :: front) more
    simp only [List.cons_append, htake]

/-- What stands in front of a mark does not count for a slash behind it, and neither does what stands in
front of a mark and plain spaces, or of a word that follows one. -/
theorem slashAlike_append (run : Text) {c : Char} (hc : isPlainSpace c = false)
    (hword : ∃ d ∈ c :: run, isWordChar d = false) (before other : Text) :
    SlashAlike ((c :: run) ++ before) ((c :: run) ++ other) := by
  intro front
  have hmem : ∃ d ∈ (front ++ c :: run).dropWhile isPlainSpace, isWordChar d = false := by
    obtain ⟨d, hd, hword⟩ := hword
    refine ⟨d, ?_, hword⟩
    rw [List.dropWhile_append]
    split
    · rwa [List.dropWhile_cons_of_neg (by simp [hc])]
    · exact List.mem_append_right _ hd
  rw [← List.append_assoc, ← List.append_assoc, slashOpensRegex_append hmem,
    slashOpensRegex_append hmem]

theorem slashAlike_cons {c : Char} (hc : isPlainSpace c = false) (hword : isWordChar c = false)
    (before other : Text) : SlashAlike (c :: before) (c :: other) :=
  slashAlike_append [] hc ⟨c, List.mem_cons_self, hword⟩ before other

/-- What stands in front of a parenthesis does not count for a slash behind it. -/
theorem slashAlike_paren (before other : Text) : SlashAlike (')' :: before) (')' :: other) :=
  slashAlike_cons (by decide) (by decide +kernel) before other

theorem tokenTail?_of_slashAlike (h : SlashAlike before other) (c : Char) (rest : Text) :
    tokenTail? before c rest = tokenTail? other c rest := by
  have hslash : slashOpensRegex before = slashOpensRegex other := h []
  unfold tokenTail?
  rw [hslash]

/-- A walk comes to its place behind every text that is alike for slashes. -/
theorem Scans.congr_before (h : Scans before front text) (hother : SlashAlike before other) :
    Scans other front text := by
  induction h generalizing other with
  | done => exact .done
  | @code before front text c htoken _ ih =>
    exact .code ((tokenTail?_of_slashAlike hother _ _).symm.trans htoken) (ih (hother.append [c]))
  | @token before tail front text c htoken _ ih =>
    exact .token ((tokenTail?_of_slashAlike hother _ _).symm.trans htoken)
      (ih ((hother.append [c]).append tail.reverse))

theorem rangesFrom_of_slashAlike (h : SlashAlike before other) (offset : Nat) (text : Text) :
    rangesFrom before offset text = rangesFrom other offset text := by
  fun_induction rangesFrom before offset text generalizing other with
  | case1 => rw [rangesFrom]
  | case2 before offset c rest hnone ih =>
    rw [tokenTail?_of_slashAlike h] at hnone
    rw [rangesFrom, hnone, ih (h.append [c])]
    rfl
  | case3 before offset c rest length hsome ih =>
    rw [tokenTail?_of_slashAlike h] at hsome
    rw [rangesFrom, hsome, ih ((h.append [c]).append _)]
    rfl

end Before

/-- A span some characters further on. -/
def shifted (shift : Nat) (span : Span) : Span := ⟨span.start + shift, span.stop + shift⟩

/-- Only the offsets depend on how many characters stand in front of the text. -/
theorem rangesFrom_shift (before : Text) (offset shift : Nat) (text : Text) :
    rangesFrom before (offset + shift) text =
      (rangesFrom before offset text).map (shifted shift) := by
  fun_induction rangesFrom before offset text with
  | case1 => rw [rangesFrom]; rfl
  | case2 before offset c rest hnone ih =>
    rw [rangesFrom, hnone, ← ih, Nat.add_right_comm]
  | case3 before offset c rest length hsome ih =>
    rw [rangesFrom, hsome, List.map_cons, ← ih, shifted]
    dsimp only
    rw [show offset + shift + 1 + length = offset + 1 + length + shift by omega]

end PersistedQueries.CallSite
