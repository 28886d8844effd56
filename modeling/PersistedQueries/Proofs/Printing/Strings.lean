import PersistedQueries.Proofs.Printing.Layout
import PersistedQueries.Proofs.Syntax.Spelling

/-!
# What becomes of strings

The text of a document is collapsed with its strings in it, so a string is read back with its runs
of white space collapsed too. What is escaped in print is no white space by then, and survives.

- `squeeze`: a string with each run of bare white space as one blank. `squeeze_eq_self`: a plain
  string stays as it is.
- `flatten`: what a string is read back as, block strings with their layout.
- `prints_content`: a string is printed as the token of the flattened one.
-/

namespace PersistedQueries.GraphQL

open PersistedQueries.Text

variable {printed more rest : Text} {tokens : List Token} {inRun : Bool} {c : Char}

/-! ## Bare white space -/

/-- White space that is printed as it is. -/
def isBare (c : Char) : Bool := isBlank c && decide (printChar c = [c])

/-- Every run of bare white space becomes one blank; `inRun` says that the character before was
bare. -/
def squeezeFrom (inRun : Bool) : Text → Text
  | [] => []
  | c :: rest =>
    if isBare c then
      if inRun then squeezeFrom true rest else ' ' :: squeezeFrom true rest
    else c :: squeezeFrom false rest

/-- Every run of bare white space becomes one blank. -/
def squeeze (text : Text) : Text := squeezeFrom false text

/-- The only bare white space is blanks, and no two of them stand together. -/
def IsPlain (text : Text) : Prop :=
  (∀ c ∈ text, isBare c → c = ' ') ∧ ¬[' ', ' '] <:+: text

theorem squeezeFrom_of_isPlain {text : Text} (h : IsPlain text)
    (hrun : inRun → text.head? ≠ some ' ') : squeezeFrom inRun text = text := by
  induction text generalizing inRun with
  | nil => rfl
  | cons c text ih =>
    obtain ⟨hblank, hpair⟩ := h
    obtain ⟨hc, hblank⟩ := List.forall_mem_cons.1 hblank
    have hplain : IsPlain text :=
      ⟨hblank, fun hpair' => hpair (List.IsInfix.trans hpair' (List.suffix_cons c text).isInfix)⟩
    rw [squeezeFrom]
    by_cases hbare : isBare c
    · obtain rfl := hc hbare
      rw [if_pos hbare]
      have hnext : text.head? ≠ some ' ' := by
        intro hhead
        obtain ⟨text, rfl⟩ := List.head?_eq_some_iff.1 hhead
        exact hpair ⟨[], text, rfl⟩
      cases inRun with
      | true => exact absurd rfl (hrun rfl)
      | false => rw [if_neg (by decide), ih hplain fun _ => hnext]
    · rw [if_neg hbare, ih hplain (by simp)]

/-- A plain string stays as it is. -/
theorem squeeze_eq_self {text : Text} (h : IsPlain text) : squeeze text = text :=
  squeezeFrom_of_isPlain h (by simp)

/-! ## Characters -/

/-- A character is printed as it is, or by an escape that stands for it. -/
def IsWritten (c : Char) : Prop :=
  printChar c = [c] ∧ c ≠ '\x22' ∧ c ≠ '\\' ∧ isLineEnd c = false ∨
    printChar c = '\\' :: (printChar c).tail ∧ (printChar c).all (!isBlank ·) ∧
      (scanEscape 0 (printChar c)).toOption = some (c, (printChar c).length)

theorem isWritten_of_lt : ∀ n < 160, IsWritten (Char.ofNat n) := by
  unfold IsWritten
  decide +kernel

theorem isWritten (c : Char) : IsWritten c := by
  by_cases hsmall : c.toNat < 160
  · have h := isWritten_of_lt c.toNat hsmall
    rwa [Char.ofNat_toNat] at h
  · have hne : ∀ d : Char, d.toNat < 160 → c ≠ d := by
      rintro d hd rfl
      exact hsmall hd
    have hprint : printChar c = [c] := by
      unfold printChar
      iterate 7 rw [if_neg (hne _ (by decide))]
      rw [if_neg (by omega)]
    exact .inl ⟨hprint, hne _ (by decide), hne _ (by decide), by
      simp [isLineEnd, hne '\n' (by decide), hne '\r' (by decide)]⟩

/-! ## Quoted strings -/

/-- A character as it is written in a string is scanned as that character. -/
theorem scanString_escaped {offset : Nat}
    (hslash : printChar c = '\\' :: (printChar c).tail)
    (hscan : (scanEscape 0 (printChar c)).toOption = some (c, (printChar c).length)) (more : Text) :
    scanString offset (printChar c ++ more) =
      match scanString (offset + (printChar c).length) more with
      | .error fault => .error fault
      | .ok (value, length) => .ok (c :: value, length + (printChar c).length) := by
  have hzero : scanEscape 0 (printChar c) = .ok (c, (printChar c).length) := by
    cases hfound : scanEscape 0 (printChar c) with
    | error fault =>
      rw [hfound] at hscan
      cases hscan
    | ok found =>
      rw [hfound] at hscan
      exact congrArg Except.ok (Option.some.inj hscan)
  have hagain := (scanEscape_append hzero).2.2 offset more
  have hlength : (printChar c).length = (printChar c).tail.length + 1 := by
    rw [hslash]
    rfl
  have htext : printChar c ++ more = '\\' :: ((printChar c).tail ++ more) := by
    conv_lhs => rw [hslash]
    rfl
  rw [htext] at hagain ⊢
  rewrite [scanString_escape hagain, hlength, Nat.add_sub_cancel, List.drop_left]
  rfl

/-- A printed string, collapsed, is scanned as the squeezed one, whatever follows. -/
theorem scanString_collapse (content : Text) (inRun : Bool) :
    ∃ front, (∀ offset more,
        scanString offset (front ++ more) = .ok (squeezeFrom inRun content, front.length)) ∧
      ∀ rest, collapseFrom inRun (content.flatMap printChar ++ '\x22' :: rest) =
        front ++ collapseFrom false rest := by
  induction content generalizing inRun with
  | nil =>
    refine ⟨['\x22'], fun offset more => scanString_quote offset more, fun rest => ?_⟩
    exact collapseFrom_solid (by decide) inRun rest
  | cons c content ih =>
    rcases isWritten c with ⟨hprint, hquote, hslash, hend⟩ | ⟨hslash, hsolid, hscan⟩
    · by_cases hblank : isBlank c
      · have hbare : isBare c := by simp [isBare, hblank, hprint]
        obtain ⟨front, hscan, hcollapse⟩ := ih true
        cases inRun with
        | true =>
          refine ⟨front, fun offset more => ?_, fun rest => ?_⟩
          · rw [squeezeFrom, if_pos hbare, if_pos rfl, hscan]
          · rw [List.flatMap_cons, hprint, List.append_assoc, List.singleton_append,
              collapseFrom_blank hblank, if_pos rfl, hcollapse]
        | false =>
          refine ⟨' ' :: front, fun offset more => ?_, fun rest => ?_⟩
          · rw [squeezeFrom, if_pos hbare, if_neg (by decide), List.cons_append,
              scanString_plain _ (by decide) (by decide) (by decide), hscan]
            rfl
          · rw [List.flatMap_cons, hprint, List.append_assoc, List.singleton_append,
              collapseFrom_blank hblank, if_neg (by decide), hcollapse]
            rfl
      · have hbare : ¬isBare c := by simp [isBare, hblank]
        obtain ⟨front, hscan, hcollapse⟩ := ih false
        refine ⟨c :: front, fun offset more => ?_, fun rest => ?_⟩
        · rw [squeezeFrom, if_neg hbare, List.cons_append, scanString_plain _ hquote hslash hend,
            hscan]
          rfl
        · rw [List.flatMap_cons, hprint, List.append_assoc, List.singleton_append,
            collapseFrom_solid (by simpa using hblank), hcollapse]
          rfl
    · have hbare : ¬isBare c := by
        have hne : printChar c ≠ [c] := by
          intro heq
          rw [heq] at hslash hscan
          obtain rfl : c = '\\' := by simpa using hslash
          exact absurd hscan (by decide)
        simp [isBare, hne]
      obtain ⟨front, hscan', hcollapse⟩ := ih false
      refine ⟨printChar c ++ front, fun offset more => ?_, fun rest => ?_⟩
      · rw [squeezeFrom, if_neg hbare, List.append_assoc, scanString_escaped hslash hscan, hscan',
          List.length_append, Nat.add_comm]
      · rw [List.flatMap_cons, List.append_assoc, collapseFrom_append_solid (by
          rw [hslash]
          exact List.cons_ne_nil _ _) (by simpa using hsolid), hcollapse, List.append_assoc]

theorem lexemes_quoted {front value : Text}
    (hscan : ∀ offset more, scanString offset (front ++ more) = .ok (value, front.length))
    (hmore : Boundary more) : lexemes ('\x22' :: (front ++ more)) =
      (lexemes more).map (.string (String.ofList value) :: ·) := by
  have hself := hscan 1 []
  rw [List.append_nil] at hself
  have htwo : front.take 2 ≠ ['\x22', '\x22'] := by
    intro htwo
    rcases front with _ | ⟨d, _ | ⟨e, front⟩⟩
    · cases htwo
    · cases htwo
    · obtain ⟨rfl, -⟩ : d = '\x22' ∧ e = '\x22' := by simpa using htwo
      rw [scanString_quote] at hself
      simp at hself
  have htoken : scanToken 0 '\x22' (front ++ more) =
      .ok (.string (String.ofList value), front.length) := by
    rw [scanToken_string 0 (take_two_append hself htwo hmore), hscan]
    rfl
  rw [lexemes_token htoken (by decide) (by decide), List.drop_left]

theorem prints_quoted (content : Text) :
    Prints (printString content) [.string (String.ofList (squeeze content))] := by
  have hprint : printString content = '\x22' :: (content.flatMap printChar ++ ['\x22']) := rfl
  refine prints_of_solid (fun inRun rest hrest => ?_) (List.cons_ne_nil _ _) (by simp) ?_ ?_
  · obtain ⟨front, hscan, hcollapse⟩ := scanString_collapse content false
    rw [hprint, List.cons_append, collapseFrom_solid (by decide), List.append_assoc,
      List.singleton_append, hcollapse, lexemes_quoted hscan (boundary_collapse hrest)]
    rfl
  · rw [hprint]
    rintro c hc
    cases hc
    decide
  · rw [hprint, ← List.cons_append]
    intro c hc
    rw [List.getLast?_concat] at hc
    cases hc
    decide

/-! ## Block strings -/

/-- The line end between the opening quotes and a value. -/
def blockLead (value : Text) : Text :=
  let escaped := escapeTripleQuotes value
  let lines := Text.documentLines escaped
  let isSingleLine := lines.length = 1
  let startsIndented (line : Text) : Bool := (line.take 1).all isIndent
  let forceLeading := lines.length > 1 && (lines.drop 1).all startsIndented
  let endsWithTripleQuote := ('\\' :: tripleQuote).isSuffixOf escaped
  let endsWithQuote := value.getLast? = some '\x22' && !endsWithTripleQuote
  let endsWithBackslash := value.getLast? = some '\\'
  let forceTrailing := endsWithQuote || endsWithBackslash
  let spread := !isSingleLine || value.length > 70 || forceTrailing || forceLeading ||
    endsWithTripleQuote
  let skipLeading := isSingleLine && startsIndented value
  if (spread && !skipLeading) || forceLeading then ['\n'] else []

/-- The line end between a value and the closing quotes. -/
def blockTrail (value : Text) : Text :=
  let escaped := escapeTripleQuotes value
  let lines := Text.documentLines escaped
  let isSingleLine := lines.length = 1
  let startsIndented (line : Text) : Bool := (line.take 1).all isIndent
  let forceLeading := lines.length > 1 && (lines.drop 1).all startsIndented
  let endsWithTripleQuote := ('\\' :: tripleQuote).isSuffixOf escaped
  let endsWithQuote := value.getLast? = some '\x22' && !endsWithTripleQuote
  let endsWithBackslash := value.getLast? = some '\\'
  let forceTrailing := endsWithQuote || endsWithBackslash
  let spread := !isSingleLine || value.length > 70 || forceTrailing || forceLeading ||
    endsWithTripleQuote
  if spread || forceTrailing then ['\n'] else []

theorem printBlock_eq (value : Text) : printBlock value =
    tripleQuote ++ blockLead value ++ escapeTripleQuotes value ++ blockTrail value ++ tripleQuote :=
  rfl

theorem blockLead_cases (value : Text) : blockLead value = [] ∨ blockLead value = ['\n'] := by
  unfold blockLead
  dsimp only
  split
  · exact .inr rfl
  · exact .inl rfl

/-- What stands in front of closing quotes: a line end, and one for certain behind a quote or a
backslash. -/
def Guards (trail value : Text) : Prop :=
  (trail = [] ∨ trail = ['\n']) ∧
    (value.getLast? = some '\x22' ∨ value.getLast? = some '\\' → trail = ['\n'])

theorem guards_blockTrail (value : Text) : Guards (blockTrail value) value := by
  unfold Guards blockTrail
  dsimp only
  refine ⟨?_, fun h => ?_⟩
  · split
    · exact .inr rfl
    · exact .inl rfl
  · rw [if_pos]
    rcases h with h | h
    · cases hends : ('\\' :: tripleQuote).isSuffixOf (escapeTripleQuotes value) <;> simp [h]
    · simp [h]

theorem Guards.tail {trail value : Text} (h : Guards trail (c :: value)) : Guards trail value := by
  refine ⟨h.1, fun hlast => h.2 ?_⟩
  cases value with
  | nil => simp at hlast
  | cons => simpa using hlast

/-- A single character is guarded by the end of the line when it is a quote or a backslash. -/
theorem Guards.last {trail : Text} (h : Guards trail [c]) (hc : c = '\x22' ∨ c = '\\') :
    trail = ['\n'] :=
  h.2 (by simpa using hc)

theorem escapeTripleQuotes_triple (rest : Text) :
    escapeTripleQuotes ('\x22' :: '\x22' :: '\x22' :: rest) =
      '\\' :: '\x22' :: '\x22' :: '\x22' :: escapeTripleQuotes rest := rfl

theorem escapeTripleQuotes_cons (h : ¬tripleQuote <+: c :: rest) :
    escapeTripleQuotes (c :: rest) = c :: escapeTripleQuotes rest := by
  rw [escapeTripleQuotes]
  rintro tail rfl rfl
  exact h (by simp [tripleQuote])

/-- A quote that is printed at the front of a value is one of the value, and begins no triple one. -/
theorem quote_of_escaped {value behind tail : Text} (hne : value ≠ [])
    (h : '\x22' :: tail = escapeTripleQuotes value ++ behind) :
    ∃ value', value = '\x22' :: value' ∧ tail = escapeTripleQuotes value' ++ behind ∧
      ¬tripleQuote <+: value := by
  obtain ⟨c, value, rfl⟩ := List.exists_cons_of_ne_nil hne
  by_cases htriple : tripleQuote <+: c :: value
  · obtain ⟨rest, hrest⟩ := htriple
    rw [← hrest] at h
    simp [tripleQuote, escapeTripleQuotes_triple] at h
  · rw [escapeTripleQuotes_cons htriple, List.cons_append, List.cons.injEq] at h
    obtain ⟨rfl, rfl⟩ := h
    exact ⟨value, rfl, rfl, htriple⟩

/-- Behind a quote that begins no triple one come no two more. -/
theorem not_two_quotes {trail value : Text} (hguards : Guards trail ('\x22' :: value))
    (htriple : ¬tripleQuote <+: '\x22' :: value) :
    ¬['\x22', '\x22'] <+: escapeTripleQuotes value ++ (trail ++ tripleQuote) := by
  rintro ⟨tail, htail⟩
  have hfirst : '\x22' :: '\x22' :: tail = escapeTripleQuotes value ++ (trail ++ tripleQuote) :=
    htail
  by_cases hvalue : value = []
  · subst hvalue
    rw [hguards.last (.inl rfl)] at hfirst
    simp [escapeTripleQuotes] at hfirst
  · obtain ⟨value', rfl, hsecond, -⟩ := quote_of_escaped hvalue hfirst
    by_cases hvalue' : value' = []
    · subst hvalue'
      rw [hguards.tail.last (.inl rfl)] at hsecond
      simp [escapeTripleQuotes] at hsecond
    · obtain ⟨value'', rfl, -, -⟩ := quote_of_escaped hvalue' hsecond
      exact htriple ⟨value'', rfl⟩

/-- Behind a backslash come no three quotes. -/
theorem not_three_quotes {trail value : Text} (hguards : Guards trail ('\\' :: value)) :
    ¬tripleQuote <+: escapeTripleQuotes value ++ (trail ++ tripleQuote) := by
  rintro ⟨tail, htail⟩
  have hfirst : '\x22' :: '\x22' :: '\x22' :: tail =
      escapeTripleQuotes value ++ (trail ++ tripleQuote) := htail
  by_cases hvalue : value = []
  · subst hvalue
    rw [hguards.last (.inr rfl)] at hfirst
    simp [escapeTripleQuotes] at hfirst
  · obtain ⟨value', rfl, hsecond, htriple⟩ := quote_of_escaped hvalue hfirst
    exact not_two_quotes hguards.tail htriple ⟨tail, hsecond⟩

/-- Quotes at the front of a collapsed text are there before. -/
theorem quotes_of_collapse {quotes text : Text} (hquotes : ∀ c ∈ quotes, c = '\x22')
    (h : quotes <+: collapseFrom false text) : quotes <+: text := by
  induction quotes generalizing text with
  | nil => exact List.nil_prefix
  | cons d quotes ih =>
    obtain ⟨rfl, hmore⟩ := List.forall_mem_cons.1 hquotes
    cases text with
    | nil => simp [collapseFrom] at h
    | cons c text =>
      by_cases hblank : isBlank c
      · rw [collapseFrom_blank hblank, if_neg (by decide)] at h
        simp at h
      · rw [collapseFrom_solid (by simpa using hblank)] at h
        obtain ⟨rfl, hrest⟩ := List.cons_prefix_cons.1 h
        exact List.cons_prefix_cons.2 ⟨rfl, ih hmore hrest⟩

/-- Quotes in front of a scanned block are there before it is collapsed. -/
theorem quotes_of_front {quotes text front : Text} {lines : List Text}
    (hquotes : ∀ c ∈ quotes, c = '\x22') (hlength : quotes.length ≤ 3)
    (hscan : scanBlock 0 front = .ok (lines, front.length))
    (hcollapse : collapseFrom false text = front) (h : quotes <+: front ++ more) :
    quotes <+: text := by
  have hlong : 3 ≤ front.length := (scanBlock_append hscan).1
  have hfront : quotes <+: front :=
    List.prefix_of_prefix_length_le h (List.prefix_append front more) (by omega)
  rw [← hcollapse] at hfront
  exact quotes_of_collapse hquotes hfront

/-- A character that is no blank, in front of a scanned block, is the first one of its line: with
what the block begins with it makes up no mark, since the value would begin with that mark. -/
theorem scanBlock_solid {c : Char} {trail value front : Text} (hguards : Guards trail (c :: value))
    (htriple : ¬tripleQuote <+: c :: value) (hblank : isBlank c = false)
    (hscan : ∀ offset more, scanBlock offset (front ++ more) =
      .ok ([collapseFrom false (value ++ trail)], front.length))
    (hcollapse : ∀ rest, collapseFrom false
      (escapeTripleQuotes value ++ (trail ++ tripleQuote) ++ rest) =
        front ++ collapseFrom false rest) (offset : Nat) (more : Text) :
    scanBlock offset (c :: (front ++ more)) =
      .ok ([c :: collapseFrom false (value ++ trail)], front.length + 1) := by
  have hself : scanBlock 0 front = .ok ([collapseFrom false (value ++ trail)], front.length) := by
    simpa using hscan 0 []
  have hown : collapseFrom false (escapeTripleQuotes value ++ (trail ++ tripleQuote)) = front := by
    simpa [collapseFrom] using hcollapse []
  have hclose : ¬['\x22', '\x22', '\x22'] <+: c :: (front ++ more) := by
    intro hquotes
    obtain ⟨rfl, htwo⟩ := List.cons_prefix_cons.1 hquotes
    exact not_two_quotes hguards htriple (quotes_of_front (by simp) (by decide) hself hown htwo)
  have hescape : ¬['\\', '\x22', '\x22', '\x22'] <+: c :: (front ++ more) := by
    intro hquotes
    obtain ⟨rfl, hthree⟩ := List.cons_prefix_cons.1 hquotes
    exact not_three_quotes hguards
      (quotes_of_front (by simp [tripleQuote]) (by decide) hself hown hthree)
  have hpair : ¬['\r', '\n'] <+: c :: (front ++ more) := by
    intro hpair
    obtain ⟨rfl, -⟩ := List.cons_prefix_cons.1 hpair
    exact absurd hblank (by decide)
  have hend : isLineEnd c = false := by
    simp only [isLineEnd, Bool.or_eq_false_iff, decide_eq_false_iff_not]
    constructor <;> (rintro rfl; exact absurd hblank (by decide))
  rw [scanBlock_plain offset hclose hescape hpair, hscan, hend]
  rfl

/-- A printed block, collapsed, is scanned as the one line that its value collapses to, whatever
follows. -/
theorem scanBlock_collapse {trail value : Text} (hguards : Guards trail value) (inRun : Bool) :
    ∃ front, (∀ offset more, scanBlock offset (front ++ more) =
        .ok ([collapseFrom inRun (value ++ trail)], front.length)) ∧
      ∀ rest, collapseFrom inRun (escapeTripleQuotes value ++ (trail ++ tripleQuote) ++ rest) =
        front ++ collapseFrom false rest := by
  have hclose : ∀ inRun rest, collapseFrom inRun (tripleQuote ++ rest) =
      tripleQuote ++ collapseFrom false rest :=
    collapseFrom_append_solid (by decide) (solid_of_all (by decide))
  induction value using escapeTripleQuotes.induct generalizing inRun with
  | case3 =>
    rcases hguards.1 with rfl | rfl
    · exact ⟨tripleQuote, fun offset more => rfl, hclose inRun⟩
    · cases inRun with
      | true => exact ⟨tripleQuote, fun offset more => rfl, hclose true⟩
      | false =>
        refine ⟨' ' :: tripleQuote, fun offset more => rfl, fun rest => ?_⟩
        exact congrArg (' ' :: ·) (hclose true rest)
  | case1 value ih =>
    obtain ⟨front, hscan, hcollapse⟩ := ih hguards.tail.tail.tail false
    refine ⟨'\\' :: tripleQuote ++ front, fun offset more => ?_, fun rest => ?_⟩
    · have hlines : collapseFrom inRun ('\x22' :: '\x22' :: '\x22' :: value ++ trail) =
          tripleQuote ++ collapseFrom false (value ++ trail) := hclose inRun (value ++ trail)
      rw [hlines]
      have hfront : '\\' :: tripleQuote ++ front ++ more =
          '\\' :: '\x22' :: '\x22' :: '\x22' :: (front ++ more) := rfl
      rw [hfront, scanBlock_escape, hscan]
      rfl
    · have hfour : ∀ c ∈ '\\' :: tripleQuote, isBlank c = false := solid_of_all (by decide)
      have hall := collapseFrom_append_solid (List.cons_ne_nil _ _) hfour inRun
        (escapeTripleQuotes value ++ (trail ++ tripleQuote) ++ rest)
      rw [hcollapse] at hall
      rw [escapeTripleQuotes_triple, List.append_assoc ('\\' :: tripleQuote)]
      exact hall
  | case2 c value htriple ih =>
    have htriple : ¬tripleQuote <+: c :: value := by
      rintro ⟨tail, htail⟩
      obtain ⟨rfl, rfl⟩ := List.cons.inj htail
      exact htriple _ rfl rfl
    rw [escapeTripleQuotes_cons htriple]
    by_cases hblank : isBlank c
    · obtain ⟨front, hscan, hcollapse⟩ := ih hguards.tail true
      simp only [List.cons_append, collapseFrom_blank hblank] at hcollapse ⊢
      cases inRun with
      | true => exact ⟨front, hscan, hcollapse⟩
      | false =>
        refine ⟨' ' :: front, fun offset more => ?_, fun rest => ?_⟩
        · rw [List.cons_append, scanBlock_plain offset (by simp) (by simp) (by simp), hscan]
          rfl
        · exact congrArg (' ' :: ·) (hcollapse rest)
    · have hblank : isBlank c = false := by simpa using hblank
      obtain ⟨front, hscan, hcollapse⟩ := ih hguards.tail false
      refine ⟨c :: front, fun offset more => ?_, fun rest => ?_⟩
      · rw [List.cons_append, List.cons_append, collapseFrom_solid hblank]
        exact scanBlock_solid hguards htriple hblank hscan hcollapse offset more
      · rw [List.cons_append, List.cons_append, collapseFrom_solid hblank, hcollapse]
        rfl

/-- A line end in front of a block is one more blank of its line. -/
theorem scanBlock_lead {lead trail value : Text} (hlead : lead = [] ∨ lead = ['\n'])
    (hguards : Guards trail value) :
    ∃ front, (∀ offset more, scanBlock offset (front ++ more) =
        .ok ([collapse (lead ++ value ++ trail)], front.length)) ∧
      ∀ rest, collapse (lead ++ escapeTripleQuotes value ++ (trail ++ tripleQuote) ++ rest) =
        front ++ collapseFrom false rest := by
  rcases hlead with rfl | rfl
  · exact scanBlock_collapse hguards false
  · obtain ⟨front, hscan, hcollapse⟩ := scanBlock_collapse hguards true
    refine ⟨' ' :: front, fun offset more => ?_, fun rest => ?_⟩
    · rw [List.cons_append, scanBlock_plain offset (by simp) (by simp) (by simp), hscan]
      rfl
    · exact congrArg (' ' :: ·) (hcollapse rest)

/-- What a printed block string is read back as, when the text that it stands in is collapsed. -/
def flattenBlock (value : Text) : Text :=
  blockValue [collapse (blockLead value ++ value ++ blockTrail value)]

theorem prints_blockString (value : Text) :
    Prints (printBlock value) [.block (String.ofList (flattenBlock value))] := by
  have hprint : printBlock value = '\x22' :: '\x22' :: '\x22' :: (blockLead value ++
      escapeTripleQuotes value ++ (blockTrail value ++ tripleQuote)) := by
    simp [printBlock_eq, tripleQuote]
  refine prints_of_solid (fun inRun rest hrest => ?_) (by simp [hprint]) (by simp) ?_ ?_
  · obtain ⟨front, hscan, hcollapse⟩ := scanBlock_lead (blockLead_cases value)
      (guards_blockTrail value)
    have htoken : scanToken 0 '\x22' ('\x22' :: '\x22' :: (front ++ collapseFrom false rest)) =
        .ok (.block (String.ofList (flattenBlock value)), 2 + front.length) := by
      rw [scanToken_block, hscan]
      rfl
    have hdrop : ('\x22' :: '\x22' :: (front ++ collapseFrom false rest)).drop (2 + front.length) =
        collapse rest := by
      rw [Nat.add_comm]
      exact List.drop_left
    have hquote : isBlank '\x22' = false := by decide
    simp only [hprint, List.cons_append, collapseFrom_solid hquote]
    have hopen := hcollapse rest
    rw [collapse] at hopen
    rw [hopen, lexemes_token htoken (by decide) (by decide), hdrop]
    rfl
  · rw [hprint]
    rintro c hc
    cases hc
    decide
  · rw [printBlock_eq]
    intro c hc
    rw [List.getLast?_append_of_ne_nil _ (by decide)] at hc
    cases hc
    decide

/-! ## Either kind of string -/

/-- What a string is read back as, when the text that it is printed in is collapsed. -/
def flatten : (isBlock : Bool) → (content : String) → String
  | true, content => String.ofList (flattenBlock content.toList)
  | false, content => String.ofList (squeeze content.toList)

theorem prints_content (content : String) (isBlock : Bool) :
    Prints (printContent content isBlock) [stringToken (flatten isBlock content) isBlock] := by
  cases isBlock with
  | true =>
    rw [printContent, if_pos rfl, stringToken, if_pos rfl, flatten]
    exact prints_blockString content.toList
  | false =>
    rw [printContent, if_neg (by decide), stringToken, if_neg (by decide), flatten]
    exact prints_quoted content.toList

/-- A plain string that is no block is read back as it is. -/
theorem flatten_eq_self {content : String} (h : IsPlain content.toList) :
    flatten false content = content := by
  rw [flatten, squeeze_eq_self h, String.ofList_toList]

/-- A token with its string as it is read back. -/
def flatToken : Token → Token
  | .string content => .string (flatten false content)
  | .block content => .block (flatten true content)
  | token => token

theorem flatToken_stringToken (content : String) (isBlock : Bool) :
    flatToken (stringToken content isBlock) = stringToken (flatten isBlock content) isBlock := by
  cases isBlock <;> rfl

theorem map_enclosed (opening closing : Punctuator) (tokens : List Token) :
    (enclosed opening closing tokens).map flatToken =
      enclosed opening closing (tokens.map flatToken) := by
  cases tokens <;> simp [enclosed, flatToken]

end PersistedQueries.GraphQL
