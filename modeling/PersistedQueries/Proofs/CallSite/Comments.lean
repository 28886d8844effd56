import PersistedQueries.Proofs.CallSite.Gaps
import PersistedQueries.Proofs.CallSite.Recovery

/-!
# What the words of a comment change

The words of a comment should not matter. They do in two ways. Whether a slash opens a regular expression
is decided by the character or the word in front of it, white space apart, and that may be a word of a line
comment. And the search for calls knows nothing of comments: a call can be read that begins within a
comment, or one that has a comment in its list of dependencies, which ends at the first bracket.

- `CommentSpot`: a comment in a text, the words of which are exchanged.
- `rangesFrom_eq_iff`: what is found behind a line comment, by what a slash behind it does.
- `CommentSpot.ignoredRanges_eq_iff`: when the words do not matter for the comments and literals of a text.
- `CommentSpot.map_extract_eq`: when they do not matter for its call sites.
- `exchange_words`, `not_exchange_words`: when the words matter, and that they do.
-/

namespace PersistedQueries.CallSite

/-! ## Comments -/

/-- The two kinds of comments. -/
inductive CommentKind where
  | line
  | block
  deriving DecidableEq

/-- The character behind the slash with which a comment begins. -/
def CommentKind.mark : CommentKind → Char
  | .line => '/'
  | .block => '*'

/-- The words do not end a comment. -/
def CommentKind.Admits : CommentKind → Text → Prop
  | .line, words => '\n' ∉ words
  | .block, words => ¬ "*/".toList <:+: words

instance (kind : CommentKind) (words : Text) : Decidable (kind.Admits words) :=
  match kind with
  | .line => inferInstanceAs (Decidable ('\n' ∉ words))
  | .block => inferInstanceAs (Decidable (¬ "*/".toList <:+: words))

/-- What stands behind the words of a comment: its closing mark, if it has one, and the rest of the text. A
line comment ends in front of the line end; both kinds may end with the text. -/
inductive Closes : CommentKind → Text → Text → Prop where
  | newline (rest : Text) : Closes .line [] ('\n' :: rest)
  | mark (rest : Text) : Closes .block "*/".toList rest
  | ended (kind : CommentKind) : Closes kind [] []

/-- A text around the words of a comment. -/
structure CommentSpot where
  kind : CommentKind
  front : Text
  closing : Text
  rest : Text
  closes : Closes kind closing rest

namespace CommentSpot

variable (spot : CommentSpot)

/-- The text from the comment on, when it has some words. -/
def comment (words : Text) : Text := '/' :: spot.kind.mark :: (words ++ (spot.closing ++ spot.rest))

/-- The text, when the comment has some words. -/
def text (words : Text) : Text := spot.front ++ spot.comment words

/-- The part of the text that the comment takes. -/
def span (words : Text) : Span :=
  ⟨spot.front.length, spot.front.length + 2 + words.length + spot.closing.length⟩

/-- What stands in front of the rest of the text, the nearest character first. -/
def before (words : Text) : Text :=
  (words ++ spot.closing).reverse ++ spot.kind.mark :: '/' :: spot.front.reverse

end CommentSpot

/-- A text begins, white space apart, with a slash that begins no comment. -/
def LoneSlash (text : Text) : Prop :=
  ∃ tail, text.dropWhile isPlainSpace = '/' :: tail ∧ tail.head? ≠ some '/' ∧ tail.head? ≠ some '*'

/-! ## The walk over a comment -/

theorem lineLength_append {words : Text} (h : '\n' ∉ words) (rest : Text) :
    lineLength (words ++ rest) = words.length + lineLength rest := by
  induction words with
  | nil => exact (Nat.zero_add _).symm
  | cons c words ih =>
    obtain ⟨hc, hwords⟩ := not_or.1 (mt List.mem_cons.2 h)
    rw [List.cons_append, lineLength, if_neg (Ne.symm hc), ih hwords, List.length_cons,
      Nat.add_right_comm]

/-- Words without the closing mark of a block comment go on up to their end, where the comment may be
closed. -/
theorem blockLength_append {words : Text} (h : ¬ "*/".toList <:+: words) {rest : Text}
    (hrest : rest.head? ≠ some '/') :
    blockLength (words ++ rest) = words.length + blockLength rest := by
  induction words with
  | nil => exact (Nat.zero_add _).symm
  | cons c words ih =>
    have hwords : ¬ "*/".toList <:+: words := fun hin => h (List.infix_cons hin)
    rw [List.cons_append, blockLength_cons, if_neg, ih hwords, List.length_cons, Nat.add_right_comm]
    rintro ⟨rfl, hhead⟩
    cases words with
    | nil => exact hrest hhead
    | cons d words =>
      cases hhead
      exact h ⟨[], words, rfl⟩

/-- A comment goes on up to where it is closed. -/
theorem CommentSpot.tokenTail?_comment (spot : CommentSpot) {words : Text}
    (hwords : spot.kind.Admits words) (before : Text) :
    tokenTail? before '/' (spot.kind.mark :: (words ++ (spot.closing ++ spot.rest))) =
      some (1 + words.length + spot.closing.length) := by
  obtain ⟨kind, front, closing, rest, hcloses⟩ := spot
  have hline (h : '\n' ∉ words) (rest : Text) (hrest : lineLength rest = 0) :
      tokenTail? before '/' ('/' :: (words ++ rest)) = some (1 + words.length) := by
    have hslash : lineLength ('/' :: (words ++ rest)) = lineLength (words ++ rest) + 1 := rfl
    rw [tokenTail?, if_pos ⟨rfl, rfl⟩, hslash, lineLength_append h, hrest, Nat.add_comm]
    rfl
  have hblock (h : ¬ "*/".toList <:+: words) (rest : Text) (hrest : rest.head? ≠ some '/') :
      tokenTail? before '/' ('*' :: (words ++ rest)) =
        some (1 + (words.length + blockLength rest)) := by
    rw [tokenTail?, if_neg (by simp), if_pos ⟨rfl, rfl⟩, List.drop_succ_cons, List.drop_zero,
      blockLength_append h hrest]
  cases hcloses with
  | newline rest => exact hline hwords _ rfl
  | mark rest =>
    have hstar : ("*/".toList ++ rest).head? ≠ some '/' := by simp
    refine (hblock hwords _ hstar).trans ?_
    rw [Nat.add_assoc]
    rfl
  | ended kind =>
    cases kind with
    | line => exact hline hwords _ rfl
    | block => exact hblock hwords _ (Option.some_ne_none '/').symm

/-- The walk comes to every place at which a comment or a literal begins. -/
theorem scans_of_mem_ignoredRanges {front text : Text} {span : Span} (hstart : span.start = front.length)
    (h : span ∈ ignoredRanges (front ++ text)) : Scans [] front text := by
  refine scans_of_ranges 0 fun range hrange hacross => ?_
  have hspan := (mem_rangesFrom h).2
  obtain ⟨earlier, later, hranges⟩ := List.append_of_mem h
  have hordered := pairwise_rangesFrom [] 0 (front ++ text)
  rw [← ignoredRanges, hranges, List.pairwise_append, List.pairwise_cons] at hordered
  obtain ⟨-, ⟨hlater, -⟩, hearlier⟩ := hordered
  rw [← ignoredRanges, hranges, List.mem_append, List.mem_cons] at hrange
  rcases hrange with hrange | rfl | hrange
  · have := hearlier range hrange span List.mem_cons_self
    omega
  · omega
  · have := hlater range hrange
    omega

/-- Every text goes on with words that do not end a comment, up to where they do. -/
theorem exists_words (kind : CommentKind) (text : Text) : ∃ words closing rest,
    text = words ++ (closing ++ rest) ∧ kind.Admits words ∧ Closes kind closing rest := by
  cases kind with
  | line =>
    obtain ⟨words, hwords, hline⟩ := exists_run (fun c => decide (c ≠ '\n')) text
    have hadmits : '\n' ∉ words := fun hmem => by simpa using hline _ hmem
    have hends := GraphQL.ends_dropWhile (fun c => decide (c ≠ '\n')) text
    generalize text.dropWhile (fun c => decide (c ≠ '\n')) = rest at hwords hends
    refine ⟨words, [], rest, hwords, hadmits, ?_⟩
    cases rest with
    | nil => exact .ended .line
    | cons c rest =>
      obtain rfl : c = '\n' := by simpa using GraphQL.ends_cons.1 hends
      exact .newline rest
  | block =>
    induction text with
    | nil => exact ⟨[], [], [], rfl, by decide, .ended .block⟩
    | cons c text ih =>
      by_cases hclosed : c = '*' ∧ text.head? = some '/'
      · obtain ⟨rfl, hhead⟩ := hclosed
        obtain ⟨rest, rfl⟩ := List.head?_eq_some_iff.1 hhead
        exact ⟨[], "*/".toList, rest, rfl, by decide, .mark rest⟩
      · obtain ⟨words, closing, rest, rfl, hadmits, hcloses⟩ := ih
        refine ⟨c :: words, closing, rest, rfl, fun hin => ?_, hcloses⟩
        rcases List.infix_cons_iff.1 hin with ⟨behind, hprefix⟩ | hin
        · obtain ⟨rfl, rfl⟩ := List.cons.inj hprefix
          exact hclosed ⟨rfl, rfl⟩
        · exact hadmits hin

/-- The comment or literal that begins at a place is the token that is read there. -/
theorem eq_of_mem_ignoredRanges {front rest : Text} {c : Char} {length : Nat} {range : Span}
    (h : range ∈ ignoredRanges (front ++ c :: rest)) (hstart : range.start = front.length)
    (htoken : tokenTail? front.reverse c rest = some length) :
    range = ⟨front.length, front.length + 1 + length⟩ := by
  have hrange := (mem_rangesFrom h).2
  obtain ⟨earlier, heq, hstops⟩ := (scans_of_mem_ignoredRanges hstart h).rangesFrom_eq 0
  rw [ignoredRanges, heq, List.append_nil, rangesFrom, htoken, List.mem_append, List.mem_cons,
    Nat.zero_add] at h
  rcases h with h | h | h
  · have := hstops range h
    omega
  · exact h
  · have := (mem_rangesFrom h).1
    omega

/-! ## The rest of a text -/

theorem rangesFrom_append_plain {front : Text} (h : ∀ c ∈ front, IsPlain c) (before : Text)
    (offset : Nat) (text : Text) : rangesFrom before offset (front ++ text) =
      rangesFrom (front.reverse ++ before) (offset + front.length) text := by
  induction front generalizing before offset with
  | nil => rfl
  | cons c front ih =>
    obtain ⟨hc, hfront⟩ := List.forall_mem_cons.1 h
    rw [List.cons_append, rangesFrom, tokenTail?_of_isPlain hc]
    dsimp only
    rw [ih hfront, List.reverse_cons, List.append_assoc, List.length_cons,
      Nat.add_right_comm offset 1]
    rfl

theorem isPlain_of_isPlainSpace {c : Char} (h : isPlainSpace c = true) : IsPlain c := by
  refine ⟨?_, ?_, ?_, ?_⟩ <;> rintro rfl <;> cases h

theorem slashOpensRegex_append_spaces {spaces : Text} (h : ∀ c ∈ spaces, isPlainSpace c = true)
    (before : Text) : slashOpensRegex (spaces ++ before) = slashOpensRegex before := by
  unfold slashOpensRegex
  rw [List.dropWhile_append_of_pos h]

/-- Only a slash that begins no comment depends on what stands in front of it. -/
theorem tokenTail?_of_not_lone {c : Char} {tail before other : Text}
    (h : c = '/' → tail.head? ≠ some '/' → tail.head? ≠ some '*' →
      slashOpensRegex before = slashOpensRegex other) :
    tokenTail? before c tail = tokenTail? other c tail := by
  unfold tokenTail?
  split
  · rfl
  next hline =>
  split
  · rfl
  next hblock =>
  split
  · rfl
  by_cases hc : c = '/'
  · rw [h hc (fun hhead => hline ⟨hc, hhead⟩) fun hhead => hblock ⟨hc, hhead⟩]
  · rw [if_neg fun h => hc h.1, if_neg fun h => hc h.1]

/-- A lone slash opens a regular expression or divides. -/
theorem tokenTail?_slash {tail : Text} (hline : tail.head? ≠ some '/') (hblock : tail.head? ≠ some '*')
    (before : Text) : tokenTail? before '/' tail =
      if slashOpensRegex before then some (regexLength false tail) else none := by
  rw [tokenTail?, if_neg fun h => hline h.2, if_neg fun h => hblock h.2, if_neg (by decide)]
  simp

/-- The ranges that are found from a lone slash on tell whether it opens a regular expression. -/
theorem rangesFrom_slash_inj {before other tail : Text} {offset : Nat} (hline : tail.head? ≠ some '/')
    (hblock : tail.head? ≠ some '*')
    (h : rangesFrom other offset ('/' :: tail) = rangesFrom before offset ('/' :: tail)) :
    slashOpensRegex other = slashOpensRegex before := by
  have hstart {before : Text} {length : Nat} {ranges : List Span} :
      ⟨offset, offset + 1 + length⟩ :: ranges ≠ rangesFrom before (offset + 1) tail := fun heq => by
    have hmem := heq ▸ List.mem_cons_self
    exact absurd (mem_rangesFrom hmem).1 (Nat.not_succ_le_self offset)
  rw [rangesFrom, rangesFrom, tokenTail?_slash hline hblock, tokenTail?_slash hline hblock] at h
  cases hother : slashOpensRegex other <;> cases hbefore : slashOpensRegex before <;>
    rw [hother, hbefore] at h
  · exact absurd h.symm hstart
  · exact absurd h hstart

/-- Behind a line end, what stands in front of it matters only for a slash that follows, white space apart,
and begins no comment. -/
theorem rangesFrom_eq_iff (before other : Text) (offset : Nat) (rest : Text) :
    rangesFrom other offset ('\n' :: rest) = rangesFrom before offset ('\n' :: rest) ↔
      (LoneSlash ('\n' :: rest) → slashOpensRegex other = slashOpensRegex before) := by
  obtain ⟨spaces, hspaces, hspace⟩ := exists_run isPlainSpace ('\n' :: rest)
  have hline : '\n' ∈ spaces := by
    cases spaces with
    | nil =>
      have hends := GraphQL.ends_dropWhile isPlainSpace ('\n' :: rest) '\n'
      rw [List.nil_append] at hspaces
      rw [← hspaces] at hends
      exact absurd (hends rfl) (by decide)
    | cons c spaces =>
      obtain ⟨rfl, -⟩ := List.cons.inj hspaces
      exact List.mem_cons_self
  have hplain : ∀ c ∈ spaces, IsPlain c := fun c hc => isPlain_of_isPlainSpace (hspace c hc)
  have hopens (before : Text) : slashOpensRegex (spaces.reverse ++ before) = slashOpensRegex before :=
    slashOpensRegex_append_spaces (fun c hc => hspace c (List.mem_reverse.1 hc)) before
  have hends := GraphQL.ends_dropWhile isPlainSpace ('\n' :: rest)
  rw [LoneSlash]
  generalize ('\n' :: rest).dropWhile isPlainSpace = text at hspaces hends
  rw [hspaces, rangesFrom_append_plain hplain, rangesFrom_append_plain hplain]
  cases text with
  | nil => simp [rangesFrom]
  | cons c tail =>
    have hc : isPlainSpace c = false := GraphQL.ends_cons.1 hends
    -- behind the character, what stands in front of the spaces does not count any more
    have halike (run : Text) : SlashAlike (run ++ (c :: (spaces.reverse ++ other)))
        (run ++ (c :: (spaces.reverse ++ before))) :=
      (slashAlike_append spaces.reverse hc ⟨'\n', List.mem_cons_of_mem c (List.mem_reverse.2 hline),
        by decide +kernel⟩ other before).append run
    have hagain (run : Text) := rangesFrom_of_slashAlike (halike run)
    constructor
    · rintro hsame ⟨tail', heq, hslash, hstar⟩
      obtain ⟨rfl, rfl⟩ := List.cons.inj heq
      rw [← hopens other, ← hopens before]
      exact rangesFrom_slash_inj hslash hstar hsame
    · intro h
      have htoken : tokenTail? (spaces.reverse ++ other) c tail =
          tokenTail? (spaces.reverse ++ before) c tail := by
        refine tokenTail?_of_not_lone fun hslash hline hblock => ?_
        rw [hopens, hopens]
        exact h ⟨tail, by rw [hslash], hline, hblock⟩
      rw [rangesFrom, rangesFrom, htoken]
      cases tokenTail? (spaces.reverse ++ before) c tail with
      | none => exact hagain [] _ _
      | some length => exact congrArg _ (hagain _ _ _)

/-! ## The comments and literals of a text -/

namespace CommentSpot

variable {spot : CommentSpot} {words other : Text}

/-- A comment or literal that begins where a comment is marked is that comment. -/
theorem exists_of_mem_ignoredRanges {code : Text} {range : Span} {kind : CommentKind}
    (h : range ∈ ignoredRanges code) (hmark : ['/', kind.mark] <+: code.drop range.start) :
    ∃ (spot : CommentSpot) (words : Text), spot.kind = kind ∧ code = spot.text words ∧
      range = spot.span words ∧ kind.Admits words := by
  obtain ⟨tail, htail⟩ := hmark
  obtain ⟨words, closing, rest, rfl, hadmits, hcloses⟩ := exists_words kind tail
  have hcode : code = code.take range.start ++ '/' :: kind.mark :: (words ++ (closing ++ rest)) := by
    conv => lhs; rw [← List.take_append_drop range.start code, ← htail]
    rfl
  have hlength : range.start = (code.take range.start).length := by
    have hpos := congrArg List.length htail
    rw [List.length_drop] at hpos
    rw [List.length_take]
    simp only [List.length_append, List.length_cons] at hpos
    omega
  refine ⟨⟨kind, code.take range.start, closing, rest, hcloses⟩, words, rfl, hcode, ?_, hadmits⟩
  rw [hcode] at h
  have htoken := (⟨kind, code.take range.start, closing, rest, hcloses⟩ : CommentSpot).tokenTail?_comment
    hadmits (code.take range.start).reverse
  refine (eq_of_mem_ignoredRanges h hlength htoken).trans ?_
  rw [span, Span.mk.injEq]
  dsimp only
  omega

/-- The comments and literals around a comment: those in front of it do not depend on its words. -/
theorem exists_ranges (hspan : spot.span words ∈ ignoredRanges (spot.text words)) :
    ∃ earlier, ∀ other, spot.kind.Admits other → ignoredRanges (spot.text other) =
      earlier ++ spot.span other :: rangesFrom (spot.before other) (spot.span other).stop spot.rest := by
  have hscan : Scans [] spot.front (spot.comment words) := scans_of_mem_ignoredRanges rfl hspan
  obtain ⟨earlier, -, hranges⟩ := hscan.exists_ranges 0
  refine ⟨earlier, fun other hother => ?_⟩
  have htail : spot.kind.mark :: (other ++ (spot.closing ++ spot.rest)) =
      (spot.kind.mark :: (other ++ spot.closing)) ++ spot.rest := by simp
  have hlength : 1 + other.length + spot.closing.length =
      (spot.kind.mark :: (other ++ spot.closing)).length := by
    rw [List.length_cons, List.length_append]
    omega
  have hstop : 0 + spot.front.length + 1 + (spot.kind.mark :: (other ++ spot.closing)).length =
      (spot.span other).stop := by
    rw [List.length_cons, List.length_append, span]
    dsimp only
    omega
  have halike : Alike (spot.comment words) (spot.comment other) := alike_cons (by decide) _ _
  rw [ignoredRanges, text, hranges _ (.inr halike), comment, rangesFrom,
    spot.tokenTail?_comment hother]
  dsimp only
  rw [htail, hlength, List.take_left, List.drop_left, hstop]
  simp [span, before]

/-- The words of a block comment that is closed do not count for a slash behind it. -/
theorem slashAlike_before (front rest words other : Text) :
    SlashAlike (before ⟨.block, front, _, rest, .mark rest⟩ other)
      (before ⟨.block, front, _, rest, .mark rest⟩ words) := by
  have hbefore (words : Text) : before ⟨.block, front, _, rest, .mark rest⟩ words =
      ('/' :: ['*']) ++ (words.reverse ++ '*' :: '/' :: front.reverse) := by
    simp [before, CommentKind.mark]
  rw [hbefore, hbefore]
  exact slashAlike_append ['*'] (by decide) ⟨'/', List.mem_cons_self, by decide +kernel⟩ _ _

theorem not_loneSlash_nil : ¬ LoneSlash [] := by
  rintro ⟨tail, htail, -⟩
  cases htail

/-- What the comments and literals behind a comment depend on. -/
theorem rangesFrom_before_eq_iff (spot : CommentSpot) (words other : Text) (offset : Nat) :
    rangesFrom (spot.before other) offset spot.rest = rangesFrom (spot.before words) offset spot.rest ↔
      (LoneSlash spot.rest →
        slashOpensRegex (spot.before other) = slashOpensRegex (spot.before words)) := by
  obtain ⟨kind, front, closing, rest, hcloses⟩ := spot
  cases hcloses with
  | newline rest => exact rangesFrom_eq_iff _ _ offset rest
  | mark rest =>
    have halike := slashAlike_before front rest words other
    exact iff_of_true (rangesFrom_of_slashAlike halike offset rest) fun _ => halike []
  | ended kind =>
    exact iff_of_true (by rw [rangesFrom, rangesFrom]) fun h => absurd h not_loneSlash_nil

/-- A slash behind a block comment does not depend on its words. -/
theorem slashOpensRegex_before (spot : CommentSpot) (words other : Text) (hkind : spot.kind = .block)
    (h : LoneSlash spot.rest) :
    slashOpensRegex (spot.before other) = slashOpensRegex (spot.before words) := by
  obtain ⟨kind, front, closing, rest, hcloses⟩ := spot
  cases hcloses with
  | newline rest => cases hkind
  | mark rest => exact slashAlike_before front rest words other []
  | ended kind => exact absurd h not_loneSlash_nil

/-- When the words of a comment do not matter for the comments and literals of a text. -/
theorem ignoredRanges_eq_iff (hwords : spot.kind.Admits words) (hother : spot.kind.Admits other)
    (hlength : words.length = other.length)
    (hspan : spot.span words ∈ ignoredRanges (spot.text words)) :
    ignoredRanges (spot.text other) = ignoredRanges (spot.text words) ↔ (LoneSlash spot.rest →
      slashOpensRegex (spot.before other) = slashOpensRegex (spot.before words)) := by
  obtain ⟨earlier, hranges⟩ := exists_ranges hspan
  have hsame : spot.span other = spot.span words := by rw [span, span, hlength]
  rw [hranges other hother, hranges words hwords, hsame, ← spot.rangesFrom_before_eq_iff,
    List.append_cancel_left_eq, List.cons.injEq]
  exact and_iff_right rfl

end CommentSpot

/-! ## The call sites of a text -/

/-- What stands in an opening in front of a line end has the call of the tag. -/
theorem Opening.tagCall_infix {opening : Opening} {front rest : Text}
    (h : opening.code = front ++ '\n' :: rest) : tagCall <:+: front := by
  obtain ⟨assigned, hassigned⟩ : ∃ assigned, assigned =
    opening.name.text ++ (opening.gap.1 ++ ('=' :: opening.gap'.1)) := ⟨_, rfl⟩
  have hgap (gap : Gap) : '\n' ∉ gap.1 := fun hc => by cases gap.2 _ hc
  have hline : '\n' ∉ assigned ++ tagCall := by
    have htag : '\n' ∉ tagCall := by decide
    simp [hassigned, opening.name.not_mem (show isNameChar '\n' = false by decide), hgap, htag]
  have hcode : (assigned ++ tagCall) ++ opening.lead.1 = front ++ '\n' :: rest := by
    rw [← h, hassigned, Opening.code]
    simp
  -- the line end stands behind the call of the tag
  obtain ⟨more, rfl⟩ : ∃ more, front = (assigned ++ tagCall) ++ more := by
    rcases List.append_eq_append_iff.1 hcode with ⟨more, hfront, -⟩ | ⟨more, hfront, hmore⟩
    · exact ⟨more, hfront⟩
    · cases more with
      | nil => exact ⟨[], by simpa using hfront.symm⟩
      | cons c more =>
        obtain ⟨rfl, -⟩ := List.cons.inj hmore
        exact absurd (hfront ▸ List.mem_append_right _ List.mem_cons_self) hline
  exact ⟨assigned, more, rfl⟩

/-- Words that end no comment, template or list, and call no tag in front of a line end. -/
structure Harmless (kind : CommentKind) (words : Text) : Prop where
  admits : kind.Admits words
  backtick : '\x60' ∉ words
  bracket : ']' ∉ words
  tag : kind = .line → ¬ tagCall <:+: words

/-- No call can be read that begins in harmless words. -/
theorem Harmless.match?_eq_none {kind : CommentKind} {words closing rest : Text}
    (h : Harmless kind words) (hcloses : Closes kind closing rest) {first more : Text}
    (heq : words = first ++ more) : CallShape.match? (more ++ (closing ++ rest)) = none := by
  have hbacktick : '\x60' ∉ more := fun hmem => h.backtick (heq ▸ List.mem_append_right first hmem)
  cases hcloses with
  | mark rest =>
    exact CallShape.match?_eq_none hbacktick (by decide) (by decide) (by decide) ('/' :: rest)
  | newline rest =>
    refine Option.eq_none_iff_forall_ne_some.2 fun shape hshape => ?_
    obtain ⟨opening, last, literal, hcode, hlast⟩ := CallShape.exists_code hbacktick hshape
    -- the opening goes on behind the words
    cases last with
    | nil => cases hlast
    | cons c last =>
      obtain ⟨rfl, -⟩ := List.cons.inj hlast
      refine h.tag rfl ((Opening.tagCall_infix hcode).trans ?_)
      exact (heq ▸ List.suffix_append first more).isInfix
  | ended kind =>
    refine Option.eq_none_iff_forall_ne_some.2 fun shape hshape => ?_
    obtain ⟨opening, last, literal, -, hlast⟩ := CallShape.exists_code hbacktick hshape
    simp at hlast

namespace CommentSpot

variable {spot : CommentSpot} {words other : Text}

/-- The words of a comment are a gap for calls. -/
theorem seam (spot : CommentSpot) : Seam CallShape.match? CallShape.length CallShape.name spot.kind.mark
    (Harmless spot.kind) (spot.closing ++ spot.rest) := by
  have hsilent {gap : Text} (hgap : Harmless spot.kind gap) (first more : Text)
      (heq : gap = first ++ more) (_ : more ≠ []) :
      CallShape.match? (more ++ (spot.closing ++ spot.rest)) = none :=
    hgap.match?_eq_none spot.closes heq
  cases hkind : spot.kind <;> rw [hkind] at hsilent <;>
    exact CallShape.seam (by decide) (by decide) (by decide) (fun h => ⟨h.backtick, h.bracket⟩) hsilent

/-- When the comments and literals of a text stay the same, so do the names and the places of its call
sites, however the words of a comment are exchanged for harmless ones. -/
theorem map_extract_eq (hwords : Harmless spot.kind words) (hother : Harmless spot.kind other)
    (hlength : words.length = other.length)
    (hranges : ignoredRanges (spot.text other) = ignoredRanges (spot.text words)) (file : Option String) :
    (extract (spot.text other) file).map (fun site => (site.name, site.span)) =
      (extract (spot.text words) file).map fun site => (site.name, site.span) := by
  have htext (words : Text) : spot.text words = (spot.front ++ ['/', spot.kind.mark]) ++
      (words ++ (spot.closing ++ spot.rest)) := by simp [text, comment]
  have hmark : ∀ c, (spot.front ++ ['/', spot.kind.mark]).getLast? = some c → c = spot.kind.mark := by simp
  obtain ⟨earlier, across, -, -, hfound⟩ := findFrom_seam CallShape.reads spot.seam hmark 0
  have hcalls := (hfound words hwords).map_eq hlength (hfound other hother)
  rw [← htext, ← htext] at hcalls
  -- names and places are read off what is found, and so is what is dropped
  have hsites (code : Text) : (extract code file).map (fun site => (site.name, site.span)) =
      (((findFrom CallShape.match? CallShape.length 0 code).map fun found =>
        (found.1, found.2.length, found.2.name)).filter fun found =>
          !inRanges found.1 (ignoredRanges code)).map fun found =>
            (String.ofList found.2.2, ⟨found.1, found.1 + found.2.1⟩) := by
    rw [extract_eq, CallShape.all, CallShape.allFrom_eq, List.map_map, List.filter_map, List.map_map,
      List.filter_map, List.map_map]
    rfl
  rw [hsites, hsites, hcalls, hranges]

end CommentSpot

/-- **The words of a comment.** A comment that is found in a text is found there whatever its words are, and
so are the comments and literals in front of it. Those behind it do not depend on its words either, except
that behind a line comment a slash that begins no comment may open a regular expression or not; the words
of a block comment do not matter for it. When no comment or literal changes, neither do the names and the
places of the call sites, provided that the words cannot be taken for parts of a call. -/
theorem exchange_words {code : Text} {range : Span} {kind : CommentKind} (h : range ∈ ignoredRanges code)
    (hmark : ['/', kind.mark] <+: code.drop range.start) :
    ∃ (spot : CommentSpot) (words : Text), spot.kind = kind ∧ code = spot.text words ∧
      range = spot.span words ∧ kind.Admits words ∧
      ∀ other, kind.Admits other → other.length = words.length →
        range ∈ ignoredRanges (spot.text other) ∧
        (ignoredRanges (spot.text other) = ignoredRanges code ↔ (LoneSlash spot.rest →
          slashOpensRegex (spot.before other) = slashOpensRegex (spot.before words))) ∧
        (kind = .block → ignoredRanges (spot.text other) = ignoredRanges code) ∧
        (ignoredRanges (spot.text other) = ignoredRanges code →
          Harmless kind words → Harmless kind other → ∀ file,
            (extract (spot.text other) file).map (fun site => (site.name, site.span)) =
              (extract code file).map fun site => (site.name, site.span)) := by
  obtain ⟨spot, words, rfl, rfl, rfl, hwords⟩ := CommentSpot.exists_of_mem_ignoredRanges h hmark
  refine ⟨spot, words, rfl, rfl, rfl, hwords, fun other hother hlength => ?_⟩
  have hsame : spot.span other = spot.span words := by rw [CommentSpot.span, CommentSpot.span, hlength]
  have hranges := CommentSpot.ignoredRanges_eq_iff hwords hother hlength.symm h
  refine ⟨?_, hranges, fun hkind => hranges.2 (spot.slashOpensRegex_before words other hkind),
    fun heq hwords hother => CommentSpot.map_extract_eq hwords hother hlength.symm heq⟩
  obtain ⟨earlier, heq⟩ := CommentSpot.exists_ranges h
  rw [heq other hother, ← hsame]
  exact List.mem_append_right _ List.mem_cons_self

/-- A quotient behind a line comment, in front of a call. -/
def halfCode : Text := "const half = n // all\n/ 2;\nexport const Q = graphql(`{ a }`);".toList

theorem exchange_words_quotient :
    ∃ (spot : CommentSpot) (words : Text), spot.kind = .line ∧ halfCode = spot.text words ∧
      ⟨15, 21⟩ = spot.span words ∧ CommentKind.line.Admits words ∧
      ∀ other, CommentKind.line.Admits other → other.length = words.length →
        ⟨15, 21⟩ ∈ ignoredRanges (spot.text other) ∧
        (ignoredRanges (spot.text other) = ignoredRanges halfCode ↔ (LoneSlash spot.rest →
          slashOpensRegex (spot.before other) = slashOpensRegex (spot.before words))) ∧
        (CommentKind.line = .block → ignoredRanges (spot.text other) = ignoredRanges halfCode) ∧
        (ignoredRanges (spot.text other) = ignoredRanges halfCode →
          Harmless .line words → Harmless .line other → ∀ file,
            (extract (spot.text other) file).map (fun site => (site.name, site.span)) =
              (extract halfCode file).map fun site => (site.name, site.span)) :=
  exchange_words (by decide +kernel) (by decide +kernel)

/-- The words of a comment matter. Behind a line comment that ends with an operator a slash opens a regular
expression, and behind one that ends with another word it divides. And when a call can be read that begins
in a comment and goes on behind it, the calls behind the comment are not found. -/
theorem not_exchange_words :
    (¬ ∀ (spot : CommentSpot) (words other : Text), spot.kind.Admits words → spot.kind.Admits other →
      other.length = words.length → spot.span words ∈ ignoredRanges (spot.text words) →
      ignoredRanges (spot.text other) = ignoredRanges (spot.text words)) ∧
    ¬ ∀ (spot : CommentSpot) (words other : Text) (file : Option String), spot.kind.Admits words →
      spot.kind.Admits other → other.length = words.length →
      spot.span words ∈ ignoredRanges (spot.text words) →
      ignoredRanges (spot.text other) = ignoredRanges (spot.text words) →
      (extract (spot.text other) file).map (fun site => site.span.start) =
        (extract (spot.text words) file).map fun site => site.span.start := by
  constructor
  · intro h
    have hranges := h ⟨.line, "const tick = ".toList, [], _, .newline
      "/`/g;\nexport const Q = graphql(`query Q { a }`);".toList⟩ " c".toList " =".toList
      (by decide) (by decide) (by decide) (by decide +kernel)
    revert hranges
    decide +kernel
  · intro h
    have hstarts := h ⟨.block, [], _, _, .mark " Q = graphql(`{ a }`, [B])".toList⟩
      " A = graphql(`x`, [ ".toList " A = graphql(`x`,   ".toList none (by decide +kernel) (by decide +kernel) (by decide +kernel)
      (by decide +kernel) (by decide +kernel)
    revert hstarts
    decide +kernel

end PersistedQueries.CallSite
