import PersistedQueries.Proofs.CallSite.Rendering
import PersistedQueries.Proofs.CallSite.Searching

/-!
# Where a template ends

The template of a call is read twice. The search for calls takes it to end at the next backtick, which is
all that its pattern can say; templates with a backtick inside are not supported. The walk over comments
and literals passes over a backslash together with the character behind it. The two agree unless the
document of the call ends with an odd number of backslashes, the last of which takes the closing backtick
for its own.

- `literalLength_backtick`: how long the literal is that the walk finds, by what the document ends with.
- `templateStart`: the offset of the backtick that opens the template of a call site.
- `exists_template_range`: a literal begins there, and when it is as long as the template.
- `not_template_range`: it need not be.
-/

namespace PersistedQueries.CallSite

open Splice (Sealed tokenTail?_backtick)
open Text (slice)

variable {text : Text}

/-! ## Documents in front of a backtick -/

/-- What does not close a literal is passed over in it. -/
theorem literalLength_append {interior : Text} (h : Sealed interior) (rest : Text) :
    literalLength '\x60' (interior ++ rest) = interior.length + literalLength '\x60' rest := by
  -- an escaped character is passed over together with its backslash, on both sides
  induction h with
  | nil => simp
  | @escaped interior c _ ih =>
    rw [List.cons_append, List.cons_append, literalLength_escaped, ih, List.length_cons,
      List.length_cons]
    omega
  | @plain interior c hbackslash hbacktick _ ih =>
    rw [List.cons_append, literalLength_cons hbackslash, if_neg hbacktick, if_neg fun h => h.2 rfl,
      ih, List.length_cons]
    omega

theorem sealed_append {front back : Text} (hfront : Sealed front) (hback : Sealed back) :
    Sealed (front ++ back) := by
  induction hfront with
  | nil => exact hback
  | escaped c _ ih => exact .escaped c ih
  | plain hbackslash hbacktick _ ih => exact .plain hbackslash hbacktick ih

theorem backslashesAtEnd_concat (text : Text) :
    backslashesAtEnd (text ++ ['\\']) = backslashesAtEnd text + 1 := by
  rw [backslashesAtEnd, List.reverse_append, List.reverse_singleton, List.singleton_append,
    List.takeWhile_cons_of_pos (by decide), List.length_cons]
  rfl

theorem backslashesAtEnd_of_ne {c : Char} (hc : c ≠ '\\') (text : Text) :
    backslashesAtEnd (text ++ [c]) = 0 := by
  rw [backslashesAtEnd, List.reverse_append, List.reverse_singleton, List.singleton_append,
    List.takeWhile_cons_of_neg (by simpa using hc)]
  rfl

/-- An odd number of backslashes takes the backtick behind it for its own. -/
theorem sealed_of_odd (hbacktick : '\x60' ∉ text) (hodd : backslashesAtEnd text % 2 = 1) :
    Sealed (text ++ ['\x60']) := by
  rcases List.eq_nil_or_concat text with rfl | ⟨front, c, rfl⟩
  · cases hodd
  rw [List.concat_eq_append] at hbacktick hodd ⊢
  by_cases hc : c = '\\'
  · subst hc
    rw [backslashesAtEnd_concat] at hodd
    rw [List.append_assoc]
    refine sealed_append (sealed_of_even (fun h => hbacktick (List.mem_append_left _ h)) ?_)
      (.escaped '\x60' .nil)
    omega
  · rw [backslashesAtEnd_of_ne hc] at hodd
    cases hodd

/-- How long the literal is in which a document stands in front of a backtick. -/
theorem literalLength_backtick (hbacktick : '\x60' ∉ text) (rest : Text) :
    literalLength '\x60' (text ++ '\x60' :: rest) =
      text.length + 1 + if backslashesAtEnd text % 2 = 0 then 0 else literalLength '\x60' rest := by
  split
  · next heven => rw [(sealed_of_even hbacktick heven).literalLength_eq]
  · next hodd =>
    have hsealed := sealed_of_odd hbacktick (Nat.mod_two_ne_zero.1 hodd)
    rw [← List.singleton_append, ← List.append_assoc, literalLength_append hsealed,
      List.length_append, List.length_singleton]

/-- A template that is not closed goes on with every character. -/
theorem literalLength_backtick_pos (h : text ≠ []) : 0 < literalLength '\x60' text := by
  obtain ⟨c, rest, rfl⟩ := List.exists_cons_of_ne_nil h
  by_cases hc : c = '\\'
  · subst hc
    cases rest <;> exact Nat.succ_pos _
  · rw [literalLength_cons hc]
    split
    · exact Nat.one_pos
    · rw [if_neg fun h => h.2 rfl]
      exact Nat.succ_pos _

/-! ## The template of a call site -/

variable {code : Text} {file : Option String} {site : CallSite}

/-- The offset of the backtick that opens the template of a call site: the first one from its name on. -/
def templateStart (code : Text) (site : CallSite) : Nat :=
  site.span.start + ((code.drop site.span.start).takeWhile (· ≠ '\x60')).length

/-- The offset behind the backtick that the search for calls takes for the closing one. -/
def templateEnd (code : Text) (site : CallSite) : Nat :=
  templateStart code site + site.source.toList.length + 2

/-- A call site stands in its text as it is written, up to its template and from there on, and does not begin
within a comment or a literal. -/
theorem exists_parts_of_mem_extract (h : site ∈ extract code file) :
    ∃ (front rest : Text) (opening : Opening) (ending : Ending),
      code = front ++ (opening.text ++ (ending.text ++ rest)) ∧
      site = ofShape file ⟨front.length, front.length + (opening.text ++ ending.text).length⟩
        (shapeOf opening ending) ∧
      inRanges front.length (ignoredRanges code) = false := by
  obtain ⟨span, shape, hall, hkept, rfl⟩ := mem_extract h
  obtain ⟨front, rest, rfl, rfl, hread⟩ := CallShape.exists_of_mem_all hall
  obtain ⟨opening, ending, behind, rfl, rfl⟩ := CallShape.match?_eq_some_iff.1 hread
  exact ⟨front, behind, opening, ending, rfl, rfl, hkept⟩

/-- An ending goes on behind the backtick that closes its document, at least with a parenthesis. -/
theorem Ending.back_ne_nil (ending : Ending) : ending.back ≠ [] := by
  simp [back]

theorem templateStart_eq {front literal : Text} {opening : Opening}
    (hstart : site.span.start = front.length) :
    templateStart (front ++ (opening.code ++ '\x60' :: literal)) site =
      (front ++ opening.code).length := by
  have hbacktick : '\x60' ∉ opening.code := fun hmem =>
    (opening.isPlain_of_mem_code _ hmem).2.2.2 rfl
  rw [templateStart, hstart, List.drop_left, (takeWhile_ne_append hbacktick literal).1,
    List.length_append]

/-- The walk comes to the template of a call that does not begin in a comment or a literal, since in front of
the template there is only code. -/
theorem scans_opening {front rest : Text} {opening : Opening}
    (h : inRanges front.length (ignoredRanges (front ++ (opening.code ++ rest))) = false) :
    Scans [] (front ++ opening.code) rest :=
  (scans_of_inRanges h).append (scans_of_isPlain opening.isPlain_of_mem_code)

/-- Where the walk comes to a backtick, a literal begins, and the walk goes on behind it. -/
theorem exists_ignoredRanges_backtick {before literal : Text}
    (h : Scans [] before ('\x60' :: literal)) {stop : Nat}
    (hstop : stop = before.length + 1 + literalLength '\x60' literal) :
    ∃ earlier, ignoredRanges (before ++ '\x60' :: literal) = earlier ++ ⟨before.length, stop⟩ ::
      rangesFrom ((before ++ '\x60' :: literal).take stop).reverse stop
        ((before ++ '\x60' :: literal).drop stop) := by
  obtain ⟨earlier, heq, -⟩ := h.rangesFrom_eq 0
  have hsplit : before ++ '\x60' :: literal = (before ++ ['\x60']) ++ literal := by simp
  have hlength : stop = (before ++ ['\x60']).length + literalLength '\x60' literal := by
    rw [hstop, List.length_append, List.length_singleton]
  refine ⟨earlier, ?_⟩
  rw [ignoredRanges, heq, rangesFrom, tokenTail?_backtick]
  dsimp only
  rw [Nat.zero_add, ← hstop, hsplit, hlength, List.take_length_add_append,
    List.drop_length_add_append]
  simp

/-- **Templates.** At the backtick that opens the template of a call site there begins a literal of the
text. It goes at least up to the backtick that the search for calls takes for the closing one, and the walk
goes on behind it. It ends exactly there, so that the document is all that stands in it, if and only if the
document does not end with an odd number of backslashes. -/
theorem exists_template_range (h : site ∈ extract code file) :
    ∃ stop earlier,
      ignoredRanges code = earlier ++ ⟨templateStart code site, stop⟩ ::
        rangesFrom (code.take stop).reverse stop (code.drop stop) ∧
      slice code ⟨templateStart code site, templateEnd code site⟩ =
        '\x60' :: (site.source.toList ++ ['\x60']) ∧
      templateEnd code site < site.span.stop ∧ templateEnd code site ≤ stop ∧
      (stop = templateEnd code site ↔ backslashesAtEnd site.source.toList % 2 = 0) := by
  obtain ⟨front, rest, opening, ending, hcode, hsite, hkept⟩ := exists_parts_of_mem_extract h
  obtain ⟨behind, hbehind⟩ : ∃ behind, behind = ending.back ++ rest := ⟨_, rfl⟩
  obtain ⟨literal, hliteral⟩ : ∃ literal, literal = ending.source ++ '\x60' :: behind := ⟨_, rfl⟩
  have hparts : code = front ++ (opening.code ++ '\x60' :: literal) := by
    simp [hcode, Opening.text, Ending.text, hbehind, hliteral]
  have hstart : templateStart code site = (front ++ opening.code).length := by
    rw [hparts]
    exact templateStart_eq (hsite ▸ rfl)
  have hsource : site.source.toList = ending.source := by
    rw [hsite]
    exact String.toList_ofList
  have hend : templateEnd code site = (front ++ opening.code).length + ending.source.length + 2 := by
    rw [templateEnd, hstart, hsource]
  have hlength : literalLength '\x60' literal = ending.source.length + 1 +
      if backslashesAtEnd ending.source % 2 = 0 then 0 else literalLength '\x60' behind :=
    hliteral ▸ literalLength_backtick ending.not_mem behind
  have hpos : 0 < literalLength '\x60' behind :=
    literalLength_backtick_pos (by simp [hbehind, ending.back_ne_nil])
  obtain ⟨earlier, hranges⟩ :=
    exists_ignoredRanges_backtick (scans_opening (hparts ▸ hkept)) rfl
  rw [List.append_assoc, ← hparts] at hranges
  rw [hstart, hend, hsource]
  refine ⟨_, earlier, hranges, ?_, ?_, ?_, ?_⟩
  · rw [slice, hparts, ← List.append_assoc, List.drop_left, hliteral]
    dsimp only
    rw [Nat.add_assoc, Nat.add_sub_cancel_left, List.take_succ_cons, List.take_length_add_append]
    rfl
  · have hstop : site.span.stop = front.length + (opening.text ++ ending.text).length := hsite ▸ rfl
    have hback := List.length_pos_iff.2 ending.back_ne_nil
    rw [hstop]
    simp only [Opening.text, Ending.text, List.length_append, List.length_cons, List.length_nil]
    omega
  · rw [hlength]
    omega
  · rw [hlength]
    split <;> omega

/-- A query behind a comment; its document ends with two backslashes, of which neither escapes the closing
backtick. -/
def escapedQuery : Text := "// Q\nQ = graphql(`{ a } # \\\\`)".toList

theorem exists_template_range_query :
    ∃ site ∈ extract escapedQuery none, ∃ stop earlier,
      ignoredRanges escapedQuery = earlier ++ ⟨templateStart escapedQuery site, stop⟩ ::
        rangesFrom (escapedQuery.take stop).reverse stop (escapedQuery.drop stop) ∧
      slice escapedQuery ⟨templateStart escapedQuery site, templateEnd escapedQuery site⟩ =
        '\x60' :: (site.source.toList ++ ['\x60']) ∧
      templateEnd escapedQuery site < site.span.stop ∧ templateEnd escapedQuery site ≤ stop ∧
      (stop = templateEnd escapedQuery site ↔ backslashesAtEnd site.source.toList % 2 = 0) := by
  have hsite : (⟨"Q", "{ a } # \\\\", ⟨5, 30⟩, .empty, none⟩ : CallSite) ∈ extract escapedQuery none := by
    decide +kernel
  exact ⟨_, hsite, exists_template_range hsite⟩

/-- The range of a template is not always a literal of the text: the search for calls takes an escaped
backtick for the closing one, and the walk goes on behind it. -/
theorem not_template_range : ¬ ∀ (code : Text) (file : Option String) (site : CallSite),
    site ∈ extract code file →
      ⟨templateStart code site, templateEnd code site⟩ ∈ ignoredRanges code := by
  intro h
  have hrange := h "Q = graphql(`a\\`)`)".toList none ⟨"Q", "a\\", ⟨0, 17⟩, .empty, none⟩
    (by decide +kernel)
  revert hrange
  decide +kernel

end PersistedQueries.CallSite
