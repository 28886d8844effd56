import Mathlib.Data.List.TakeWhile
import PersistedQueries.Proofs.CallSite.Scanning

/-!
# Texts without call sites

A call site is found where a name, an equals sign and a call of the tag follow each other in the
code of a text. A text has none when no equals sign stands in front of any call of the tag that the
walk over the text comes to. Unlike the absence of call sites this can be shown for one part of the
text after another.

- `CallFree`: no equals sign stands in front of a call of the tag.
- `extract_eq_nil`: such a text has no call site.
- `CallFree.append`: from one part of a text to the next.
- `CallFree.append_plain`, `append_tag`, `append_token`: parts that have no call of the tag, that
  begin with the first letter of one, and that are comments or literals.
-/

namespace PersistedQueries.CallSite

variable {before front text : Text} {c : Char}

/-- Behind the text `before`, no equals sign stands in front of a call of the tag to which the walk
over a text comes. -/
def CallFree (before text : Text) : Prop :=
  ∀ front rest, text = front ++ rest → Scans before front rest → tagCall <+: rest →
    ((front.reverse ++ before).dropWhile isGap).head? ≠ some '='

/-! ## Call sites -/

/-- A call begins with its name, an equals sign and a call of the tag. -/
theorem CallShape.match?_assigned {shape : CallShape} (h : CallShape.match? text = some shape) :
    ∃ gap gap' rest, text = shape.name ++ (gap ++ '=' :: (gap' ++ rest)) ∧
      (∀ c ∈ shape.name, isNameChar c = true) ∧ (∀ c ∈ gap, isGap c = true) ∧
      (∀ c ∈ gap', isGap c = true) ∧ tagCall <+: rest := by
  obtain ⟨left⟩ := exists_left h
  obtain ⟨gap, gap', hgap, hgap', htext⟩ := left.exists_gaps
  refine ⟨gap, gap', tagCall ++ left.opened, htext, ?_, hgap, hgap', List.prefix_append _ _⟩
  rw [← left.name_eq]
  exact fun _ => List.mem_takeWhile_imp

/-- The name of a call site is made of the characters of names, and has one. -/
theorem name_of_mem_extract {code : Text} {file : Option String} {site : CallSite}
    (h : site ∈ extract code file) :
    site.name.toList ≠ [] ∧ ∀ c ∈ site.name.toList, isNameChar c = true := by
  obtain ⟨span, shape, hall, -, rfl⟩ := mem_extract h
  obtain ⟨_, _, _, -, hmatch, hspells, -⟩ := CallShape.mem_allFrom hall
  obtain ⟨_, _, _, -, hname, -⟩ := CallShape.match?_assigned hmatch
  rw [ofShape, String.toList_ofList]
  exact ⟨hspells.name, hname⟩

theorem isPlain_of_isNameChar (h : isNameChar c = true) : IsPlain c := by
  refine ⟨?_, ?_, ?_, ?_⟩ <;> rintro rfl <;> cases h

theorem isPlain_of_isGap (h : isGap c = true) : IsPlain c := by
  refine ⟨?_, ?_, ?_, ?_⟩ <;> rintro rfl <;> cases h

/-- The walk comes to an offset that no comment or literal holds. -/
theorem scans_of_inRanges (h : inRanges front.length (ignoredRanges (front ++ text)) = false) :
    Scans [] front text := by
  refine scans_of_ranges 0 fun range hrange hacross => ?_
  have hfound : inRanges front.length (ignoredRanges (front ++ text)) = true :=
    inRanges_ignoredRanges_iff.2 ⟨range, hrange, by rw [Span.Contains]; omega⟩
  cases h.symm.trans hfound

/-- Where the walk comes to code, no comment or literal holds the offset. -/
theorem inRanges_of_scans {rest : Text} (h : Scans [] front (c :: rest))
    (hc : IsPlain c) :
    inRanges front.length (ignoredRanges (front ++ c :: rest)) = false := by
  obtain ⟨ranges, heq, hstops⟩ := h.rangesFrom_eq 0
  refine Bool.eq_false_iff.2 fun hfound => ?_
  obtain ⟨range, hrange, hstart, hstop⟩ := inRanges_ignoredRanges_iff.1 hfound
  rw [ignoredRanges, heq, rangesFrom, tokenTail?_of_isPlain hc, List.mem_append] at hrange
  rcases hrange with hrange | hrange
  · have := hstops range hrange
    omega
  · have := (mem_rangesFrom hrange).1
    omega

/-- A text in whose code no equals sign stands in front of a call of the tag has no call site. -/
theorem extract_eq_nil {code : Text} (h : CallFree [] code) (file : Option String) :
    extract code file = [] := by
  rw [List.eq_nil_iff_forall_not_mem]
  intro site hsite
  obtain ⟨span, shape, hall, hkept, -⟩ := mem_extract hsite
  obtain ⟨front, call, rest, rfl, hmatch, -, rfl⟩ := CallShape.mem_allFrom hall
  rw [Nat.zero_add] at hkept
  obtain ⟨gap, gap', behind, hcall, hname, hgap, hgap', htag⟩ := CallShape.match?_assigned hmatch
  rw [hcall] at h hkept
  have hplain : ∀ c ∈ shape.name ++ (gap ++ '=' :: gap'), IsPlain c := by
    simp only [List.mem_append, List.mem_cons]
    rintro c (hc | hc | rfl | hc)
    · exact isPlain_of_isNameChar (hname c hc)
    · exact isPlain_of_isGap (hgap c hc)
    · decide
    · exact isPlain_of_isGap (hgap' c hc)
  have hassoc : shape.name ++ (gap ++ '=' :: (gap' ++ behind)) =
      (shape.name ++ (gap ++ '=' :: gap')) ++ behind := by simp
  rw [hassoc] at h hkept
  refine h _ behind (List.append_assoc ..).symm
    ((scans_of_inRanges hkept).append (scans_of_isPlain hplain)) htag ?_
  -- behind the gap, which is passed over from its end, stands the equals sign
  have hlead : (front ++ (shape.name ++ (gap ++ '=' :: gap'))).reverse ++ [] =
      gap'.reverse ++ '=' :: (front ++ (shape.name ++ gap)).reverse := by simp
  rw [hlead, List.dropWhile_append_of_pos fun c hc => hgap' c (List.mem_reverse.1 hc)]
  rfl

/-! ## One part after another -/

namespace CallFree

/-- A text has no call behind a part of it in which there is none, if the walk comes to the end of
that part. -/
theorem append (front : Text) (hscan : Scans before front text)
    (hfront : ∀ first more, front = first ++ more → more ≠ [] → Scans before first (more ++ text) →
      tagCall <+: more ++ text → ((first.reverse ++ before).dropWhile isGap).head? ≠ some '=')
    (htext : CallFree (front.reverse ++ before) text) : CallFree before (front ++ text) := by
  intro first rest heq hfirst htag
  rcases List.append_eq_append_iff.1 heq with ⟨more, rfl, rfl⟩ | ⟨more, rfl, rfl⟩
  · rw [List.reverse_append, List.append_assoc]
    exact htext more rest rfl (hscan.cancel hfirst) htag
  · rcases eq_or_ne more [] with rfl | hmore
    · rw [List.append_nil] at htext
      exact htext [] text rfl .done htag
    · exact hfront first more rfl hmore hfirst htag

/-- A part without the first letter of the tag. -/
theorem append_plain (front : Text) (hplain : front.all (IsPlain ·) = true) (hletter : 'g' ∉ front)
    (htext : CallFree (front.reverse ++ before) text) : CallFree before (front ++ text) := by
  have hscan : Scans before front text := scans_of_isPlain (by simpa using hplain)
  refine append front hscan (fun first more heq hmore _ htag => ?_) htext
  obtain ⟨c, more, rfl⟩ := List.exists_cons_of_ne_nil hmore
  obtain ⟨rest, hrest⟩ := htag
  obtain rfl : 'g' = c := (List.cons.inj hrest).1
  exact absurd (heq ▸ List.mem_append_right _ List.mem_cons_self) hletter

/-- A part with only the first letter of a tag, in front of which no equals sign stands. -/
theorem append_tag (front : Text) (hplain : ('g' :: front).all (IsPlain ·) = true)
    (hletter : 'g' ∉ front)
    (htag : tagCall <+: 'g' :: (front ++ text) → (before.dropWhile isGap).head? ≠ some '=')
    (htext : CallFree (front.reverse ++ 'g' :: before) text) :
    CallFree before ('g' :: (front ++ text)) := by
  have hscan : Scans before ('g' :: front) text := scans_of_isPlain (by simpa using hplain)
  refine append ('g' :: front) hscan (fun first more heq hmore _ htag' => ?_)
    (by simpa using htext)
  cases first with
  | nil =>
    rw [List.nil_append] at heq
    rw [← heq] at htag'
    exact htag htag'
  | cons d first =>
    obtain ⟨c, more, rfl⟩ := List.exists_cons_of_ne_nil hmore
    obtain ⟨rest, hrest⟩ := htag'
    obtain rfl : 'g' = c := (List.cons.inj hrest).1
    exact absurd ((List.cons.inj heq).2 ▸ List.mem_append_right _ List.mem_cons_self) hletter

/-- A comment or a literal. -/
theorem append_token {tail : Text} (htoken : tokenTail? before c (tail ++ text) = some tail.length)
    (hletter : c ≠ 'g') (htext : CallFree (tail.reverse ++ c :: before) text) :
    CallFree before (c :: (tail ++ text)) := by
  have hscan : Scans before (c :: tail) text := by
    have h := @Scans.token before tail [] text c htoken .done
    rwa [List.append_nil] at h
  refine append (c :: tail) hscan (fun first more heq hmore hfirst htag => ?_)
    (by simpa using htext)
  cases first with
  | nil =>
    rw [List.nil_append] at heq
    rw [← heq] at htag
    obtain ⟨rest, hrest⟩ := htag
    exact absurd (List.cons.inj hrest).1.symm hletter
  | cons d first =>
    -- the walk cannot come to a place within the token
    rw [List.cons_append] at heq
    obtain ⟨rfl, rfl⟩ := List.cons.inj heq
    rw [List.append_assoc] at htoken
    rcases hfirst.cons_cases with ⟨hnone, -⟩ | ⟨tail, rest, rfl, htoken', -⟩
    · cases htoken.symm.trans hnone
    · have hlength := Option.some.inj (htoken.symm.trans htoken')
      have hpos := List.length_pos_iff.2 hmore
      simp only [List.length_append] at hlength
      omega

end CallFree

end PersistedQueries.CallSite
