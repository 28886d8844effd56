import PersistedQueries.Proofs.CallSite.Imports

/-!
# Calls around a gap

A part of a text is exchanged: the interior of a list, or the words of a comment. What calls can be read from
in front of that part? A call that reaches over it has the part in its document or in its list of
dependencies. Both go on up to a closing mark, whatever stands in front of it. So if the closing marks do not
stand in the part, the call ends at the same place behind it.

- `exists_of_not_mem`, `exists_of_run`: a text is cut at a gap and at a mark.
- `CallShape.match?_eq_none`: where no call can be read.
- `CallShape.seam`: a gap for calls.
-/

namespace PersistedQueries.CallSite

open Text (isBlank)

variable {mark : Char} {behind : Text}

/-! ## Cutting a text in two ways -/

/-- What does not have the mark in it, with which a text ends, stands in front in that text. -/
theorem exists_of_not_mem {front tail part rest : Text} (hmark : mark ∉ part)
    (hlast : front.getLast? = some mark) (h : front ++ tail = part ++ rest) :
    ∃ more, front = part ++ more ∧ more.getLast? = some mark ∧ more ++ tail = rest := by
  rcases List.append_eq_append_iff.1 h with ⟨more, rfl, -⟩ | ⟨more, rfl, rfl⟩
  · exact absurd (List.mem_append_left more (List.mem_of_getLast? hlast)) hmark
  · refine ⟨more, rfl, ?_, rfl⟩
    rw [List.getLast?_append] at hlast
    cases hmore : more.getLast? with
    | none =>
      rw [hmore, Option.none_or] at hlast
      exact absurd (List.mem_of_getLast? hlast) hmark
    | some c => rwa [hmore, Option.some_or] at hlast

/-- A run up to its closing mark ends in front of a gap without that mark, or goes on behind the gap. -/
theorem exists_of_run {front gap run rest : Text} {close : Char} (hgap : close ∉ gap)
    (hrun : close ∉ run) (h : front ++ (gap ++ behind) = run ++ close :: rest) :
    (∃ more, front = run ++ close :: more ∧ more ++ (gap ++ behind) = rest) ∨
      ∃ more, run = front ++ (gap ++ more) ∧ behind = more ++ close :: rest := by
  rcases List.append_eq_append_iff.1 h with ⟨more, rfl, hmore⟩ | ⟨more, rfl, hmore⟩
  · -- the run goes on at the gap
    rcases List.append_eq_append_iff.1 hmore with ⟨last, rfl, rfl⟩ | ⟨last, rfl, hlast⟩
    · exact .inr ⟨last, rfl, rfl⟩
    · cases last with
      | nil =>
        refine .inr ⟨[], by simp, ?_⟩
        simpa using hlast.symm
      | cons c last =>
        -- the closing mark would stand in the gap
        obtain ⟨rfl, -⟩ := List.cons.inj hlast
        exact absurd (List.mem_append_right more List.mem_cons_self) hgap
  · cases more with
    | nil =>
      cases gap with
      | nil =>
        refine .inr ⟨[], by simp, ?_⟩
        simpa using hmore.symm
      | cons c gap =>
        obtain ⟨rfl, -⟩ := List.cons.inj hmore
        exact absurd List.mem_cons_self hgap
    | cons c more =>
      obtain ⟨rfl, rfl⟩ := List.cons.inj hmore
      exact .inl ⟨more, rfl, rfl⟩

theorem getLast?_of_append_cons {front rest : Text} {c : Char} (hc : mark ≠ c)
    (h : (front ++ c :: rest).getLast? = some mark) : rest.getLast? = some mark := by
  rw [List.getLast?_append, List.getLast?_cons] at h
  cases hrest : rest.getLast? with
  | none =>
    rw [hrest] at h
    exact absurd (Option.some.inj h).symm hc
  | some d => rwa [hrest] at h

/-! ## Calls -/

theorem Opening.not_mem_text (hname : isNameChar mark = false) (hblank : isBlank mark = false)
    (hmark : mark ∉ "=(\x60".toList) (opening : Opening) : mark ∉ opening.text := by
  have hgap (gap : Gap) : mark ∉ gap.1 := fun hc => by
    have hmark := gap.2 mark hc
    simp only [isGap, Bool.or_eq_true, decide_eq_true_eq] at hmark
    rcases hmark with rfl | rfl <;> cases hblank
  have htag : mark ∉ tagCall := fun hc => by
    have hall : ∀ c ∈ tagCall, isNameChar c = true ∨ c = '(' := List.all_iff_forall_prop.1 (by decide)
    rcases hall mark hc with hc | rfl
    · cases hname.symm.trans hc
    · exact hmark (by decide)
  have hequals : mark ≠ '=' := fun h => hmark (h ▸ by decide)
  have hbacktick : mark ≠ '\x60' := fun h => hmark (h ▸ by decide)
  have hlead : mark ∉ opening.lead.1 := not_mem_of_forall hblank opening.lead.2
  simp [text, code, opening.name.not_mem hname, hgap, hequals, htag, hlead, hbacktick]

/-- A call that begins in front of the first backtick of a text has its opening there. -/
theorem CallShape.exists_code {run rest : Text} {shape : CallShape} (hrun : '\x60' ∉ run)
    (h : CallShape.match? (run ++ rest) = some shape) :
    ∃ (opening : Opening) (last literal : Text), opening.code = run ++ last ∧ rest = last ++ '\x60' :: literal := by
  obtain ⟨opening, ending, behind, htext, -⟩ := CallShape.match?_eq_some_iff.1 h
  rw [Opening.text, List.append_assoc, List.singleton_append] at htext
  rcases List.append_eq_append_iff.1 htext with ⟨last, hcode, hlast⟩ | ⟨last, hmore, hlast⟩
  · exact ⟨opening, last, _, hcode, hlast⟩
  · cases last with
    | nil => exact ⟨opening, [], _, by simpa using hmore.symm, by simpa using hlast.symm⟩
    | cons c last =>
      obtain ⟨rfl, -⟩ := List.cons.inj hlast
      exact absurd (hmore ▸ List.mem_append_right _ List.mem_cons_self) hrun

/-- No call can be read where a mark that stands in no opening comes in front of the first backtick. -/
theorem CallShape.match?_eq_none {run : Text} (hrun : '\x60' ∉ run) (hname : isNameChar mark = false)
    (hblank : isBlank mark = false) (hmark : mark ∉ "=(\x60".toList) (rest : Text) :
    CallShape.match? (run ++ mark :: rest) = none := by
  refine Option.eq_none_iff_forall_ne_some.2 fun shape hshape => ?_
  obtain ⟨opening, last, literal, hcode, hlast⟩ := CallShape.exists_code hrun hshape
  cases last with
  | nil =>
    obtain ⟨rfl, -⟩ := List.cons.inj hlast
    exact hmark (by decide)
  | cons c last =>
    obtain ⟨rfl, -⟩ := List.cons.inj hlast
    refine opening.not_mem_text hname hblank hmark (List.mem_append_left _ ?_)
    exact hcode ▸ List.mem_append_right run List.mem_cons_self

theorem Ending.not_mem_closing (hblank : isBlank mark = false) (hmark : mark ∉ ",)".toList)
    (ending : Ending) : mark ∉ ending.closing.1 ++ [')'] := by
  have hcomma : mark ≠ ',' := fun h => hmark (h ▸ by decide)
  have hparen : mark ≠ ')' := fun h => hmark (h ▸ by decide)
  rw [List.mem_append, List.mem_singleton, not_or]
  refine ⟨fun hc => ?_, hparen⟩
  have htrailer := ending.closing.2 mark hc
  simp [isTrailer, hblank, hcomma] at htrailer

/-- A call reaches over a gap, or ends in front of it. -/
theorem Ending.exists_of_back {ending : Ending} {front gap rest : Text} (hblank : isBlank mark = false)
    (hmark : mark ∉ ",)]".toList) (hlast : front.getLast? = some mark) (hgap : ']' ∉ gap)
    (h : front ++ (gap ++ behind) = ending.back ++ rest) :
    (∃ more, front = ending.back ++ more) ∨
      ∃ (list : Listing) (first more : Text), ending.list = some list ∧
        front = list.opening ++ first ∧ list.interior = first ++ (gap ++ more) ∧
        behind = more ++ ']' :: (ending.closing.1 ++ ([')'] ++ rest)) := by
  have hclosing := ending.not_mem_closing hblank fun h => hmark (by simp_all)
  have hcomma : mark ≠ ',' := fun h => hmark (h ▸ by decide)
  have hclose : mark ≠ ']' := fun h => hmark (h ▸ by decide)
  -- the mark can only stand in the list, or open it
  cases hlist : ending.list with
  | none =>
    rw [back, hlist] at h ⊢
    obtain ⟨more, rfl, -, -⟩ := exists_of_not_mem hclosing hlast h
    exact .inl ⟨more, rfl⟩
  | some list =>
    have hlead : mark ∉ list.behind.1 ++ (',' :: list.lead.1) := by
      rw [List.mem_append, List.mem_cons, not_or, not_or]
      exact ⟨not_mem_of_forall hblank list.behind.2, hcomma, not_mem_of_forall hblank list.lead.2⟩
    have hback : ending.back = (list.behind.1 ++ (',' :: list.lead.1)) ++ ('[' :: (list.interior ++
        ']' :: (ending.closing.1 ++ [')']))) := by
      simp [back, hlist, Listing.text, Listing.opening]
    rw [hback, List.append_assoc] at h
    obtain ⟨opened, rfl, hopened, h⟩ := exists_of_not_mem hlead hlast h
    obtain ⟨c, first, rfl⟩ := List.exists_cons_of_ne_nil (List.ne_nil_of_mem (List.mem_of_getLast? hopened))
    rw [List.cons_append, List.cons_append, List.append_assoc, List.cons_append] at h
    obtain ⟨rfl, hlist'⟩ := List.cons.inj h
    rcases exists_of_run hgap list.not_mem hlist' with ⟨last, rfl, hlast'⟩ | ⟨more, hinterior, hbehind⟩
    · rw [← List.cons_append] at hopened
      obtain ⟨more, rfl, -, -⟩ :=
        exists_of_not_mem hclosing (getLast?_of_append_cons hclose hopened) hlast'
      refine .inl ⟨more, ?_⟩
      rw [hback]
      simp
    · refine .inr ⟨list, first, more, rfl, ?_, hinterior, ?_⟩
      · simp [Listing.opening]
      · simpa using hbehind

/-- A call that ends in front of a gap does not depend on what fills it. -/
theorem CallShape.match?_in_front {front more : Text} {opening : Opening} {ending : Ending}
    (h : front = opening.text ++ (ending.text ++ more)) :
    (shapeOf opening ending).length ≤ front.length ∧
      ∀ rest, CallShape.match? (front ++ rest) = some (shapeOf opening ending) := by
  refine ⟨?_, fun rest => ?_⟩
  · simp only [shapeOf, h, List.length_append]
    omega
  · rw [h, List.append_assoc, List.append_assoc]
    exact CallShape.match?_append opening ending _

/-- A call over a gap has the same opening and ends with the same text, whatever fills the gap. -/
theorem CallShape.match?_over {front other last : Text} {opening : Opening} {ending : Ending}
    (h : front ++ (other ++ last) = opening.text ++ ending.text) (rest : Text) :
    ∃ found, found.name = opening.name.text ∧
      found.length = front.length + other.length + last.length ∧
      CallShape.match? (front ++ (other ++ (last ++ rest))) = some found := by
  refine ⟨shapeOf opening ending, rfl, ?_, ?_⟩
  · rw [shapeOf, ← h, List.length_append, List.length_append, Nat.add_assoc]
  · have hread := CallShape.match?_append opening ending rest
    rw [← List.append_assoc, ← h] at hread
    rw [← hread]
    simp only [List.append_assoc]

/-- A gap for calls: behind a mark that stands only in documents and in lists of dependencies, or opens
such a list, and without the marks that close them. -/
theorem CallShape.seam {Fits : Text → Prop} (hname : isNameChar mark = false)
    (hblank : isBlank mark = false) (hmark : mark ∉ "=(,\x60)]".toList)
    (hfits : ∀ {gap}, Fits gap → '\x60' ∉ gap ∧ ']' ∉ gap)
    (hsilent : ∀ {gap}, Fits gap → ∀ first more, gap = first ++ more → more ≠ [] →
      CallShape.match? (more ++ behind) = none) :
    Seam CallShape.match? CallShape.length CallShape.name mark Fits behind where
  silent := hsilent
  ends {front gap found} hlast hgap hfound := by
    obtain ⟨opening, ending, rest, htext, rfl⟩ := CallShape.match?_eq_some_iff.1 hfound
    obtain ⟨hbacktick, hbracket⟩ := hfits hgap
    have hmarks {marks : Text} (h : marks ⊆ "=(,\x60)]".toList) : mark ∉ marks := fun hmem =>
      hmark (h hmem)
    have hopen : mark ≠ '\x60' := fun h => hmark (h ▸ by decide)
    have hover (last : Text) (hbehind : behind = last ++ rest)
        (hsame : ∀ other, Fits other → ∃ ending' : Ending,
          front ++ (other ++ last) = opening.text ++ ending'.text) :
        ∃ n ≤ behind.length, ∀ other, Fits other → ∃ found', found'.name = opening.name.text ∧
          found'.length = front.length + other.length + n ∧
          CallShape.match? (front ++ (other ++ behind)) = some found' := by
      refine ⟨last.length, ?_, fun other hother => ?_⟩
      · rw [hbehind, List.length_append]
        exact Nat.le_add_right _ _
      · obtain ⟨ending', hending⟩ := hsame other hother
        exact hbehind ▸ CallShape.match?_over hending rest
    obtain ⟨literal, rfl, hliteral, hending⟩ :=
      exists_of_not_mem (opening.not_mem_text hname hblank (hmarks (by decide))) hlast htext
    rw [Ending.text, List.append_assoc, List.cons_append] at hending
    rcases exists_of_run hbacktick ending.not_mem hending with
      ⟨front, rfl, hback⟩ | ⟨more, hsource, hbehind⟩
    · have hfront := getLast?_of_append_cons hopen hliteral
      rcases Ending.exists_of_back hblank (hmarks (by decide)) hfront hbracket hback with
        ⟨more, rfl⟩ | ⟨list, first, more, hlist, rfl, hinterior, hbehind⟩
      · have hfront : opening.text ++ (ending.source ++ '\x60' :: (ending.back ++ more)) =
            opening.text ++ (ending.text ++ more) := by simp [Ending.text]
        obtain ⟨hle, hsame⟩ := CallShape.match?_in_front hfront
        exact .inl ⟨hle, fun other _ => hsame _⟩
      · -- over the list of dependencies
        refine .inr (hover (more ++ ']' :: (ending.closing.1 ++ [')'])) ?_ fun other hother => ?_)
        · simp [hbehind]
        · have hnot := list.not_mem
          rw [hinterior, List.mem_append, List.mem_append, not_or, not_or] at hnot
          have hclose : ']' ∉ first ++ (other ++ more) := by
            rw [List.mem_append, List.mem_append, not_or, not_or]
            exact ⟨hnot.1, (hfits hother).2, hnot.2.2⟩
          refine ⟨{ ending with list := some ⟨list.behind, list.lead, _, hclose⟩ }, ?_⟩
          simp [Ending.text, Ending.back, Listing.text, Listing.opening]
    · -- over the document
      refine .inr (hover (more ++ '\x60' :: ending.back) (by simp [hbehind]) fun other hother => ?_)
      have hnot := ending.not_mem
      rw [hsource, List.mem_append, List.mem_append, not_or, not_or] at hnot
      have hclose : '\x60' ∉ literal ++ (other ++ more) := by
        rw [List.mem_append, List.mem_append, not_or, not_or]
        exact ⟨hnot.1, (hfits hother).1, hnot.2.2⟩
      have hne : literal ++ (other ++ more) ≠ [] :=
        List.append_ne_nil_of_left_ne_nil (List.ne_nil_of_mem (List.mem_of_getLast? hliteral)) _
      refine ⟨{ ending with source := _, ne_nil := hne, not_mem := hclose }, ?_⟩
      simp [Ending.text, Ending.back]

end PersistedQueries.CallSite
