import PersistedQueries.Proofs.CallSite.Gaps

/-!
# Import statements around a gap

An import statement is read by steps that each leave a rest of the text. Two texts that are the same but for
what stands in a gap leave the same rests: as long as a rest begins in front of the gap, where the text ends
with a mark that no step passes over, and also behind the gap. A step can get there only through the braces
of a clause or the quotes around a specifier, and both go on up to a closing mark that does not stand in the
gap.

- `Same`, `Agree`: what is left of two such texts, and what has been read of them.
- `Same.rel_afterWord?`, `Same.rel_nameEnds`, `Same.rel_clauseEnds` and others: one lemma for each step.
- `ImportShape.seam`: a gap for import statements.
-/

namespace PersistedQueries.CallSite

open Text (isBlank)

variable {mark : Char} {gap other behind : Text} {x y : Text}

/-! ## Texts around a gap -/

/-- What is left of two texts that are the same but for what stands in a gap, from the same place on: a place
in front of the gap and of the mark before it, or one behind the gap. -/
inductive Same (mark : Char) (gap other behind : Text) : Text → Text → Prop where
  | front (front : Text) :
      Same mark gap other behind (front ++ mark :: (gap ++ behind)) (front ++ mark :: (other ++ behind))
  | behind (rest : Text) (suffix : rest <:+ behind) : Same mark gap other behind rest rest

/-- What has been read of two such texts, and what is left of them. In front of the gap the same has been
read. -/
structure Agree {α β : Type} (mark : Char) (gap other behind : Text) (read : α → β) (rest : α → Text)
    (a b : α) : Prop where
  same : Same mark gap other behind (rest a) (rest b)
  read_eq : behind.length < (rest a).length → read a = read b

/-- A run that goes on over a gap goes on behind it. -/
theorem dropWhile_append_gap {p : Char → Bool} (hgap : ∀ c ∈ gap, p c = true) (behind : Text) :
    (gap ++ behind).dropWhile p = behind.dropWhile p :=
  List.dropWhile_append_of_pos hgap

/-! ## Steps -/

theorem rel_bind {α β γ δ : Type} {r : α → β → Prop} {s : γ → δ → Prop} {a : Option α} {b : Option β}
    {f : α → Option γ} {g : β → Option δ} (h : Option.Rel r a b)
    (hf : ∀ x y, a = some x → r x y → Option.Rel s (f x) (g y)) : Option.Rel s (a.bind f) (b.bind g) := by
  cases h with
  | some h => exact hf _ _ rfl h
  | none => exact .none

theorem rel_map {α β γ δ : Type} {r : α → β → Prop} {s : γ → δ → Prop} {a : Option α} {b : Option β}
    {f : α → γ} {g : β → δ} (h : Option.Rel r a b)
    (hf : ∀ x y, a = some x → b = some y → r x y → s (f x) (g y)) :
    Option.Rel s (a.map f) (b.map g) := by
  cases h with
  | some h => exact .some (hf _ _ rfl rfl h)
  | none => exact .none

theorem rel_findSome? {α β γ δ : Type} {r : α → β → Prop} {s : γ → δ → Prop} {l : List α} {l' : List β}
    {f : α → Option γ} {g : β → Option δ} (h : List.Forall₂ r l l')
    (hf : ∀ a ∈ l, ∀ b, r a b → Option.Rel s (f a) (g b)) :
    Option.Rel s (l.findSome? f) (l'.findSome? g) := by
  induction h with
  | nil => exact .none
  | @cons a b l l' hab _ ih =>
    -- the first from which something is read stands at the same place of both lists
    rw [List.findSome?_cons, List.findSome?_cons]
    have hfirst := hf a List.mem_cons_self b hab
    generalize f a = x at hfirst
    generalize g b = y at hfirst
    cases hfirst with
    | some h => exact .some h
    | none => exact ih fun a ha => hf a (List.mem_cons_of_mem _ ha)

namespace Same

/-- What is read behind the gap is the same. -/
theorem rel_self {found : Option Text} (h : ∀ rest, found = some rest → rest <:+ behind) :
    Option.Rel (Same mark gap other behind) found found := by
  cases found with
  | none => exact .none
  | some rest => exact .some (.behind rest (h rest rfl))

/-- What is left behind the gap is the same. -/
theorem eq_of_length_le (h : Same mark gap other behind x y) (hle : x.length ≤ behind.length) : y = x := by
  cases h with
  | front front =>
    simp only [List.length_append, List.length_cons] at hle
    omega
  | behind => rfl

theorem head?_eq (h : Same mark gap other behind x y) : y.head? = x.head? := by
  cases h with
  | front front => cases front <;> rfl
  | behind => rfl

theorem dropWhile {p : Char → Bool} (hp : p mark = false) (h : Same mark gap other behind x y) :
    Same mark gap other behind (x.dropWhile p) (y.dropWhile p) := by
  cases h with
  | front front =>
    rw [dropWhile_append_mark hp, dropWhile_append_mark hp]
    exact .front _
  | behind rest hsuffix => exact .behind _ ((List.dropWhile_suffix p).trans hsuffix)

theorem takeWhile_eq {p : Char → Bool} (hp : p mark = false) (h : Same mark gap other behind x y) :
    y.takeWhile p = x.takeWhile p := by
  cases h with
  | front front => rw [takeWhile_append_cons hp, takeWhile_append_cons hp]
  | behind => rfl

/-- A part of a run is taken off. -/
theorem drop {p : Char → Bool} (hp : p mark = false) {n : Nat} (hn : n ≤ (x.takeWhile p).length)
    (h : Same mark gap other behind x y) : Same mark gap other behind (x.drop n) (y.drop n) := by
  cases h with
  | front front =>
    rw [takeWhile_append_cons hp] at hn
    have hle := hn.trans (List.takeWhile_prefix p).length_le
    rw [List.drop_append_of_le_length hle, List.drop_append_of_le_length hle]
    exact .front _
  | behind rest hsuffix => exact .behind _ ((List.drop_suffix n _).trans hsuffix)

theorem rel_afterWord? {word : Text} (hmark : mark ∉ word) (h : Same mark gap other behind x y) :
    Option.Rel (Same mark gap other behind) (afterWord? word x) (afterWord? word y) := by
  cases h with
  | behind rest hsuffix => exact rel_self fun rest hrest => (suffix_of_afterWord? hrest).trans hsuffix
  | front front =>
    by_cases hprefix : word <+: front
    · obtain ⟨front, rfl⟩ := hprefix
      rw [List.append_assoc, List.append_assoc, afterWord?_append, afterWord?_append]
      exact .some (.front front)
    · -- the word would have to go on over the mark
      have hnone (tail : Text) : afterWord? word (front ++ mark :: tail) = none := by
        refine Option.eq_none_iff_forall_ne_some.2 fun rest hrest => ?_
        rcases List.append_eq_append_iff.1 (afterWord?_eq_some_iff.1 hrest) with
          ⟨more, rfl, hmore⟩ | ⟨more, rfl, -⟩
        · cases more with
          | nil => exact hprefix (by simp)
          | cons c more =>
            obtain ⟨rfl, -⟩ := List.cons.inj hmore
            exact hmark (List.mem_append_right _ List.mem_cons_self)
        · exact hprefix (List.prefix_append word more)
      rw [hnone, hnone]
      exact .none

theorem rel_blanks? (hblank : isBlank mark = false) (h : Same mark gap other behind x y) :
    Option.Rel (Same mark gap other behind) (blanks? x) (blanks? y) := by
  have heq (text : Text) : blanks? text =
      if text.head?.any isBlank then some (text.dropWhile isBlank) else none := by
    cases text with
    | nil => rfl
    | cons c text =>
      rw [blanks?, List.head?_cons, Option.any_some]
      split
      · next hc => rw [List.dropWhile_cons_of_pos hc]
      · rfl
  rw [heq, heq, h.head?_eq]
  split
  · exact .some (h.dropWhile hblank)
  · exact .none

theorem rel_nameEnds (hname : isNameChar mark = false) (h : Same mark gap other behind x y) :
    List.Forall₂ (Same mark gap other behind) (nameEnds x) (nameEnds y) := by
  rw [nameEnds, nameEnds, h.takeWhile_eq hname, List.forall₂_map_left_iff,
    List.forall₂_map_right_iff, List.forall₂_same]
  intro n hn
  exact h.drop hname (List.mem_range.1 (List.mem_reverse.1 hn))

theorem rel_namespaceEnds (hname : isNameChar mark = false) (hblank : isBlank mark = false)
    (hstar : mark ≠ '*') (h : Same mark gap other behind x y) :
    List.Forall₂ (Same mark gap other behind) (namespaceEnds x)
      (namespaceEnds y) := by
  have has : mark ∉ "as".toList := not_mem_of_forall hname (List.all_eq_true.1 (by decide))
  have hstar' : Option.Rel (Same mark gap other behind) (afterWord? ['*'] x) (afterWord? ['*'] y) :=
    h.rel_afterWord? (by simpa using hstar)
  unfold namespaceEnds
  generalize afterWord? ['*'] x = a at hstar'
  generalize afterWord? ['*'] y = b at hstar'
  cases hstar' with
  | none => exact .nil
  | @some a b hab =>
    have hspace : Option.Rel (Same mark gap other behind)
        (afterWord? "as".toList (a.dropWhile isBlank) >>= blanks?)
        (afterWord? "as".toList (b.dropWhile isBlank) >>= blanks?) :=
      rel_bind ((hab.dropWhile hblank).rel_afterWord? has) fun _ _ _ hab => hab.rel_blanks? hblank
    dsimp only
    generalize afterWord? "as".toList (a.dropWhile isBlank) >>= blanks? = c at hspace
    generalize afterWord? "as".toList (b.dropWhile isBlank) >>= blanks? = d at hspace
    cases hspace with
    | none => exact .nil
    | some hcd => exact hcd.rel_nameEnds hname

theorem rel_defaultEnd? (hname : isNameChar mark = false) (hblank : isBlank mark = false)
    (hcomma : mark ≠ ',') (h : Same mark gap other behind x y) :
    Option.Rel (Same mark gap other behind) (defaultEnd? x) (defaultEnd? y) := by
  unfold defaultEnd?
  dsimp only
  rw [h.takeWhile_eq hname]
  split
  · exact .none
  · refine rel_bind (((h.drop hname le_rfl).dropWhile hblank).rel_afterWord? (by simpa using hcomma)) ?_
    exact fun _ _ _ hab => .some (hab.dropWhile hblank)

/-- A run over the mark and the gap ends in front of them or behind them. -/
theorem dropWhile_of_pos {p : Char → Bool} (hp : p mark = true) (hgap : ∀ c ∈ gap, p c = true)
    (hother : ∀ c ∈ other, p c = true) (h : Same mark gap other behind x y) :
    Same mark gap other behind (x.dropWhile p) (y.dropWhile p) := by
  cases h with
  | behind rest hsuffix => exact .behind _ ((List.dropWhile_suffix p).trans hsuffix)
  | front front =>
    rw [List.dropWhile_append, List.dropWhile_append]
    split
    · rw [List.dropWhile_cons_of_pos hp, List.dropWhile_cons_of_pos hp, dropWhile_append_gap hgap,
        dropWhile_append_gap hother]
      exact .behind _ (List.dropWhile_suffix p)
    · exact .front _

/-- Braces may have the gap between them, also right behind the opening one. -/
theorem rel_bracedEnd? (hclose : mark ≠ '\x7d') (hgap : '\x7d' ∉ gap) (hother : '\x7d' ∉ other)
    (h : Same mark gap other behind x y) :
    Option.Rel (Same mark gap other behind) (bracedEnd? x) (bracedEnd? y) := by
  have hapart {text : Text} (htext : '\x7d' ∉ text) : ∀ c ∈ text, decide (c ≠ '\x7d') = true := by
    intro c hc
    rw [decide_eq_true_eq]
    rintro rfl
    exact htext hc
  have hopen (text : Text) : bracedEnd? ('\x7b' :: text) =
      afterWord? ['\x7d'] (text.dropWhile (· ≠ '\x7d')) := by
    rw [bracedEnd?, show afterWord? ['\x7b'] ('\x7b' :: text) = some text from afterWord?_append _ text]
    rfl
  have hnone {c : Char} (hc : c ≠ '\x7b') (text : Text) : bracedEnd? (c :: text) = none :=
    bracedEnd?_eq_none fun h => hc (Option.some.inj h)
  cases h with
  | behind rest hsuffix => exact rel_self fun rest hrest => (suffix_of_bracedEnd? hrest).trans hsuffix
  | front front =>
    cases front with
    | nil =>
      -- the mark may be the brace that opens
      rw [List.nil_append, List.nil_append]
      by_cases hmark : mark = '\x7b'
      · rw [hmark, hopen, hopen, dropWhile_append_gap (hapart hgap), dropWhile_append_gap (hapart hother)]
        exact rel_self fun rest hrest => (suffix_of_afterWord? hrest).trans (List.dropWhile_suffix _)
      · rw [hnone hmark, hnone hmark]
        exact .none
    | cons c front =>
      rw [List.cons_append, List.cons_append]
      by_cases hc : c = '\x7b'
      · rw [hc, hopen, hopen]
        exact ((Same.front front).dropWhile_of_pos (by simpa using hclose) (hapart hgap)
          (hapart hother)).rel_afterWord? (by simpa using hclose)
      · rw [hnone hc, hnone hc]
        exact .none

theorem rel_clauseEnds (hname : isNameChar mark = false) (hblank : isBlank mark = false)
    (hmark : mark ∉ "*,\x7d".toList) (hgap : '\x7d' ∉ gap) (hother : '\x7d' ∉ other)
    (h : Same mark gap other behind x y) :
    List.Forall₂ (Same mark gap other behind) (clauseEnds x) (clauseEnds y) := by
  have hstar : mark ≠ '*' := fun h => hmark (h ▸ by decide)
  have hcomma : mark ≠ ',' := fun h => hmark (h ▸ by decide)
  have hclose : mark ≠ '\x7d' := fun h => hmark (h ▸ by decide)
  have hlist {a b : Option Text} (h : Option.Rel (Same mark gap other behind) a b) :
      List.Forall₂ (Same mark gap other behind) a.toList b.toList := by
    cases h with
    | some h => exact .cons h .nil
    | none => exact .nil
  have hdefault := h.rel_defaultEnd? hname hblank hcomma
  unfold clauseEnds
  refine List.rel_append (List.rel_append (List.rel_append (List.rel_append ?_ ?_) ?_) ?_) ?_
  · exact h.rel_namespaceEnds hname hblank hstar
  · exact hlist (rel_bind hdefault fun _ _ _ hab => hab.rel_bracedEnd? hclose hgap hother)
  · generalize defaultEnd? x = a at hdefault
    generalize defaultEnd? y = b at hdefault
    cases hdefault with
    | none => exact .nil
    | some hab => exact hab.rel_namespaceEnds hname hblank hstar
  · exact h.rel_nameEnds hname
  · exact hlist (h.rel_bracedEnd? hclose hgap hother)

end Same

/-! ## Specifiers -/

/-- The specifier between quotes at the front of a text, and the text behind it. -/
def quoted? (text : Text) : Option (Text × Text) :=
  match text with
  | [] => none
  | quote :: rest =>
    if !isQuote quote || (rest.takeWhile fun c => !isQuote c).isEmpty then none
    else (rest.dropWhile fun c => !isQuote c).tail?.map fun behind =>
      (rest.takeWhile fun c => !isQuote c, behind)

theorem fromClause?_eq (text : Text) : fromClause? text =
    (afterWord? "from".toList (text.dropWhile isBlank)).bind fun text =>
      quoted? (text.dropWhile isBlank) := by
  unfold fromClause?
  refine congrArg (Option.bind _) (funext fun text => ?_)
  cases text.dropWhile isBlank with
  | nil => rfl
  | cons quote rest =>
    dsimp only
    rw [quoted?, GraphQL.drop_length_takeWhile]
    cases isQuote quote with
    | false => rfl
    | true =>
      cases (rest.takeWhile fun c => !isQuote c).isEmpty with
      | true => rfl
      | false => cases rest.dropWhile fun c => !isQuote c <;> rfl

theorem suffix_of_quoted? {text : Text} {found : Text × Text} (h : quoted? text = some found) :
    found.2 <:+ text := by
  cases text with
  | nil => cases h
  | cons quote rest =>
    rw [quoted?] at h
    split at h
    · cases h
    · obtain ⟨behind, hbehind, rfl⟩ := Option.map_eq_some_iff.1 h
      have hdrop : behind <:+ rest.dropWhile fun c => !isQuote c := by
        cases hrest : rest.dropWhile fun c => !isQuote c with
        | nil =>
          rw [hrest] at hbehind
          cases hbehind
        | cons c text =>
          rw [hrest] at hbehind
          exact Option.some.inj hbehind ▸ List.suffix_cons c text
      exact hdrop.trans ((List.dropWhile_suffix _).trans (List.suffix_cons quote rest))

/-- What is read behind the gap is the same. -/
theorem Agree.rel_self {α β : Type} {read : α → β} {rest : α → Text} {found : Option α}
    (h : ∀ a, found = some a → rest a <:+ behind) :
    Option.Rel (Agree mark gap other behind read rest) found found := by
  cases found with
  | none => exact .none
  | some a => exact .some ⟨.behind _ (h a rfl), fun _ => rfl⟩

/-- A rest behind the gap agrees with itself, whatever has been read. -/
theorem Agree.of_suffix {α β : Type} {read : α → β} {rest : α → Text} {a b : α}
    (h : rest a <:+ behind) (heq : rest b = rest a) : Agree mark gap other behind read rest a b :=
  ⟨heq.symm ▸ .behind _ h, fun hlt => absurd h.length_le (Nat.not_le_of_lt hlt)⟩

/-- What stands between quotes is read. -/
theorem quoted?_append {quote quote' : Char} {run : Text} (hquote : isQuote quote = true)
    (hrun : ∀ c ∈ run, isQuote c = false) (hquote' : isQuote quote' = true) (rest : Text) :
    quoted? (quote :: (run ++ quote' :: rest)) = if run.isEmpty then none else some (run, rest) := by
  have hpass : ∀ c ∈ run, (!isQuote c) = true := fun c hc => by rw [hrun c hc]; rfl
  have hstop : GraphQL.Ends (fun c => !isQuote c) (quote' :: rest) :=
    GraphQL.ends_cons.2 (by rw [hquote']; rfl)
  rw [quoted?, GraphQL.takeWhile_append_of_ends hpass hstop, dropWhile_append_of_ends hpass hstop, hquote]
  rfl

/-- A quote that is not closed is not read. -/
theorem quoted?_eq_none {quote : Char} {run : Text} (hrun : ∀ c ∈ run, isQuote c = false) :
    quoted? (quote :: run) = none := by
  have hdrop : run.dropWhile (fun c => !isQuote c) = [] :=
    List.dropWhile_eq_nil_iff.2 fun c hc => by rw [hrun c hc]; rfl
  rw [quoted?, hdrop]
  split <;> rfl

/-- Every text has no quote in it, or goes on up to its first one. -/
theorem exists_quote (text : Text) : (∀ c ∈ text, isQuote c = false) ∨
    ∃ run quote rest, text = run ++ quote :: rest ∧ (∀ c ∈ run, isQuote c = false) ∧
      isQuote quote = true := by
  obtain ⟨run, htext, hrun⟩ := exists_run (fun c => !isQuote c) text
  have hends := GraphQL.ends_dropWhile (fun c => !isQuote c) text
  have hrun' : ∀ c ∈ run, isQuote c = false := fun c hc => by simpa using hrun c hc
  generalize text.dropWhile (fun c => !isQuote c) = rest at htext hends
  cases rest with
  | nil =>
    rw [List.append_nil] at htext
    exact .inl (htext ▸ hrun')
  | cons quote rest => exact .inr ⟨run, quote, rest, htext, hrun', by simpa using GraphQL.ends_cons.1 hends⟩

/-- Quotes may have the gap between them. -/
theorem Same.rel_quoted? (hmark : isQuote mark = false) (hgap : ∀ c ∈ gap, isQuote c = false)
    (hother : ∀ c ∈ other, isQuote c = false) (h : Same mark gap other behind x y) :
    Option.Rel (Agree mark gap other behind Prod.fst Prod.snd) (quoted? x) (quoted? y) := by
  have hnone {c : Char} (hc : isQuote c = false) (rest : Text) : quoted? (c :: rest) = none := by
    rw [quoted?, hc]
    rfl
  cases h with
  | behind rest hsuffix => exact Agree.rel_self fun found h => (suffix_of_quoted? h).trans hsuffix
  | front front =>
    cases front with
    | nil =>
      rw [List.nil_append, List.nil_append, hnone hmark, hnone hmark]
      exact .none
    | cons c front =>
      rw [List.cons_append, List.cons_append]
      by_cases hc : isQuote c = true
      · rcases exists_quote front with hfront | ⟨run, quote, rest, rfl, hrun, hquote⟩
        · -- the specifier goes on over the gap
          have hover {gap : Text} (hgap : ∀ c ∈ gap, isQuote c = false) :
              ∀ c ∈ front ++ mark :: gap, isQuote c = false := by
            rw [List.forall_mem_append, List.forall_mem_cons]
            exact ⟨hfront, hmark, hgap⟩
          have hsplit (gap rest : Text) : front ++ mark :: (gap ++ rest) = (front ++ mark :: gap) ++ rest := by
            simp
          rw [hsplit, hsplit]
          rcases exists_quote behind with hbehind | ⟨run, quote, rest, rfl, hrun, hquote⟩
          · rw [quoted?_eq_none (List.forall_mem_append.2 ⟨hover hgap, hbehind⟩),
              quoted?_eq_none (List.forall_mem_append.2 ⟨hover hother, hbehind⟩)]
            exact .none
          · rw [← List.append_assoc, ← List.append_assoc (front ++ mark :: other),
              quoted?_append hc (List.forall_mem_append.2 ⟨hover hgap, hrun⟩) hquote,
              quoted?_append hc (List.forall_mem_append.2 ⟨hover hother, hrun⟩) hquote, if_neg (by simp),
              if_neg (by simp)]
            exact .some (Agree.of_suffix ⟨run ++ [quote], by simp⟩ rfl)
        · rw [List.append_assoc, List.append_assoc, List.cons_append, List.cons_append,
            quoted?_append hc hrun hquote, quoted?_append hc hrun hquote]
          split
          · exact .none
          · exact .some ⟨.front rest, fun _ => rfl⟩
      · rw [hnone (by simpa using hc), hnone (by simpa using hc)]
        exact .none

theorem Same.rel_fromClause? (hname : isNameChar mark = false) (hblank : isBlank mark = false)
    (hmark : isQuote mark = false) (hgap : ∀ c ∈ gap, isQuote c = false)
    (hother : ∀ c ∈ other, isQuote c = false) (h : Same mark gap other behind x y) :
    Option.Rel (Agree mark gap other behind Prod.fst Prod.snd) (fromClause? x) (fromClause? y) := by
  have hword : mark ∉ "from".toList := not_mem_of_forall hname (List.all_eq_true.1 (by decide))
  rw [fromClause?_eq, fromClause?_eq]
  exact rel_bind ((h.dropWhile hblank).rel_afterWord? hword) fun _ _ _ hab =>
    (hab.dropWhile hblank).rel_quoted? hmark hgap hother

/-! ## Statements -/

/-- What is taken in front of the gap is the same. -/
theorem Same.take_eq {rest rest' : Text} (h : Same mark gap other behind x y)
    (hrest : Same mark gap other behind rest rest') (hlength : behind.length < rest.length)
    (hle : rest.length ≤ x.length) :
    x.take (x.length - rest.length) = y.take (y.length - rest'.length) := by
  cases hrest with
  | behind rest hsuffix => exact absurd hsuffix.length_le (Nat.not_le_of_lt hlength)
  | front front' =>
    cases h with
    | behind x hsuffix => exact absurd (hle.trans hsuffix.length_le) (Nat.not_le_of_lt hlength)
    | front front =>
      have hcut (tail : Text) : (front ++ tail).take ((front ++ tail).length - (front' ++ tail).length) =
          front.take (front.length - front'.length) := by
        rw [List.length_append, List.length_append, Nat.add_sub_add_right,
          List.take_append_of_le_length (Nat.sub_le _ _)]
      rw [hcut, hcut]

/-- What a statement must have in a gap, and what not: a mark that no step passes over in front of it, and
no closing brace and no quote in it. -/
structure Passable (mark : Char) (gap : Text) : Prop where
  isNameChar_eq : isNameChar mark = false
  isBlank_eq : isBlank mark = false
  isQuote_eq : isQuote mark = false
  not_mem_marks : mark ∉ "*,\x7d".toList
  not_mem : '\x7d' ∉ gap
  isQuote_of_mem : ∀ c ∈ gap, isQuote c = false

theorem Same.rel_clause? (hgap : Passable mark gap) (hother : Passable mark other)
    (h : Same mark gap other behind x y) :
    Option.Rel (Agree mark gap other behind (fun found => (found.1, found.2.1)) fun found => found.2.2)
      (clause? x) (clause? y) := by
  obtain ⟨hname, hblank, hquote, hmarks, hbrace, hquotes⟩ := hgap
  refine rel_findSome? (h.rel_clauseEnds hname hblank hmarks hbrace hother.not_mem)
    fun rest hrest rest' hsame => ?_
  refine rel_map (hsame.rel_fromClause? hname hblank hquote hquotes hother.isQuote_of_mem)
    fun found found' hfound _ hagree => ⟨hagree.same, fun hlt => ?_⟩
  -- the clause is what has been taken off, which is the same in front of the gap
  have hsuffix : found.2 <:+ rest := suffix_of_fromClause? hfound
  exact Prod.ext (h.take_eq hsame (hlt.trans_le hsuffix.length_le)
    (passes_of_mem_clauseEnds hrest).suffix.length_le) (hagree.read_eq hlt)

theorem rel_or {α : Type} {r : α → α → Prop} {a b c d : Option α} (h : Option.Rel r a b)
    (h' : Option.Rel r c d) : Option.Rel r (a.or c) (b.or d) := by
  cases h with
  | some h => exact .some h
  | none => exact h'

/-- The clause of a statement, with or without a modifier in front of it, and its specifier. -/
def statement? (text : Text) : Option (Text × Text × Text) :=
  ((afterWord? "import".toList text).bind blanks?).bind fun rest =>
    (((afterWord? "type".toList rest).bind blanks?).bind clause?).or (clause? rest)

/-- A word of the syntax and the white space behind it are taken off. -/
theorem Same.rel_word {word : Text} (hgap : Passable mark gap) (hword : word.all isNameChar = true)
    (h : Same mark gap other behind x y) : Option.Rel (Same mark gap other behind)
      ((afterWord? word x).bind blanks?) ((afterWord? word y).bind blanks?) :=
  rel_bind (h.rel_afterWord? (not_mem_of_forall hgap.isNameChar_eq (List.all_eq_true.1 hword))) fun _ _ _ h =>
    h.rel_blanks? hgap.isBlank_eq

theorem Same.rel_statement? (hgap : Passable mark gap) (hother : Passable mark other)
    (h : Same mark gap other behind x y) :
    Option.Rel (Agree mark gap other behind (fun found => (found.1, found.2.1)) fun found => found.2.2)
      (statement? x) (statement? y) := by
  refine rel_bind (h.rel_word hgap (by decide)) fun a b _ hab => rel_or ?_ (hab.rel_clause? hgap hother)
  exact rel_bind (hab.rel_word hgap (by decide)) fun _ _ _ h => h.rel_clause? hgap hother

/-- A statement is what is read of it, and as long as what is left says. -/
theorem ImportShape.match?_eq_statement? (text : Text) :
    ImportShape.match? text = (statement? text).map fun found =>
      ⟨found.1, found.2.1, text.length - found.2.2.length⟩ := by
  rw [ImportShape.match?_eq, statement?, Option.map_bind]
  rfl

/-- A statement that is read from in front of a gap ends in front of it, and is the same whatever stands in
the gap, or ends at the same place behind it. -/
theorem ImportShape.match?_around (hgap : Passable mark gap) (hother : Passable mark other)
    {front : Text} {found : ImportShape}
    (h : ImportShape.match? (front ++ mark :: (gap ++ behind)) = some found) :
    (found.length ≤ front.length ∧
        ImportShape.match? (front ++ mark :: (other ++ behind)) = some found) ∨
      ∃ n ≤ behind.length, found.length = front.length + 1 + gap.length + n ∧
        ∃ found', found'.length = front.length + 1 + other.length + n ∧
          ImportShape.match? (front ++ mark :: (other ++ behind)) = some found' := by
  have hlength (gap : Text) : (front ++ mark :: (gap ++ behind)).length =
      front.length + 1 + gap.length + behind.length := by
    simp only [List.length_append, List.length_cons]
    omega
  have hsame : Same mark gap other behind _ _ := .front front
  have hread := hsame.rel_statement? hgap hother
  rw [ImportShape.match?_eq_statement?] at h ⊢
  obtain ⟨read, hx, rfl⟩ := Option.map_eq_some_iff.1 h
  rw [hx] at hread
  cases hy : statement? (front ++ mark :: (other ++ behind)) with
  | none =>
    rw [hy] at hread
    cases hread
  | some read' =>
    rw [hy] at hread
    obtain ⟨hsame, heq⟩ : Agree _ _ _ _ _ _ _ _ := by cases hread; assumption
    obtain ⟨clause, specifier, rest⟩ := read
    obtain ⟨clause', specifier', rest'⟩ := read'
    rw [Option.map_some]
    dsimp only at hsame heq ⊢
    rw [hlength, hlength]
    cases hsame with
    | front left =>
      -- it ends in front of the gap, where the same has been read
      have hleft (gap : Text) : (left ++ mark :: (gap ++ behind)).length =
          left.length + 1 + gap.length + behind.length := by
        simp only [List.length_append, List.length_cons]
        omega
      obtain ⟨rfl, rfl⟩ := Prod.mk.inj (heq (by rw [hleft]; omega))
      refine .inl ⟨?_, congrArg some ?_⟩
      · rw [hleft]
        omega
      · rw [hleft, hleft, ImportShape.mk.injEq]
        exact ⟨rfl, rfl, by omega⟩
    | behind rest hsuffix =>
      have hle := hsuffix.length_le
      refine .inr ⟨behind.length - rest.length, Nat.sub_le _ _, ?_, _, ?_, rfl⟩
      · omega
      · dsimp only
        omega

/-- A gap for statements. -/
theorem ImportShape.seam {Fits : Text → Prop} (hfits : ∀ {gap}, Fits gap → Passable mark gap)
    (hsilent : ∀ {gap}, Fits gap → ∀ first more, gap = first ++ more → more ≠ [] →
      ImportShape.match? (more ++ behind) = none) :
    Seam ImportShape.match? ImportShape.length (fun _ => ()) mark Fits behind where
  silent := hsilent
  ends {front gap found} hlast hgap hfound := by
    obtain ⟨front, rfl⟩ := List.getLast?_eq_some_iff.1 hlast
    have hassoc (gap : Text) : front ++ [mark] ++ (gap ++ behind) = front ++ mark :: (gap ++ behind) := by
      simp
    rw [hassoc] at hfound
    rw [List.length_append, List.length_singleton]
    have haround {other : Text} (hother : Fits other) :=
      ImportShape.match?_around (hfits hgap) (hfits hother) hfound
    by_cases hle : found.length ≤ front.length
    · refine .inl ⟨hle.trans (Nat.le_succ _), fun other hother => ?_⟩
      rcases haround hother with ⟨-, hread⟩ | ⟨n, -, hlength, -⟩
      · rw [hassoc, hread]
      · omega
    · obtain ⟨n, hn, hlength⟩ : ∃ n ≤ behind.length,
          found.length = front.length + 1 + gap.length + n := by
        rcases haround hgap with ⟨hle', -⟩ | ⟨n, hn, hlength, -⟩
        · exact absurd hle' hle
        · exact ⟨n, hn, hlength⟩
      refine .inr ⟨n, hn, fun other hother => ?_⟩
      rcases haround hother with ⟨hle', -⟩ | ⟨n', -, hlength', found', hfound', hread⟩
      · exact absurd hle' hle
      · obtain rfl : n = n' := by omega
        exact ⟨found', rfl, hfound', by rw [hassoc, hread]⟩

end PersistedQueries.CallSite
