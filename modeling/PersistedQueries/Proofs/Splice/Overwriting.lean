import Mathlib.Data.List.Pairwise
import PersistedQueries.Proofs.Splice.Exactness

/-!
# Overwriting in any order

Overwrites come in any order, touch each other and the ends of the base, and are refused where
there is no room for them. What comes of them can be said by the overwrites that were accepted
alone: the edits are these in source order, and the text has every character of the base where it
was, but for those that were overwritten. So it does not matter in which order overwrites come that
share no character.

- `Overwrite`: what is asked of a splicer. `Overwrite.Within` says that its span is one of the base,
  `Overwrite.Meets` that two of them share a character.
- `Trial`: a splicer and the overwrites that it has accepted. A refused one leaves both as they are.
- `becomes`, `rewritten`: what each character of the base becomes, and the text of them all.
- `Trial.Sound`: the edits are the accepted overwrites. It holds of every run (`Trial.sound_run`).
- `Trial.Sound.text_eq`: the text of a splicer is the rewritten base.
- `Trial.splicer_run_perm`: overwrites that share no character lead to the same splicer in every
  order.
- `Trial.run_overwrites`: all of it, said of every base and every sequence of overwrites.
-/

namespace PersistedQueries.Splice

/-! ## Overwrites -/

/-- What is asked of a splicer: a span, which need not be one of the base, and the text that is to
take its place. -/
structure Overwrite where
  start : Int
  stop : Int
  content : Text
  deriving DecidableEq, Repr

namespace Overwrite

/-- The offset lies in the span. -/
def Covers (overwrite : Overwrite) (offset : Int) : Prop :=
  overwrite.start ≤ offset ∧ offset < overwrite.stop

/-- The spans share a character. -/
def Meets (overwrite other : Overwrite) : Prop :=
  ∃ offset, overwrite.Covers offset ∧ other.Covers offset

/-- The span has a character and lies within a text of a length. -/
def Within (length : Nat) (overwrite : Overwrite) : Prop :=
  0 ≤ overwrite.start ∧ overwrite.start < overwrite.stop ∧ overwrite.stop ≤ length

instance (length : Nat) (overwrite : Overwrite) : Decidable (overwrite.Within length) :=
  inferInstanceAs (Decidable (_ ∧ _))

/-- The edit that comes of it when its span is one of the base. -/
def edit (overwrite : Overwrite) : Edit :=
  ⟨⟨overwrite.start.toNat, overwrite.stop.toNat⟩, overwrite.content⟩

/-- Spans share a character if the later start comes in front of the earlier end. -/
theorem meets_iff {overwrite other : Overwrite} :
    overwrite.Meets other ↔ max overwrite.start other.start < min overwrite.stop other.stop := by
  constructor
  · rintro ⟨offset, ⟨hstart, hstop⟩, hstart', hstop'⟩
    omega
  · intro h
    refine ⟨max overwrite.start other.start, ⟨?_, ?_⟩, ?_, ?_⟩ <;> omega

instance (overwrite other : Overwrite) : Decidable (overwrite.Meets other) :=
  decidable_of_iff _ meets_iff.symm

theorem Meets.symm {overwrite other : Overwrite} (h : overwrite.Meets other) :
    other.Meets overwrite := by
  obtain ⟨offset, hcovers, hcovers'⟩ := h
  exact ⟨offset, hcovers', hcovers⟩

variable {length : Nat} {overwrite other : Overwrite}

theorem Within.edit (h : overwrite.Within length) : overwrite.edit.Within length := by
  obtain ⟨hzero, hstart, hstop⟩ := h
  show overwrite.start.toNat < overwrite.stop.toNat ∧ overwrite.stop.toNat ≤ length
  omega

/-- Edits overlap as the spans that they come of share a character. -/
theorem Within.overlaps_iff (h : overwrite.Within length) (h' : other.Within length) :
    other.edit.Overlaps overwrite.edit.span.start overwrite.edit.span.stop ↔
      overwrite.Meets other := by
  obtain ⟨hzero, hstart, hstop⟩ := h
  obtain ⟨hzero', hstart', hstop'⟩ := h'
  rw [meets_iff]
  show overwrite.start.toNat < other.stop.toNat ∧ other.start.toNat < overwrite.stop.toNat ↔ _
  omega

end Overwrite

/-! ## Trials -/

/-- A splicer and the overwrites that it has accepted so far, in the order in which they came. -/
structure Trial where
  splicer : Splicer
  accepted : List Overwrite

namespace Trial

/-- Ask for an overwrite. When it is refused, nothing happens. -/
def attempt (trial : Trial) (overwrite : Overwrite) : Trial :=
  match trial.splicer.overwrite overwrite.start overwrite.stop overwrite.content with
  | .ok later => ⟨later, trial.accepted ++ [overwrite]⟩
  | .error _ => trial

/-- The trial of a text that has not been overwritten. -/
def ofText (base : Text) : Trial := ⟨.ofText base, []⟩

/-- Ask for overwrites of a text, one after the other. -/
def run (base : Text) (overwrites : List Overwrite) : Trial :=
  overwrites.foldl attempt (ofText base)

/-- The edits of a splicer are the accepted overwrites, all of which are overwrites of the base. -/
structure Sound (base : Text) (trial : Trial) : Prop where
  base_eq : trial.splicer.base = base
  edits_perm : trial.splicer.edits.Perm (trial.accepted.map Overwrite.edit)
  within : ∀ overwrite ∈ trial.accepted, overwrite.Within base.length

/-- The span is one of the base, and shares no character with those accepted so far. -/
def HasRoom (base : Text) (trial : Trial) (overwrite : Overwrite) : Prop :=
  overwrite.Within base.length ∧ ∀ other ∈ trial.accepted, ¬ overwrite.Meets other

variable {base : Text} {trial : Trial} {overwrite : Overwrite}

theorem sound_ofText (base : Text) : (ofText base).Sound base :=
  ⟨rfl, .refl _, fun _ h => absurd h List.not_mem_nil⟩

/-- An overwrite is accepted where there is room. -/
theorem Sound.overwrite_eq_ok (h : trial.Sound base) (hroom : trial.HasRoom base overwrite) :
    ∃ later, trial.splicer.overwrite overwrite.start overwrite.stop overwrite.content = .ok later ∧
      later.base = base ∧ later.edits.Perm (overwrite.edit :: trial.splicer.edits) := by
  obtain ⟨hwithin, hfree⟩ := hroom
  have hspan : overwrite.edit.Within trial.splicer.base.length := h.base_eq ▸ hwithin.edit
  have hedits : ∀ edit ∈ trial.splicer.edits,
      ¬ edit.Overlaps overwrite.edit.span.start overwrite.edit.span.stop := by
    intro edit hedit
    obtain ⟨other, hother, rfl⟩ := List.mem_map.1 (h.edits_perm.mem_iff.1 hedit)
    rw [hwithin.overlaps_iff (h.within other hother)]
    exact hfree other hother
  obtain ⟨later, hok, hbase, hperm⟩ := Splice.overwrite_eq_ok hspan hedits
  -- offsets that are not negative are those of the edit
  have hstart : (overwrite.edit.span.start : Int) = overwrite.start :=
    Int.toNat_of_nonneg hwithin.1
  have hstop : (overwrite.edit.span.stop : Int) = overwrite.stop :=
    Int.toNat_of_nonneg (Int.le_of_lt (Int.lt_of_le_of_lt hwithin.1 hwithin.2.1))
  rw [hstart, hstop] at hok
  exact ⟨later, hok, hbase.trans h.base_eq, hperm⟩

/-- An overwrite is refused where there is no room. -/
theorem Sound.overwrite_eq_error (h : trial.Sound base) (hroom : ¬ trial.HasRoom base overwrite) :
    ∃ error, trial.splicer.overwrite overwrite.start overwrite.stop overwrite.content =
      .error error := by
  unfold Splicer.overwrite
  by_cases hwithin : overwrite.Within base.length
  · rw [dif_pos (show _ from h.base_eq ▸ hwithin)]
    dsimp only
    split
    · exact ⟨_, rfl⟩
    · next hfind =>
      refine absurd ⟨hwithin, ?_⟩ hroom
      intro other hother hmeets
      have hedit : other.edit ∈ trial.splicer.edits :=
        h.edits_perm.mem_iff.2 (List.mem_map_of_mem hother)
      have hfree := List.find?_eq_none.1 hfind other.edit hedit
      exact hfree (decide_eq_true ((hwithin.overlaps_iff (h.within other hother)).2 hmeets))
  · rw [dif_neg (show ¬ _ from h.base_eq ▸ hwithin)]
    exact ⟨_, rfl⟩

/-- An overwrite is refused exactly when there is no room. -/
theorem Sound.overwrite_eq_error_iff (h : trial.Sound base) :
    (∃ error, trial.splicer.overwrite overwrite.start overwrite.stop overwrite.content =
      .error error) ↔ ¬ trial.HasRoom base overwrite := by
  refine ⟨?_, h.overwrite_eq_error⟩
  -- an overwrite with room is accepted, so it is not refused
  rintro ⟨error, herror⟩ hroom
  obtain ⟨later, hok, -⟩ := h.overwrite_eq_ok hroom
  cases herror.symm.trans hok

theorem attempt_of_error {error : SpliceError}
    (h : trial.splicer.overwrite overwrite.start overwrite.stop overwrite.content =
      .error error) : trial.attempt overwrite = trial := by
  rw [attempt, h]

theorem Sound.accepted_attempt (h : trial.Sound base) (hroom : trial.HasRoom base overwrite) :
    (trial.attempt overwrite).accepted = trial.accepted ++ [overwrite] := by
  obtain ⟨later, hok, -⟩ := h.overwrite_eq_ok hroom
  rw [attempt, hok]

/-- What the edits are stays true of them, whatever is asked for. -/
theorem Sound.attempt (h : trial.Sound base) (overwrite : Overwrite) :
    (trial.attempt overwrite).Sound base := by
  by_cases hroom : trial.HasRoom base overwrite
  · obtain ⟨later, hok, hbase, hperm⟩ := h.overwrite_eq_ok hroom
    rw [Trial.attempt, hok]
    refine ⟨hbase, ?_, ?_⟩
    · show later.edits.Perm ((trial.accepted ++ [overwrite]).map Overwrite.edit)
      rw [List.map_append]
      exact (hperm.trans (h.edits_perm.cons _)).trans (List.perm_append_singleton _ _).symm
    · intro other hother
      rcases List.mem_append.1 hother with hother | hother
      · exact h.within other hother
      · exact List.mem_singleton.1 hother ▸ hroom.1
  · obtain ⟨error, herror⟩ := h.overwrite_eq_error hroom
    rwa [attempt_of_error herror]

theorem Sound.foldl_attempt (h : trial.Sound base) (overwrites : List Overwrite) :
    (overwrites.foldl Trial.attempt trial).Sound base := by
  induction overwrites generalizing trial with
  | nil => exact h
  | cons overwrite rest ih => exact ih (h.attempt overwrite)

theorem sound_run (base : Text) (overwrites : List Overwrite) : (run base overwrites).Sound base :=
  (sound_ofText base).foldl_attempt overwrites

end Trial

/-! ## The rewritten base -/

/-- What the character at an offset becomes: at the start of an edited span it becomes the content
of the edit, further on in the span nothing, and everywhere else it stays. -/
def becomes (base : Text) (edits : List Edit) (offset : Nat) : Text :=
  match edits.find? (·.span.Contains offset) with
  | some edit => if offset = edit.span.start then edit.content else []
  | none => base[offset]?.toList

/-- A base in which every span of some edits is replaced, whatever the order of the edits. -/
def rewritten (base : Text) (edits : List Edit) : Text :=
  (List.range base.length).flatMap (becomes base edits)

section Rewritten

variable {base : Text} {edits edits' : List Edit} {edit : Edit} {offset : Nat}

theorem becomes_of_mem (hmem : edit ∈ edits) (hcontains : edit.span.Contains offset)
    (hunique : ∀ other ∈ edits, other.span.Contains offset → other = edit) :
    becomes base edits offset = if offset = edit.span.start then edit.content else [] := by
  obtain ⟨found, hfound⟩ : ∃ found, edits.find? (·.span.Contains offset) = some found := by
    rw [← Option.isSome_iff_exists, List.find?_isSome]
    exact ⟨edit, hmem, decide_eq_true hcontains⟩
  have hin : found.span.Contains offset := by simpa using List.find?_some hfound
  have hsame : found = edit := hunique found (List.mem_of_find?_eq_some hfound) hin
  rw [becomes, hfound, hsame]

theorem becomes_of_not_contains (h : ∀ edit ∈ edits, ¬ edit.span.Contains offset) :
    becomes base edits offset = base[offset]?.toList := by
  have hnone : edits.find? (·.span.Contains offset) = none :=
    List.find?_eq_none.2 fun edit hedit => by simpa using h edit hedit
  rw [becomes, hnone]

/-- Edits that come one after the other share no character. -/
theorem eq_of_contains (h : edits.Pairwise Edit.Before) {other : Edit} (hedit : edit ∈ edits)
    (hother : other ∈ edits) (hcontains : edit.span.Contains offset)
    (hcontains' : other.span.Contains offset) : other = edit := by
  let Apart (first second : Edit) : Prop :=
    first.span.Contains offset → second.span.Contains offset → second = first
  have hsymm : Std.Symm Apart := ⟨fun _ _ happart h h' => (happart h' h).symm⟩
  have hapart : edits.Pairwise Apart := h.imp fun {first second} hbefore hfirst hsecond => by
    have hstop := hfirst.2
    have hstart := hsecond.1
    simp only [Edit.Before] at hbefore
    omega
  exact hapart.forall_of_forall (fun _ _ _ _ => rfl) hedit hother hcontains hcontains'

/-- The order of the edits does not matter. -/
theorem rewritten_perm (h : edits.Pairwise Edit.Before) (hperm : edits.Perm edits') :
    rewritten base edits = rewritten base edits' := by
  refine List.flatMap_congr fun offset _ => ?_
  -- at most one edit contains the offset, so it is found in either order
  by_cases hcontains : ∃ edit ∈ edits, edit.span.Contains offset
  · obtain ⟨edit, hedit, hcontains⟩ := hcontains
    have hunique : ∀ other ∈ edits, other.span.Contains offset → other = edit :=
      fun other hother => eq_of_contains h hedit hother hcontains
    rw [becomes_of_mem hedit hcontains hunique, becomes_of_mem (hperm.mem_iff.1 hedit) hcontains
      fun other hother => hunique other (hperm.mem_iff.2 hother)]
  · have hfree : ∀ edit ∈ edits, ¬ edit.span.Contains offset :=
      fun edit hedit hin => hcontains ⟨edit, hedit, hin⟩
    rw [becomes_of_not_contains hfree,
      becomes_of_not_contains fun edit hedit => hfree edit (hperm.mem_iff.2 hedit)]

theorem flatMap_getElem?_range' (base : Text) (start count : Nat) :
    (List.range' start count).flatMap (fun offset => base[offset]?.toList) =
      (base.drop start).take count := by
  induction count with
  | zero => rfl
  | succ count ih =>
    rw [List.range'_concat, List.flatMap_append, ih, List.take_add_one, List.getElem?_drop,
      Nat.one_mul, List.flatMap_singleton]

/-- The offsets up to an end, cut in two. -/
theorem range'_cut {start middle stop : Nat} (h : start ≤ middle) (h' : middle ≤ stop) :
    List.range' start (stop - start) =
      List.range' start (middle - start) ++ List.range' middle (stop - middle) := by
  have hmiddle : start + (middle - start) = middle := by omega
  have hcount : stop - start = (middle - start) + (stop - middle) := by omega
  rw [hcount, ← List.range'_append_1, hmiddle]

/-- What no edit contains stays. -/
theorem flatMap_becomes_kept {start stop : Nat}
    (h : ∀ edit ∈ edits, ∀ offset, start ≤ offset → offset < stop → ¬ edit.span.Contains offset) :
    (List.range' start (stop - start)).flatMap (becomes base edits) =
      Text.slice base ⟨start, stop⟩ := by
  rw [Text.slice, ← flatMap_getElem?_range']
  refine List.flatMap_congr fun offset hoffset => becomes_of_not_contains fun edit hedit => ?_
  obtain ⟨hstart, hstop⟩ := List.mem_range'_1.1 hoffset
  exact h edit hedit offset hstart (by omega)

/-- An edited span becomes its content. -/
theorem flatMap_becomes_edited (base : Text) (hmem : edit ∈ edits)
    (hspan : edit.span.start < edit.span.stop)
    (hunique : ∀ offset, edit.span.Contains offset →
      ∀ other ∈ edits, other.span.Contains offset → other = edit) :
    (List.range' edit.span.start (edit.span.stop - edit.span.start)).flatMap
      (becomes base edits) = edit.content := by
  have hbecomes : ∀ offset, edit.span.Contains offset →
      becomes base edits offset = if offset = edit.span.start then edit.content else [] :=
    fun offset hcontains => becomes_of_mem hmem hcontains (hunique offset hcontains)
  obtain ⟨more, hmore⟩ : ∃ more, edit.span.stop - edit.span.start = more + 1 :=
    Nat.exists_eq_add_one.2 (by omega)
  have hrest : (List.range' (edit.span.start + 1) more).flatMap (becomes base edits) = [] := by
    refine List.flatMap_eq_nil_iff.2 fun offset hoffset => ?_
    obtain ⟨hstart, hstop⟩ := List.mem_range'_1.1 hoffset
    rw [hbecomes offset ⟨by omega, by omega⟩, if_neg (by omega)]
  rw [hmore, List.range'_succ, List.flatMap_cons, hbecomes _ ⟨le_rfl, hspan⟩, if_pos rfl, hrest,
    List.append_nil]

/-- From an offset on, behind some edits and in front of the others, the base is rewritten as these
others say. -/
theorem replacedFrom_eq_flatMap {earlier : List Edit}
    (hordered : (earlier ++ edits).Pairwise Edit.Before)
    (hwithin : ∀ edit ∈ earlier ++ edits, edit.Within base.length) (hoffset : offset ≤ base.length)
    (hearlier : ∀ edit ∈ earlier, edit.span.stop ≤ offset)
    (hedits : ∀ edit ∈ edits, offset ≤ edit.span.start) :
    replacedFrom base offset edits =
      (List.range' offset (base.length - offset)).flatMap (becomes base (earlier ++ edits)) := by
  -- an edit that has been passed joins the earlier ones, so that all edits stay the same
  induction edits generalizing earlier offset with
  | nil =>
    have hkept : (List.range' offset (base.length - offset)).flatMap
        (becomes base (earlier ++ [])) = Text.slice base ⟨offset, base.length⟩ := by
      refine flatMap_becomes_kept fun edit hedit i hi _ hcontains => ?_
      have hstop := hearlier edit (by simpa using hedit)
      have hin := hcontains.2
      omega
    have hall : Text.slice base ⟨offset, base.length⟩ = base.drop offset :=
      List.take_of_length_le (List.length_drop ..).le
    rw [hkept, hall, replacedFrom]
  | cons edit rest ih =>
    have hmem : edit ∈ earlier ++ edit :: rest := by simp
    obtain ⟨hstart, hstop⟩ := hwithin edit hmem
    have hedit := hedits edit List.mem_cons_self
    have hbehind : ∀ other ∈ rest, edit.span.stop ≤ other.span.start := by
      obtain ⟨-, hlater, -⟩ := List.pairwise_append.1 hordered
      exact (List.pairwise_cons.1 hlater).1
    -- what is kept in front of the edit, the edit, and what comes behind it
    have hkept : (List.range' offset (edit.span.start - offset)).flatMap
        (becomes base (earlier ++ edit :: rest)) =
          Text.slice base ⟨offset, edit.span.start⟩ := by
      refine flatMap_becomes_kept fun other hother i hi hi' hcontains => ?_
      obtain ⟨hlow, hhigh⟩ := hcontains
      rcases List.mem_append.1 hother with hother | hother
      · have := hearlier other hother
        omega
      rcases List.mem_cons.1 hother with rfl | hother
      · omega
      · have := hbehind other hother
        omega
    have hedited := flatMap_becomes_edited base hmem hstart
      fun i hcontains other hother => eq_of_contains hordered hmem hother hcontains
    have hrest : replacedFrom base edit.span.stop rest =
        (List.range' edit.span.stop (base.length - edit.span.stop)).flatMap
          (becomes base (earlier ++ edit :: rest)) := by
      rw [List.append_cons] at hordered hwithin ⊢
      refine ih hordered hwithin hstop (fun other hother => ?_) hbehind
      rcases List.mem_append.1 hother with hother | hother
      · have := hearlier other hother
        omega
      · rw [List.mem_singleton.1 hother]
    rw [replacedFrom, range'_cut hedit (by omega : edit.span.start ≤ base.length),
      range'_cut hstart.le hstop, List.flatMap_append, List.flatMap_append, hkept, hedited, hrest,
      List.append_assoc]

/-- A splicer gives the base, rewritten as its edits say. -/
theorem Splicer.text_eq_rewritten (splicer : Splicer) :
    splicer.text = rewritten splicer.base splicer.edits := by
  have hrewritten : replacedFrom splicer.base 0 splicer.edits =
      (List.range' 0 (splicer.base.length - 0)).flatMap
        (becomes splicer.base ([] ++ splicer.edits)) :=
    replacedFrom_eq_flatMap splicer.ordered splicer.within (Nat.zero_le _)
      (List.forall_mem_nil _) fun _ _ => Nat.zero_le _
  rw [Splicer.text_eq_replacedFrom, hrewritten, rewritten, List.range_eq_range', Nat.sub_zero,
    List.nil_append]

end Rewritten

/-! ## Runs -/

namespace Trial

variable {base : Text} {trial trial' : Trial}

/-- The text of a splicer is the base, rewritten as the accepted overwrites say. -/
theorem Sound.text_eq (h : trial.Sound base) :
    trial.splicer.text = rewritten base (trial.accepted.map Overwrite.edit) := by
  rw [Splicer.text_eq_rewritten, h.base_eq]
  exact rewritten_perm trial.splicer.ordered h.edits_perm

/-- A splicer is told by the overwrites that it has accepted, in whatever order. -/
theorem Sound.splicer_eq (h : trial.Sound base) (h' : trial'.Sound base)
    (hperm : trial.accepted.Perm trial'.accepted) : trial.splicer = trial'.splicer := by
  have hedits : trial.splicer.edits = trial'.splicer.edits :=
    eq_of_perm_of_before (fun edit hedit => (trial.splicer.within edit hedit).1)
      trial.splicer.ordered trial'.splicer.ordered
      ((h.edits_perm.trans (hperm.map _)).trans h'.edits_perm.symm)
  have hbase : trial.splicer.base = trial'.splicer.base := h.base_eq.trans h'.base_eq.symm
  cases hsplicer : trial.splicer
  cases hsplicer' : trial'.splicer
  simp only [hsplicer, hsplicer'] at hedits hbase
  subst hedits hbase
  rfl

/-- Of overwrites that share no character, those within the base are accepted. -/
theorem Sound.accepted_foldl (h : trial.Sound base) {overwrites : List Overwrite}
    (hapart : overwrites.Pairwise fun overwrite other => ¬ overwrite.Meets other)
    (hfree : ∀ overwrite ∈ overwrites, ∀ other ∈ trial.accepted, ¬ overwrite.Meets other) :
    (overwrites.foldl Trial.attempt trial).accepted =
      trial.accepted ++ overwrites.filter (·.Within base.length) := by
  induction overwrites generalizing trial with
  | nil => exact (List.append_nil _).symm
  | cons overwrite rest ih =>
    obtain ⟨hnext, hapart⟩ := List.pairwise_cons.1 hapart
    obtain ⟨hown, hfree⟩ := List.forall_mem_cons.1 hfree
    rw [List.foldl_cons]
    by_cases hwithin : overwrite.Within base.length
    · have haccepted := h.accepted_attempt ⟨hwithin, hown⟩
      rw [ih (h.attempt overwrite) hapart, haccepted, List.filter_cons_of_pos (by simpa),
        List.append_assoc, List.singleton_append]
      intro other hother earlier hearlier
      rw [haccepted] at hearlier
      rcases List.mem_append.1 hearlier with hearlier | hearlier
      · exact hfree other hother earlier hearlier
      · rw [List.mem_singleton.1 hearlier]
        exact fun hmeets => hnext other hother hmeets.symm
    · obtain ⟨error, herror⟩ := h.overwrite_eq_error fun hroom => hwithin hroom.1
      rw [attempt_of_error herror, ih h hapart hfree, List.filter_cons_of_neg (by simpa)]

/-- Overwrites that share no character lead to the same splicer in every order. -/
theorem splicer_run_perm (base : Text) {overwrites order : List Overwrite}
    (hapart : overwrites.Pairwise fun overwrite other => ¬ overwrite.Meets other)
    (horder : order.Perm overwrites) :
    (run base order).splicer = (run base overwrites).splicer := by
  have hapart' : order.Pairwise fun overwrite other => ¬ overwrite.Meets other :=
    (horder.pairwise_iff fun h hmeets => h hmeets.symm).2 hapart
  refine (sound_run base order).splicer_eq (sound_run base overwrites) ?_
  rw [run, run, (sound_ofText base).accepted_foldl hapart' fun _ _ _ h => absurd h List.not_mem_nil,
    (sound_ofText base).accepted_foldl hapart fun _ _ _ h => absurd h List.not_mem_nil]
  exact (horder.filter _).append_left _

/-- **What comes of overwrites.** Whatever has been asked of a splicer, it refuses an overwrite
exactly when its span is none of the base or shares a character with an accepted one, and then
nothing changes. Its edits are the accepted overwrites, one behind the other, and its text is the
base with these spans replaced and every other character kept. Overwrites that share no character
give the same text and the same source map in every order. -/
theorem run_overwrites (base : Text) (overwrites : List Overwrite) :
    let trial := run base overwrites
    (∀ overwrite : Overwrite,
      ((∃ error, trial.splicer.overwrite overwrite.start overwrite.stop overwrite.content =
          .error error) ↔
        ¬ overwrite.Within base.length ∨ ∃ other ∈ trial.accepted, overwrite.Meets other) ∧
      ∀ error, trial.splicer.overwrite overwrite.start overwrite.stop overwrite.content =
        .error error → trial.attempt overwrite = trial) ∧
    trial.splicer.edits.Perm (trial.accepted.map Overwrite.edit) ∧
    trial.splicer.edits.Pairwise (fun edit other => edit.span.stop ≤ other.span.start) ∧
    trial.splicer.text = rewritten base (trial.accepted.map Overwrite.edit) ∧
    ∀ order : List Overwrite, order.Perm overwrites →
      (overwrites.Pairwise fun overwrite other => ¬ overwrite.Meets other) →
      (run base order).splicer.text = trial.splicer.text ∧
      ∀ source file includeContent,
        (run base order).splicer.sourceMap source file includeContent =
          trial.splicer.sourceMap source file includeContent := by
  intro trial
  have hsound : trial.Sound base := sound_run base overwrites
  refine ⟨?_, hsound.edits_perm, trial.splicer.ordered, hsound.text_eq, ?_⟩
  · intro overwrite
    refine ⟨?_, fun error => attempt_of_error⟩
    rw [hsound.overwrite_eq_error_iff, HasRoom, not_and_or]
    push Not
    rfl
  · intro order horder hapart
    rw [splicer_run_perm base hapart horder]
    exact ⟨rfl, fun _ _ _ => rfl⟩

/-- Overwrites of six characters that touch each other and an end, and one that leaves the text. -/
def touching : List Overwrite :=
  [⟨3, 5, "X".toList⟩, ⟨0, 1, []⟩, ⟨6, 9, "Z".toList⟩, ⟨1, 3, "Y".toList⟩]

/-- They give the same text the other way round. -/
theorem run_overwrites_touching :
    touching.reverse.Perm touching ∧
    (touching.Pairwise fun overwrite other => ¬ overwrite.Meets other) ∧
    (run "abcdef".toList touching.reverse).splicer.text = "YXf".toList := by
  have hapart : touching.Pairwise fun overwrite other => ¬ overwrite.Meets other := by decide
  obtain ⟨-, -, -, -, horder⟩ := run_overwrites "abcdef".toList touching
  obtain ⟨htext, -⟩ := horder touching.reverse touching.reverse_perm hapart
  refine ⟨touching.reverse_perm, hapart, htext.trans ?_⟩
  decide +kernel

end Trial

end PersistedQueries.Splice
