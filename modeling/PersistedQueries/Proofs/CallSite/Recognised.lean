import PersistedQueries.Proofs.CallSite.Recovery

/-!
# What is found around a list

Calls and import statements that begin within a comment or a literal are passed over. When a part of a text
is exchanged, as the interior of a list, what is passed over in front of it and behind it stays the same if
the walk over comments and literals comes to the same places. Then at most one thing that is found can
change, and that is the one that reaches over the exchanged part.

- `recognised`, `calls`, `statements`: what is found and not passed over.
- `Steady`: the walk comes to the same places, whatever stands in a gap.
- `exists_recognised_of_mem`: what is found when something reaches over the gap.
- `recognised_of_not_over`: what is found when nothing does.
-/

namespace PersistedQueries.CallSite

variable {α κ : Type} {read? : Text → Option α} {length : α → Nat}

/-- What is read in a text and does not begin within a comment or a literal, with the offsets at which it is
read. -/
def recognised (read? : Text → Option α) (length : α → Nat) (code : Text) : List (Nat × α) :=
  (findFrom read? length 0 code).filter fun found => !inRanges found.1 (ignoredRanges code)

/-- The calls of a text. -/
def calls (code : Text) : List (Nat × CallShape) := recognised CallShape.match? CallShape.length code

/-- The import statements of a text. -/
def statements (code : Text) : List (Nat × ImportShape) :=
  recognised ImportShape.match? ImportShape.length code

theorem extract_eq_calls (code : Text) (file : Option String) :
    extract code file = (calls code).map fun found => ofShape file (spanned found).1 found.2 := by
  rw [extract_eq, CallShape.all, CallShape.allFrom_eq, List.filter_map, List.map_map]
  rfl

theorem parseImports_eq_statements (code : Text) : parseImports code =
    .ofList ((statements code).flatMap fun found => (localNames found.2.clause).map fun name =>
      (String.ofList name, String.ofList found.2.specifier)) := by
  rw [parseImports, ImportShape.allFrom_eq]
  rfl

theorem exists_of_mem_recognised (hreads : Reads read? length) {code : Text} {start : Nat} {found : α}
    (h : (start, found) ∈ recognised read? length code) :
    ∃ front rest, code = front ++ rest ∧ start = front.length ∧ read? rest = some found ∧
      inRanges front.length (ignoredRanges code) = false := by
  obtain ⟨hmem, hkept⟩ := List.mem_filter.1 h
  obtain ⟨front, rest, rfl, rfl, hread⟩ := exists_of_mem_findFrom hreads hmem
  rw [Nat.zero_add] at hkept ⊢
  exact ⟨front, rest, rfl, rfl, hread, by simpa using hkept⟩

/-! ## The walk around a gap -/

/-- Whatever of some texts fills a gap, the same places in front of it and behind it lie in comments and
literals. -/
structure Steady (Fits : Text → Prop) (front behind : Text) (inFront inBehind : Nat → Bool) : Prop where
  front_eq : ∀ {gap}, Fits gap → ∀ start < front.length,
    inRanges start (ignoredRanges (front ++ (gap ++ behind))) = inFront start
  behind_eq : ∀ {gap}, Fits gap → ∀ n,
    inRanges (n + (front.length + gap.length)) (ignoredRanges (front ++ (gap ++ behind))) = inBehind n

/-- What is found when a gap is filled: the same in front of it, at most one thing that reaches over it, and
the same behind it. -/
structure Around (length : α → Nat) (place : Nat) (earlier later : List (Nat × α)) (across : Option Nat)
    (gap : Text) (own found : List (Nat × α)) : Prop where
  found_eq : found = earlier ++ (own ++ later.map fun found => (found.1 + (place + gap.length), found.2))
  own_eq : own.map Prod.fst = across.toList
  earlier_le : ∀ found ∈ earlier, found.1 + length found.2 ≤ place
  own_lt : ∀ found ∈ own, found.1 < place ∧ place + gap.length ≤ found.1 + length found.2

variable {key : α → κ} {mark : Char} {Fits : Text → Prop} {front behind gap : Text}
  {inFront inBehind : Nat → Bool}

/-- What is found behind a gap and not passed over, whatever fills the gap. -/
theorem Steady.filter_behind (h : Steady Fits front behind inFront inBehind) (hgap : Fits gap) (n : Nat)
    (rest : Text) :
    (findFrom read? length (front.length + gap.length + n) rest).filter
        (fun found => !inRanges found.1 (ignoredRanges (front ++ (gap ++ behind)))) =
      ((findFrom read? length n rest).filter fun found => !inBehind found.1).map
        fun found => (found.1 + (front.length + gap.length), found.2) := by
  rw [Nat.add_comm _ n, findFrom_shift, List.filter_map]
  refine congrArg _ (List.filter_congr fun found _ => ?_)
  dsimp only [Function.comp]
  rw [h.behind_eq hgap]

/-- What is found in front of a gap and not passed over, whatever fills the gap. -/
theorem Steady.filter_front (h : Steady Fits front behind inFront inBehind) (hgap : Fits gap)
    {earlier : List (Nat × α)} (hearlier : ∀ found ∈ earlier, found.1 < front.length) :
    earlier.filter (fun found => !inRanges found.1 (ignoredRanges (front ++ (gap ++ behind)))) =
      earlier.filter fun found => !inFront found.1 :=
  List.filter_congr fun found hmem => by rw [h.front_eq hgap _ (hearlier found hmem)]

/-- What is found around a gap and not passed over. -/
theorem recognised_around (hreads : Reads read? length) (hseam : Seam read? length key mark Fits behind)
    (hmark : ∀ c, front.getLast? = some c → c = mark)
    (hsteady : Steady Fits front behind inFront inBehind) :
    ∃ earlier later across, ∀ gap, Fits gap → ∃ own,
      Around length front.length earlier later across gap own
        (recognised read? length (front ++ (gap ++ behind))) := by
  obtain ⟨earlier, across, hearlier, hover, hfound⟩ := findFrom_seam hreads hseam hmark 0
  rw [Nat.zero_add] at hearlier hover hfound
  have hlt (gap : Text) (h : earlier ⊆ findFrom read? length 0 (front ++ (gap ++ behind))) :
      ∀ found ∈ earlier, found.1 < front.length := by
    intro found hmem
    obtain ⟨_, _, -, -, hread⟩ := exists_of_mem_findFrom hreads (h hmem)
    have hpos := hreads.pos hread
    have hle := hearlier found hmem
    omega
  have hearlier' : ∀ found ∈ earlier.filter fun found => !inFront found.1,
      found.1 + length found.2 ≤ front.length := fun found hmem => hearlier found (List.mem_of_mem_filter hmem)
  cases across with
  | none =>
    refine ⟨earlier.filter fun found => !inFront found.1,
      (findFrom read? length 0 behind).filter fun found => !inBehind found.1, none,
      fun gap hgap => ⟨[], ?_, rfl, hearlier', nofun⟩⟩
    have hsplit := hfound gap hgap
    rw [FindsAround] at hsplit
    have hfront := hsteady.filter_front hgap (hlt gap (hsplit ▸ List.subset_append_left _ _))
    rw [recognised, hsplit, List.filter_append, hfront, ← Nat.add_zero (front.length + gap.length),
      hsteady.filter_behind hgap]
    rfl
  | some across =>
    obtain ⟨start, n, k⟩ := across
    obtain ⟨hstart, -⟩ := hover start n k rfl
    refine ⟨earlier.filter fun found => !inFront found.1,
      (findFrom read? length n (behind.drop n)).filter fun found => !inBehind found.1,
      if inFront start then none else some start, fun gap hgap => ?_⟩
    obtain ⟨own, -, hlength, hsplit⟩ := hfound gap hgap
    -- what reaches over the gap begins in front of it, and is passed over or not by what lies there
    have hkept : inRanges start (ignoredRanges (front ++ (gap ++ behind))) = inFront start :=
      hsteady.front_eq hgap start hstart
    have hrecognised : recognised read? length (front ++ (gap ++ behind)) =
        earlier.filter (fun found => !inFront found.1) ++ ([(start, own)].filter (fun found => !inFront found.1) ++
          ((findFrom read? length n (behind.drop n)).filter fun found => !inBehind found.1).map
            fun found => (found.1 + (front.length + gap.length), found.2)) := by
      have hfront := hsteady.filter_front hgap (hlt gap (hsplit ▸ List.subset_append_left _ _))
      rw [recognised, hsplit, List.filter_append, hfront, ← List.singleton_append, List.filter_append,
        hsteady.filter_behind hgap, List.filter_singleton, List.filter_singleton, hkept]
    refine ⟨_, hrecognised, ?_, hearlier', fun found hmem => ?_⟩
    · rw [List.filter_singleton]
      cases inFront start <;> rfl
    · obtain rfl := List.mem_singleton.1 (List.mem_of_mem_filter hmem)
      exact ⟨hstart, by dsimp only; omega⟩

/-- When something that is found reaches over a gap, it changes with what fills the gap, and nothing else
does. -/
theorem exists_recognised_of_mem (hreads : Reads read? length) (hseam : Seam read? length key mark Fits behind)
    (hmark : ∀ c, front.getLast? = some c → c = mark) (hsteady : Steady Fits front behind inFront inBehind)
    (hgap : Fits gap) {start : Nat} {found : α}
    (hmem : (start, found) ∈ recognised read? length (front ++ (gap ++ behind)))
    (hstart : start < front.length) (hstop : front.length < start + length found) :
    ∃ earlier later : List (Nat × α), ∀ other, Fits other → ∃ found',
      read? ((front ++ (other ++ behind)).drop start) = some found' ∧
      recognised read? length (front ++ (other ++ behind)) =
        earlier ++ (start, found') :: later.map fun found => (found.1 + (front.length + other.length), found.2) := by
  obtain ⟨earlier, later, across, haround⟩ := recognised_around hreads hseam hmark hsteady
  obtain ⟨own, hown⟩ := haround gap hgap
  have hover : across = some start := by
    rw [hown.found_eq, List.mem_append, List.mem_append] at hmem
    rcases hmem with hmem | hmem | hmem
    · exact absurd (hown.earlier_le _ hmem) (Nat.not_le_of_lt hstop)
    · have hfst : start ∈ across.toList := hown.own_eq ▸ List.mem_map_of_mem (f := Prod.fst) hmem
      exact Option.mem_toList.1 hfst
    · obtain ⟨later, -, heq⟩ := List.mem_map.1 hmem
      have := (Prod.mk.inj heq).1
      omega
  refine ⟨earlier, later, fun other hother => ?_⟩
  obtain ⟨own, hown⟩ := haround other hother
  obtain ⟨⟨start', found'⟩, rfl, rfl⟩ : ∃ found', own = [found'] ∧ found'.1 = start := by
    have heq := hown.own_eq
    rw [hover] at heq
    exact List.map_eq_singleton_iff.1 heq
  have hfound := hown.found_eq
  have hmem' : (start', found') ∈ recognised read? length (front ++ (other ++ behind)) := by
    rw [hfound]
    simp
  obtain ⟨first, rest, heq, hfirst, hread, -⟩ := exists_of_mem_recognised hreads hmem'
  refine ⟨found', ?_, hfound⟩
  rw [heq]
  dsimp only
  rw [hfirst, List.drop_left, hread]

/-- When nothing that is found reaches over a gap, nothing changes but where it stands. -/
theorem recognised_of_not_over (hreads : Reads read? length)
    (hseam : Seam read? length key mark Fits behind) (hmark : ∀ c, front.getLast? = some c → c = mark)
    (hsteady : Steady Fits front behind inFront inBehind) (hgap : Fits gap)
    (h : ∀ found ∈ recognised read? length (front ++ (gap ++ behind)),
      ¬ (found.1 < front.length ∧ front.length ≤ found.1 + length found.2)) {other : Text} (hother : Fits other) :
    (recognised read? length (front ++ (other ++ behind))).map Prod.snd =
      (recognised read? length (front ++ (gap ++ behind))).map Prod.snd := by
  obtain ⟨earlier, later, across, haround⟩ := recognised_around hreads hseam hmark hsteady
  obtain ⟨own, hown⟩ := haround gap hgap
  obtain ⟨own', hown'⟩ := haround other hother
  have hnone : own = [] := List.eq_nil_iff_forall_not_mem.2 fun found hmem => by
    refine h found ?_ ?_
    · rw [hown.found_eq]
      simp [hmem]
    · have := hown.own_lt found hmem
      omega
  have hnone' : own' = [] := by
    rw [← List.map_eq_nil_iff (f := Prod.fst), hown'.own_eq, ← hown.own_eq, hnone]
    rfl
  rw [hown.found_eq, hown'.found_eq, hnone, hnone']
  simp

end PersistedQueries.CallSite
