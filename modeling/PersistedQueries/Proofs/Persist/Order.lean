import Mathlib.Data.List.Nodup
import PersistedQueries.Proofs.Persist.Reach
import PersistedQueries.Proofs.Text.Splitting

/-!
# The order of a merged document

A walk visits each name that it reaches once. The merged document is the text of the call site with
the text of each name behind it, in the order of the walk, unless a text occurs in front of it.

- `Merge.order`: the names that a walk visits. `visit_eq_foldl`: what the walk makes of their texts.
- `visitOrder`, `mem_visitOrder`, `nodup_visitOrder`: the names that a call site reaches, each once.
- `appended`: the texts that are added to a document. `foldl_append_eq`: a merged document is its
  lines.
- `OnlyRepeats`: no text is left out but one that was merged before. `lines_of_onlyRepeats`: then the
  texts that are added are those that are there to be added, each once.
-/

namespace PersistedQueries

open PersistedQueries.Text

namespace Merge

variable {registry : Registry} {file : Option String} {visited : NameSet} {merged : Text}
  {stack : List String} {P : String → Prop}

/-! ## The order of a walk -/

/-- The names that a walk visits, in its order, up to the first that is missing. -/
def order (registry : Registry) (visited : NameSet) : List String → List String
  | [] => []
  | name :: stack =>
    if _hname : name ∈ visited then order registry visited stack
    else
      match _hsite : registry.get? name with
      | none => []
      | some site =>
        name :: order registry (visited.insert name)
          ((visited.insert name).lacking site.dependsOn.names ++ stack)
  termination_by stack => ((visited.lacking registry.keys).length, stack.length)
  decreasing_by
  · exact Prod.Lex.right _ (by simp)
  · exact Prod.Lex.left _ _ (NameSet.length_lacking_insert (Table.mem_keys_of_get? _hsite) _hname)

theorem order_visited {name : String} (h : name ∈ visited) :
    order registry visited (name :: stack) = order registry visited stack := by
  rw [order, dif_pos h]

theorem order_new {name : String} {site : CallSite} (h : name ∉ visited)
    (hsite : registry.get? name = some site) : order registry visited (name :: stack) =
      name :: order registry (visited.insert name)
        ((visited.insert name).lacking site.dependsOn.names ++ stack) := by
  rw [order, dif_neg h]
  split
  · next hnone => cases hsite.symm.trans hnone
  · next own hown =>
    obtain rfl : site = own := Option.some.inj (hsite.symm.trans hown)
    rfl

/-- The text of a registered definition. -/
def sourceOf (registry : Registry) (name : String) : Text :=
  (registry.get? name).elim [] fun site => site.source.toList

theorem sourceOf_eq {name : String} {site : CallSite} (h : registry.get? name = some site) :
    sourceOf registry name = site.source.toList := by
  rw [sourceOf, h]
  rfl

/-- A walk over registered names adds their texts in its order. -/
theorem visit_eq_foldl (hclosed : Closed registry P) (hstack : ∀ name ∈ stack, P name) :
    visit registry file visited merged stack =
      .ok (((order registry visited stack).map (sourceOf registry)).foldl append merged) := by
  fun_induction visit registry file visited merged stack with
  | case1 visited merged => rw [order, List.map_nil, List.foldl_nil]
  | case2 visited merged name stack hname ih =>
    rw [order_visited hname]
    exact ih fun next hnext => hstack next (List.mem_cons_of_mem name hnext)
  | case3 visited merged name stack hname hsite =>
    obtain ⟨site, hsome, -⟩ := hclosed name (hstack name List.mem_cons_self)
    cases hsite.symm.trans hsome
  | case4 visited merged name stack hname site hsite ih =>
    obtain ⟨own, hown, hnext⟩ := hclosed name (hstack name List.mem_cons_self)
    obtain rfl : site = own := Option.some.inj (hsite.symm.trans hown)
    rw [order_new hname hsite, List.map_cons, List.foldl_cons, sourceOf_eq hsite]
    exact ih (forall_mem_stack hnext hstack)

/-- No name is visited twice. -/
theorem nodup_order (registry : Registry) (visited : NameSet) (stack : List String) :
    (order registry visited stack).Nodup ∧
      ∀ name ∈ order registry visited stack, name ∉ visited := by
  fun_induction order registry visited stack with
  | case1 visited => simp
  | case2 visited name stack hname ih => exact ih
  | case3 visited name stack hname hsite => simp
  | case4 visited name stack hname site hsite ih =>
    obtain ⟨hnodup, hnew⟩ := ih
    refine ⟨List.nodup_cons.2 ⟨fun hmem => hnew name hmem (by simp), hnodup⟩, ?_⟩
    refine List.forall_mem_cons.2 ⟨hname, fun other hother hvisited => hnew other hother ?_⟩
    simp [hvisited]

/-- A walk over names of a closed set visits such names only. -/
theorem order_subset (hclosed : ∀ name via, P name → registry.get? name = some via →
      ∀ next ∈ via.dependsOn, P next) (hstack : ∀ name ∈ stack, P name) :
    ∀ name ∈ order registry visited stack, P name := by
  fun_induction order registry visited stack with
  | case1 visited => simp
  | case2 visited name stack hname ih =>
    exact ih fun next hnext => hstack next (List.mem_cons_of_mem name hnext)
  | case3 visited name stack hname hsite => simp
  | case4 visited name stack hname site hsite ih =>
    have hown := hstack name List.mem_cons_self
    exact List.forall_mem_cons.2 ⟨hown, ih (forall_mem_stack (hclosed name site hown hsite) hstack)⟩

/-- A walk comes to every name of its stack, and to what the names depend on that it visits. -/
theorem order_complete (visited : NameSet) (hclosed : Closed registry P)
    (hstack : ∀ name ∈ stack, P name) :
    (∀ name ∈ stack, name ∈ visited ∨ name ∈ order registry visited stack) ∧
      ∀ name ∈ order registry visited stack, ∀ via, registry.get? name = some via →
        ∀ next ∈ via.dependsOn, next ∈ visited ∨ next ∈ order registry visited stack := by
  fun_induction order registry visited stack with
  | case1 visited => simp
  | case2 visited name stack hname ih =>
    obtain ⟨hmem, hdeps⟩ := ih fun next hnext => hstack next (List.mem_cons_of_mem name hnext)
    exact ⟨List.forall_mem_cons.2 ⟨.inl hname, hmem⟩, hdeps⟩
  | case3 visited name stack hname hsite =>
    obtain ⟨site, hsome, -⟩ := hclosed name (hstack name List.mem_cons_self)
    cases hsite.symm.trans hsome
  | case4 visited name stack hname site hsite ih =>
    obtain ⟨own, hown, hnext⟩ := hclosed name (hstack name List.mem_cons_self)
    obtain rfl : site = own := Option.some.inj (hsite.symm.trans hown)
    obtain ⟨hmem, hdeps⟩ := ih (forall_mem_stack hnext hstack)
    -- what is visited from here on was visited before, is this name, or comes later
    have hlater : ∀ {other rest}, other ∈ visited.insert name ∨ other ∈ rest →
        other ∈ visited ∨ other ∈ name :: rest := by
      intro other rest h
      rcases h with h | h
      · rcases NameSet.mem_insert.1 h with rfl | h
        · exact .inr List.mem_cons_self
        · exact .inl h
      · exact .inr (List.mem_cons_of_mem name h)
    refine ⟨List.forall_mem_cons.2 ⟨.inr List.mem_cons_self, fun other hother => ?_⟩,
      List.forall_mem_cons.2 ⟨fun via hvia next hdep => ?_, fun other hother via hvia next hdep => ?_⟩⟩
    · exact hlater (hmem other (List.mem_append_right _ hother))
    · obtain rfl : site = via := Option.some.inj (hsite.symm.trans hvia)
      by_cases hknown : next ∈ visited.insert name
      · exact hlater (.inl hknown)
      · refine hlater (hmem next (List.mem_append_left _ ?_))
        exact List.mem_filter.2 ⟨hdep, by simpa using hknown⟩
    · exact hlater (hdeps other hother via hvia next hdep)

/-! ## The texts of a document -/

/-- The texts that are added to a document. -/
def appended (merged : Text) : List Text → List Text
  | [] => []
  | text :: texts =>
    if occursIn text merged then appended merged texts
    else text :: appended (append merged text) texts

theorem appended_sublist (merged : Text) (texts : List Text) :
    (appended merged texts).Sublist texts := by
  induction texts generalizing merged with
  | nil => exact .slnil
  | cons text texts ih =>
    rw [appended]
    split
    · exact (ih merged).cons text
    · exact (ih _).cons_cons text

/-- A merged document has the texts that were added, each behind a line end. -/
theorem foldl_append_eq (merged : Text) (texts : List Text) :
    texts.foldl append merged = joinWith ['\n'] (merged :: appended merged texts) := by
  induction texts generalizing merged with
  | nil => rfl
  | cons text texts ih =>
    rw [List.foldl_cons, ih, append, appended, append]
    split
    · rfl
    · generalize appended (merged ++ '\n' :: text) texts = more
      cases more <;> simp [joinWith]

/-- The next text is left out only when it is one of the first texts or was there before. -/
def OnlyRepeatsFrom (past : List Text) (merged : Text) (texts : List Text) : Prop :=
  ∀ before text after, texts = before ++ text :: after →
    occursIn text (before.foldl append merged) = true → text ∈ past ++ before

end Merge

/-- Whenever a text is left out because it occurs in the document, it was merged before. -/
def OnlyRepeats (source : Text) (texts : List Text) : Prop :=
  ∀ before text after, texts = before ++ text :: after →
    occursIn text (before.foldl Merge.append source) = true → text ∈ source :: before

namespace Merge

variable {merged source : Text} {past texts : List Text}

theorem OnlyRepeatsFrom.tail {text : Text} (h : OnlyRepeatsFrom past merged (text :: texts)) :
    OnlyRepeatsFrom (past ++ [text]) (append merged text) texts := by
  rintro before other after rfl hoccurs
  rw [List.append_assoc]
  exact h (text :: before) other after rfl hoccurs

theorem OnlyRepeatsFrom.mono {past' : List Text} (h : OnlyRepeatsFrom past merged texts)
    (hsub : ∀ text ∈ past, text ∈ past') : OnlyRepeatsFrom past' merged texts := by
  intro before text after hsplit hoccurs
  rcases List.mem_append.1 (h before text after hsplit hoccurs) with hmem | hmem
  · exact List.mem_append_left _ (hsub text hmem)
  · exact List.mem_append_right _ hmem

/-- Where only repeats are left out, every text is there in the end, and none is there twice. -/
theorem OnlyRepeatsFrom.nodup_and_mem (h : OnlyRepeatsFrom past merged texts)
    (hpast : ∀ text ∈ past, text <:+: merged) (hnodup : past.Nodup) :
    (past ++ appended merged texts).Nodup ∧
      ∀ text ∈ texts, text ∈ past ++ appended merged texts := by
  induction texts generalizing past merged with
  | nil => exact ⟨by simpa [appended] using hnodup, by simp⟩
  | cons text texts ih =>
    have htail := h.tail
    rw [append] at htail
    rw [appended, append]
    by_cases hoccurs : occursIn text merged = true
    · rw [if_pos hoccurs] at htail ⊢
      have hmem : text ∈ past := by simpa using h [] text texts rfl hoccurs
      have hrest : OnlyRepeatsFrom past merged texts := htail.mono fun other hother => by
        rcases List.mem_append.1 hother with hother | hother
        · exact hother
        · exact List.mem_singleton.1 hother ▸ hmem
      obtain ⟨hall, hevery⟩ := ih hrest hpast hnodup
      exact ⟨hall, List.forall_mem_cons.2 ⟨List.mem_append_left _ hmem, hevery⟩⟩
    · rw [if_neg hoccurs] at htail
      rw [if_neg hoccurs, if_neg hoccurs]
      have hnew : text ∉ past := fun hmem => hoccurs (occursIn_iff.2 (hpast text hmem))
      have hpast' : ∀ other ∈ past ++ [text], other <:+: merged ++ '\n' :: text := by
        intro other hother
        rcases List.mem_append.1 hother with hother | hother
        · exact (hpast other hother).trans (List.prefix_append _ _).isInfix
        · obtain rfl := List.mem_singleton.1 hother
          exact ⟨merged ++ ['\n'], [], by simp⟩
      obtain ⟨hall, hevery⟩ := ih htail hpast'
        (List.nodup_append.2 ⟨hnodup, by simp, by
          rintro a ha b hb rfl
          exact hnew (List.mem_singleton.1 hb ▸ ha)⟩)
      rw [List.append_assoc] at hall hevery
      exact ⟨hall, List.forall_mem_cons.2 ⟨by simp, hevery⟩⟩

/-- Where only repeats are left out, a merged document has the text of the call site and the texts
that were to be added, each once. -/
theorem lines_of_onlyRepeats (h : OnlyRepeats source texts) :
    (source :: appended source texts).Nodup ∧
      ∀ text, text ∈ source :: appended source texts ↔ text = source ∨ text ∈ texts := by
  have hfrom : OnlyRepeatsFrom [source] source texts := h
  obtain ⟨hnodup, hevery⟩ := hfrom.nodup_and_mem (by simp) (by simp)
  refine ⟨hnodup, fun text => ⟨fun hmem => ?_, fun hmem => ?_⟩⟩
  · exact (List.mem_cons.1 hmem).imp_right ((appended_sublist source texts).mem ·)
  · rcases hmem with rfl | hmem
    · exact List.mem_cons_self
    · exact hevery text hmem

/-- Nothing is left out when no text occurs in front of it. -/
theorem appended_eq_self : appended merged texts = texts ↔ ∀ before text after,
    texts = before ++ text :: after → ¬occursIn text (before.foldl append merged) = true := by
  induction texts generalizing merged with
  | nil => simp [appended]
  | cons text texts ih =>
    rw [appended]
    by_cases hoccurs : occursIn text merged = true
    · rw [if_pos hoccurs]
      refine iff_of_false (fun heq => ?_) fun hnone => hnone [] text texts rfl hoccurs
      have hlength := (appended_sublist merged texts).length_le
      rw [heq, List.length_cons] at hlength
      omega
    · rw [if_neg hoccurs, List.cons.injEq, ih]
      simp only [true_and]
      constructor
      · rintro hnone (_ | ⟨first, before⟩) other after hsplit
        · obtain ⟨rfl, rfl⟩ := List.cons.inj hsplit
          exact hoccurs
        · obtain ⟨rfl, rfl⟩ := List.cons.inj hsplit
          exact hnone before other after rfl
      · rintro hnone before other after rfl
        exact hnone (text :: before) other after rfl

/-- Where no text comes twice, only repeats are left out when nothing is. -/
theorem onlyRepeats_iff (hnodup : (source :: texts).Nodup) :
    OnlyRepeats source texts ↔ appended source texts = texts := by
  rw [appended_eq_self]
  refine forall₄_congr fun before text after hsplit => ?_
  have hnew : text ∉ source :: before := by
    rw [hsplit, ← List.cons_append] at hnodup
    exact fun hmem => (List.nodup_append.1 hnodup).2.2 text hmem text List.mem_cons_self rfl
  exact ⟨fun h hoccurs => hnew (h hoccurs), fun h hoccurs => absurd hoccurs h⟩

end Merge

/-! ## What a call site reaches -/

variable {registry : Registry} {site : CallSite}

/-- The names that a call site reaches, in the order in which they are visited. -/
def visitOrder (registry : Registry) (site : CallSite) : List String :=
  Merge.order registry .empty site.dependsOn.names

/-- The texts that a call site reaches, in the order in which they are visited. -/
def reachedTexts (registry : Registry) (site : CallSite) : List Text :=
  (visitOrder registry site).map (Merge.sourceOf registry)

theorem nodup_visitOrder (registry : Registry) (site : CallSite) :
    (visitOrder registry site).Nodup :=
  (Merge.nodup_order registry .empty site.dependsOn.names).1

/-- The names that are visited are those that the call site reaches. -/
theorem mem_visitOrder (h : ∀ name, Reaches registry site name → registry.contains name = true)
    {name : String} : name ∈ visitOrder registry site ↔ Reaches registry site name := by
  have hclosed := Reaches.closed h
  have hstack : ∀ name ∈ site.dependsOn.names, Reaches registry site name := fun _ hname =>
    .direct hname
  obtain ⟨hmem, hdeps⟩ := Merge.order_complete .empty hclosed hstack
  constructor
  · exact Merge.order_subset (fun _ _ hname hvia _ hnext => .through hname hvia hnext) hstack name
  · intro hname
    induction hname with
    | direct hname => exact (hmem _ hname).resolve_left (NameSet.not_mem_empty _)
    | through _ hvia hnext ih =>
      exact (hdeps _ ih _ hvia _ hnext).resolve_left (NameSet.not_mem_empty _)

/-- A text is reached under some name. -/
theorem mem_reachedTexts (h : ∀ name, Reaches registry site name → registry.contains name = true)
    {text : Text} : text ∈ reachedTexts registry site ↔ ∃ name via, Reaches registry site name ∧
      registry.get? name = some via ∧ via.source.toList = text := by
  rw [reachedTexts, List.mem_map]
  constructor
  · rintro ⟨name, hname, rfl⟩
    have hreaches := (mem_visitOrder h).1 hname
    obtain ⟨via, hvia⟩ := Table.contains_iff.1 (h name hreaches)
    exact ⟨name, via, hreaches, hvia, (Merge.sourceOf_eq hvia).symm⟩
  · rintro ⟨name, via, hreaches, hvia, rfl⟩
    exact ⟨name, (mem_visitOrder h).2 hreaches, Merge.sourceOf_eq hvia⟩

/-- The merged document of a call site has its text and those of the texts it reaches that were added,
each on lines of its own. -/
theorem merge_eq_lines (h : ∀ name, Reaches registry site name → registry.contains name = true) :
    merge registry site = .ok (joinWith ['\n'] (site.source.toList ::
      Merge.appended site.source.toList (reachedTexts registry site))) := by
  rw [merge, Merge.visit_eq_foldl (Reaches.closed h) fun _ hname => .direct hname,
    ← Merge.foldl_append_eq]
  rfl

end PersistedQueries
