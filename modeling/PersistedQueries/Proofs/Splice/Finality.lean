import PersistedQueries.Proofs.CallSite.CallFree
import PersistedQueries.Proofs.Splice.Escaping
import PersistedQueries.Proofs.Splice.Exactness
import PersistedQueries.Proofs.Text.Splitting

/-!
# Persisting is final

A persisted call begins with the name of its call site and ends with a parenthesis, as the call site
did, and its literals are closed where they should be. So the walk over a text in which the call
sites have been persisted goes through everything between them as it did before, and the text has no
call site any more, as long as there was no call of the tag in the code outside the call sites.

- `callFree_persistedCall`: a persisted call has no call site.
- `callFree_replacedFrom`: neither has a text whose call sites have been persisted.
- `extract_spliceSource`: so nothing is found in it.
-/

namespace PersistedQueries.Splice

open CallSite (tagCall isNameChar Scans BeginsName SlashAlike CallFree ignoredRanges inRanges
  literalLength tokenTail?)
open Text (drop_eq_slice take_eq_slice length_slice)

/-! ## Persisted calls -/

section Calls

variable {before front text name : Text}

/-- A call of the tag does not reach into a name with a blank behind it. -/
theorem prefix_of_prefix_append_name (hname : ∀ c ∈ name, isNameChar c = true)
    (h : tagCall <+: front ++ (name ++ ' ' :: text)) : tagCall <+: front := by
  rcases Nat.le_total tagCall.length front.length with hlength | hlength
  · exact List.prefix_of_prefix_length_le h (List.prefix_append _ _) hlength
  obtain ⟨rest, hrest⟩ := List.prefix_of_prefix_length_le (List.prefix_append _ _) h hlength
  rw [← hrest, List.prefix_append_right_inj] at h
  rcases eq_or_ne rest [] with rfl | hne
  · rw [← hrest, List.append_nil]
  -- the rest of the tag has a parenthesis and no blank, so it does not end in the name or behind it
  have hparen : '(' ∈ rest := by
    have hlast : tagCall.getLast? = some '(' := by decide
    rw [← hrest, List.getLast?_append_of_ne_nil _ hne] at hlast
    exact List.mem_of_getLast? hlast
  have hblank : ' ' ∉ rest := fun hmem => by
    have hmem : ' ' ∈ tagCall := hrest ▸ List.mem_append_right front hmem
    revert hmem
    decide
  have hout : '(' ∉ name := fun hmem => by cases hname _ hmem
  obtain ⟨behind, hbehind⟩ := h
  rcases List.append_eq_append_iff.1 hbehind with ⟨more, rfl, -⟩ | ⟨more, rfl, hmore⟩
  · exact absurd (List.mem_append_left _ hparen) hout
  · cases more with
    | nil =>
      rw [List.append_nil] at hparen
      exact absurd hparen hout
    | cons c more =>
      obtain rfl : ' ' = c := (List.cons.inj hmore).1
      exact absurd (List.mem_append_right _ List.mem_cons_self) hblank

/-- A name with a blank behind it has no call of the tag. -/
theorem callFree_name (hname : ∀ c ∈ name, isNameChar c = true)
    (htext : ∀ before, CallFree before text) : CallFree before (name ++ ' ' :: text) := by
  have hplain : ∀ c ∈ name ++ [' '], CallSite.IsPlain c := by
    intro c hc
    rcases List.mem_append.1 hc with hc | hc
    · exact CallSite.isPlain_of_isNameChar (hname c hc)
    · rw [List.mem_singleton.1 hc]
      decide
  rw [← List.singleton_append, ← List.append_assoc]
  have hscan : Scans before (name ++ [' ']) text := CallSite.scans_of_isPlain hplain
  refine .append _ hscan (fun first more heq hmore _ htag => ?_) (htext _)
  have hshort : ∃ short, more = short ++ [' '] ∧ ∀ c ∈ short, isNameChar c = true := by
    rcases List.append_eq_append_iff.1 heq with ⟨gap, -, hgap⟩ | ⟨short, rfl, rfl⟩
    · cases gap with
      | nil => exact ⟨[], hgap.symm, List.forall_mem_nil _⟩
      | cons c gap =>
        exact absurd (List.append_eq_nil_iff.1 (List.cons.inj hgap).2.symm).2 hmore
    · exact ⟨short, rfl, fun c hc => hname c (List.mem_append_right _ hc)⟩
  obtain ⟨short, rfl, hshort⟩ := hshort
  rw [List.append_assoc, List.singleton_append, ← List.nil_append (short ++ _)] at htag
  exact absurd (prefix_of_prefix_append_name hshort htag) (by decide)

theorem tokenTail?_backtick (before rest : Text) :
    tokenTail? before '\x60' rest = some (literalLength '\x60' rest) := by
  unfold tokenTail?
  rw [if_neg fun h => absurd h.1 (by decide), if_neg fun h => absurd h.1 (by decide),
    if_pos (.inr (.inr rfl))]

/-- A template literal that is not closed by its interior has no call site. -/
theorem callFree_template {interior : Text} (h : Sealed interior)
    (htext : ∀ before, CallFree before text) : CallFree before (template interior ++ text) := by
  rw [template, List.cons_append]
  refine .append_token ?_ (by decide) (htext _)
  rw [tokenTail?_backtick, List.append_assoc, List.singleton_append, h.literalLength_eq,
    List.length_append, List.length_singleton]

theorem callFree_pureNote (htext : ∀ before, CallFree before text) :
    CallFree before (pureNote.toList ++ text) := by
  show CallFree before ('/' :: ("* @__PURE__ */".toList ++ (' ' :: text)))
  refine .append_token rfl (by decide) ?_
  exact .append_plain [' '] (by decide) (by decide) (htext _)

/-- The document of a persisted call has no call site: no equals sign stands in front of the tag. -/
theorem callFree_document (document : Text) (htext : ∀ before, CallFree before text) :
    CallFree before
      (", graphql(".toList ++ (template (escapeTemplate document) ++ ([')'] ++ text))) := by
  have hclosed (before : Text) : CallFree before ([')'] ++ text) :=
    .append_plain [')'] (by decide) (by decide) (htext _)
  have hcalled (before : Text) : CallFree (' ' :: ',' :: before)
      ('g' :: ("raphql(".toList ++ (template (escapeTemplate document) ++ ([')'] ++ text)))) :=
    .append_tag "raphql(".toList (by decide) (by decide)
      (fun _ => (by decide : some ',' ≠ some '='))
      (callFree_template (sealed_escapeTemplate document) hclosed)
  exact .append_plain ", ".toList (by decide) (by decide) (hcalled before)

/-- The hash of a persisted call has no call site, and what stands in front is no call of the
tag. -/
theorem callFree_hash {hash : Text} (hhash : ∀ c ∈ hash, c ≠ '\\' ∧ c ≠ '\x60')
    (htext : ∀ before, CallFree before text) :
    CallFree before ("graphql.persisted(".toList ++ (template hash ++ text)) := by
  refine .append_tag "raphql.persisted(".toList (by decide) (by decide) (fun htag => ?_)
    (callFree_template (.of_forall hhash) htext)
  have hdot : tagCall.isPrefixOf ('g' :: ("raphql.persisted(".toList ++ (template hash ++ text))) =
      false := rfl
  cases hdot.symm.trans (List.isPrefixOf_iff_prefix.2 htag)

/-- What stands in front of a persisted call has no call site. -/
theorem callFree_assigned (isPure : Bool) (hname : ∀ c ∈ name, isNameChar c = true)
    (htext : ∀ before, CallFree before text) :
    CallFree before
      (name ++ (" = ".toList ++ ((if isPure then pureNote.toList else []) ++ text))) := by
  have hnoted (before : Text) :
      CallFree before ((if isPure then pureNote.toList else []) ++ text) := by
    cases isPure with
    | false => exact htext before
    | true => exact callFree_pureNote htext
  exact callFree_name hname fun before =>
    .append_plain "= ".toList (by decide) (by decide) (hnoted _)

/-- A persisted call has no call site. -/
theorem callFree_persistedCall {name hash : String} (document : Option String) (isPure : Bool)
    (hname : ∀ c ∈ name.toList, isNameChar c = true)
    (hhash : ∀ c ∈ hash.toList, c ≠ '\\' ∧ c ≠ '\x60')
    (htext : ∀ before, CallFree (')' :: before) text) :
    CallFree before (persistedCall name hash document isPure ++ text) := by
  have hclosed (before : Text) : CallFree before ([')'] ++ text) :=
    .append_plain [')'] (by decide) (by decide) (htext before)
  cases document with
  | none =>
    simp only [persistedCall, List.append_assoc, List.nil_append]
    exact callFree_assigned isPure hname fun _ => callFree_hash hhash hclosed
  | some document =>
    simp only [persistedCall, List.append_assoc]
    exact callFree_assigned isPure hname fun _ => callFree_hash hhash fun _ =>
      callFree_document document.toList hclosed

theorem beginsName_append (hne : name ≠ []) (hname : ∀ c ∈ name, isNameChar c = true)
    (text : Text) : BeginsName (name ++ text) := by
  obtain ⟨c, rest, rfl⟩ := List.exists_cons_of_ne_nil hne
  exact ⟨c, rest ++ text, rfl, hname c List.mem_cons_self⟩

/-- A persisted call begins with its name and a blank. -/
theorem persistedCall_append_eq (name hash : String) (document : Option String) (isPure : Bool)
    (text : Text) :
    ∃ behind, persistedCall name hash document isPure ++ text = name.toList ++ ' ' :: behind := by
  simp only [persistedCall, List.append_assoc]
  exact ⟨_, rfl⟩

end Calls

/-! ## Persisted texts -/

/-- A call site between whose ends the walk over its text stays: it begins with its name, ends with
a parenthesis, and no comment or literal reaches across either end. -/
structure Enclosed (code : Text) (site : CallSite) : Prop where
  start_lt : site.span.start < site.span.stop
  stop_le : site.span.stop ≤ code.length
  name_ne : site.name.toList ≠ []
  name : ∀ c ∈ site.name.toList, isNameChar c = true
  begins : BeginsName (code.drop site.span.start)
  ends : ∃ before, (code.take site.span.stop).reverse = ')' :: before
  scans_start : Scans [] (code.take site.span.start) (code.drop site.span.start)
  scans_stop : Scans [] (code.take site.span.stop) (code.drop site.span.stop)

theorem scans_take {code : Text} {offset : Nat} (hoffset : offset ≤ code.length)
    (h : ∀ range ∈ ignoredRanges code, ¬ (range.start < offset ∧ offset < range.stop)) :
    Scans [] (code.take offset) (code.drop offset) := by
  refine CallSite.scans_of_ranges 0 fun range hrange => ?_
  rw [List.take_append_drop] at hrange
  rw [Nat.zero_add, List.length_take_of_le hoffset]
  exact h range hrange

/-- A call site is enclosed when no comment or literal reaches across its end. None reaches across
its beginning, because it would be no call site then. -/
theorem enclosed_of_mem_extract {code : Text} {file : Option String} {site : CallSite}
    (h : site ∈ CallSite.extract code file) (hstop : ∀ range ∈ ignoredRanges code,
      ¬ (range.start < site.span.stop ∧ site.span.stop < range.stop)) : Enclosed code site := by
  obtain ⟨hlt, hle, between, behind, hslice⟩ := CallSite.slice_of_mem_extract h
  obtain ⟨hname, hchars⟩ := CallSite.name_of_mem_extract h
  refine ⟨hlt, hle, hname, hchars, ?_, ?_, scans_take (by omega) fun range hrange hacross => ?_,
    scans_take hle hstop⟩
  · rw [drop_eq_slice hlt.le, hslice, List.append_assoc]
    exact beginsName_append hname hchars _
  · rw [take_eq_slice hlt.le, hslice]
    simp only [← List.cons_append, ← List.append_assoc, List.reverse_concat]
    exact ⟨_, rfl⟩
  · exact CallSite.not_contains_of_mem_extract h hrange ⟨hacross.1.le, hacross.2⟩

section Texts

variable {code before : Text} {offset : Nat} {sites : List CallSite}

/-- A call of the tag to which the walk comes stands in code. -/
theorem inRanges_of_tag {first more : Text} (hscan : Scans [] (code.take offset) (code.drop offset))
    (hcode : code.drop offset = first ++ more)
    (hfirst : Scans (code.take offset).reverse first more) (htag : tagCall <+: more) :
    tagCall <+: code.drop (offset + first.length) ∧
      inRanges (offset + first.length) (ignoredRanges code) = false := by
  obtain ⟨rest, rfl⟩ := htag
  have hoffset : offset ≤ code.length := by
    have hlength := congrArg List.length hcode
    have htag : tagCall.length = 8 := by decide
    simp only [List.length_drop, List.length_append] at hlength
    omega
  have hsplit : code = (code.take offset ++ first) ++ (tagCall ++ rest) := by
    rw [List.append_assoc, ← hcode, List.take_append_drop]
  have hlength : (code.take offset ++ first).length = offset + first.length := by
    rw [List.length_append, List.length_take_of_le hoffset]
  have hall : Scans [] (code.take offset ++ first) (tagCall ++ rest) :=
    (hcode ▸ hscan).append (by rwa [List.append_nil])
  constructor
  · rw [hsplit, ← hlength, List.drop_left]
    exact List.prefix_append _ _
  · have hfree : inRanges (code.take offset ++ first).length
        (ignoredRanges ((code.take offset ++ first) ++ (tagCall ++ rest))) = false :=
      CallSite.inRanges_of_scans hall (by decide)
    rwa [hlength, ← hsplit] at hfree

/-- What is kept in front of a call site has no call site in it either when the call site has become
something else that begins with its name. -/
theorem callFree_kept {site : CallSite} {behind : Text}
    (hscan : Scans [] (code.take offset) (code.drop offset))
    (halike : SlashAlike (code.take offset).reverse before)
    (hsite : Enclosed code site) (hstart : offset ≤ site.span.start)
    (htags : ∀ i, offset ≤ i → i < site.span.start → tagCall <+: code.drop i →
      inRanges i (ignoredRanges code) = true)
    (hbehind : ∀ before, CallFree before (site.name.toList ++ ' ' :: behind)) :
    CallFree before
      (Text.slice code ⟨offset, site.span.start⟩ ++ (site.name.toList ++ ' ' :: behind)) := by
  have hkept := drop_eq_slice hstart code
  have hscanned : Scans (code.take offset).reverse (Text.slice code ⟨offset, site.span.start⟩)
      (code.drop site.span.start) := by
    have hall := hsite.scans_start
    rw [take_eq_slice hstart] at hall
    rw [hkept] at hscan
    simpa using hscan.cancel hall
  have hnew : BeginsName (site.name.toList ++ ' ' :: behind) :=
    beginsName_append hsite.name_ne hsite.name _
  refine .append _ ((hscanned.congr_before halike).congr_text hsite.begins hnew)
    (fun first more heq hmore hfirst htag => ?_) (hbehind _)
  obtain ⟨tail, rfl⟩ := prefix_of_prefix_append_name hsite.name htag
  -- the walk over the text as it was comes there too
  have hold : Scans (code.take offset).reverse first
      (tagCall ++ tail ++ code.drop site.span.start) :=
    (hfirst.congr_before halike.symm).congr_text ⟨'g', _, rfl, rfl⟩ ⟨'g', _, rfl, rfl⟩
  rw [heq, List.append_assoc] at hkept
  obtain ⟨htag, hfree⟩ :=
    inRanges_of_tag hscan hkept hold (List.append_assoc .. ▸ List.prefix_append ..)
  have hlength := congrArg List.length heq
  have hstop := hsite.stop_le
  have hlt := hsite.start_lt
  rw [length_slice (by omega), List.length_append] at hlength
  have hpos := List.length_pos_iff.2 hmore
  cases hfree.symm.trans (htags _ (Nat.le_add_right _ _) (by omega) htag)

/-- A text has no call site in it when its call sites have been persisted. -/
theorem callFree_replacedFrom (style : Style) {hash document : CallSite → String}
    (hscan : Scans [] (code.take offset) (code.drop offset))
    (halike : SlashAlike (code.take offset).reverse before)
    (hsites : ∀ site ∈ sites, Enclosed code site ∧ offset ≤ site.span.start ∧
      ∀ c ∈ (hash site).toList, c ≠ '\\' ∧ c ≠ '\x60')
    (hordered : sites.Pairwise fun a b => a.span.stop ≤ b.span.start)
    (htags : ∀ i, offset ≤ i → tagCall <+: code.drop i → inRanges i (ignoredRanges code) = false →
      ∃ site ∈ sites, site.span.Contains i) :
    CallFree before (replacedFrom code offset (sites.map (callEdit style hash document))) := by
  induction sites generalizing offset before with
  | nil =>
    intro first rest heq hfirst htag
    obtain ⟨htag, hfree⟩ := inRanges_of_tag hscan heq (hfirst.congr_before halike.symm) htag
    obtain ⟨site, hsite, -⟩ := htags _ (Nat.le_add_right _ _) htag hfree
    cases hsite
  | cons site rest ih =>
    obtain ⟨⟨hsite, hstart, hhash⟩, hsites⟩ := List.forall_mem_cons.1 hsites
    obtain ⟨hnext, hordered⟩ := List.pairwise_cons.1 hordered
    have hlt := hsite.start_lt
    have hrest (before : Text) : CallFree (')' :: before)
        (replacedFrom code site.span.stop (rest.map (callEdit style hash document))) := by
      obtain ⟨ending, hending⟩ := hsite.ends
      refine ih hsite.scans_stop (hending ▸ CallSite.slashAlike_paren ending before)
        (fun other hother => ?_) hordered fun i hi htag hfree => ?_
      · obtain ⟨hother', -, hhash⟩ := hsites other hother
        exact ⟨hother', hnext other hother, hhash⟩
      · obtain ⟨other, hother, hcontains⟩ := htags i (by omega) htag hfree
        rcases List.mem_cons.1 hother with rfl | hother
        · exact absurd hcontains.2 (Nat.not_lt.2 hi)
        · exact ⟨other, hother, hcontains⟩
    have hcall (before : Text) := @callFree_persistedCall before _ _ (hash site)
      (if style.removeSource then none else some (document site)) style.isPure hsite.name hhash
      hrest
    obtain ⟨behind, heq⟩ := persistedCall_append_eq site.name (hash site)
      (if style.removeSource then none else some (document site)) style.isPure
      (replacedFrom code site.span.stop (rest.map (callEdit style hash document)))
    rw [List.map_cons, replacedFrom, List.append_assoc]
    show CallFree before (Text.slice code ⟨offset, site.span.start⟩ ++
      (persistedCall site.name (hash site) _ style.isPure ++ replacedFrom code site.span.stop _))
    rw [heq] at hcall ⊢
    refine callFree_kept hscan halike hsite hstart (fun i hi hi' htag => ?_) hcall
    by_contra hfree
    -- a call of the tag that is kept in code stands in none of the call sites
    rw [Bool.not_eq_true] at hfree
    obtain ⟨other, hother, hlow, hhigh⟩ := htags i hi htag hfree
    rcases List.mem_cons.1 hother with rfl | hother
    · omega
    · have := hnext other hother
      omega

end Texts

/-- A digit of a hash. -/
def IsHexDigit (c : Char) : Prop := c ∈ "0123456789abcdefABCDEF".toList

instance (c : Char) : Decidable (IsHexDigit c) := inferInstanceAs (Decidable (c ∈ _))

theorem IsHexDigit.not_special {c : Char} (h : IsHexDigit c) : c ≠ '\\' ∧ c ≠ '\x60' := by
  constructor <;> rintro rfl <;> revert h <;> decide

/-- **Persisting is final.** Let no comment or literal of a text reach across the end of a call site,
and let every call of the tag that begins outside the comments and literals begin in a call site.
Then persisting the call sites, in whatever order and style, with whatever documents and with hashes
of hexadecimal digits, succeeds and gives a text that has no call site. -/
theorem extract_spliceSource (code : Text) (file : Option String)
    (hstops : ∀ site ∈ CallSite.extract code file, ∀ range ∈ ignoredRanges code,
      ¬ (range.start < site.span.stop ∧ site.span.stop < range.stop))
    (htags : ∀ i, tagCall <+: code.drop i → inRanges i (ignoredRanges code) = false →
      ∃ site ∈ CallSite.extract code file, site.span.Contains i)
    (hash document : CallSite → String)
    (hhash : ∀ site ∈ CallSite.extract code file, ∀ c ∈ (hash site).toList, IsHexDigit c)
    (order : List CallSite) (horder : order.Perm (CallSite.extract code file)) (style : Style)
    (source file' : Option String) :
    ∃ spliced, spliceSource code
        (order.map fun site => .ofCallSite site (hash site) (document site)) style source =
          .ok spliced ∧
      CallSite.extract spliced.code file' = [] := by
  have hordered := CallSite.pairwise_extract code file
  have henclosed : ∀ site ∈ CallSite.extract code file, Enclosed code site := fun site hsite =>
    enclosed_of_mem_extract hsite (hstops site hsite)
  obtain ⟨map, hsplice⟩ := spliceSource_eq_ok style id hash document source hordered
    (fun site hsite => ⟨(henclosed site hsite).start_lt, (henclosed site hsite).stop_le⟩) horder
  refine ⟨_, hsplice, CallSite.extract_eq_nil ?_ file'⟩
  refine callFree_replacedFrom style .done (fun _ => rfl) (fun site hsite => ?_) hordered
    fun i _ => htags i
  exact ⟨henclosed site hsite, Nat.zero_le _, fun c hc => (hhash site hsite c hc).not_special⟩

/-- The text with a fragment and a query, behind a comment that looks like a call, has no call site
when these two have been persisted. -/
theorem extract_spliceSource_two_calls :
    ∃ spliced, spliceSource twoCalls
        ((CallSite.extract twoCalls none).map fun site => .ofCallSite site "a1" "x = graphql(`y`)")
        ⟨false, true⟩ none = .ok spliced ∧
      CallSite.extract spliced.code none = [] := by
  have hdigits : ∀ c ∈ "a1".toList, IsHexDigit c :=
    List.forall_mem_cons.2 ⟨by decide, List.forall_mem_singleton.2 (by decide)⟩
  refine extract_spliceSource twoCalls none (by decide +kernel) (fun i => ?_) (fun _ => "a1")
    (fun _ => "x = graphql(`y`)") (fun _ _ => hdigits) _ (.refl _) ⟨false, true⟩ none none
  rcases Nat.lt_or_ge i twoCalls.length with hi | hi
  · revert i
    decide +kernel
  · rw [List.drop_eq_nil_of_le hi]
    exact fun h => absurd h (by decide)

end PersistedQueries.Splice
