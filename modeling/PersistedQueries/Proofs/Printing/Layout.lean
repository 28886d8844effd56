import PersistedQueries.GraphQL.Printer
import PersistedQueries.Proofs.Syntax.Lexing
import PersistedQueries.Text.Blank

/-!
# What printed texts are when they are collapsed

Collapsing white space knows nothing of tokens, so what a printed text scans to is said of the text
in front of any other one: its tokens come first, and then those of what follows.

- `collapseFrom_indent`: an indented text collapses as it does without its indentation.
- `Closes`: a text has some tokens whatever follows; `Scans`: it has them when nothing follows that
  could go on with its last token.
- `Prints`: a text scans to some tokens, is empty when there are none, and has no white space at
  either end.
- `prints_append`, `prints_behind`, `prints_joinParts`, `prints_wrap`, `prints_block`,
  `prints_inlineList`, `prints_spreadList`, `prints_adaptiveList`: one lemma for each way of putting
  texts together.
-/

namespace PersistedQueries.GraphQL

open PersistedQueries.Text

variable {printed more rest : Text} {tokens others : List Token} {inRun : Bool} {c : Char}

/-! ## Collapsing -/

theorem collapseFrom_solid (hc : isBlank c = false) (inRun : Bool) (rest : Text) :
    collapseFrom inRun (c :: rest) = c :: collapseFrom false rest := by
  rw [collapseFrom, if_neg (by simp [hc])]

theorem collapseFrom_blank (hc : isBlank c) (inRun : Bool) (rest : Text) :
    collapseFrom inRun (c :: rest) =
      if inRun then collapseFrom true rest else ' ' :: collapseFrom true rest := by
  rw [collapseFrom, if_pos hc]

theorem solid_of_all {text : Text} (h : text.all fun c => !isBlank c) :
    ∀ c ∈ text, isBlank c = false := by
  simpa using h

/-- There is no white space in a punctuator. -/
theorem solid_punct (p : Punctuator) : ∀ c ∈ p.text, isBlank c = false :=
  solid_of_all (by cases p <;> decide)

/-- A text without white space stays as it is. -/
theorem collapseFrom_append_solid (hne : printed ≠ []) (hsolid : ∀ c ∈ printed, isBlank c = false)
    (inRun : Bool) (rest : Text) :
    collapseFrom inRun (printed ++ rest) = printed ++ collapseFrom false rest := by
  induction printed generalizing inRun with
  | nil => exact absurd rfl hne
  | cons c printed ih =>
    obtain ⟨hc, hsolid⟩ := List.forall_mem_cons.1 hsolid
    rw [List.cons_append, collapseFrom_solid hc, List.cons_append]
    by_cases hempty : printed = []
    · subst hempty
      rfl
    · rw [ih hempty hsolid]

/-- White space in front of a text changes none of its tokens. -/
theorem lexemes_collapseFrom (inRun : Bool) (rest : Text) :
    lexemes (collapseFrom inRun rest) = lexemes (collapse rest) := by
  cases rest with
  | nil => rfl
  | cons c rest =>
    unfold collapse
    by_cases hc : isBlank c
    · cases inRun with
      | false => rfl
      | true => simp [collapseFrom_blank hc, lexemes_ignored (c := ' ') _ (by decide)]
    · rw [collapseFrom_solid (by simpa using hc), collapseFrom_solid (by simpa using hc)]

theorem boundary_collapse (h : Boundary rest) : Boundary (collapseFrom false rest) := by
  cases rest with
  | nil => exact ends_nil _
  | cons c rest =>
    by_cases hc : isBlank c
    · rw [collapseFrom_blank hc]
      exact ends_cons.2 (by decide)
    · rw [collapseFrom_solid (by simpa using hc)]
      exact ends_cons.2 (ends_cons.1 h)

/-- Blanks behind a line end are part of the same run of white space. -/
theorem collapseFrom_indent (inRun : Bool) (printed rest : Text) :
    collapseFrom inRun (replaceChar '\n' ['\n', ' ', ' '] printed ++ rest) =
      collapseFrom inRun (printed ++ rest) := by
  have hline : isBlank '\n' := by decide
  have hspace : isBlank ' ' := by decide
  induction printed generalizing inRun with
  | nil => rfl
  | cons c printed ih =>
    have hcons : replaceChar '\n' ['\n', ' ', ' '] (c :: printed) =
        (if c = '\n' then ['\n', ' ', ' '] else [c]) ++
          replaceChar '\n' ['\n', ' ', ' '] printed := rfl
    rw [hcons]
    by_cases hc : c = '\n'
    · subst hc
      simp only [if_true, List.cons_append, List.nil_append, collapseFrom_blank hline,
        collapseFrom_blank hspace, ih]
    · simp only [hc, if_false, List.cons_append, List.nil_append, collapseFrom, ih]

/-! ## Scanning -/

/-- A text has some tokens, whatever follows. -/
def Closes (printed : Text) (tokens : List Token) : Prop :=
  ∀ inRun rest, lexemes (collapseFrom inRun (printed ++ rest)) =
    (lexemes (collapse rest)).map (tokens ++ ·)

/-- A text has some tokens when nothing follows that could go on with the last one. -/
def Scans (printed : Text) (tokens : List Token) : Prop :=
  ∀ inRun rest, Boundary rest → lexemes (collapseFrom inRun (printed ++ rest)) =
    (lexemes (collapse rest)).map (tokens ++ ·)

theorem map_append_append (found : Option (List Token)) :
    (found.map (others ++ ·)).map (tokens ++ ·) = found.map (tokens ++ others ++ ·) := by
  rw [Option.map_map]
  exact congrArg (found.map ·) (funext fun more => (List.append_assoc tokens others more).symm)

theorem scans_nil : Scans [] [] := fun inRun rest _ => by
  rw [List.nil_append, lexemes_collapseFrom]
  exact Option.map_id'.symm

theorem Closes.scans (h : Closes printed tokens) : Scans printed tokens :=
  fun inRun rest _ => h inRun rest

theorem Closes.append (h : Closes printed tokens) (h' : Closes more others) :
    Closes (printed ++ more) (tokens ++ others) := by
  intro inRun rest
  rw [List.append_assoc, h, collapse, h', map_append_append]

theorem Closes.scans_append (h : Closes printed tokens) (h' : Scans more others) :
    Scans (printed ++ more) (tokens ++ others) := by
  intro inRun rest hrest
  rw [List.append_assoc, h, collapse, h' false rest hrest, map_append_append]

theorem Scans.append (h : Scans printed tokens) (h' : Scans more others) (hmore : Boundary more) :
    Scans (printed ++ more) (tokens ++ others) := by
  intro inRun rest hrest
  rw [List.append_assoc, h _ _ (ends_append hmore hrest), collapse, h' false rest hrest,
    map_append_append]

theorem Scans.closes_append (h : Scans printed tokens) (h' : Closes more others)
    (hmore : Boundary more) (hne : more ≠ []) : Closes (printed ++ more) (tokens ++ others) := by
  intro inRun rest
  have hbound : Boundary (more ++ rest) := by
    obtain ⟨c, more, rfl⟩ := List.exists_cons_of_ne_nil hne
    exact ends_cons.2 (ends_cons.1 hmore)
  rw [List.append_assoc, h _ _ hbound, collapse, h', map_append_append]

theorem closes_blank (hc : isBlank c) : Closes [c] [] := by
  intro inRun rest
  rw [List.singleton_append, collapseFrom_blank hc]
  have hrest : lexemes (collapseFrom true rest) = lexemes (collapse rest) :=
    lexemes_collapseFrom true rest
  cases inRun with
  | true =>
    rw [if_pos rfl, hrest]
    exact Option.map_id'.symm
  | false =>
    rw [if_neg (by decide), lexemes_ignored _ (by decide), hrest]
    exact Option.map_id'.symm

theorem closes_comma : Closes [','] [] := by
  intro inRun rest
  rw [List.singleton_append, collapseFrom_solid (by decide), lexemes_ignored _ (by decide)]
  exact Option.map_id'.symm

theorem closes_punct (p : Punctuator) : Closes p.text [.punct p] := by
  intro inRun rest
  rw [collapseFrom_append_solid (by cases p <;> decide) (solid_punct p), lexemes_punct]
  rfl

/-- A text without white space scans to the token that it is. -/
theorem scans_token {token : Token} (hne : printed ≠ []) (hsolid : ∀ c ∈ printed, isBlank c = false)
    (htoken : ∀ more, Boundary more →
      lexemes (printed ++ more) = (lexemes more).map (token :: ·)) : Scans printed [token] := by
  intro inRun rest hrest
  rw [collapseFrom_append_solid hne hsolid, htoken _ (boundary_collapse hrest)]
  rfl

theorem scans_indent (h : Scans printed tokens) : Scans (indent printed) tokens := by
  intro inRun rest hrest
  unfold indent
  split
  · next hempty =>
    rw [List.isEmpty_iff.1 hempty] at h
    exact h inRun rest hrest
  · have hspaces := (closes_blank (c := ' ') (by decide)).append (closes_blank (c := ' ') (by decide))
    have hall := hspaces inRun (replaceChar '\n' ['\n', ' ', ' '] printed ++ rest)
    rw [collapse, collapseFrom_indent, h false rest hrest, map_append_append] at hall
    exact hall

/-! ## Printing -/

/-- A text that some tokens are printed as. -/
structure Prints (printed : Text) (tokens : List Token) : Prop where
  scans : Scans printed tokens
  empty : printed = [] ↔ tokens = []
  first : ∀ c, printed.head? = some c → isBlank c = false
  last : ∀ c, printed.getLast? = some c → isBlank c = false

theorem prints_nil : Prints [] [] := ⟨scans_nil, by simp, nofun, nofun⟩

/-- A text is printed that begins and ends with what is no white space. -/
theorem prints_of_solid (hscans : Scans printed tokens) (hne : printed ≠ []) (htokens : tokens ≠ [])
    (hfirst : ∀ c, printed.head? = some c → isBlank c = false)
    (hlast : ∀ c, printed.getLast? = some c → isBlank c = false) : Prints printed tokens :=
  ⟨hscans, iff_of_false hne htokens, hfirst, hlast⟩

theorem prints_token {token : Token} (hne : printed ≠ []) (hsolid : ∀ c ∈ printed, isBlank c = false)
    (htoken : ∀ more, Boundary more →
      lexemes (printed ++ more) = (lexemes more).map (token :: ·)) : Prints printed [token] :=
  prints_of_solid (scans_token hne hsolid htoken) hne (List.cons_ne_nil _ _)
    (fun _ hc => hsolid _ (List.mem_of_mem_head? hc))
    (fun _ hc => hsolid _ (List.mem_of_getLast? hc))

theorem first_append {front : Text} (hne : front ≠ [])
    (hfirst : ∀ c, front.head? = some c → isBlank c = false) :
    ∀ c, (front ++ more).head? = some c → isBlank c = false := by
  obtain ⟨d, front, rfl⟩ := List.exists_cons_of_ne_nil hne
  exact hfirst

theorem last_append {back : Text} (hne : back ≠ [])
    (hlast : ∀ c, back.getLast? = some c → isBlank c = false) :
    ∀ c, (more ++ back).getLast? = some c → isBlank c = false := by
  rwa [List.getLast?_append_of_ne_nil _ hne]

/-- Two printed texts, the second of which begins with nothing that goes on with the first. -/
theorem prints_append (h : Prints printed tokens) (h' : Prints more others)
    (hmore : Boundary more) : Prints (printed ++ more) (tokens ++ others) := by
  by_cases hmore' : more = []
  · subst hmore'
    rw [h'.empty.1 rfl, List.append_nil, List.append_nil]
    exact h
  · by_cases hprinted : printed = []
    · subst hprinted
      rw [h.empty.1 rfl]
      exact h'
    · refine prints_of_solid (h.scans.append h'.scans hmore) (by simp [hprinted])
        (by simp [mt h.empty.2 hprinted]) (first_append hprinted h.first)
        (last_append hmore' h'.last)

/-- A printed text behind one that closes. -/
theorem prints_behind {front : Text} (hfront : Closes front tokens) (hne : front ≠ [])
    (hfirst : ∀ c, front.head? = some c → isBlank c = false) (h : Prints more others)
    (hmore : more ≠ []) : Prints (front ++ more) (tokens ++ others) :=
  prints_of_solid (hfront.scans_append h.scans) (by simp [hne])
    (by simp [mt h.empty.2 hmore]) (first_append hne hfirst) (last_append hmore h.last)

/-- A printed text in front of one that closes, such as a colon and a blank. -/
theorem closes_behind {back : Text} (h : Prints printed tokens) (hback : Closes back others)
    (hbound : Boundary back) (hne : back ≠ []) : Closes (printed ++ back) (tokens ++ others) :=
  h.scans.closes_append hback hbound hne

/-! ## Parts with separators -/

section Parts

variable {separator : Text} {parts : List (Text × List Token)}

/-- Parts that are printed, one behind the other, are printed with separators between them. Empty
ones are left out, and have no tokens. -/
theorem prints_joinWith (hseparator : Closes separator []) (hbound : Boundary separator)
    (hne : separator ≠ []) (hparts : ∀ part ∈ parts, Prints part.1 part.2 ∧ part.1 ≠ []) :
    Prints (joinWith separator (parts.map Prod.fst)) (parts.flatMap Prod.snd) := by
  induction parts with
  | nil => exact prints_nil
  | cons part parts ih =>
    obtain ⟨⟨hpart, hfull⟩, hparts⟩ := List.forall_mem_cons.1 hparts
    have hmore := ih hparts
    cases parts with
    | nil =>
      rw [List.flatMap_cons, List.flatMap_nil, List.append_nil]
      exact hpart
    | cons next parts =>
      obtain ⟨⟨hnext, hnext'⟩, -⟩ := List.forall_mem_cons.1 hparts
      have hjoin : joinWith separator ((part :: next :: parts).map Prod.fst) =
          part.1 ++ separator ++ joinWith separator ((next :: parts).map Prod.fst) := rfl
      have hsep := closes_behind hpart hseparator hbound hne
      have hjoined : joinWith separator ((next :: parts).map Prod.fst) ≠ [] := by
        intro hempty
        have htokens := hmore.empty.1 hempty
        rw [List.flatMap_cons, List.append_eq_nil_iff] at htokens
        exact hnext' (hnext.empty.2 htokens.1)
      rw [hjoin, List.flatMap_cons]
      have hall := prints_behind hsep (by simp [hne]) (first_append hfull hpart.first) hmore hjoined
      rwa [List.append_nil] at hall

theorem prints_joinParts (hseparator : Closes separator []) (hbound : Boundary separator)
    (hne : separator ≠ []) (hparts : ∀ part ∈ parts, Prints part.1 part.2) :
    Prints (joinParts separator (parts.map Prod.fst)) (parts.flatMap Prod.snd) := by
  have hfilter : (parts.map Prod.fst).filter (!·.isEmpty) =
      (parts.filter (!·.1.isEmpty)).map Prod.fst := by
    rw [List.filter_map]
    rfl
  have htokens : parts.flatMap Prod.snd = (parts.filter (!·.1.isEmpty)).flatMap Prod.snd := by
    induction parts with
    | nil => rfl
    | cons part parts ih =>
      obtain ⟨hpart, hparts⟩ := List.forall_mem_cons.1 hparts
      rw [List.flatMap_cons, List.filter_cons, ih hparts (by rw [List.filter_map]; rfl)]
      by_cases hempty : part.1 = []
      · simp [hempty, hpart.empty.1 hempty]
      · simp [hempty]
  rw [joinParts, hfilter, htokens]
  refine prints_joinWith hseparator hbound hne fun part hmem => ?_
  obtain ⟨hmem, hfull⟩ := List.mem_filter.1 hmem
  exact ⟨hparts part hmem, by simpa using hfull⟩

/-- Items that are printed one by one. -/
theorem prints_items {α : Type} {print : α → Text} {spelling : α → List Token} {items : List α}
    (hseparator : Closes separator []) (hbound : Boundary separator) (hne : separator ≠ [])
    (hitems : ∀ a ∈ items, Prints (print a) (spelling a)) :
    Prints (joinParts separator (items.map print)) (items.flatMap spelling) := by
  have hparts : ∀ part ∈ items.map fun a => (print a, spelling a), Prints part.1 part.2 := by
    simpa using hitems
  have hall := prints_joinParts hseparator hbound hne hparts
  rw [List.map_map, List.flatMap_map] at hall
  exact hall

end Parts

theorem closes_space : Closes [' '] [] := closes_blank (by decide)

theorem closes_line : Closes ['\n'] [] := closes_blank (by decide)

theorem closes_commaSpace : Closes [',', ' '] [] := closes_comma.append closes_space

/-- Parts with blanks between them. -/
theorem prints_parts {parts : List (Text × List Token)}
    (hparts : ∀ part ∈ parts, Prints part.1 part.2) :
    Prints (joinParts [' '] (parts.map Prod.fst)) (parts.flatMap Prod.snd) :=
  prints_joinParts closes_space (ends_cons.2 (by decide)) (by simp) hparts

/-! ## Wrapped texts -/

/-- A text between two others that close is printed when it is scanned. -/
theorem prints_wrap {opening closing text : Text} {front back : List Token}
    (hopening : Closes opening front) (hclosing : Closes closing back) (hbound : Boundary closing)
    (hscans : Scans text tokens) (hempty : text = [] ↔ tokens = [])
    (hfront : opening ≠ [] ∧ ∀ c, opening.head? = some c → isBlank c = false)
    (hback : closing ≠ [] ∧ ∀ c, closing.getLast? = some c → isBlank c = false) :
    Prints (wrap opening text closing) (if tokens = [] then [] else front ++ tokens ++ back) := by
  unfold wrap
  by_cases htext : text = []
  · rw [if_pos (by simp [htext]), if_pos (hempty.1 htext)]
    exact prints_nil
  · rw [if_neg (by simpa using htext), if_neg (mt hempty.2 htext)]
    have hmiddle := hopening.scans_append hscans
    refine prints_of_solid (hmiddle.append hclosing.scans hbound) (by simp [htext])
      (by simp [mt hempty.2 htext]) ?_ (last_append hback.1 hback.2)
    rw [List.append_assoc]
    exact first_append hfront.1 hfront.2

/-- An indented text is empty when nothing is printed. -/
theorem prints_indent_iff (h : Prints printed tokens) : indent printed = [] ↔ tokens = [] := by
  rw [← h.empty]
  unfold indent
  split
  · next hempty => simpa using hempty
  · next hempty => simpa using hempty

section Lists

variable {α : Type} {print : α → Text} {spelling : α → List Token} {items : List α}

theorem prints_block (hitems : ∀ a ∈ items, Prints (print a) (spelling a)) :
    Prints (block (items.map print)) (enclosed .braceL .braceR (items.flatMap spelling)) := by
  have hlines := prints_items closes_line (ends_cons.2 (by decide)) (by simp) hitems
  have hall := prints_wrap ((closes_punct .braceL).append closes_line)
    (closes_line.append (closes_punct .braceR)) (ends_cons.2 (by decide)) (scans_indent hlines.scans)
    (prints_indent_iff hlines) (by simp [Punctuator.text]; decide)
    (by simp [Punctuator.text]; decide)
  exact hall

theorem prints_inlineList (hitems : ∀ a ∈ items, Prints (print a) (spelling a)) :
    Prints (inlineList (items.map print)) (enclosed .parenL .parenR (items.flatMap spelling)) := by
  have hline := prints_items closes_commaSpace (ends_cons.2 (by decide)) (by simp) hitems
  have hall := prints_wrap (closes_punct .parenL) (closes_punct .parenR) (ends_cons.2 (by decide))
    hline.scans hline.empty (by simp [Punctuator.text]; decide) (by simp [Punctuator.text]; decide)
  exact hall

theorem prints_spreadList (hitems : ∀ a ∈ items, Prints (print a) (spelling a)) :
    Prints (spreadList (items.map print)) (enclosed .parenL .parenR (items.flatMap spelling)) := by
  have hlines := prints_items closes_line (ends_cons.2 (by decide)) (by simp) hitems
  have hall := prints_wrap ((closes_punct .parenL).append closes_line)
    (closes_line.append (closes_punct .parenR)) (ends_cons.2 (by decide)) (scans_indent hlines.scans)
    (prints_indent_iff hlines) (by simp [Punctuator.text]; decide)
    (by simp [Punctuator.text]; decide)
  exact hall

/-- How a list is laid out makes no difference to its tokens. -/
theorem prints_adaptiveList (hitems : ∀ a ∈ items, Prints (print a) (spelling a)) :
    Prints (adaptiveList (items.map print)) (enclosed .parenL .parenR (items.flatMap spelling)) := by
  unfold adaptiveList
  split
  · exact prints_spreadList hitems
  · exact prints_inlineList hitems

end Lists

end PersistedQueries.GraphQL
