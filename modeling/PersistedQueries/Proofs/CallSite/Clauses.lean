import PersistedQueries.Proofs.CallSite.Rendering

/-!
# Written import clauses

A clause is read twice, by different rules: first as one of five shapes, to find where it ends, and then
by cutting its text at commas, braces and words, to find the names that it binds. However a clause is
written, both come to what was written: all of it is read, and the names are those that it binds.

- `BoundName`, `Item`, `NameList`, `Namespace`, `Group`, `Clause`: a clause as it is written. The types
  hold what a part may be made of.
- `Clause.clause?_text`: a written clause is read as it is, in front of everything that introduces a
  specifier.
- `Clause.localNames_text`: it binds the names that were written.
-/

namespace PersistedQueries.CallSite

open GraphQL (Ends ends_cons takeWhile_append_of_ends)
open Text (isBlank strip joinWith partition partition_append partition_of_not_mem splitOn_of_not_mem
  not_mem_joinWith)

/-! ## The parts of a clause -/

/-- The words of the syntax of import statements. -/
def keywords : List Text := ["type", "as", "from", "import"].map String.toList

/-- A name that is none of the words of the syntax. -/
structure BoundName extends Identifier where
  not_mem_keywords : text ∉ keywords

/-- White space, of which there is some. -/
abbrev Space := { text : Text // text ≠ [] ∧ ∀ c ∈ text, isBlank c = true }

/-- A comma with the white space around it. -/
structure Comma where
  front : Blanks
  back : Blanks

/-- An entry of a braced list, with the white space around it. -/
structure Item where
  front : Blanks
  /-- The word `type` stands in front of the name. -/
  isType : Bool
  /-- The name that is imported. -/
  name : BoundName
  /-- The name that is bound, if it is another one. -/
  renamed : Option BoundName
  back : Blanks

/-- A braced list. -/
structure NameList where
  items : List Item
  /-- White space and commas in front of the closing brace. -/
  closing : Trailers

/-- A namespace: a star and the name that it is bound to. -/
structure Namespace where
  /-- White space behind the star. -/
  lead : Blanks
  /-- White space behind the word `as`. -/
  space : Space
  name : BoundName

/-- What a clause is made of besides a default name. -/
inductive Group where
  | braced (list : NameList)
  | star (all : Namespace)

/-- A clause: a default name, or one of the other two, or both. -/
inductive Clause where
  | default (name : BoundName)
  | only (group : Group)
  | both (name : BoundName) (comma : Comma) (group : Group)

/-- A clause that ends with a name. -/
def Clause.EndsWithName : Clause → Prop
  | .default _ => True
  | .only (.star _) => True
  | .both _ _ (.star _) => True
  | _ => False

/-- The text of a comma. -/
def Comma.text (comma : Comma) : Text := comma.front.1 ++ (',' :: comma.back.1)

/-- The text of an entry from its name on. -/
def Item.naming (item : Item) : Text :=
  item.name.text ++ item.renamed.elim [] fun name => " as ".toList ++ name.text

/-- The text of an entry without the white space around it. -/
def Item.content (item : Item) : Text :=
  (if item.isType then "type ".toList else []) ++ item.naming

/-- The text of an entry. -/
def Item.text (item : Item) : Text := item.front.1 ++ (item.content ++ item.back.1)

/-- The text between the braces of a list. -/
def NameList.interior (list : NameList) : Text :=
  joinWith [','] (list.items.map Item.text) ++ list.closing.1

/-- The text of a namespace. -/
def Namespace.text (all : Namespace) : Text :=
  '*' :: (all.lead.1 ++ ("as".toList ++ (all.space.1 ++ all.name.text)))

/-- The text of what stands behind a default name. -/
def Group.text : Group → Text
  | .braced list => '\x7b' :: (list.interior ++ ['\x7d'])
  | .star all => all.text

/-- The text of a clause. -/
def Clause.text : Clause → Text
  | .default name => name.text
  | .only group => group.text
  | .both name comma group => name.text ++ (comma.text ++ group.text)

/-- The name that an entry binds. -/
def Item.bound (item : Item) : Text := (item.renamed.getD item.name).text

/-- The names that a group binds. -/
def Group.bound : Group → List Text
  | .braced list => list.items.map Item.bound
  | .star all => [all.name.text]

/-- The names that a clause binds. -/
def Clause.bound : Clause → List Text
  | .default name => [name.text]
  | .only group => group.bound
  | .both name _ group => name.text :: group.bound

/-- An entry is made of white space and of characters of names. -/
theorem Item.not_mem_text {c : Char} (hblank : isBlank c = false) (hname : isNameChar c = false)
    (item : Item) : c ∉ item.text := by
  have hapart {text : Text} (h : ∀ d ∈ text, isBlank d = true ∨ isNameChar d = true) : c ∉ text :=
    fun hc => (h c hc).elim (fun h => by cases hblank.symm.trans h) fun h => by cases hname.symm.trans h
  have hspace (blanks : Blanks) : c ∉ blanks.1 := hapart fun d hd => .inl (blanks.2 d hd)
  have hbound (name : BoundName) : c ∉ name.text := hapart fun d hd => .inr (name.isNameChar_of_mem d hd)
  have htype : c ∉ "type ".toList := hapart (List.all_iff_forall_prop.1 (by decide))
  have has : c ∉ " as ".toList := hapart (List.all_iff_forall_prop.1 (by decide))
  simp only [text, content, naming, List.mem_append, not_or]
  refine ⟨hspace item.front, ⟨?_, hbound item.name, ?_⟩, hspace item.back⟩
  · split
    · exact htype
    · exact List.not_mem_nil
  · cases item.renamed with
    | none => exact List.not_mem_nil
    | some name => exact fun hc => (List.mem_append.1 hc).elim has (hbound name)

theorem NameList.not_mem_interior {c : Char} (hblank : isBlank c = false) (hname : isNameChar c = false)
    (hcomma : c ≠ ',') (list : NameList) : c ∉ list.interior := by
  rw [interior, List.mem_append, not_or]
  refine ⟨not_mem_joinWith (by simpa using hcomma)
    (List.forall_mem_map.2 fun item _ => item.not_mem_text hblank hname), fun hc => ?_⟩
  have htrailer := list.closing.2 c hc
  simp [isTrailer, hblank, hcomma] at htrailer

/-! ## Reading a clause -/

section Reading

variable {rest : Text}

theorem Space.blanks?_append (space : Space) (hrest : Ends isBlank rest) :
    blanks? (space.1 ++ rest) = some rest := by
  obtain ⟨space, hne, hblank⟩ := space
  obtain ⟨c, more, rfl⟩ := List.exists_cons_of_ne_nil hne
  obtain ⟨hc, hmore⟩ := List.forall_mem_cons.1 hblank
  rw [List.cons_append, blanks?, if_pos hc, dropWhile_append_of_ends hmore hrest]

/-- What white space and then a name may follow. -/
theorem Identifier.ends_isBlank (name : Identifier) (rest : Text) : Ends isBlank (name.text ++ rest) :=
  ends_append_of_ne_nil name.ne_nil
    (fun c hc => isBlank_of_isNameChar (name.isNameChar_of_mem c hc)) rest

theorem Identifier.head?_append_ne (name : Identifier) {c : Char} (hc : isNameChar c = false)
    (rest : Text) : (name.text ++ rest).head? ≠ some c := fun h => by
  rw [List.head?_append_of_ne_nil _ name.ne_nil] at h
  cases hc.symm.trans (name.isNameChar_of_mem c (List.mem_of_head? h))

/-- A name is cut off whole at first. -/
theorem Identifier.nameEnds_append (name : Identifier) (hrest : Ends isNameChar rest) :
    ∃ others, nameEnds (name.text ++ rest) = rest :: others := by
  obtain ⟨n, hn⟩ := Nat.exists_eq_add_one.2 (List.length_pos_iff.2 name.ne_nil)
  rw [nameEnds, takeWhile_append_of_ends name.isNameChar_of_mem hrest, hn, List.range_succ,
    List.reverse_append, List.map_append]
  refine ⟨_, congrArg (· :: _) ?_⟩
  show (name.text ++ rest).drop (n + 1) = rest
  rw [← hn, List.drop_left]

/-- A text that begins with none of the characters of names has no name in front. -/
theorem nameEnds_eq_nil (hrest : Ends isNameChar rest) : nameEnds rest = [] := by
  have hrun : rest.takeWhile isNameChar = [] := by
    simpa using takeWhile_append_of_ends (List.forall_mem_nil _) hrest
  rw [nameEnds, hrun]
  rfl

theorem Namespace.namespaceEnds_append (all : Namespace) (hrest : Ends isNameChar rest) :
    ∃ others, namespaceEnds (all.text ++ rest) = rest :: others := by
  have hstar : all.text ++ rest =
      ['*'] ++ (all.lead.1 ++ ("as".toList ++ (all.space.1 ++ (all.name.text ++ rest)))) := by
    simp [text]
  have hlead : (all.lead.1 ++ ("as".toList ++ (all.space.1 ++ (all.name.text ++ rest)))).dropWhile
      isBlank = "as".toList ++ (all.space.1 ++ (all.name.text ++ rest)) :=
    dropWhile_append_of_ends all.lead.2 (ends_cons.2 (by decide))
  rw [hstar, namespaceEnds, afterWord?_append]
  dsimp only
  rw [hlead, afterWord?_append, Option.bind_eq_bind, Option.bind_some,
    all.space.blanks?_append (all.name.ends_isBlank rest)]
  exact all.name.nameEnds_append hrest

theorem namespaceEnds_eq_nil {text : Text} (h : text.head? ≠ some '*') : namespaceEnds text = [] := by
  have hnone : afterWord? ['*'] text = none :=
    Option.eq_none_iff_forall_ne_some.2 fun rest hrest => h (afterWord?_eq_some_iff.1 hrest ▸ rfl)
  rw [namespaceEnds, hnone]

theorem NameList.bracedEnd?_append (list : NameList) (rest : Text) :
    bracedEnd? ((Group.braced list).text ++ rest) = some rest := by
  have hopen : (Group.braced list).text ++ rest =
      ['\x7b'] ++ (list.interior ++ '\x7d' :: rest) := by simp [Group.text]
  have hclose : '\x7d' ∉ list.interior := list.not_mem_interior (by decide) (by decide) (by decide)
  rw [hopen, bracedEnd?, afterWord?_append, Option.bind_eq_bind, Option.bind_some,
    (takeWhile_ne_append hclose rest).2]
  exact afterWord?_append ['\x7d'] rest

theorem bracedEnd?_eq_none {text : Text} (h : text.head? ≠ some '\x7b') : bracedEnd? text = none := by
  have hnone : afterWord? ['\x7b'] text = none :=
    Option.eq_none_iff_forall_ne_some.2 fun rest hrest => h (afterWord?_eq_some_iff.1 hrest ▸ rfl)
  rw [bracedEnd?, hnone]
  rfl

theorem Comma.ends_isNameChar (comma : Comma) (rest : Text) : Ends isNameChar (comma.text ++ rest) := by
  rw [Comma.text, List.append_assoc]
  refine ends_append_cons comma.front.2 (fun c hc => ?_) (by decide)
  by_contra hname
  rw [isBlank_of_isNameChar (by simpa using hname)] at hc
  cases hc

/-- A default name and the comma behind it, in front of a group. -/
theorem defaultEnd?_append (name : Identifier) (comma : Comma) (hrest : Ends isBlank rest) :
    defaultEnd? (name.text ++ (comma.text ++ rest)) = some rest := by
  have hname := takeWhile_append_of_ends name.isNameChar_of_mem (comma.ends_isNameChar rest)
  have hcomma : (comma.text ++ rest).dropWhile isBlank = [','] ++ (comma.back.1 ++ rest) := by
    rw [Comma.text, List.append_assoc]
    exact dropWhile_append_of_ends comma.front.2 (ends_cons.2 (by decide))
  rw [defaultEnd?, hname, if_neg (by simpa using name.ne_nil), List.drop_left, hcomma,
    afterWord?_append, Option.bind_eq_bind, Option.bind_some,
    dropWhile_append_of_ends comma.back.2 hrest]
  rfl

/-- A name that no comma follows is no default name in front of a group. -/
theorem defaultEnd?_eq_none (name : Identifier) (hrest : Ends isNameChar rest)
    (hcomma : (rest.dropWhile isBlank).head? ≠ some ',') : defaultEnd? (name.text ++ rest) = none := by
  have hnone : afterWord? [','] (rest.dropWhile isBlank) = none :=
    Option.eq_none_iff_forall_ne_some.2 fun behind hbehind =>
      hcomma (afterWord?_eq_some_iff.1 hbehind ▸ rfl)
  rw [defaultEnd?, takeWhile_append_of_ends name.isNameChar_of_mem hrest,
    if_neg (by simpa using name.ne_nil), List.drop_left, hnone]
  rfl

theorem defaultEnd?_eq_none_of_ends (hrest : Ends isNameChar rest) : defaultEnd? rest = none := by
  have hrun : rest.takeWhile isNameChar = [] := by
    simpa using takeWhile_append_of_ends (List.forall_mem_nil _) hrest
  rw [defaultEnd?, hrun]
  rfl

/-- The specifier of a statement is introduced by the word `from`. -/
theorem head?_of_fromClause? {found : Text × Text} (h : fromClause? rest = some found) :
    (rest.dropWhile isBlank).head? = some 'f' := by
  simp only [fromClause?, Option.bind_eq_bind, Option.bind_eq_some_iff, afterWord?_eq_some_iff] at h
  obtain ⟨behind, hbehind, -⟩ := h
  rw [hbehind]
  rfl

/-- A written clause is the first that is tried, when no name is taken further than it was written. -/
theorem Clause.clauseEnds_append (clause : Clause) (hrest : clause.EndsWithName → Ends isNameChar rest)
    (hcomma : (rest.dropWhile isBlank).head? ≠ some ',') :
    ∃ others, clauseEnds (clause.text ++ rest) = rest :: others := by
  have hhead (name : BoundName) (text : Text) : namespaceEnds (name.text ++ text) = [] :=
    namespaceEnds_eq_nil (name.head?_append_ne (by decide) text)
  -- every shape that is tried earlier fails at the first character, or for want of a comma
  cases clause with
  | default name =>
    obtain ⟨others, hends⟩ := name.nameEnds_append (hrest trivial)
    rw [text, clauseEnds, hhead name, defaultEnd?_eq_none name.toIdentifier (hrest trivial) hcomma, hends]
    exact ⟨_, rfl⟩
  | only group =>
    cases group with
    | braced list =>
      have hbrace : Ends isNameChar ((Group.braced list).text ++ rest) := ends_cons.2 (by decide)
      rw [text, clauseEnds, namespaceEnds_eq_nil (by simp [Group.text]),
        defaultEnd?_eq_none_of_ends hbrace, nameEnds_eq_nil hbrace, list.bracedEnd?_append]
      exact ⟨_, rfl⟩
    | star all =>
      obtain ⟨others, hends⟩ := all.namespaceEnds_append (hrest trivial)
      rw [text, Group.text, clauseEnds, hends]
      exact ⟨_, rfl⟩
  | both name comma group =>
    cases group with
    | braced list =>
      have hbrace : Ends isBlank ((Group.braced list).text ++ rest) := ends_cons.2 (by decide)
      rw [text, List.append_assoc, List.append_assoc, clauseEnds, hhead name,
        defaultEnd?_append name.toIdentifier comma hbrace, Option.bind_eq_bind, Option.bind_some,
        list.bracedEnd?_append]
      exact ⟨_, rfl⟩
    | star all =>
      have hstar : Ends isBlank ((Group.star all).text ++ rest) := ends_cons.2 (by decide)
      obtain ⟨others, hends⟩ := all.namespaceEnds_append (hrest trivial)
      rw [text, List.append_assoc, List.append_assoc, clauseEnds, hhead name,
        defaultEnd?_append name.toIdentifier comma hstar, Option.bind_eq_bind, Option.bind_some,
        bracedEnd?_eq_none (by simp [Group.text, Namespace.text]), Option.map_some, Group.text, hends]
      exact ⟨_, rfl⟩

/-- A written clause is read as it is, in front of everything that introduces a specifier and does not go
on with a character of a name where the clause ends with one. -/
theorem Clause.clause?_text (clause : Clause) (hrest : clause.EndsWithName → Ends isNameChar rest)
    {specifier behind : Text} (hfrom : fromClause? rest = some (specifier, behind)) :
    clause? (clause.text ++ rest) = some (clause.text, specifier, behind) := by
  have hcomma : (rest.dropWhile isBlank).head? ≠ some ',' := by
    rw [head?_of_fromClause? hfrom]
    decide
  obtain ⟨others, hends⟩ := clause.clauseEnds_append hrest hcomma
  rw [clause?, hends, List.findSome?_cons, hfrom, Option.map_some, List.length_append,
    Nat.add_sub_cancel, List.take_left]

/-- A clause does not begin with one of the words of the syntax. -/
theorem Clause.takeWhile_not_mem_keywords (clause : Clause)
    (hrest : clause.EndsWithName → Ends isNameChar rest) :
    (clause.text ++ rest).takeWhile isNameChar ∉ keywords := by
  cases clause with
  | default name =>
    rw [text, takeWhile_append_of_ends name.isNameChar_of_mem (hrest trivial)]
    exact name.not_mem_keywords
  | only group =>
    cases group with
    | braced list => exact (by decide : [] ∉ keywords)
    | star all => exact (by decide : [] ∉ keywords)
  | both name comma group =>
    rw [text, List.append_assoc, List.append_assoc,
      takeWhile_append_of_ends name.isNameChar_of_mem (comma.ends_isNameChar _)]
    exact name.not_mem_keywords

theorem Clause.ends_isBlank (clause : Clause) (rest : Text) : Ends isBlank (clause.text ++ rest) := by
  cases clause with
  | default name => exact name.ends_isBlank rest
  | only group => cases group <;> exact ends_cons.2 (by decide)
  | both name comma group =>
    rw [text, List.append_assoc]
    exact name.ends_isBlank _

end Reading

/-! ## The names that a clause binds -/

theorem Identifier.not_mem {c : Char} (hc : isNameChar c = false) (name : Identifier) : c ∉ name.text :=
  not_mem_of_forall hc name.isNameChar_of_mem

/-- A text that begins and ends with texts which do not begin or end with white space. -/
theorem Trimmed.between {first last : Text} (hfirst : Trimmed first) (hlast : Trimmed last)
    (middle : Text) : Trimmed (first ++ (middle ++ last)) := by
  refine ⟨by simp [hfirst.ne_nil], fun c hc => hfirst.ends c ?_, fun c hc => hlast.ends_reverse c ?_⟩
  · rwa [List.head?_append_of_ne_nil _ hfirst.ne_nil] at hc
  · rwa [List.reverse_append, List.reverse_append, List.append_assoc,
      List.head?_append_of_ne_nil _ (by simpa using hlast.ne_nil)] at hc

theorem Trimmed.strip_eq {text : Text} (h : Trimmed text) : strip text = text := by
  simpa using h.strip_append ⟨[], nofun⟩ ⟨[], nofun⟩

theorem Item.trimmed_naming (item : Item) : Trimmed item.naming := by
  rw [naming]
  cases item.renamed with
  | none =>
    rw [Option.elim_none, List.append_nil]
    exact item.name.trimmed
  | some name => exact item.name.trimmed.between name.trimmed " as ".toList

theorem Item.trimmed_content (item : Item) : Trimmed item.content := by
  rw [content]
  split
  · have hword : Trimmed "type".toList := ⟨by decide, ends_cons.2 (by decide), ends_cons.2 (by decide)⟩
    exact hword.between item.trimmed_naming [' ']
  · exact item.trimmed_naming

/-- The word `type` is taken off an entry only where it was put in front of the name. -/
theorem Item.elim_afterWord? (item : Item) :
    (afterWord? "type ".toList item.content).elim item.content strip = item.naming := by
  rw [content]
  split
  · rw [afterWord?_append]
    exact item.trimmed_naming.strip_eq
  · have hnone : afterWord? "type ".toList item.naming = none := by
      refine Option.eq_none_iff_forall_ne_some.2 fun rest hrest => item.name.not_mem_keywords ?_
      -- the name would be the word itself
      have hspace : Ends isNameChar (item.renamed.elim [] fun name => " as ".toList ++ name.text) := by
        cases item.renamed with
        | none => exact nofun
        | some name => exact ends_cons.2 (by decide)
      have hname := takeWhile_append_of_ends item.name.isNameChar_of_mem hspace
      have hword : ("type".toList ++ ' ' :: rest).takeWhile isNameChar = "type".toList :=
        takeWhile_append_of_ends (List.all_eq_true.1 (by decide)) (ends_cons.2 (by decide))
      rw [← hname, ← naming, afterWord?_eq_some_iff.1 hrest]
      exact hword ▸ by decide
    rw [List.nil_append, hnone]
    rfl

theorem Item.bracedName_content (item : Item) : bracedName item.content = item.bound := by
  have hspace : ' ' ∉ item.name.text := item.name.not_mem (by decide)
  rw [bracedName, item.elim_afterWord?, naming, bound]
  cases item.renamed with
  | none =>
    have hnone : partition " as ".toList item.name.text = none := partition_of_not_mem _ hspace
    rw [Option.elim_none, List.append_nil, hnone]
    exact item.name.trimmed.strip_eq
  | some name =>
    have hcut : partition " as ".toList (item.name.text ++ (" as ".toList ++ name.text)) =
        some (item.name.text, name.text) := partition_append hspace name.text
    rw [Option.elim_some, hcut]
    dsimp only
    rw [if_neg (by simpa using name.ne_nil)]
    exact name.trimmed.strip_eq

/-- A list of one entry. -/
theorem entriesOf_eq_singleton {text content : Text} (hcomma : ',' ∉ text) (hstrip : strip text = content)
    (hne : content ≠ []) : entriesOf text = [content] := by
  rw [entriesOf, splitOn_of_not_mem hcomma, List.map_singleton, hstrip, List.filter_cons_of_pos]
  · rfl
  · simpa using hne

theorem BoundName.entriesOf_append (name : BoundName) {trailers : Text}
    (h : ∀ c ∈ trailers, isTrailer c = true) : entriesOf (name.text ++ trailers) = [name.text] := by
  rw [entriesOf_append_trailers h]
  exact entriesOf_eq_singleton (name.not_mem (by decide)) name.trimmed.strip_eq name.ne_nil

theorem BoundName.leadingName_text (name : BoundName) : leadingName name.text = name.text := by
  refine if_neg fun h => ?_
  rw [← List.append_nil name.text] at h
  exact name.head?_append_ne (by decide) [] h

theorem Namespace.trimmed (all : Namespace) : Trimmed all.text := by
  have hstar : Trimmed ['*'] := ⟨by decide, ends_cons.2 (by decide), ends_cons.2 (by decide)⟩
  simpa [text] using hstar.between all.name.trimmed (all.lead.1 ++ ("as".toList ++ all.space.1))

/-- A namespace is made of its star, white space and characters of names. -/
theorem Namespace.not_mem_text {c : Char} (hblank : isBlank c = false) (hname : isNameChar c = false)
    (hstar : c ≠ '*') (all : Namespace) : c ∉ all.text := by
  have has : c ∉ "as".toList := not_mem_of_forall hname (List.all_eq_true.1 (by decide))
  simp only [text, List.mem_cons, List.mem_append, not_or]
  exact ⟨hstar, not_mem_of_forall hblank all.lead.2, has, not_mem_of_forall hblank all.space.2.2,
    all.name.not_mem hname⟩

theorem Namespace.entriesOf_append (all : Namespace) (lead : Blanks) :
    entriesOf (lead.1 ++ all.text) = [all.text] := by
  have hstrip : strip (lead.1 ++ all.text) = all.text := by
    simpa using all.trimmed.strip_append lead ⟨[], nofun⟩
  refine entriesOf_eq_singleton (fun hc => ?_) hstrip all.trimmed.ne_nil
  rcases List.mem_append.1 hc with hc | hc
  · exact absurd (lead.2 _ hc) (by decide)
  · exact all.not_mem_text (by decide) (by decide) (by decide) hc

theorem Namespace.leadingName_text (all : Namespace) : leadingName all.text = all.name.text := by
  have hlead : 'a' ∉ '*' :: all.lead.1 := by
    rw [List.mem_cons, not_or]
    exact ⟨by decide, fun hc => absurd (all.lead.2 _ hc) (by decide)⟩
  have hcut : partition "as".toList all.text =
      some ('*' :: all.lead.1, all.space.1 ++ all.name.text) :=
    partition_append hlead (all.space.1 ++ all.name.text)
  have hstrip : strip (all.space.1 ++ all.name.text) = all.name.text := by
    simpa using all.name.trimmed.strip_append ⟨all.space.1, all.space.2.2⟩ ⟨[], nofun⟩
  rw [leadingName, hcut, if_pos (show all.text.head? = some '*' from rfl)]
  exact hstrip

/-- A clause is made of white space, characters of names, commas, braces and stars. -/
theorem Clause.not_mem_text {c : Char} (hblank : isBlank c = false) (hname : isNameChar c = false)
    (hmark : c ∉ "*,\x7b\x7d".toList) (clause : Clause) : c ∉ clause.text := by
  have hstar : c ≠ '*' := fun h => hmark (h ▸ by decide)
  have hcomma : c ≠ ',' := fun h => hmark (h ▸ by decide)
  have hopen : c ≠ '\x7b' := fun h => hmark (h ▸ by decide)
  have hclose : c ≠ '\x7d' := fun h => hmark (h ▸ by decide)
  have hgroup (group : Group) : c ∉ group.text := by
    cases group with
    | braced list => simp [Group.text, hopen, hclose, list.not_mem_interior hblank hname hcomma]
    | star all => exact all.not_mem_text hblank hname hstar
  cases clause with
  | default name => exact name.not_mem hname
  | only group => exact hgroup group
  | both name comma group =>
    have hspace (blanks : Blanks) : c ∉ blanks.1 := not_mem_of_forall hblank blanks.2
    simp [text, Comma.text, name.not_mem hname, hgroup, hcomma, hspace]

/-- What a clause with a braced list binds. -/
theorem localNames_braced {leading interior : Text} (hopen : '\x7b' ∉ leading)
    (hclose : '\x7d' ∉ interior) :
    localNames (leading ++ '\x7b' :: (interior ++ ['\x7d'])) =
      (entriesOf leading).map leadingName ++ (entriesOf interior).map bracedName := by
  have hcut : partition ['\x7b'] (leading ++ '\x7b' :: (interior ++ ['\x7d'])) =
      some (leading, interior ++ ['\x7d']) := partition_append hopen (interior ++ ['\x7d'])
  have hright : Text.stripRight (interior ++ ['\x7d']) = interior ++ ['\x7d'] := by
    rw [Text.stripRight, List.reverse_append, List.reverse_singleton, List.singleton_append,
      List.dropWhile_cons_of_neg (by decide), ← List.singleton_append, List.reverse_append,
      List.reverse_reverse]
    rfl
  have hbrace : (interior ++ ['\x7d']).reverse.dropWhile (· = '\x7d') = interior.reverse := by
    rw [List.reverse_append]
    refine dropWhile_append_of_ends (List.all_eq_true.1 (by decide)) fun c hc => decide_eq_false ?_
    rintro rfl
    exact hclose (List.mem_reverse.1 (List.mem_of_head? hc))
  rw [localNames, hcut]
  dsimp only
  rw [hright, hbrace, List.reverse_reverse]

/-- What a clause without a braced list binds. -/
theorem localNames_of_not_mem {clause : Text} (h : '\x7b' ∉ clause) :
    localNames clause = (entriesOf clause).map leadingName := by
  rw [localNames, partition_of_not_mem [] h]

theorem NameList.map_bracedName (list : NameList) :
    (entriesOf list.interior).map bracedName = list.items.map Item.bound := by
  have hstrip (item : Item) : strip item.text = item.content :=
    item.trimmed_content.strip_append item.front item.back
  rw [NameList.interior, entriesOf_joinWith (fun item _ => item.not_mem_text (by decide) (by decide))
    hstrip (fun item => item.trimmed_content.ne_nil), List.map_map]
  exact List.map_congr_left fun item _ => item.bracedName_content

theorem Comma.isTrailer_of_mem (comma : Comma) : ∀ c ∈ comma.text, isTrailer c = true := by
  simp only [text, List.mem_append, List.mem_cons]
  rintro c (hc | rfl | hc)
  · simp [isTrailer, comma.front.2 c hc]
  · decide
  · simp [isTrailer, comma.back.2 c hc]

/-- A written clause binds the names that were written. -/
theorem Clause.localNames_text (clause : Clause) : localNames clause.text = clause.bound := by
  have hclose (list : NameList) : '\x7d' ∉ list.interior :=
    list.not_mem_interior (by decide) (by decide) (by decide)
  have hopen (name : BoundName) : '\x7b' ∉ name.text := name.not_mem (by decide)
  have hstar (all : Namespace) : '\x7b' ∉ all.text :=
    all.not_mem_text (by decide) (by decide) (by decide)
  have hcomma (comma : Comma) : '\x7b' ∉ comma.text := fun hc =>
    absurd (comma.isTrailer_of_mem _ hc) (by decide)
  cases clause with
  | default name =>
    have hnone : ∀ c ∈ ([] : Text), isTrailer c = true := nofun
    have hname := name.entriesOf_append hnone
    rw [List.append_nil] at hname
    rw [text, localNames_of_not_mem (hopen name), hname, List.map_singleton, name.leadingName_text]
    rfl
  | only group =>
    cases group with
    | braced list =>
      have h := localNames_braced (List.not_mem_nil (a := '\x7b')) (hclose list)
      rw [entriesOf_nil, list.map_bracedName] at h
      exact h
    | star all =>
      have hall := all.entriesOf_append ⟨[], nofun⟩
      rw [List.nil_append] at hall
      rw [text, Group.text, localNames_of_not_mem (hstar all), hall, List.map_singleton,
        all.leadingName_text]
      rfl
  | both name comma group =>
    cases group with
    | braced list =>
      have hleading : '\x7b' ∉ name.text ++ comma.text := by simp [hopen, hcomma]
      rw [text, ← List.append_assoc, Group.text, localNames_braced hleading (hclose list),
        name.entriesOf_append comma.isTrailer_of_mem, list.map_bracedName, List.map_singleton,
        name.leadingName_text]
      rfl
    | star all =>
      have hnone : '\x7b' ∉ name.text ++ (comma.text ++ all.text) := by simp [hopen, hcomma, hstar]
      have hcut : name.text ++ (comma.text ++ all.text) =
          (name.text ++ comma.front.1) ++ ',' :: (comma.back.1 ++ all.text) := by simp [Comma.text]
      have hfront : ∀ c ∈ comma.front.1, isTrailer c = true := fun c hc => by
        simp [isTrailer, comma.front.2 c hc]
      rw [text, Group.text, localNames_of_not_mem hnone, hcut, entriesOf_comma,
        name.entriesOf_append hfront, all.entriesOf_append, List.map_append, List.map_singleton,
        List.map_singleton, name.leadingName_text, all.leadingName_text]
      rfl

end PersistedQueries.CallSite
