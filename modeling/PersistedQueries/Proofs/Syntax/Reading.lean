import Mathlib.Data.List.Basic
import Mathlib.Data.Set.Insert
import PersistedQueries.GraphQL.Parser.Basic
import PersistedQueries.Proofs.Syntax.Spelling

/-!
# What parsers read

A parser is deterministic and looks one token ahead, so what it reads is a relation between its
results and the tokens it takes, together with the tokens that must not come next because it would
take them too. `Reads` states that relation in both directions: whatever the parser accepts is
spelled that way, and whatever is spelled that way it accepts.

- `Leads`: a stream begins with some tokens and goes on with another stream.
- `Settled`, `Avoids`: what comes next is no fault, and is none of some tokens.
- `Reads`: the relation of a parser. `bind_eq_ok` and the lemmas beside it take a parser apart.
- `bind`, `both`, `behind`, `ahead`, `checked`: parsers put together, with what they read;
  `byNext`, `choice`, `opt`: where the next token decides.
- `Each`: the spelling of a list by that of its items; `Reads.zeroOrMore`, `Reads.oneOrMore`,
  `Reads.optionalList`: lists between punctuators, whose fuel never runs out; `Reads.listed`: those
  whose items have one spelling; `Reads.asLongAs`: items behind a mark.
-/

namespace PersistedQueries.GraphQL

/-! ## Streams -/

/-- A stream begins with some tokens and goes on with another stream. -/
inductive Leads : List Token → TokenStream → TokenStream → Prop where
  | nil {stream : TokenStream} : Leads [] stream stream
  | cons {token : Token} {offset : Nat} {tokens : List Token} {stream rest : TokenStream}
      (h : Leads tokens stream rest) : Leads (token :: tokens) (.next token offset stream) rest

/-- A token or the end of the text comes next, and no fault. -/
def Settled (stream : TokenStream) : Prop := ∀ fault, stream ≠ .broken fault

/-- None of some tokens comes next. -/
def Avoids (stops : Set Token) (stream : TokenStream) : Prop :=
  ∀ token ∈ stops, Parser.token? stream ≠ some token

namespace Leads

variable {tokens more : List Token} {stream middle rest : TokenStream} {token : Token}

theorem append (h : Leads tokens stream middle) (h' : Leads more middle rest) :
    Leads (tokens ++ more) stream rest := by
  induction h with
  | nil => exact h'
  | cons _ ih => exact .cons (ih h')

theorem append_iff : Leads (tokens ++ more) stream rest ↔
    ∃ middle, Leads tokens stream middle ∧ Leads more middle rest := by
  constructor
  · intro h
    induction tokens generalizing stream with
    | nil => exact ⟨stream, .nil, h⟩
    | cons token tokens ih =>
      cases h with
      | cons h =>
        obtain ⟨middle, hfront, hback⟩ := ih h
        exact ⟨middle, .cons hfront, hback⟩
  · rintro ⟨middle, hfront, hback⟩
    exact hfront.append hback

theorem uncons (h : Leads (token :: tokens) stream rest) :
    ∃ middle, Leads [token] stream middle ∧ Leads tokens middle rest :=
  append_iff.1 h

theorem nil_iff : Leads [] stream rest ↔ stream = rest := by
  constructor
  · intro h
    cases h
    rfl
  · rintro rfl
    exact .nil

theorem cons_iff : Leads (token :: tokens) stream rest ↔
    Parser.token? stream = some token ∧ Leads tokens (Parser.rest stream) rest := by
  constructor
  · intro h
    cases h with
    | cons h => exact ⟨rfl, h⟩
  · rintro ⟨htoken, h⟩
    cases stream with
    | next other offset stream =>
      cases htoken
      exact .cons h
    | _ => cases htoken

theorem singleton_iff : Leads [token] stream rest ↔
    Parser.token? stream = some token ∧ Parser.rest stream = rest := by
  rw [cons_iff, nil_iff]

theorem length (h : Leads tokens stream rest) : stream.length = tokens.length + rest.length := by
  induction h with
  | nil => simp
  | cons _ ih =>
    simp only [TokenStream.length, List.length_cons, ih]
    omega

theorem token?_eq (h : Leads (token :: tokens) stream rest) :
    Parser.token? stream = some token :=
  (cons_iff.1 h).1

theorem settled (h : Leads tokens stream rest) (hrest : Settled rest) : Settled stream := by
  cases h with
  | nil => exact hrest
  | cons _ => exact fun _ => TokenStream.noConfusion

/-- What comes next is the first of the tokens, or what follows when there are none. -/
theorem avoids {stops : Set Token} (h : Leads tokens stream rest)
    (hfirst : ∀ token, tokens.head? = some token → token ∉ stops)
    (hrest : tokens = [] → Avoids stops rest) : Avoids stops stream := by
  cases h with
  | nil => exact hrest rfl
  | cons _ =>
    intro token htoken hnext
    exact hfirst token hnext htoken

/-- The tokens between two places of a stream are determined. -/
theorem unique (h : Leads tokens stream rest) (h' : Leads more stream rest) : tokens = more := by
  induction h generalizing more with
  | @nil stream =>
    have hlength := h'.length
    exact (List.eq_nil_of_length_eq_zero (by omega)).symm
  | @cons token offset tokens stream rest h ih =>
    cases h' with
    | nil =>
      have hlength := h.length
      simp only [TokenStream.length] at hlength
      omega
    | cons h' => rw [ih h']

end Leads

theorem Avoids.mono {stops stops' : Set Token} {stream : TokenStream} (h : Avoids stops stream)
    (hsub : stops' ⊆ stops) : Avoids stops' stream :=
  fun token htoken => h token (hsub htoken)

/-! ## Parsers taken apart -/

namespace Parser

variable {α β : Type} {stream rest : TokenStream}

theorem bind_eq_ok {p : Parser α} {f : α → Parser β} {b : β} :
    (p >>= f) stream = .ok (b, rest) ↔
      ∃ a middle, p stream = .ok (a, middle) ∧ f a middle = .ok (b, rest) := by
  show (p stream >>= fun x => f x.1 x.2) = .ok (b, rest) ↔ _
  cases p stream with
  | error fault => simp [bind, Except.bind]
  | ok found =>
    obtain ⟨a, middle⟩ := found
    simp [bind, Except.bind]

theorem pure_eq_ok {a b : α} :
    (pure a : Parser α) stream = .ok (b, rest) ↔ a = b ∧ stream = rest := by
  show Except.ok (a, stream) = .ok (b, rest) ↔ _
  simp

theorem map_eq_ok {p : Parser α} {g : α → β} {b : β} :
    (g <$> p) stream = .ok (b, rest) ↔ ∃ a, g a = b ∧ p stream = .ok (a, rest) := by
  rw [map_eq_pure_bind, bind_eq_ok]
  constructor
  · rintro ⟨a, middle, h, hb⟩
    obtain ⟨rfl, rfl⟩ := pure_eq_ok.1 hb
    exact ⟨a, rfl, h⟩
  · rintro ⟨a, rfl, h⟩
    exact ⟨a, rest, h, pure_eq_ok.2 ⟨rfl, rfl⟩⟩

theorem peek_eq_ok {next : Option Token} :
    peek stream = .ok (next, rest) ↔ token? stream = next ∧ stream = rest := by
  simp [peek]

/-- What follows a look ahead can see the next token. -/
theorem peek_bind (f : Option Token → Parser α) (stream : TokenStream) :
    (peek >>= f) stream = f (token? stream) stream := rfl

theorem peekPunct_eq_ok {p : Punctuator} {found : Bool} :
    peekPunct p stream = .ok (found, rest) ↔
      found = decide (token? stream = some (.punct p)) ∧ stream = rest := by
  simp only [peekPunct, bind_eq_ok, peek_eq_ok, pure_eq_ok]
  constructor
  · rintro ⟨_, _, ⟨rfl, rfl⟩, rfl, rfl⟩
    exact ⟨rfl, rfl⟩
  · rintro ⟨rfl, rfl⟩
    exact ⟨_, _, ⟨rfl, rfl⟩, rfl, rfl⟩

theorem settle_eq_ok : settle stream = .ok ((), rest) ↔ Settled stream ∧ stream = rest := by
  cases stream <;> simp [settle, Settled]

/-- A step takes the token that comes next. -/
theorem advance_eq_ok {token : Token} (h : token? stream = some token) :
    advance stream = .ok ((), rest) ↔ Leads [token] stream rest ∧ Settled rest := by
  rw [advance, settle_eq_ok, Leads.singleton_iff]
  constructor
  · rintro ⟨hsettled, rfl⟩
    exact ⟨⟨h, rfl⟩, hsettled⟩
  · rintro ⟨⟨-, rfl⟩, hsettled⟩
    exact ⟨hsettled, rfl⟩

/-- A parser that takes the token that comes next, and gives a result that this token decides. -/
theorem advance_return_eq_ok {a b : α} {token : Token} (h : token? stream = some token) :
    (do advance; return a : Parser α) stream = .ok (b, rest) ↔
      a = b ∧ Leads [token] stream rest ∧ Settled rest := by
  rw [bind_eq_ok]
  constructor
  · rintro ⟨_, _, hadvance, hpure⟩
    obtain ⟨rfl, rfl⟩ := pure_eq_ok.1 hpure
    exact ⟨rfl, (advance_eq_ok h).1 hadvance⟩
  · rintro ⟨rfl, hleads⟩
    exact ⟨(), rest, (advance_eq_ok h).2 hleads, pure_eq_ok.2 ⟨rfl, rfl⟩⟩

/-- Step over a token that must come next. -/
def expectToken (token : Token) (what : String) : Parser Unit := do
  if (← peek) = some token then advance else expected what

theorem expectToken_eq_ok (token : Token) (what : String) {u : Unit} :
    expectToken token what stream = .ok (u, rest) ↔ Leads [token] stream rest ∧ Settled rest := by
  simp only [expectToken, bind_eq_ok, peek_eq_ok]
  constructor
  · rintro ⟨_, _, ⟨rfl, rfl⟩, h⟩
    split at h
    · next htoken => exact (advance_eq_ok htoken).1 h
    · cases h
  · intro h
    refine ⟨_, _, ⟨rfl, rfl⟩, ?_⟩
    rw [if_pos h.1.token?_eq]
    exact (advance_eq_ok h.1.token?_eq).2 h

theorem expectPunct_eq_ok {p : Punctuator} {u : Unit} :
    expectPunct p stream = .ok (u, rest) ↔ Leads [.punct p] stream rest ∧ Settled rest :=
  expectToken_eq_ok (.punct p) p.describe

theorem expectKeyword_eq_ok (word : String) {u : Unit} :
    expectKeyword word stream = .ok (u, rest) ↔ Leads [.name word] stream rest ∧ Settled rest :=
  expectToken_eq_ok (.name word) _

theorem name_eq_ok {text : String} :
    name stream = .ok (text, rest) ↔ Leads [.name text] stream rest ∧ Settled rest := by
  simp only [name, bind_eq_ok, peek_eq_ok]
  constructor
  · rintro ⟨_, _, ⟨rfl, rfl⟩, h⟩
    cases htoken : token? stream with
    | none => rw [htoken] at h; cases h
    | some token =>
      rw [htoken] at h
      cases token with
      | name other =>
        obtain ⟨rfl, hread⟩ := (advance_return_eq_ok htoken).1 h
        exact hread
      | _ => cases h
  · intro h
    refine ⟨_, _, ⟨rfl, rfl⟩, ?_⟩
    rw [h.1.token?_eq]
    exact (advance_return_eq_ok h.1.token?_eq).2 ⟨rfl, h⟩

end Parser

/-! ## What a parser reads -/

open PersistedQueries.GraphQL.Parser

variable {α β : Type}

/-- A parser reads what is spelled in a certain way: its results are spelled by the tokens that it
takes, and it takes what spells a result unless some tokens follow. -/
structure Reads (p : Parser α) (Spells : α → List Token → Prop) (stops : Set Token) : Prop where
  sound : ∀ {stream rest a}, Settled stream → p stream = .ok (a, rest) →
    ∃ tokens, Spells a tokens ∧ Leads tokens stream rest ∧ Settled rest
  complete : ∀ {stream rest a tokens}, Spells a tokens → Leads tokens stream rest →
    Settled rest → Avoids stops rest → p stream = .ok (a, rest)

/-- A result has one spelling, and has it under a condition. -/
def Exactly (Fits : α → Prop) (spelling : α → List Token) (a : α) (tokens : List Token) : Prop :=
  Fits a ∧ tokens = spelling a

/-- The spelling of one thing and then that of another one. -/
def Both (Spells : α → List Token → Prop) (Spells' : β → List Token → Prop) (x : α × β)
    (tokens : List Token) : Prop :=
  ∃ front back, Spells x.1 front ∧ Spells' x.2 back ∧ tokens = front ++ back

/-- The spelling of the items of a list, one after the other. -/
inductive Each (Spells : α → List Token → Prop) : List α → List Token → Prop where
  | nil : Each Spells [] []
  | cons {a : α} {as : List α} {front back : List Token} (h : Spells a front)
      (h' : Each Spells as back) : Each Spells (a :: as) (front ++ back)

/-- The first token of every spelling is none of some tokens, and where nothing is spelled these
tokens are among others. -/
def StartsApart (Spells : α → List Token → Prop) (stops stops' : Set Token) : Prop :=
  ∀ a tokens, Spells a tokens → (∀ token, tokens.head? = some token → token ∉ stops) ∧
    (tokens = [] → stops ⊆ stops')

/-- Two things with one spelling each have one spelling together. -/
theorem both_exactly {Fits : α → Prop} {Fits' : β → Prop} {spelling : α → List Token}
    {spelling' : β → List Token} : Both (Exactly Fits spelling) (Exactly Fits' spelling') =
      Exactly (fun x => Fits x.1 ∧ Fits' x.2) (fun x => spelling x.1 ++ spelling' x.2) := by
  funext x tokens
  refine propext ⟨?_, ?_⟩
  · rintro ⟨_, _, ⟨h, rfl⟩, ⟨h', rfl⟩, rfl⟩
    exact ⟨⟨h, h'⟩, rfl⟩
  · rintro ⟨⟨h, h'⟩, rfl⟩
    exact ⟨_, _, ⟨h, rfl⟩, ⟨h', rfl⟩, rfl⟩

/-- Items with one spelling each have one spelling together. -/
theorem each_exactly {Fits : α → Prop} {spelling : α → List Token} : Each (Exactly Fits spelling) =
    Exactly (fun as => ∀ a ∈ as, Fits a) (List.flatMap spelling) := by
  funext as tokens
  refine propext ⟨fun h => ?_, ?_⟩
  · induction h with
    | nil => exact ⟨by simp, rfl⟩
    | cons h _ ih =>
      obtain ⟨hfits, rfl⟩ := h
      obtain ⟨hrest, rfl⟩ := ih
      exact ⟨List.forall_mem_cons.2 ⟨hfits, hrest⟩, rfl⟩
  · rintro ⟨hfits, rfl⟩
    induction as with
    | nil => exact .nil
    | cons a as ih =>
      obtain ⟨ha, has⟩ := List.forall_mem_cons.1 hfits
      exact .cons ⟨ha, rfl⟩ (ih has)

namespace Reads

variable {p : Parser α} {q : Parser β} {Spells : α → List Token → Prop}
  {Spells' : β → List Token → Prop} {stops stops' : Set Token}

/-- The tokens that must not follow may be more. -/
theorem mono (h : Reads p Spells stops) (hsub : stops ⊆ stops') : Reads p Spells stops' where
  sound := h.sound
  complete := fun hspells hleads hrest hstops =>
    h.complete hspells hleads hrest (hstops.mono hsub)

/-- A parser reads what its results are spelled with under another description. -/
theorem congr {Spells' : α → List Token → Prop} (h : Reads p Spells stops)
    (hiff : ∀ a tokens, Spells a tokens ↔ Spells' a tokens) : Reads p Spells' stops := by
  have heq : Spells = Spells' := funext fun a => funext fun tokens => propext (hiff a tokens)
  exact heq ▸ h

/-- A change of the results, described by a change of what is spelled. -/
theorem map {g : α → β} (h : Reads p Spells stops)
    (hiff : ∀ b tokens, Spells' b tokens ↔ ∃ a, g a = b ∧ Spells a tokens) :
    Reads (g <$> p) Spells' stops where
  sound := by
    intro stream rest b hstream hok
    obtain ⟨a, rfl, ha⟩ := map_eq_ok.1 hok
    obtain ⟨tokens, hspells, hrest⟩ := h.sound hstream ha
    exact ⟨tokens, (hiff _ _).2 ⟨a, rfl, hspells⟩, hrest⟩
  complete := by
    intro stream rest b tokens hspells hleads hrest hstops
    obtain ⟨a, rfl, ha⟩ := (hiff _ _).1 hspells
    exact map_eq_ok.2 ⟨a, rfl, h.complete ha hleads hrest hstops⟩

end Reads

/-! ## Parsers put together -/

namespace Parser

/-- One parser and then another one. -/
def both (p : Parser α) (q : Parser β) : Parser (α × β) := do
  let a ← p
  let b ← q
  return (a, b)

/-- A parser behind tokens that carry nothing. -/
def behind (mark : Parser Unit) (q : Parser β) : Parser β := do
  mark
  q

/-- A parser in front of tokens that carry nothing. -/
def ahead (p : Parser α) (mark : Parser Unit) : Parser α := do
  let a ← p
  mark
  return a

/-- What stands behind a punctuator, when the punctuator comes next. -/
def opt (mark : Punctuator) (q : Parser β) : Parser (Option β) := do
  if ← skipPunct mark then return some (← q) else return none

end Parser

namespace Reads

variable {p : Parser α} {q : Parser β} {Spells : α → List Token → Prop}
  {Spells' : β → List Token → Prop} {stops stops' : Set Token}

/-- One parser and then another one, which may depend on what the first one read. -/
theorem bind {f : α → Parser β} {Spells' : α → β → List Token → Prop} (hp : Reads p Spells stops)
    (stops'' : Set Token) (hf : ∀ a, Reads (f a) (Spells' a) stops')
    (hapart : ∀ a, StartsApart (Spells' a) stops stops'') (hsub : stops' ⊆ stops'') :
    Reads (p >>= f) (fun b tokens => ∃ a front back, Spells a front ∧ Spells' a b back ∧
      tokens = front ++ back) stops'' where
  sound := by
    intro stream rest b hstream hok
    obtain ⟨a, middle, ha, hb⟩ := bind_eq_ok.1 hok
    obtain ⟨front, hfront, hleads, hmiddle⟩ := hp.sound hstream ha
    obtain ⟨back, hback, hleads', hrest⟩ := (hf a).sound hmiddle hb
    exact ⟨front ++ back, ⟨a, front, back, hfront, hback, rfl⟩, hleads.append hleads', hrest⟩
  complete := by
    rintro stream rest b _ ⟨a, front, back, hfront, hback, rfl⟩ hleads hrest hstops
    obtain ⟨middle, hleads, hleads'⟩ := Leads.append_iff.1 hleads
    obtain ⟨hfirst, hempty⟩ := hapart a _ _ hback
    have havoids : Avoids stops middle :=
      hleads'.avoids hfirst fun h => hstops.mono (hempty h)
    exact bind_eq_ok.2 ⟨a, middle, hp.complete hfront hleads (hleads'.settled hrest) havoids,
      (hf a).complete hback hleads' hrest (hstops.mono hsub)⟩

theorem both (hp : Reads p Spells stops) (stops'' : Set Token) (hq : Reads q Spells' stops')
    (hapart : StartsApart Spells' stops stops'') (hsub : stops' ⊆ stops'') :
    Reads (Parser.both p q) (Both Spells Spells') stops'' := by
  have hpair : ∀ a : α, Reads (q >>= fun b => pure (a, b))
      (fun x tokens => x.1 = a ∧ Spells' x.2 tokens) stops' := by
    intro a
    rw [← map_eq_pure_bind]
    refine hq.map fun x tokens => ?_
    constructor
    · rintro ⟨rfl, h⟩
      exact ⟨x.2, rfl, h⟩
    · rintro ⟨b, rfl, h⟩
      exact ⟨rfl, h⟩
  refine (hp.bind stops'' hpair (fun a x tokens h => hapart x.2 tokens h.2) hsub).congr
    fun x tokens => ?_
  constructor
  · rintro ⟨_, front, back, hfront, ⟨rfl, hback⟩, rfl⟩
    exact ⟨front, back, hfront, hback, rfl⟩
  · rintro ⟨front, back, hfront, hback, rfl⟩
    exact ⟨_, front, back, hfront, ⟨rfl, hback⟩, rfl⟩

theorem behind {mark : Parser Unit} {marks : List Token}
    (hmark : ∀ {stream rest}, mark stream = .ok ((), rest) ↔ Leads marks stream rest ∧ Settled rest)
    (hq : Reads q Spells' stops') : Reads (Parser.behind mark q)
      (fun b tokens => ∃ back, Spells' b back ∧ tokens = marks ++ back) stops' where
  sound := by
    intro stream rest b hstream hok
    obtain ⟨_, middle, hm, hb⟩ := bind_eq_ok.1 hok
    obtain ⟨hleads, hmiddle⟩ := hmark.1 hm
    obtain ⟨back, hback, hleads', hrest⟩ := hq.sound hmiddle hb
    exact ⟨marks ++ back, ⟨back, hback, rfl⟩, hleads.append hleads', hrest⟩
  complete := by
    rintro stream rest b _ ⟨back, hback, rfl⟩ hleads hrest hstops
    obtain ⟨middle, hleads, hleads'⟩ := Leads.append_iff.1 hleads
    exact bind_eq_ok.2 ⟨(), middle, hmark.2 ⟨hleads, hleads'.settled hrest⟩,
      hq.complete hback hleads' hrest hstops⟩

theorem ahead {mark : Parser Unit} {marks : List Token}
    (hmark : ∀ {stream rest}, mark stream = .ok ((), rest) ↔ Leads marks stream rest ∧ Settled rest)
    (hp : Reads p Spells stops) (hapart : ∀ token, marks.head? = some token → token ∉ stops)
    (hmarks : marks ≠ []) : Reads (Parser.ahead p mark)
      (fun a tokens => ∃ front, Spells a front ∧ tokens = front ++ marks) ∅ where
  sound := by
    intro stream rest a hstream hok
    simp only [Parser.ahead, bind_eq_ok, pure_eq_ok] at hok
    obtain ⟨a, middle, ha, _, _, hm, rfl, rfl⟩ := hok
    obtain ⟨front, hfront, hleads, hmiddle⟩ := hp.sound hstream ha
    obtain ⟨hleads', hrest⟩ := hmark.1 hm
    exact ⟨front ++ marks, ⟨front, hfront, rfl⟩, hleads.append hleads', hrest⟩
  complete := by
    rintro stream rest a _ ⟨front, hfront, rfl⟩ hleads hrest hstops
    obtain ⟨middle, hleads, hleads'⟩ := Leads.append_iff.1 hleads
    have havoids : Avoids stops middle := hleads'.avoids hapart fun h => absurd h hmarks
    have ha := hp.complete hfront hleads (hleads'.settled hrest) havoids
    simp only [Parser.ahead, bind_eq_ok, pure_eq_ok]
    exact ⟨a, middle, ha, (), rest, hmark.2 ⟨hleads', hrest⟩, rfl, rfl⟩

end Reads

theorem reads_name : Reads name (fun text tokens => tokens = [.name text]) ∅ where
  sound := by
    intro stream rest text _ hok
    exact ⟨_, rfl, name_eq_ok.1 hok⟩
  complete := by
    rintro stream rest text _ rfl hleads hrest _
    exact name_eq_ok.2 ⟨hleads, hrest⟩

/-- A name has one spelling. -/
theorem reads_nameExactly : Reads name (Exactly (fun _ => True) fun text => [.name text]) ∅ :=
  reads_name.congr fun text tokens => by simp [Exactly]

namespace Parser

/-- Step over a token when it comes next. -/
def skipToken (token : Token) : Parser Bool := do
  if (← peek) = some token then advance; return true else return false

end Parser

theorem skipToken_of_leads {token : Token} {stream rest : TokenStream}
    (h : Leads [token] stream rest) (hrest : Settled rest) :
    skipToken token stream = .ok (true, rest) := by
  simp only [skipToken, bind_eq_ok, peek_eq_ok]
  refine ⟨_, _, ⟨rfl, rfl⟩, ?_⟩
  rw [if_pos h.token?_eq]
  exact (advance_return_eq_ok h.token?_eq).2 ⟨rfl, h, hrest⟩

theorem skipToken_of_avoids {token : Token} {stream : TokenStream} (h : Avoids {token} stream) :
    skipToken token stream = .ok (false, stream) := by
  simp only [skipToken, bind_eq_ok, peek_eq_ok]
  refine ⟨_, _, ⟨rfl, rfl⟩, ?_⟩
  rw [if_neg (h _ rfl)]
  exact pure_eq_ok.2 ⟨rfl, rfl⟩

theorem reads_skipToken (token : Token) : Reads (skipToken token)
    (fun found tokens => tokens = if found then [token] else []) {token} where
  sound := by
    intro stream rest found hstream hok
    simp only [skipToken, bind_eq_ok, peek_eq_ok] at hok
    obtain ⟨_, _, ⟨rfl, rfl⟩, hok⟩ := hok
    split at hok
    · next htoken =>
      obtain ⟨rfl, h⟩ := (advance_return_eq_ok htoken).1 hok
      exact ⟨_, rfl, h⟩
    · obtain ⟨rfl, rfl⟩ := pure_eq_ok.1 hok
      exact ⟨[], rfl, .nil, hstream⟩
  complete := by
    rintro stream rest found _ rfl hleads hrest hstops
    cases found with
    | true => exact skipToken_of_leads hleads hrest
    | false =>
      obtain rfl := Leads.nil_iff.1 hleads
      exact skipToken_of_avoids hstops

/-- A punctuator is taken when it comes next. -/
theorem reads_skipPunct (mark : Punctuator) : Reads (skipPunct mark)
    (fun found tokens => tokens = if found then [.punct mark] else []) {.punct mark} :=
  reads_skipToken (.punct mark)

/-- A word is taken when it comes next. -/
theorem reads_skipKeyword (word : String) : Reads (skipKeyword word)
    (fun found tokens => tokens = if found then [.name word] else []) {.name word} :=
  reads_skipToken (.name word)

theorem reads_pure (a : α) : Reads (pure a) (fun b tokens => b = a ∧ tokens = []) ∅ where
  sound := by
    intro stream rest b hstream hok
    obtain ⟨rfl, rfl⟩ := pure_eq_ok.1 hok
    exact ⟨[], ⟨rfl, rfl⟩, .nil, hstream⟩
  complete := by
    rintro stream rest _ _ ⟨rfl, rfl⟩ hleads _ _
    exact pure_eq_ok.2 ⟨rfl, Leads.nil_iff.1 hleads⟩

theorem reads_fail (cause : Cause) : Reads (fail cause : Parser α) (fun _ _ => False) ∅ where
  sound := by
    intro stream rest a _ hok
    cases hok
  complete := fun hspells => absurd hspells id

/-- A parser whose results are checked. -/
theorem Reads.checked {p : Parser α} {Spells : α → List Token → Prop} {stops : Set Token}
    (h : Reads p Spells stops) (check : α → Bool) :
    Reads (p >>= fun a => if check a then pure a else unexpected)
      (fun a tokens => check a ∧ Spells a tokens) stops where
  sound := by
    intro stream rest a hstream hok
    obtain ⟨b, middle, hb, hok⟩ := bind_eq_ok.1 hok
    split at hok
    · next hcheck =>
      obtain ⟨rfl, rfl⟩ := pure_eq_ok.1 hok
      obtain ⟨tokens, hspells, hrest⟩ := h.sound hstream hb
      exact ⟨tokens, ⟨hcheck, hspells⟩, hrest⟩
    · cases hok
  complete := by
    rintro stream rest a tokens ⟨hcheck, hspells⟩ hleads hrest hstops
    refine bind_eq_ok.2 ⟨a, rest, h.complete hspells hleads hrest hstops, ?_⟩
    rw [if_pos hcheck]
    exact pure_eq_ok.2 ⟨rfl, rfl⟩

/-- What comes next decides between two parsers: the first one is taken in front of some tokens, the
second one in front of all others. -/
theorem Reads.byNext {p q r : Parser α} {Spells Spells' : α → List Token → Prop}
    {stops stops' stops'' : Set Token} (first : Set Token)
    (hp : Reads p Spells stops) (hq : Reads q Spells' stops')
    (hin : ∀ stream token, token? stream = some token → token ∈ first → r stream = p stream)
    (hout : ∀ stream, Avoids first stream → r stream = q stream)
    (hfirst : ∀ a tokens, Spells a tokens → ∃ token more, tokens = token :: more ∧ token ∈ first)
    (hapart : StartsApart Spells' first stops'') (hsub : stops ⊆ stops'')
    (hsub' : stops' ⊆ stops'') :
    Reads r (fun a tokens => Spells a tokens ∨ Spells' a tokens) stops'' where
  sound := by
    intro stream rest a hstream hok
    by_cases hnext : ∃ token, token? stream = some token ∧ token ∈ first
    · obtain ⟨token, htoken, hmem⟩ := hnext
      rw [hin stream token htoken hmem] at hok
      obtain ⟨tokens, hspells, hrest⟩ := hp.sound hstream hok
      exact ⟨tokens, .inl hspells, hrest⟩
    · have havoids : Avoids first stream := fun token hmem htoken => hnext ⟨token, htoken, hmem⟩
      rw [hout stream havoids] at hok
      obtain ⟨tokens, hspells, hrest⟩ := hq.sound hstream hok
      exact ⟨tokens, .inr hspells, hrest⟩
  complete := by
    intro stream rest a tokens hspells hleads hrest hstops
    rcases hspells with hspells | hspells
    · obtain ⟨token, more, rfl, hmem⟩ := hfirst a tokens hspells
      rw [hin stream token hleads.token?_eq hmem]
      exact hp.complete hspells hleads hrest (hstops.mono hsub)
    · obtain ⟨hstarts, hempty⟩ := hapart a tokens hspells
      rw [hout stream (hleads.avoids hstarts fun h => hstops.mono (hempty h))]
      exact hq.complete hspells hleads hrest (hstops.mono hsub')

/-- A token that comes next decides between two parsers. -/
theorem Reads.choice {p q : Parser α} {Spells Spells' : α → List Token → Prop}
    {stops stops' : Set Token} (hp : Reads p Spells stops) (stops'' : Set Token)
    (hq : Reads q Spells' stops') (token : Token) (hapart : StartsApart Spells' {token} stops'')
    (hsub : stops ⊆ stops'') (hsub' : stops' ⊆ stops'') :
    Reads (do if ← skipToken token then p else q)
      (fun a tokens => (∃ back, Spells a back ∧ tokens = token :: back) ∨ Spells' a tokens)
      stops'' where
  sound := by
    intro stream rest a hstream hok
    obtain ⟨found, middle, hskip, hok⟩ := bind_eq_ok.1 hok
    obtain ⟨_, rfl, hleads, hmiddle⟩ := (reads_skipToken token).sound hstream hskip
    cases found with
    | true =>
      obtain ⟨back, hback, hleads', hrest⟩ := hp.sound hmiddle hok
      exact ⟨token :: back, .inl ⟨back, hback, rfl⟩, hleads.append hleads', hrest⟩
    | false =>
      obtain ⟨tokens, hspells, hleads', hrest⟩ := hq.sound hmiddle hok
      exact ⟨tokens, .inr hspells, hleads.append hleads', hrest⟩
  complete := by
    intro stream rest a tokens hspells hleads hrest hstops
    refine bind_eq_ok.2 ?_
    rcases hspells with ⟨back, hback, rfl⟩ | hspells
    · obtain ⟨middle, hleads, hleads'⟩ := hleads.uncons
      have hskip := skipToken_of_leads hleads (hleads'.settled hrest)
      exact ⟨true, middle, hskip, hp.complete hback hleads' hrest (hstops.mono hsub)⟩
    · obtain ⟨hfirst, hempty⟩ := hapart a tokens hspells
      have havoids := hleads.avoids hfirst fun h => hstops.mono (hempty h)
      exact ⟨false, stream, skipToken_of_avoids havoids,
        hq.complete hspells hleads hrest (hstops.mono hsub')⟩

/-- What stands behind a punctuator is read when the punctuator comes next. -/
theorem Reads.opt {q : Parser β} {Spells : β → List Token → Prop} {stops : Set Token}
    (hq : Reads q Spells stops) (mark : Punctuator) : Reads (Parser.opt mark q)
      (fun b? tokens => (∃ b back, some b = b? ∧ Spells b back ∧ tokens = .punct mark :: back) ∨
        b? = none ∧ tokens = [])
      (insert (.punct mark) stops) := by
  have hsome := hq.map (g := some) fun _ _ => Iff.rfl
  rw [map_eq_pure_bind] at hsome
  refine (hsome.choice _ (reads_pure none) (.punct mark) ?_ (Set.subset_insert _ _)
    (Set.empty_subset _)).congr fun b? tokens => ?_
  · rintro b? tokens ⟨-, rfl⟩
    exact ⟨nofun, fun _ => by simp⟩
  · constructor
    · rintro (⟨back, ⟨b, hb, hspells⟩, rfl⟩ | h)
      · exact .inl ⟨b, back, hb, hspells, rfl⟩
      · exact .inr h
    · rintro (⟨b, back, hb, hspells, rfl⟩ | h)
      · exact .inl ⟨back, ⟨b, hb, hspells⟩, rfl⟩
      · exact .inr h

/-! ## Lists -/

/-- Items can stand one behind the other in front of a token: each begins with a token that is
another one and that the item before it would not take. -/
structure Separable (Spells : α → List Token → Prop) (stops : Set Token) (closing : Token) :
    Prop where
  closing_free : closing ∉ stops
  starts : ∀ a tokens, Spells a tokens →
    ∃ token more, tokens = token :: more ∧ token ∉ stops ∧ token ≠ closing

theorem Each.length_le {Spells : α → List Token → Prop} {as : List α} {tokens : List Token}
    (h : Each Spells as tokens) (hitem : ∀ a tokens, Spells a tokens → tokens ≠ []) :
    as.length ≤ tokens.length := by
  induction h with
  | nil => exact Nat.le_refl 0
  | cons h _ ih =>
    have := List.length_pos_of_ne_nil (hitem _ _ h)
    simp only [List.length_cons, List.length_append]
    omega

theorem Each.eq_nil_iff {Spells : α → List Token → Prop} {as : List α} {tokens : List Token}
    (h : Each Spells as tokens) (hitem : ∀ a tokens, Spells a tokens → tokens ≠ []) :
    tokens = [] ↔ as = [] := by
  cases h with
  | nil => simp
  | cons h _ => simp [hitem _ _ h]

variable {item : Parser α} {Spells : α → List Token → Prop} {stops : Set Token}

theorem Separable.ne_nil {closing : Token} (h : Separable Spells stops closing) (a : α)
    (tokens : List Token) (hspells : Spells a tokens) : tokens ≠ [] := by
  obtain ⟨token, more, rfl, -⟩ := h.starts a tokens hspells
  exact List.cons_ne_nil token more

/-- What begins with an item, or with the closing token, is not taken by the item before it. -/
theorem Separable.avoids {closing : Token} (h : Separable Spells stops closing) {as : List α}
    {tokens more : List Token} (heach : Each Spells as tokens) {stream rest : TokenStream}
    (hleads : Leads (tokens ++ closing :: more) stream rest) : Avoids stops stream := by
  refine hleads.avoids (fun token htoken => ?_) (by simp)
  cases heach with
  | nil =>
    cases htoken
    exact h.closing_free
  | cons hfirst _ =>
    obtain ⟨first, others, rfl, hfree, -⟩ := h.starts _ _ hfirst
    cases htoken
    exact hfree

theorem itemsUntil_sound {closing : Punctuator} (h : Reads item Spells stops) {fuel : Nat}
    {as : List α} {stream rest : TokenStream} (hstream : Settled stream)
    (hok : itemsUntil closing item fuel stream = .ok (as, rest)) :
    ∃ front, Each Spells as front ∧ Leads (front ++ [.punct closing]) stream rest ∧
      Settled rest := by
  induction fuel generalizing as stream with
  | zero => cases hok
  | succ fuel ih =>
    obtain ⟨found, middle, hskip, hok⟩ := bind_eq_ok.1 hok
    obtain ⟨_, rfl, hleads, hmiddle⟩ := (reads_skipPunct closing).sound hstream hskip
    cases found with
    | true =>
      obtain ⟨rfl, rfl⟩ := pure_eq_ok.1 hok
      exact ⟨[], .nil, hleads, hmiddle⟩
    | false =>
      obtain rfl := Leads.nil_iff.1 hleads
      simp only [Bool.false_eq_true, if_false, bind_eq_ok, pure_eq_ok] at hok
      obtain ⟨a, next, ha, as, _, has, rfl, rfl⟩ := hok
      obtain ⟨front, hfront, hleads, hnext⟩ := h.sound hmiddle ha
      obtain ⟨back, hback, hleads', hrest⟩ := ih hnext has
      refine ⟨front ++ back, .cons hfront hback, ?_, hrest⟩
      rw [List.append_assoc]
      exact hleads.append hleads'

theorem itemsUntil_complete {closing : Punctuator} (h : Reads item Spells stops)
    (hseparable : Separable Spells stops (.punct closing)) {fuel : Nat} {as : List α}
    {front : List Token} {stream rest : TokenStream} (hfront : Each Spells as front)
    (hleads : Leads (front ++ [.punct closing]) stream rest) (hrest : Settled rest)
    (hfuel : as.length < fuel) : itemsUntil closing item fuel stream = .ok (as, rest) := by
  induction hfront generalizing fuel stream with
  | nil =>
    obtain ⟨fuel, rfl⟩ : ∃ n, fuel = n + 1 := ⟨fuel - 1, by omega⟩
    exact bind_eq_ok.2 ⟨true, rest, skipToken_of_leads hleads hrest, pure_eq_ok.2 ⟨rfl, rfl⟩⟩
  | @cons a as front back hfirst hback ih =>
    obtain ⟨fuel, rfl⟩ : ∃ n, fuel = n + 1 := ⟨fuel - 1, by omega⟩
    obtain ⟨token, more, rfl, -, hne⟩ := hseparable.starts _ _ hfirst
    have hskip : skipToken (.punct closing) stream = .ok (false, stream) := by
      refine skipToken_of_avoids (hleads.avoids (fun first hhead => ?_) (by simp))
      cases hhead
      simpa using hne
    rw [List.append_assoc] at hleads
    obtain ⟨middle, hleads, hleads'⟩ := Leads.append_iff.1 hleads
    have ha := h.complete hfirst hleads (hleads'.settled hrest) (hseparable.avoids hback hleads')
    have has : itemsUntil closing item fuel middle = .ok (as, rest) :=
      ih hleads' (by simpa using hfuel)
    refine bind_eq_ok.2 ⟨false, stream, hskip, ?_⟩
    simp only [Bool.false_eq_true, if_false, bind_eq_ok, pure_eq_ok]
    exact ⟨a, middle, ha, as, rest, has, rfl, rfl⟩

namespace Reads

/-- Items up to a closing punctuator. Each of them takes a token, so the fuel does not run out. -/
theorem zeroOrMore {closing : Punctuator} (h : Reads item Spells stops)
    (hseparable : Separable Spells stops (.punct closing)) :
    Reads (Parser.zeroOrMore closing item)
      (fun as tokens => ∃ front, Each Spells as front ∧ tokens = front ++ [.punct closing]) ∅ where
  sound := by
    intro stream rest as hstream hok
    obtain ⟨front, hfront, hleads, hrest⟩ := itemsUntil_sound h hstream hok
    exact ⟨_, ⟨front, hfront, rfl⟩, hleads, hrest⟩
  complete := by
    rintro stream rest as _ ⟨front, hfront, rfl⟩ hleads hrest _
    have hlength := hleads.length
    have hle := hfront.length_le hseparable.ne_nil
    simp only [List.length_append, List.length_singleton] at hlength
    exact itemsUntil_complete h hseparable hfront hleads hrest (by omega)

theorem oneOrMore {opening closing : Punctuator} (h : Reads item Spells stops)
    (hseparable : Separable Spells stops (.punct closing)) :
    Reads (Parser.oneOrMore opening item closing)
      (fun as tokens => as ≠ [] ∧ ∃ front, Each Spells as front ∧
        tokens = enclosed opening closing front) ∅ where
  sound := by
    intro stream rest as hstream hok
    simp only [Parser.oneOrMore, bind_eq_ok, pure_eq_ok] at hok
    obtain ⟨_, s₁, hopen, a, s₂, ha, as, _, has, rfl, rfl⟩ := hok
    obtain ⟨hleads₁, h₁⟩ := expectPunct_eq_ok.1 hopen
    obtain ⟨front, hfront, hleads₂, h₂⟩ := h.sound h₁ ha
    obtain ⟨_, ⟨back, hback, rfl⟩, hleads₃, hrest⟩ := (h.zeroOrMore hseparable).sound h₂ has
    refine ⟨_, ⟨List.cons_ne_nil a as, _, .cons hfront hback, rfl⟩, ?_, hrest⟩
    have hne := hseparable.ne_nil a front hfront
    simpa [enclosed, hne] using hleads₁.append (hleads₂.append hleads₃)
  complete := by
    rintro stream rest as _ ⟨hne, front, hfront, rfl⟩ hleads hrest _
    cases hfront with
    | nil => exact absurd rfl hne
    | @cons a as front back hfront hback =>
      have hne := hseparable.ne_nil a front hfront
      rw [enclosed, if_neg (by simp [hne]), List.cons_append, List.append_assoc] at hleads
      obtain ⟨s₁, hleads₁, hleads⟩ := hleads.uncons
      obtain ⟨s₂, hleads₂, hleads₃⟩ := Leads.append_iff.1 hleads
      have h₂ : Settled s₂ := hleads₃.settled hrest
      have ha := h.complete hfront hleads₂ h₂ (hseparable.avoids hback hleads₃)
      have has := (h.zeroOrMore hseparable).complete ⟨back, hback, rfl⟩ hleads₃ hrest
        (by simp [Avoids])
      simp only [Parser.oneOrMore, bind_eq_ok, pure_eq_ok]
      exact ⟨(), s₁, expectPunct_eq_ok.2 ⟨hleads₁, hleads₂.settled h₂⟩, a, s₂, ha, as, rest, has,
        rfl, rfl⟩

theorem optionalList {opening closing : Punctuator} (h : Reads item Spells stops)
    (hseparable : Separable Spells stops (.punct closing)) :
    Reads (Parser.optionalList opening item closing)
      (fun as tokens => ∃ front, Each Spells as front ∧ tokens = enclosed opening closing front)
      {.punct opening} where
  sound := by
    intro stream rest as hstream hok
    simp only [Parser.optionalList, bind_eq_ok, peekPunct_eq_ok] at hok
    obtain ⟨_, _, ⟨rfl, rfl⟩, hok⟩ := hok
    split at hok
    · obtain ⟨tokens, ⟨-, hspells⟩, hrest⟩ := (h.oneOrMore hseparable).sound hstream hok
      exact ⟨tokens, hspells, hrest⟩
    · obtain ⟨rfl, rfl⟩ := pure_eq_ok.1 hok
      exact ⟨[], ⟨[], .nil, rfl⟩, .nil, hstream⟩
  complete := by
    rintro stream rest as _ ⟨front, hfront, rfl⟩ hleads hrest hstops
    simp only [Parser.optionalList, bind_eq_ok, peekPunct_eq_ok]
    refine ⟨_, _, ⟨rfl, rfl⟩, ?_⟩
    by_cases hempty : as = []
    · obtain rfl := (hfront.eq_nil_iff hseparable.ne_nil).2 hempty
      obtain rfl := Leads.nil_iff.1 hleads
      rw [if_neg (by simpa using hstops _ rfl)]
      exact pure_eq_ok.2 ⟨hempty.symm, rfl⟩
    · have hne := mt (hfront.eq_nil_iff hseparable.ne_nil).1 hempty
      have hok := (h.oneOrMore hseparable).complete ⟨hempty, front, hfront, rfl⟩ hleads hrest
        (by simp [Avoids])
      rw [enclosed, if_neg hne] at hleads
      rwa [if_pos (by simpa using hleads.token?_eq)]

/-- A list between punctuators, each of whose items has one spelling. -/
theorem listed {Fits : α → Prop} {spelling : α → List Token} {opening closing : Punctuator}
    (h : Reads item (Exactly Fits spelling) stops)
    (hseparable : Separable (Exactly Fits spelling) stops (.punct closing)) :
    Reads (Parser.optionalList opening item closing)
      (Exactly (fun as => ∀ a ∈ as, Fits a) fun as => enclosed opening closing (as.flatMap spelling))
      {.punct opening} := by
  refine (h.optionalList hseparable).congr fun as tokens => ?_
  simp only [each_exactly]
  constructor
  · rintro ⟨_, ⟨hfits, rfl⟩, rfl⟩
    exact ⟨hfits, rfl⟩
  · rintro ⟨hfits, rfl⟩
    exact ⟨_, ⟨hfits, rfl⟩, rfl⟩

end Reads

/-! ## Items behind a mark -/

namespace Parser

/-- Items as long as a punctuator comes next, with which each begins. The fuel bounds their
number. -/
def repeated (mark : Punctuator) (item : Parser α) : (fuel : Nat) → Parser (List α)
  | 0 => return []
  | fuel + 1 => do
    if ← peekPunct mark then
      let first ← item
      let more ← repeated mark item fuel
      return first :: more
    else return []

/-- Items as long as a punctuator comes next, with which each begins. -/
def asLongAs (mark : Punctuator) (item : Parser α) : Parser (List α) := fun stream =>
  repeated mark item stream.length stream

end Parser

variable {mark : Punctuator} {stream rest : TokenStream}

theorem repeated_sound (h : Reads item Spells stops) {fuel : Nat} {as : List α}
    (hstream : Settled stream) (hok : repeated mark item fuel stream = .ok (as, rest)) :
    ∃ tokens, Each Spells as tokens ∧ Leads tokens stream rest ∧ Settled rest := by
  induction fuel generalizing as stream with
  | zero =>
    obtain ⟨rfl, rfl⟩ := pure_eq_ok.1 hok
    exact ⟨[], .nil, .nil, hstream⟩
  | succ fuel ih =>
    simp only [repeated, bind_eq_ok, peekPunct_eq_ok] at hok
    obtain ⟨_, _, ⟨rfl, rfl⟩, hok⟩ := hok
    split at hok
    · simp only [bind_eq_ok, pure_eq_ok] at hok
      obtain ⟨a, middle, ha, as, _, has, rfl, rfl⟩ := hok
      obtain ⟨front, hfront, hleads, hmiddle⟩ := h.sound hstream ha
      obtain ⟨back, hback, hleads', hrest⟩ := ih hmiddle has
      exact ⟨front ++ back, .cons hfront hback, hleads.append hleads', hrest⟩
    · obtain ⟨rfl, rfl⟩ := pure_eq_ok.1 hok
      exact ⟨[], .nil, .nil, hstream⟩

theorem repeated_complete (h : Reads item Spells stops) (hmark : .punct mark ∉ stops)
    (hitem : ∀ a tokens, Spells a tokens → ∃ more, tokens = .punct mark :: more) {fuel : Nat}
    {as : List α} {tokens : List Token} (hspells : Each Spells as tokens)
    (hleads : Leads tokens stream rest) (hrest : Settled rest)
    (hstops : Avoids (insert (.punct mark) stops) rest) (hfuel : tokens.length ≤ fuel) :
    repeated mark item fuel stream = .ok (as, rest) := by
  induction hspells generalizing fuel stream with
  | nil =>
    obtain rfl := Leads.nil_iff.1 hleads
    cases fuel with
    | zero => exact pure_eq_ok.2 ⟨rfl, rfl⟩
    | succ fuel =>
      simp only [repeated, bind_eq_ok, peekPunct_eq_ok]
      refine ⟨_, _, ⟨rfl, rfl⟩, ?_⟩
      rw [if_neg (by simpa using hstops _ (Set.mem_insert _ _))]
      exact pure_eq_ok.2 ⟨rfl, rfl⟩
  | @cons a as front back hfront hback ih =>
    obtain ⟨more, rfl⟩ := hitem a front hfront
    simp only [List.length_append, List.length_cons] at hfuel
    obtain ⟨fuel, rfl⟩ : ∃ n, fuel = n + 1 := ⟨fuel - 1, by omega⟩
    obtain ⟨middle, hleads, hleads'⟩ := Leads.append_iff.1 hleads
    -- the next item, like this one, begins with the mark, which this one does not take
    have havoids : Avoids stops middle := by
      refine hleads'.avoids (fun token htoken => ?_) fun _ => hstops.mono (by simp)
      cases hback with
      | nil => cases htoken
      | cons hnext _ =>
        obtain ⟨more, rfl⟩ := hitem _ _ hnext
        cases htoken
        exact hmark
    have ha := h.complete hfront hleads (hleads'.settled hrest) havoids
    have has : repeated mark item fuel middle = .ok (as, rest) := ih hleads' (by omega)
    simp only [repeated, bind_eq_ok, peekPunct_eq_ok]
    refine ⟨_, _, ⟨rfl, rfl⟩, ?_⟩
    rw [if_pos (by simpa using hleads.token?_eq)]
    simp only [bind_eq_ok, pure_eq_ok]
    exact ⟨a, middle, ha, as, rest, has, rfl, rfl⟩

/-- Marked items are read as long as the mark comes next. -/
theorem Reads.asLongAs (h : Reads item Spells stops) (hmark : .punct mark ∉ stops)
    (hitem : ∀ a tokens, Spells a tokens → ∃ more, tokens = .punct mark :: more) :
    Reads (Parser.asLongAs mark item) (Each Spells) (insert (.punct mark) stops) where
  sound := fun hstream hok => repeated_sound h hstream hok
  complete := by
    intro stream rest as tokens hspells hleads hrest hstops
    have hlength := hleads.length
    exact repeated_complete h hmark hitem hspells hleads hrest hstops (by omega)

end PersistedQueries.GraphQL
