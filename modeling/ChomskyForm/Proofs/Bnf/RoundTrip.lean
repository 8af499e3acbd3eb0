/-
Grammars that were written read back.

The text that a grammar is shown with is read as the same grammar again. For a
grammar that was read this follows from its symbols, which come from words. The
conversion then adds names of its own, and each of its stages keeps all symbols
legible: a wanted name is made of names and terminals that are legible already,
brackets in it are escaped, and primes end no word.
-/
import ChomskyForm.Conversion
import ChomskyForm.Proofs.Bnf.ReadSymbols
import ChomskyForm.Proofs.Normal.GeneratedNames
import ChomskyForm.Proofs.Normal.Shape

set_option autoImplicit false

namespace ChomskyForm

/-! ## 1. Names in brackets -/

namespace Bnf

/-- Whether a character may stand in the name of a nonterminal. -/
def isPlain (c : Char) : Bool := c != '<' && c != '>' && !Lexer.endsWord c

/-- Characters that may stand in the name of a nonterminal. -/
def Plain (chars : List Char) : Prop := chars.all isPlain = true

instance (chars : List Char) : Decidable (Plain chars) :=
  inferInstanceAs (Decidable (_ = true))

/-- The check of all characters, taken apart: no brackets, and nothing that ends a word. -/
theorem plain_iff (chars : List Char) :
    Plain chars ↔ '<' ∉ chars ∧ '>' ∉ chars ∧ ∀ c ∈ chars, Lexer.endsWord c = false := by
  unfold Plain isPlain
  simp only [List.all_eq_true, Bool.and_eq_true, bne_iff_ne, Bool.not_eq_true']
  constructor
  · intro h
    exact ⟨fun hc => (h _ hc).1.1 rfl, fun hc => (h _ hc).1.2 rfl, fun c hc => (h c hc).2⟩
  · rintro ⟨opening, closing, solid⟩ c hc
    exact ⟨⟨fun e => opening (e ▸ hc), fun e => closing (e ▸ hc)⟩, solid c hc⟩

theorem plain_append {a b : List Char} : Plain (a ++ b) ↔ Plain a ∧ Plain b := by
  unfold Plain
  rw [List.all_append, Bool.and_eq_true]

/-- The token of a text, in terms of the classes of words. -/
theorem classify?_eq_some_iff (text : String) (token : Token) :
    Token.classify? text = some token ↔ Classified text.toList (some token) := by
  have iff := Lexeme.token?_eq_iff ⟨text.toList, .start⟩ (some token)
  unfold Lexeme.token? at iff
  rwa [String.ofList_toList] at iff

/-- A word that is read as a nonterminal is its name in brackets. -/
theorem Classified.isName {word : List Char} {name : String}
    (h : Classified word (some (.name name))) : IsName word name.toList := by
  cases h with
  | name isName => rwa [String.toList_ofList]

/-- A nonterminal is legible if its name is not empty and may stand in
brackets. -/
theorem legible_nonterminal_iff (name : String) :
    (tokenOf (.nonterminal name)).Legible ↔ name.toList ≠ [] ∧ Plain name.toList := by
  rw [plain_iff]
  have text : (tokenOf (.nonterminal name)).text.toList = '<' :: (name.toList ++ ['>']) := by
    simp [tokenOf, Token.text]
  constructor
  · intro h
    obtain ⟨any, opening, closing, -⟩ := ((classify?_eq_some_iff _ _).1 h.classified).isName
    have solid := h.solid
    rw [text, List.forall_mem_cons, List.forall_mem_append] at solid
    exact ⟨any, opening, closing, solid.2.1⟩
  · rintro ⟨any, opening, closing, solid⟩
    -- the brackets around the name are the only ones of the word
    have isName : IsName ('<' :: (name.toList ++ ['>'])) name.toList := ⟨any, opening, closing, rfl⟩
    have classified := Classified.name isName
    rw [← text, String.ofList_toList] at classified
    refine ⟨?_, ?_, (classify?_eq_some_iff _ _).2 classified⟩
    · rw [text]
      exact List.cons_ne_nil _ _
    · rw [text, List.forall_mem_cons, List.forall_mem_append, List.forall_mem_singleton]
      exact ⟨rfl, solid, rfl⟩

/-! ## 2. Wanted names -/

/-- Escaped text is plain: the brackets in it are written as entities, whose characters
are plain. -/
theorem plain_escape {text : String} (solid : ∀ c ∈ text.toList, Lexer.endsWord c = false) :
    Plain (WantedName.escape text).toList := by
  unfold WantedName.escape
  rw [String.toList_join, List.flatMap_map]
  revert solid
  -- the text is split into characters, so the induction is on these and not on the string
  generalize text.toList = chars
  intro solid
  induction chars with
  | nil => decide
  | cons c rest ih =>
    rw [List.forall_mem_cons] at solid
    rw [List.flatMap_cons, plain_append]
    refine ⟨?_, ih solid.2⟩
    by_cases opening : c = '<'
    · rw [if_pos opening]
      decide
    by_cases closing : c = '>'
    · rw [if_neg opening, if_pos closing]
      decide
    · have alone : c.toString.toList = [c] := String.toList_singleton c
      rw [if_neg opening, if_neg closing, alone]
      simpa [Plain, isPlain, opening, closing] using solid.1

/-- The digits of a number are plain. -/
theorem plain_toString (n : Nat) : Plain (toString n).toList := by
  rw [Nat.toString_eq_repr, Nat.toList_repr]
  have digit : ∀ c ∈ Nat.toDigits 10 n, c.isDigit = true :=
    fun c hc => Nat.isDigit_of_mem_toDigits (by decide) (by decide) hc
  rw [plain_iff]
  refine ⟨fun h => absurd (digit _ h) (by decide), fun h => absurd (digit _ h) (by decide), ?_⟩
  intro c hc
  rw [Bool.eq_false_iff]
  intro ends
  simp only [Lexer.endsWord, Lexer.isBlank, Bool.or_eq_true, beq_iff_eq] at ends
  rcases ends with ((rfl | rfl) | rfl) | rfl <;> exact absurd (digit _ hc) (by decide)

/-- A name that differs from a plain one in its primes is legible. A prime is neither a
bracket nor the end of a word. -/
theorem legible_primed {wanted name : String} (h : Primed wanted name)
    (any : wanted.toList ≠ []) (plain : Plain wanted.toList) :
    (tokenOf (.nonterminal name)).Legible := by
  rw [legible_nonterminal_iff]
  induction h with
  | bare => exact ⟨any, plain⟩
  | prime _ ih =>
    rw [String.toList_append, plain_append]
    have prime : Plain "'".toList := by decide
    exact ⟨List.append_ne_nil_of_left_ne_nil ih.1 _, ih.2, prime⟩

/-- The name that a stand-in wants is plain if its terminal is legible. -/
theorem plain_standIn {terminal : String} (legible : (tokenOf (.terminal terminal)).Legible) :
    Plain (WantedName.standIn terminal).toList := by
  unfold WantedName.standIn
  rw [String.toList_append, plain_append]
  exact ⟨by decide, plain_escape legible.solid⟩

/-- The name that a tail wants is plain if the rule that it is cut from is legible. What
is put around that name are dots and digits. -/
theorem plain_tail {origin : String} (legible : (tokenOf (.nonterminal origin)).Legible)
    (alternative position : Nat) : Plain (WantedName.tail origin alternative position).toList := by
  have plain := ((legible_nonterminal_iff origin).1 legible).2
  unfold WantedName.tail
  simp only [String.toList_append, plain_append]
  have dot : Plain ".".toList := by decide
  have sign : Plain "$bin.".toList := by decide
  exact ⟨⟨⟨⟨⟨sign, plain⟩, dot⟩, plain_toString alternative⟩, dot⟩, plain_toString position⟩

end Bnf

/-! ## 3. The stages keep symbols legible -/

/-- Each entry of a row has a partner in a row that is related to it. -/
theorem exists_of_forall₂_of_mem {α β : Type} {R : α → β → Prop} {xs : List α} {ys : List β}
    (h : List.Forall₂ R xs ys) {y : β} (hy : y ∈ ys) : ∃ x ∈ xs, R x y := by
  induction h with
  | nil => cases hy
  | cons related _ ih =>
    rcases List.mem_cons.1 hy with rfl | hy
    · exact ⟨_, List.mem_cons_self, related⟩
    · obtain ⟨x, hx, r⟩ := ih hy
      exact ⟨x, List.mem_cons_of_mem _ hx, r⟩

namespace Grammar

open Bnf

variable {g g' : Grammar}

/-- The symbols of a grammar are its names, and the symbols of its
productions. -/
theorem forall_mem_symbols_iff (g : Grammar) (P : Symbol → Prop) :
    (∀ s ∈ g.symbols, P s) ↔
      (∀ name ∈ g.names, P (.nonterminal name)) ∧ ∀ s, g.Occurs s → P s := by
  constructor
  · intro h
    refine ⟨fun name hn => ?_, fun s hs => ?_⟩
    · obtain ⟨rule, hr, rfl⟩ := (g.mem_names_iff name).1 hn
      exact h _ (List.mem_flatMap.2 ⟨rule, hr, List.mem_cons_self⟩)
    · obtain ⟨name, p, hp, hs⟩ := hs
      obtain ⟨rule, hr, -, hp⟩ := (g.mem_productionsOf_iff name p).1 hp
      have inRule : s ∈ rule.symbols := List.mem_cons_of_mem _ (List.mem_flatMap.2 ⟨p, hp, hs⟩)
      exact h s (List.mem_flatMap.2 ⟨rule, hr, inRule⟩)
  · rintro ⟨names, occurring⟩ s hs
    obtain ⟨rule, hr, hs⟩ := List.mem_flatMap.1 hs
    rcases List.mem_cons.1 hs with rfl | hs
    · exact names _ (g.name_mem_names hr)
    · obtain ⟨p, hp, hs⟩ := List.mem_flatMap.1 hs
      exact occurring s (Grammar.occurs_of_mem hr hp hs)

/-- All names of a grammar and all symbols of its productions are legible. -/
def LegibleSymbols (g : Grammar) : Prop :=
  (∀ name ∈ g.names, (tokenOf (.nonterminal name)).Legible) ∧
    ∀ s, g.Occurs s → (tokenOf s).Legible

/-- Wrapping the start adds a wrapper, whose name is `$start` and some primes. -/
theorem WrapsStart.legibleSymbols {inner : String} (h : g.WrapsStart inner g')
    (implicit : g.explicitStart = none) (legible : g.LegibleSymbols) : g'.LegibleSymbols := by
  obtain ⟨names, occurring⟩ := legible
  have declared : inner ∈ g.names := by
    have start := h.start?
    rw [start?_eq_head? implicit] at start
    exact List.mem_of_mem_head? start
  have plain : Plain WantedName.start.toList := by decide
  have wrapper := legible_primed ((TakenNames.ofGrammar g).primed_free WantedName.start)
    (by decide) plain
  constructor
  · rw [h.names, List.forall_mem_cons]
    exact ⟨wrapper, names⟩
  · intro s hs
    rcases h.occurs hs with rfl | old
    · exact names inner declared
    · exact occurring s old

/-- A stand-in is named after a terminal of the grammar. -/
theorem legible_standIn (legible : g.LegibleSymbols) {x : StandIn} (hx : x ∈ g.standIns) :
    (tokenOf (.nonterminal x.name)).Legible := by
  have claimed := StandIn.forall₂_claimAll (TakenNames.ofGrammar g) g.mixedTerminals
  obtain ⟨terminal, ht, -, primed⟩ := exists_of_forall₂_of_mem claimed hx
  have plain := plain_standIn (legible.2 _ (occurs_of_mem_mixedTerminals ht))
  exact legible_primed primed (by simp [WantedName.standIn]) plain

/-- Isolating terminals adds stand-ins only. -/
theorem IsolatesTerminals.legibleSymbols (h : g.IsolatesTerminals g')
    (legible : g.LegibleSymbols) : g'.LegibleSymbols := by
  constructor
  · rw [h.names, List.forall_mem_append, List.forall_mem_map]
    exact ⟨legible.1, fun x hx => legible_standIn legible hx⟩
  · intro s hs
    rcases h.occurs hs with old | ⟨x, hx, rfl⟩
    · exact legible.2 s old
    · exact legible_standIn legible hx

/-- A tail is named after a rule of the grammar. -/
theorem legible_tail (legible : g.LegibleSymbols) {rule : Rule} (hr : rule ∈ g.cutRules.tails) :
    (tokenOf (.nonterminal rule.name)).Legible := by
  have claimed := Cut.forall₂_rules g.rules (TakenNames.ofGrammar g)
  obtain ⟨place, hp, primed⟩ := exists_of_forall₂_of_mem claimed hr
  -- the place leads back to the rule that the tail was cut from
  obtain ⟨origin, ho, hp⟩ := List.mem_flatMap.1 hp
  obtain ⟨x, -, hp⟩ := List.mem_flatMap.1 hp
  obtain ⟨position, -, rfl⟩ := List.mem_map.1 hp
  have plain := plain_tail (legible.1 origin.name (g.name_mem_names ho))
  exact legible_primed primed (by simp [TailPlace.wanted, WantedName.tail]) (plain _ _)

/-- Cutting long alternatives adds tails only. -/
theorem Binarizes.legibleSymbols (h : g.Binarizes g') (legible : g.LegibleSymbols) :
    g'.LegibleSymbols := by
  constructor
  · rw [h.names, List.forall_mem_append, List.forall_mem_map]
    exact ⟨legible.1, fun rule hr => legible_tail legible hr⟩
  · intro s hs
    rcases h.occurs hs with old | ⟨rule, hr, rfl⟩
    · exact legible.2 s old
    · exact legible_tail legible hr

/-- Eliminating unit productions adds no name and moves symbols around. -/
theorem EliminatesUnits.legibleSymbols (h : g.EliminatesUnits g') (legible : g.LegibleSymbols) :
    g'.LegibleSymbols := by
  refine ⟨?_, fun s hs => legible.2 s (h.occurs hs)⟩
  rw [h.names]
  exact legible.1

/-- **The normal form of a legible grammar is legible**, and starts with its
first name. -/
theorem legible_of_toNormalForm (legible : Legible g) (implicit : g.explicitStart = none)
    (h : g.toNormalForm.outcome = .ok g') : Legible g' ∧ g'.start? = g'.names.head? := by
  obtain ⟨inner, g₁, g₂, g₃, wraps, isolates, binarizes, eliminates⟩ := stages_of_ok h
  have symbols : g.LegibleSymbols := (g.forall_mem_symbols_iff _).1 legible.symbols
  have symbols₁ := wraps.legibleSymbols implicit symbols
  have symbols₃ := binarizes.legibleSymbols (isolates.legibleSymbols symbols₁)
  have symbols' := eliminates.legibleSymbols symbols₃
  refine ⟨⟨(g'.forall_mem_symbols_iff _).2 symbols', fun rule hr => (rule_of_ok h hr).1⟩, ?_⟩
  rw [start?_of_stages wraps isolates binarizes eliminates,
    names_of_stages wraps isolates binarizes eliminates]
  rfl

end Grammar

/-! ## 4. There and back -/

namespace Bnf

/-- The text that a grammar is shown with, with definitions in the place of the
arrows, is read as a grammar with the same rules and the same start symbol. -/
def ReadsBack (g : Grammar) : Prop :=
  ∃ g', (readGrammar (Source.ofBytes (asDefinitions g.text).toUTF8.toList)).outcome = .ok g' ∧
    g'.rules = g.rules ∧ g'.start? = g.start?

/-- A legible grammar with short symbols reads back if it starts with its first name.
Reading always takes the first name, so a grammar with another start would come back
changed. -/
theorem Legible.readsBack {g : Grammar} (h : Legible g)
    (short : ∀ s ∈ g.symbols, Utf8.size s.text.toList < 8192)
    (start : g.start? = g.names.head?) : ReadsBack g := by
  have rules : (Grammar.collect g.rules).rules = g.rules :=
    Grammar.rules_collect_of_nodup g.table.nodup
  refine ⟨Grammar.collect g.rules, h.readGrammar_asDefinitions short, rules, ?_⟩
  rw [start, Grammar.start?_eq_head? rfl, Grammar.names_eq_of_rules_eq rules]
  rfl

/-- **Writing and reading are inverse** along the whole way. A grammar that was
read reads back from its own text, and so does the normal form that a conversion
gives, if its symbols are shorter than a window. Every symbol of such a normal
form, generated or not, is written as one word, and the word has the token of
the symbol. -/
theorem text_reads_back :
    (∀ (source : Source) (g : Grammar), (readGrammar source).outcome = .ok g → ReadsBack g) ∧
    (∀ (source : Source) (g : Grammar), (convert source).outcome = .ok g →
      (∀ s ∈ g.symbols, Utf8.size s.text.toList < 8192) → ReadsBack g) ∧
    ∀ (source : Source) (g g' : Grammar), (readGrammar source).outcome = .ok g →
      g.toNormalForm.outcome = .ok g' → ∀ s ∈ g'.symbols,
        (∀ c ∈ s.text.toList, Lexer.endsWord c = false) ∧
          Token.classify? s.text = some (tokenOf s) := by
  refine ⟨?_, ?_, ?_⟩
  · intro source g read
    obtain ⟨legible, short, implicit⟩ := legible_of_readGrammar read
    exact legible.readsBack short (Grammar.start?_eq_head? implicit)
  · -- the normal form is legible because the grammar behind it was read
    intro source g' converted short
    obtain ⟨g, read, normal⟩ := toNormalForm_of_convert converted
    obtain ⟨legible, -, implicit⟩ := legible_of_readGrammar read
    obtain ⟨legible', start⟩ := Grammar.legible_of_toNormalForm legible implicit normal
    exact legible'.readsBack short start
  · intro source g g' read normal s hs
    obtain ⟨legible, -, implicit⟩ := legible_of_readGrammar read
    have symbol := (Grammar.legible_of_toNormalForm legible implicit normal).1.symbols s hs
    rw [← text_tokenOf]
    exact ⟨symbol.solid, symbol.classified⟩

/-- Terminals that look like brackets, an arrow and a comment, and a declared name
that looks like that of a stand-in. -/
def operatorText : String := "<S> ::= <S> -> <S> | # | < <S> > <= #\n<$term.&lt;> ::= < <S>"

/-- Both ways for this text: every bracket in its terminals is escaped in the names that
the conversion makes. -/
theorem text_reads_back_operators :
    (∃ g, (readGrammar (Source.ofBytes operatorText.toUTF8.toList)).outcome = .ok g ∧
      ReadsBack g) ∧
    ∃ g, (convert (Source.ofBytes operatorText.toUTF8.toList)).outcome = .ok g ∧
      (∀ s ∈ g.symbols, Utf8.size s.text.toList < 8192) ∧ ReadsBack g ∧
      ∀ s ∈ g.symbols, Token.classify? s.text = some (tokenOf s) := by
  have reads : (readGrammar (Source.ofBytes operatorText.toUTF8.toList)).outcome.isOk = true := by
    decide +kernel
  have converts : ((convert (Source.ofBytes operatorText.toUTF8.toList)).outcome.toOption.any
      fun g => decide (∀ s ∈ g.symbols, Utf8.size s.text.toList < 8192)) = true := by
    decide +kernel
  constructor
  · cases read : (readGrammar (Source.ofBytes operatorText.toUTF8.toList)).outcome with
    | error e =>
      rw [read] at reads
      cases reads
    | ok g => exact ⟨g, rfl, text_reads_back.1 _ g read⟩
  · cases converted : (convert (Source.ofBytes operatorText.toUTF8.toList)).outcome with
    | error e =>
      rw [converted] at converts
      cases converts
    | ok g' =>
      rw [converted] at converts
      have short : ∀ s ∈ g'.symbols, Utf8.size s.text.toList < 8192 := of_decide_eq_true converts
      obtain ⟨g, read, normal⟩ := toNormalForm_of_convert converted
      exact ⟨g', rfl, short, text_reads_back.2.1 _ g' converted short,
        fun s hs => (text_reads_back.2.2 _ g g' read normal s hs).2⟩

end Bnf

end ChomskyForm
