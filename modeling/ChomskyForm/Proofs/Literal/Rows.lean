/-
Which rows of tokens are literals.

The parser works with one token of lookahead on three levels, and each level
goes on differently: items follow each other, alternatives are separated by
bars, and rules by semicolons, of which one more may stand at the end. For each
level there is the row of tokens that is written for a result, and the parser
answers a result exactly for the row that is written for it. What stands behind
the row matters only as far as it must not carry the level on.
-/
import ChomskyForm.Literal.Parser
import ChomskyForm.Proofs.Joining

set_option autoImplicit false

namespace ChomskyForm.Literal

/-! ## 1. The rows that are written -/

/-- The token that is written for a symbol. -/
def tokenOf : Symbol → Token
  | .nonterminal name => .identifier name
  | .terminal value => .text value

/-- The tokens of alternatives: items that follow each other, with bars between
the alternatives. -/
def alternativesTokens (alternatives : List (List Symbol)) : List Token :=
  [Token.bar].intercalate (alternatives.map (List.map tokenOf))

/-- The tokens of a rule: its name, a colon and its alternatives. -/
def ruleTokens (rule : LiteralRule) : List Token :=
  .identifier rule.name :: .colon :: alternativesTokens rule.alternatives

/-- The tokens of rules, with semicolons between them. -/
def literalTokens (rules : List LiteralRule) : List Token :=
  [Token.semicolon].intercalate (rules.map ruleTokens)

/-- There are alternatives, and each of them has items. -/
structure Filled (alternatives : List (List Symbol)) : Prop where
  any : alternatives ≠ []
  nonempty : ∀ symbols ∈ alternatives, symbols ≠ []

/-- A row of tokens is written for some rules: each has alternatives with items,
and a semicolon may stand behind the last one. Where there is no rule there is
none that a semicolon could stand behind. -/
structure WrittenFor (rules : List LiteralRule) (tokens : List Token) : Prop where
  filled : ∀ rule ∈ rules, Filled rule.alternatives
  row : tokens = literalTokens rules ∨ rules ≠ [] ∧ tokens = literalTokens rules ++ [.semicolon]

/-! ## 2. Items -/

variable {tokens rest : List Token} {symbols : List Symbol}

/-- The token of a symbol is an item, and this symbol. -/
@[simp] theorem item?_tokenOf (symbol : Symbol) : (tokenOf symbol).item? = some symbol := by
  cases symbol <;> rfl

/-- The tokens that are items are those that are written for symbols. -/
theorem item?_eq_some_iff {token : Token} {symbol : Symbol} :
    token.item? = some symbol ↔ token = tokenOf symbol := by
  constructor
  · intro h
    cases token <;> cases h <;> rfl
  · rintro rfl
    exact item?_tokenOf symbol

/-- A row of tokens begins with no item. -/
def EndsItems (tokens : List Token) : Prop := ∀ token ∈ tokens.head?, token.item? = none

/-- Where no item begins none is read. -/
theorem items_of_endsItems (h : EndsItems rest) : items rest = ([], rest) := by
  cases rest with
  | nil => rfl
  | cons token rest =>
    unfold items
    rw [h token rfl]

/-- Items are read as far as they go. -/
theorem items_eq_iff :
    items tokens = (symbols, rest) ↔ tokens = symbols.map tokenOf ++ rest ∧ EndsItems rest := by
  constructor
  · intro h
    -- on the tokens that are read, and in the other direction on the symbols that are written
    induction tokens generalizing symbols with
    | nil =>
      cases h
      exact ⟨rfl, fun token ht => by cases ht⟩
    | cons token others ih =>
      unfold items at h
      cases found : token.item? with
      | none =>
        rw [found] at h
        cases h
        refine ⟨rfl, fun first h => ?_⟩
        obtain rfl : token = first := Option.some.inj h
        exact found
      | some symbol =>
        rw [found] at h
        cases h
        obtain ⟨row, ends⟩ := ih rfl
        refine ⟨?_, ends⟩
        rw [List.map_cons, List.cons_append, ← row, item?_eq_some_iff.1 found]
  · rintro ⟨rfl, ends⟩
    induction symbols with
    | nil => exact items_of_endsItems ends
    | cons symbol others ih =>
      rw [List.map_cons, List.cons_append, items, item?_tokenOf, ih]

/-- An alternative is read where there is an item. -/
theorem alternative?_eq_some_iff :
    alternative? tokens = some (symbols, rest) ↔
      symbols ≠ [] ∧ tokens = symbols.map tokenOf ++ rest ∧ EndsItems rest := by
  rw [← items_eq_iff]
  unfold alternative?
  constructor
  · intro h
    split at h
    · cases h
    · rename_i any
      have all : items tokens = (symbols, rest) := Option.some.inj h
      rw [all] at any
      exact ⟨any, all⟩
  · rintro ⟨any, all⟩
    rw [all, if_neg any]

/-! ## 3. Alternatives -/

theorem alternativesTokens_singleton (symbols : List Symbol) :
    alternativesTokens [symbols] = symbols.map tokenOf := List.intercalate_singleton

theorem alternativesTokens_cons (symbols : List Symbol) {others : List (List Symbol)}
    (any : others ≠ []) :
    alternativesTokens (symbols :: others) =
      symbols.map tokenOf ++ .bar :: alternativesTokens others :=
  intercalate_map_cons Token.bar (List.map tokenOf) symbols any

theorem filled_singleton (any : symbols ≠ []) : Filled [symbols] where
  any := List.cons_ne_nil _ _
  nonempty := fun _ h => List.mem_singleton.1 h ▸ any

theorem Filled.cons {others : List (List Symbol)} (any : symbols ≠ []) (h : Filled others) :
    Filled (symbols :: others) :=
  ⟨List.cons_ne_nil _ _, List.forall_mem_cons.2 ⟨any, h.nonempty⟩⟩

/-- A row of tokens begins with nothing that carries alternatives on. -/
structure EndsAlternatives (tokens : List Token) : Prop where
  items : EndsItems tokens
  bar : tokens.head? ≠ some .bar

theorem endsItems_bar (tokens : List Token) : EndsItems (.bar :: tokens) := by
  intro token h
  obtain rfl : Token.bar = token := Option.some.inj h
  rfl

/-- Behind a bar other alternatives are read, and the bar is not given back where there
is none. -/
theorem alternatives?_of_bar (first : alternative? tokens = some (symbols, .bar :: rest)) :
    alternatives? tokens =
      (alternatives? rest).map fun (others, rest) => (symbols :: others, rest) := by
  rw [alternatives?]
  split <;> rename_i e <;> rw [first] at e <;> cases e
  · rfl
  · rename_i noBar
    exact absurd rfl (noBar _)

/-- Without a bar behind it an alternative is the last one. -/
theorem alternatives?_of_end (first : alternative? tokens = some (symbols, rest))
    (noBar : rest.head? ≠ some .bar) : alternatives? tokens = some ([symbols], rest) := by
  unfold alternatives?
  split <;> rename_i e <;> rw [first] at e <;> cases e
  · exact absurd rfl noBar
  · rfl

/-- **Alternatives are read** exactly where they are written. -/
theorem alternatives?_eq_some_iff {found : List (List Symbol)} :
    alternatives? tokens = some (found, rest) ↔
      Filled found ∧ tokens = alternativesTokens found ++ rest ∧ EndsAlternatives rest := by
  constructor
  · intro h
    -- the parser's own recursion, alternative by alternative
    fun_induction alternatives? tokens generalizing found rest with
    | case1 => cases h
    | case2 tokens symbols behind first ih =>
      obtain ⟨⟨others, last⟩, read, e⟩ := Option.map_eq_some_iff.1 h
      cases e
      obtain ⟨any, row, -⟩ := alternative?_eq_some_iff.1 first
      obtain ⟨filled, others_row, ends⟩ := ih read
      refine ⟨filled.cons any, ?_, ends⟩
      rw [row, others_row, alternativesTokens_cons symbols filled.any, List.append_assoc]
      rfl
    | case3 tokens symbols behind noBar first =>
      cases h
      obtain ⟨any, row, ends⟩ := alternative?_eq_some_iff.1 first
      refine ⟨filled_singleton any, ?_, ends, ?_⟩
      · rw [row, alternativesTokens_singleton]
      · intro bar
        obtain ⟨others, e⟩ := List.head?_eq_some_iff.1 bar
        exact noBar others e
  · rintro ⟨filled, rfl, ends⟩
    induction found with
    | nil => exact absurd rfl filled.any
    | cons symbols others ih =>
      obtain ⟨any, nonempty⟩ := List.forall_mem_cons.1 filled.nonempty
      -- the last alternative needs the end of the level behind it, and the others need their bar
      by_cases more : others = []
      · subst more
        apply alternatives?_of_end _ ends.bar
        rw [alternative?_eq_some_iff, alternativesTokens_singleton]
        exact ⟨any, rfl, ends.items⟩
      · have row : alternativesTokens (symbols :: others) ++ rest =
            symbols.map tokenOf ++ .bar :: (alternativesTokens others ++ rest) := by
          rw [alternativesTokens_cons symbols more, List.append_assoc]
          rfl
        rw [alternatives?_of_bar (alternative?_eq_some_iff.2 ⟨any, row, endsItems_bar _⟩),
          ih ⟨more, nonempty⟩]
        rfl

/-! ## 4. Rules -/

/-- **A rule is read** exactly where it is written. -/
theorem rule?_eq_some_iff {rule : LiteralRule} :
    rule? tokens = some (rule, rest) ↔
      Filled rule.alternatives ∧ tokens = ruleTokens rule ++ rest ∧ EndsAlternatives rest := by
  constructor
  · intro h
    unfold rule? at h
    split at h
    · obtain ⟨⟨found, last⟩, read, e⟩ := Option.map_eq_some_iff.1 h
      cases e
      obtain ⟨filled, row, ends⟩ := alternatives?_eq_some_iff.1 read
      refine ⟨filled, ?_, ends⟩
      rw [row]
      rfl
    · cases h
  · rintro ⟨filled, rfl, ends⟩
    show (alternatives? (alternativesTokens rule.alternatives ++ rest)).map _ = _
    rw [alternatives?_eq_some_iff.2 ⟨filled, rfl, ends⟩]
    rfl

theorem literalTokens_singleton (rule : LiteralRule) : literalTokens [rule] = ruleTokens rule :=
  List.intercalate_singleton

theorem literalTokens_cons (rule : LiteralRule) {others : List LiteralRule} (any : others ≠ []) :
    literalTokens (rule :: others) = ruleTokens rule ++ .semicolon :: literalTokens others :=
  intercalate_map_cons Token.semicolon ruleTokens rule any

theorem endsAlternatives_nil : EndsAlternatives [] where
  items := fun _ h => by cases h
  bar := fun h => by cases h

theorem endsAlternatives_semicolon (tokens : List Token) :
    EndsAlternatives (.semicolon :: tokens) where
  items := fun token h => by
    obtain rfl : Token.semicolon = token := Option.some.inj h
    rfl
  bar := fun h => by cases h

/-- A rule with nothing behind it is the last one. -/
theorem rules?_of_last {rule : LiteralRule} (last : rule? tokens = some (rule, [])) :
    rules? tokens = some [rule] := by
  cases tokens with
  | nil => cases last
  | cons token others =>
    unfold rules?
    split <;> rename_i e <;> rw [last] at e
    · cases e
      rfl
    · cases e
    · rename_i noEnd
      exact absurd last (noEnd rule)

/-- Behind a semicolon other rules are read, if there are any. -/
theorem rules?_of_semicolon {rule : LiteralRule}
    (first : rule? tokens = some (rule, .semicolon :: rest)) :
    rules? tokens = (rules? rest).map (rule :: ·) := by
  cases tokens with
  | nil => cases first
  | cons token others =>
    rw [rules?]
    split <;> rename_i e <;> rw [first] at e
    · cases e
    · cases e
      rfl
    · exact absurd rfl (e rule rest)

theorem writtenFor_singleton {rule : LiteralRule} (filled : Filled rule.alternatives) :
    WrittenFor [rule] (ruleTokens rule) where
  filled := List.forall_mem_singleton.2 filled
  row := .inl (literalTokens_singleton rule).symm

/-- Behind the semicolon of a rule other rules may follow, or nothing. -/
theorem WrittenFor.cons {rule : LiteralRule} {others : List LiteralRule}
    (filled : Filled rule.alternatives) (h : WrittenFor others rest) :
    WrittenFor (rule :: others) (ruleTokens rule ++ .semicolon :: rest) := by
  refine ⟨List.forall_mem_cons.2 ⟨filled, h.filled⟩, ?_⟩
  by_cases more : others = []
  · -- nothing follows, so this is the semicolon that may stand at the end
    subst more
    obtain rfl : rest = [] := h.row.elim id fun row => absurd rfl row.1
    exact .inr ⟨List.cons_ne_nil _ _, by rw [literalTokens_singleton]⟩
  · rw [literalTokens_cons rule more]
    rcases h.row with row | ⟨-, row⟩
    · exact .inl (by rw [row])
    · refine .inr ⟨List.cons_ne_nil _ _, ?_⟩
      rw [row, List.append_assoc]
      rfl

/-- The row of several rules is the row of the first one, and behind a semicolon
the row of the others. -/
theorem WrittenFor.exists_cons {rule : LiteralRule} {others : List LiteralRule}
    (h : WrittenFor (rule :: others) tokens) :
    Filled rule.alternatives ∧ (others = [] ∧ tokens = ruleTokens rule ∨
      ∃ rest, tokens = ruleTokens rule ++ .semicolon :: rest ∧ WrittenFor others rest) := by
  have ⟨filled, others_filled⟩ := List.forall_mem_cons.1 h.filled
  refine ⟨filled, ?_⟩
  by_cases more : others = []
  · subst more
    rcases h.row with row | ⟨-, row⟩ <;> rw [literalTokens_singleton] at row
    · exact .inl ⟨rfl, row⟩
    · exact .inr ⟨[], row, others_filled, .inl rfl⟩
  · refine .inr ?_
    rcases h.row with row | ⟨-, row⟩ <;> rw [literalTokens_cons rule more] at row
    · exact ⟨_, row, others_filled, .inl rfl⟩
    · refine ⟨_, ?_, others_filled, .inr ⟨more, rfl⟩⟩
      rw [row, List.append_assoc]
      rfl

/-- **Rules are read** exactly from the rows that are written for them. -/
theorem rules?_eq_some_iff {rules : List LiteralRule} :
    rules? tokens = some rules ↔ WrittenFor rules tokens := by
  constructor
  · intro h
    fun_induction rules? tokens generalizing rules with
    | case1 =>
      cases h
      exact ⟨fun _ h => absurd h List.not_mem_nil, .inl rfl⟩
    | case2 token others rule last =>
      cases h
      obtain ⟨filled, row, -⟩ := rule?_eq_some_iff.1 last
      rw [row, List.append_nil]
      exact writtenFor_singleton filled
    | case3 token others rule behind first ih =>
      obtain ⟨later, read, rfl⟩ := Option.map_eq_some_iff.1 h
      obtain ⟨filled, row, -⟩ := rule?_eq_some_iff.1 first
      rw [row]
      exact (ih read).cons filled
    | case4 => cases h
  · intro h
    induction rules generalizing tokens with
    | nil =>
      obtain rfl : tokens = [] := h.row.elim id fun row => absurd rfl row.1
      rw [rules?]
    | cons rule others ih =>
      -- a row that ends with its first rule, and one that has a semicolon behind it
      obtain ⟨filled, ⟨rfl, row⟩ | ⟨rest, row, written⟩⟩ := h.exists_cons
      · rw [← List.append_nil (ruleTokens rule)] at row
        exact rules?_of_last (rule?_eq_some_iff.2 ⟨filled, row, endsAlternatives_nil⟩)
      · rw [rules?_of_semicolon
          (rule?_eq_some_iff.2 ⟨filled, row, endsAlternatives_semicolon rest⟩), ih written]
        rfl

end ChomskyForm.Literal
