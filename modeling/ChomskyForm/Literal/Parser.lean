/-
Grammar literals: rules written as `Name: A "b" | C;`.

An identifier refers to a nonterminal and a string literal is a terminal. Rules
are separated by semicolons, with or without one behind the last rule. A name
may have several rules; they are kept apart here.

The parser works through the tokens with one list per level: the items of the
present alternative, the alternatives of the present rule, the rules.
-/
import ChomskyForm.Grammar.Basic
import ChomskyForm.Literal.Token

set_option autoImplicit false

namespace ChomskyForm.Literal

/-- A rule of a literal: its name, and the items of each alternative. -/
structure LiteralRule where
  name : String
  alternatives : List (List Symbol)
deriving DecidableEq

/-- The symbol that a token stands for, if it is an item. -/
def Token.item? : Token → Option Symbol
  | .identifier name => some (.nonterminal name)
  | .text value => some (.terminal value)
  | _ => none

/-- The items that tokens begin with, and the tokens behind them. -/
def items : List Token → List Symbol × List Token
  | [] => ([], [])
  | token :: rest =>
    match token.item? with
    | some symbol => (symbol :: (items rest).1, (items rest).2)
    | none => ([], token :: rest)

/-- Reading items never adds tokens. -/
theorem length_items_le (tokens : List Token) : (items tokens).2.length ≤ tokens.length := by
  induction tokens with
  | nil => simp [items]
  | cons token rest ih =>
    unfold items
    split
    · simp only [List.length_cons]
      omega
    · exact Nat.le_refl _

/-- An alternative: one item or more. -/
def alternative? (tokens : List Token) : Option (List Symbol × List Token) :=
  if (items tokens).1 = [] then none else some (items tokens)

theorem length_alternative?_le {tokens rest : List Token} {symbols : List Symbol}
    (h : alternative? tokens = some (symbols, rest)) : rest.length ≤ tokens.length := by
  have le := length_items_le tokens
  unfold alternative? at h
  split at h
  · simp at h
  · rw [Option.some.inj h] at le
    exact le

/-- One alternative or more, separated by bars. -/
def alternatives? (tokens : List Token) : Option (List (List Symbol) × List Token) :=
  match _h : alternative? tokens with
  | none => none
  | some (symbols, .bar :: rest) =>
    (alternatives? rest).map fun (others, rest) => (symbols :: others, rest)
  | some (symbols, rest) => some ([symbols], rest)
termination_by tokens.length
decreasing_by
  have := length_alternative?_le _h
  simp only [List.length_cons] at this
  omega

/-- Alternatives are read off the front, so no more tokens are left than there were. -/
theorem length_alternatives?_le {tokens rest : List Token} {found : List (List Symbol)}
    (h : alternatives? tokens = some (found, rest)) : rest.length ≤ tokens.length := by
  fun_induction alternatives? tokens generalizing found rest with
  | case1 => simp at h
  | case2 tokens symbols rest' ha ih =>
    obtain ⟨⟨others, r⟩, ho, he⟩ := Option.map_eq_some_iff.1 h
    cases he
    have := ih ho
    have := length_alternative?_le ha
    simp only [List.length_cons] at this
    omega
  | case3 tokens symbols rest' _ ha =>
    cases h
    exact length_alternative?_le ha

/-- A rule: an identifier, a colon and alternatives. -/
def rule? : List Token → Option (LiteralRule × List Token)
  | .identifier name :: .colon :: rest =>
    (alternatives? rest).map fun (alternatives, rest) => (⟨name, alternatives⟩, rest)
  | _ => none

/-- A rule takes its name and its colon at least, so the rules of a text run out. -/
theorem length_rule?_lt {tokens rest : List Token} {rule : LiteralRule}
    (h : rule? tokens = some (rule, rest)) : rest.length < tokens.length := by
  unfold rule? at h
  split at h
  · obtain ⟨⟨found, r⟩, hf, he⟩ := Option.map_eq_some_iff.1 h
    cases he
    have := length_alternatives?_le hf
    simp only [List.length_cons]
    omega
  · simp at h

/-- Rules separated by semicolons, up to the end of the tokens. -/
def rules? (tokens : List Token) : Option (List LiteralRule) :=
  match tokens with
  | [] => some []
  | token :: others =>
    match _h : rule? (token :: others) with
    | some (rule, []) => some [rule]
    | some (rule, .semicolon :: rest) => (rules? rest).map (rule :: ·)
    | _ => none
termination_by tokens.length
decreasing_by
  have := length_rule?_lt _h
  simp only [List.length_cons] at this ⊢
  omega

/-- The rules of a grammar literal, if the text is one. -/
def parse? (text : String) : Option (List LiteralRule) := rules? (tokens text.toList)

end ChomskyForm.Literal
