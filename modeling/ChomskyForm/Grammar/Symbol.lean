/-
Grammar symbols: terminals and nonterminals.

A symbol says of itself which of the two it is, so `a` the terminal and `a`
the nonterminal stay apart although they hold the same text. Brackets are not
part of a nonterminal's name; they appear only when a symbol is written out.
-/

set_option autoImplicit false

namespace ChomskyForm

/-- One position of a production: a piece of text that stands for itself, or a
reference to a rule by its name. -/
inductive Symbol where
  | terminal (text : String)
  | nonterminal (name : String)
deriving DecidableEq

namespace Symbol

/-- Whether a symbol stands for itself. -/
def isTerminal : Symbol → Bool
  | terminal _ => true
  | nonterminal _ => false

/-- The rule that a symbol refers to, if it refers to one. -/
def name? : Symbol → Option String
  | terminal _ => none
  | nonterminal name => some name

/-- The text of a symbol: a nonterminal is written in angle brackets. -/
def text : Symbol → String
  | terminal text => text
  | nonterminal name => "<" ++ name ++ ">"

/-! ## The order of symbols -/

/-- Terminals come before nonterminals, and symbols of one kind are ordered by
their text, code point by code point. -/
def le : Symbol → Symbol → Bool
  | terminal a, terminal b => decide (a ≤ b)
  | terminal _, nonterminal _ => true
  | nonterminal _, terminal _ => false
  | nonterminal a, nonterminal b => decide (a ≤ b)

/-- The distinct symbols of a list in ascending order. -/
def sortDistinct (symbols : List Symbol) : List Symbol :=
  symbols.eraseDups.mergeSort le

/-- What is no terminal is a reference to some rule. -/
theorem isTerminal_eq_false_iff (s : Symbol) : s.isTerminal = false ↔ ∃ n, s = nonterminal n := by
  cases s <;> simp [isTerminal]

/-- Only the nonterminal of a name refers to the rule of that name. -/
theorem name?_eq_some_iff (s : Symbol) (n : String) : s.name? = some n ↔ s = nonterminal n := by
  cases s <;> simp [name?]

/-- Just the terminals refer to no rule. -/
theorem name?_eq_none_iff (s : Symbol) : s.name? = none ↔ s.isTerminal = true := by
  cases s <;> simp [name?, isTerminal]

/-- Sorting drops repetitions and no symbol. -/
theorem mem_sortDistinct (symbols : List Symbol) (s : Symbol) :
    s ∈ sortDistinct symbols ↔ s ∈ symbols := by
  simp [sortDistinct, List.mem_mergeSort]

end Symbol

end ChomskyForm
