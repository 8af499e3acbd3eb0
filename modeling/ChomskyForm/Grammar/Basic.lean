/-
Grammars: a rule table and a start symbol.

The start symbol may be set explicitly. As long as it is not, the first
declared nonterminal starts the grammar. Nothing asks that the start symbol, or
any nonterminal that a production refers to, is declared.
-/
import ChomskyForm.Grammar.RuleTable

set_option autoImplicit false

namespace ChomskyForm

/-- A context-free grammar whose rules keep the order of their declaration. -/
structure Grammar where
  table : RuleTable
  explicitStart : Option String
deriving DecidableEq

namespace Grammar

/-- The grammar without rules and without an explicit start. -/
def empty : Grammar := ⟨RuleTable.empty, none⟩

/-- The rules in the order of declaration. -/
def rules (g : Grammar) : List Rule := g.table.rules

/-- The declared nonterminals in order. -/
def names (g : Grammar) : List String := g.table.names

/-- The alternatives of a nonterminal, if it is declared. -/
def productions? (g : Grammar) (name : String) : Option (List Production) := g.table.find? name

/-- The alternatives of a nonterminal; one that is not declared has none. -/
def productionsOf (g : Grammar) (name : String) : List Production :=
  (g.productions? name).getD []

/-- Whether a nonterminal is declared. -/
def contains (g : Grammar) (name : String) : Bool := g.table.contains name

/-- The number of declared nonterminals. -/
def size (g : Grammar) : Nat := g.table.size

/-- The number of alternatives of all nonterminals together. -/
def productionCount (g : Grammar) : Nat := g.table.productionCount

/-- The start symbol: the explicit one, else the first declared nonterminal. -/
def start? (g : Grammar) : Option String :=
  match g.explicitStart with
  | some start => some start
  | none => g.names.head?

/-- The rules of a grammar, a line each. -/
def text (g : Grammar) : String := g.table.text

/-! ## Updates -/

/-- Sets the start symbol. -/
def setStart (g : Grammar) (start : String) : Grammar := { g with explicitStart := some start }

/-- Puts other rules in the place of all rules; the start setting stays. -/
def replaceRules (g : Grammar) (table : RuleTable) : Grammar := { g with table := table }

/-- Adds alternatives to a nonterminal, which is declared at the end if it is
new. -/
def extend (g : Grammar) (name : String) (alternatives : List Production) : Grammar :=
  g.replaceRules (g.table.extend name alternatives)

/-- Adds one alternative to a nonterminal. -/
def push (g : Grammar) (name : String) (production : Production) : Grammar :=
  g.extend name [production]

/-- Declares a nonterminal ahead of all others. -/
def prepend (g : Grammar) (name : String) (alternatives : List Production) : Grammar :=
  g.replaceRules (g.table.prepend name alternatives)

/-- Takes all alternatives from a nonterminal, which stays declared. -/
def clear (g : Grammar) (name : String) : Grammar :=
  g.replaceRules (g.table.mapRules fun other alternatives =>
    if other = name then [] else alternatives)

/-- Rewrites every symbol of every production in place. -/
def mapSymbols (f : Symbol → Symbol) (g : Grammar) : Grammar :=
  g.replaceRules (g.table.mapRules fun _ alternatives => alternatives.map (Production.map f))

/-- Writes one symbol wherever another one stands. -/
def swapSymbols (g : Grammar) (old new : Symbol) : Grammar :=
  g.mapSymbols fun symbol => if symbol = old then new else symbol

/-- Whether two grammars have the same rules, in whatever order they are
declared, and the same start setting. An unset start differs from an explicit
one. -/
def sameGrammar (a b : Grammar) : Bool :=
  a.table.sameRules b.table && a.explicitStart == b.explicitStart

/-! ## Small facts -/

/-- A grammar contains the nonterminals that it declares. -/
@[simp] theorem contains_iff (g : Grammar) (name : String) :
    g.contains name = true ↔ name ∈ g.names :=
  RuleTable.contains_iff _ _

@[simp] theorem explicitStart_replaceRules (g : Grammar) (table : RuleTable) :
    (g.replaceRules table).explicitStart = g.explicitStart := rfl

@[simp] theorem table_replaceRules (g : Grammar) (table : RuleTable) :
    (g.replaceRules table).table = table := rfl

theorem names_nodup (g : Grammar) : g.names.Nodup := g.table.nodup

end Grammar

end ChomskyForm
