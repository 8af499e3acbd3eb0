/-
Chomsky normal form: reaching it and checking it.

A grammar is in Chomsky normal form if every production is one terminal or two
nonterminals. The conversion runs four stages, each of which relies on the
shape that the earlier ones leave.
-/
import ChomskyForm.Normal.StartWrapper
import ChomskyForm.Normal.StandIn
import ChomskyForm.Normal.Tail
import ChomskyForm.Normal.UnitClosure

set_option autoImplicit false

namespace ChomskyForm

/-! ## Reaching the normal form -/

/-- A stage of the conversion. -/
inductive Stage where
  | wrapStart
  | isolateTerminals
  | binarize
  | eliminateUnits
deriving DecidableEq

namespace Stage

/-- The label under which a stage is reported. -/
def label : Stage → String
  | wrapStart => "START"
  | isolateTerminals => "TERM"
  | binarize => "BIN"
  | eliminateUnits => "UNIT"

/-- Runs a stage on a grammar. -/
def run : Stage → Grammar → Logged NormalizeError Grammar
  | wrapStart => Grammar.wrapStart
  | isolateTerminals => Grammar.isolateTerminals
  | binarize => Grammar.binarize
  | eliminateUnits => Grammar.eliminateUnits

/-- The stages in the order in which the conversion runs them. -/
def all : List Stage := [wrapStart, isolateTerminals, binarize, eliminateUnits]

/-- Runs a stage and reports the size of its result. -/
def runReported (stage : Stage) (g : Grammar) : Logged NormalizeError Grammar := do
  let g ← stage.run g
  Logged.note .debug (stage.label ++ ": " ++ toString g.size ++ " nonterminals, "
    ++ toString g.productionCount ++ " productions")
  return g

/-- Runs stages one after the other; the first error ends the run. -/
def runAll : List Stage → Grammar → Logged NormalizeError Grammar
  | [], g => pure g
  | stage :: rest, g => do
    let g ← stage.runReported g
    runAll rest g

end Stage

/-- The Chomsky normal form of a grammar. -/
def Grammar.toNormalForm (g : Grammar) : Logged NormalizeError Grammar := Stage.runAll Stage.all g

/-! ## Checking for the normal form -/

/-- A production of a nonterminal that is not in Chomsky normal form. -/
inductive Violation where
  | tooLong (nonterminal : String) (production : Production)
  | terminalInPair (nonterminal : String) (production : Production)
  | unitProduction (nonterminal : String) (target : String)
deriving DecidableEq

/-- The violation in words. -/
def Violation.message : Violation → String
  | tooLong nonterminal production =>
    "<" ++ nonterminal ++ "> has a production of length " ++ toString production.length ++ ": "
      ++ production.text
  | terminalInPair nonterminal production =>
    "<" ++ nonterminal ++ "> pairs a terminal with another symbol: " ++ production.text
  | unitProduction nonterminal target =>
    "<" ++ nonterminal ++ "> has the unit production <" ++ target ++ ">"

/-- What is wrong with a production of a nonterminal, if anything is. -/
def Production.violation? (nonterminal : String) (p : Production) : Option Violation :=
  if p.isTerminalUnit then none
  else
    match p.unitTarget? with
    | some target => some (.unitProduction nonterminal target)
    | none =>
      -- there are two symbols or more from here on
      if p.length = 2 then
        if p.symbols.any Symbol.isTerminal then some (.terminalInPair nonterminal p) else none
      else some (.tooLong nonterminal p)

/-- The first production, in the order of rules and alternatives, that is not
in Chomsky normal form. -/
def Grammar.violation? (g : Grammar) : Option Violation :=
  g.rules.findSome? fun rule => rule.alternatives.findSome? (Production.violation? rule.name)

end ChomskyForm
