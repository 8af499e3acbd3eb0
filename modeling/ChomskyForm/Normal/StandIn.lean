/-
Stand-ins for terminals.

In a production of two symbols or more, every terminal gives way to a
nonterminal that derives just that terminal. One terminal has one stand-in,
wherever it occurs; a production that is a single symbol stays as it is.

The table of stand-ins is made first: the terminals to replace, in the order in
which they first occur, each with the name claimed for it. Replacing is then a
plain substitution.
-/
import ChomskyForm.Normal.GeneratedRule

set_option autoImplicit false

namespace ChomskyForm

/-- A terminal and the nonterminal that derives it. -/
structure StandIn where
  terminal : String
  name : String
deriving DecidableEq

namespace StandIn

/-- Claims a name for each terminal, in order. -/
def claimAll (taken : TakenNames) (terminals : List String) : List StandIn :=
  List.zipWith StandIn.mk terminals (taken.claimAll (terminals.map WantedName.standIn)).1

/-- The symbol in the place of a symbol: a terminal with a stand-in gives way
to it. -/
def substitute (standIns : List StandIn) : Symbol → Symbol
  | .nonterminal name => .nonterminal name
  | .terminal text =>
    match standIns.find? fun s => s.terminal == text with
    | some s => .nonterminal s.name
    | none => .terminal text

/-- The rule that a stand-in gets. -/
def rule (s : StandIn) : Rule := ⟨s.name, [Production.unit (.terminal s.terminal)]⟩

end StandIn

/-- The terminals of a production that stand beside another symbol. -/
def Production.mixedTerminals (p : Production) : List String :=
  if p.length ≤ 1 then []
  else p.symbols.filterMap fun
    | .terminal text => some text
    | .nonterminal _ => none

/-- Replaces the terminals of a production of two symbols or more. -/
def Production.standInTerminals (standIns : List StandIn) (p : Production) : Production :=
  if p.length ≤ 1 then p else p.map (StandIn.substitute standIns)

namespace Grammar

/-- The distinct terminals that stand beside another symbol, in the order of
their first occurrence. -/
def mixedTerminals (g : Grammar) : List String :=
  (g.rules.flatMap fun rule => rule.alternatives.flatMap Production.mixedTerminals).eraseDups

/-- The stand-ins that a grammar needs. -/
def standIns (g : Grammar) : List StandIn :=
  StandIn.claimAll (TakenNames.ofGrammar g) g.mixedTerminals

/-- Moves every terminal that stands beside another symbol into a rule of its
own. -/
def isolateTerminals (g : Grammar) : Logged NormalizeError Grammar := do
  let standIns := g.standIns
  let replaced := g.replaceRules (g.table.mapRules fun _ alternatives =>
    alternatives.map (Production.standInTerminals standIns))
  Logged.note .debug ("isolated " ++ toString standIns.length ++ " terminals")
  replaced.defineAll (standIns.map StandIn.rule)

end Grammar

end ChomskyForm
