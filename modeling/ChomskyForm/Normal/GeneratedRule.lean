/-
Rules that the conversion adds, and why a conversion may fail.

A generated rule is declared only if its name is not declared yet. Names come
from `TakenNames`, so this never refuses one of them; it guards against a name
that was made up elsewhere.
-/
import ChomskyForm.Logged
import ChomskyForm.Normal.TakenNames

set_option autoImplicit false

namespace ChomskyForm

/-- Why a grammar has no normal form. -/
inductive NormalizeError where
  /-- There is no rule at all. -/
  | emptyGrammar
  /-- Unit productions lead from the nonterminal to nothing but each other. -/
  | unresolvable (nonterminal : String)
  /-- A rule of that name is there already. -/
  | nameCollision (name : String)
deriving DecidableEq

/-- The error in words. -/
def NormalizeError.message : NormalizeError → String
  | emptyGrammar => "the grammar has no nonterminals"
  | unresolvable nonterminal =>
    "<" ++ nonterminal ++ "> only reaches unit productions and derives no terminal string"
  | nameCollision name => "generated nonterminal <" ++ name ++ "> is already defined"

namespace Grammar

/-- Declares a generated nonterminal at the end. -/
def define (g : Grammar) (name : String) (alternatives : List Production) :
    Logged NormalizeError Grammar :=
  if g.contains name then Logged.fail (.nameCollision name)
  else do
    Logged.note .trace ("defining <" ++ name ++ ">")
    return g.extend name alternatives

/-- Declares generated rules one after the other. -/
def defineAll (g : Grammar) : List Rule → Logged NormalizeError Grammar
  | [] => pure g
  | rule :: rest => do
    let g ← g.define rule.name rule.alternatives
    g.defineAll rest

end Grammar

end ChomskyForm
