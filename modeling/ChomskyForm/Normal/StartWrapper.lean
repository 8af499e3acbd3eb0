/-
The wrapper around the start symbol.

A grammar gets a new first rule whose only alternative is the old start symbol.
The new name is used nowhere else, so after this step the start symbol occurs
in no production.
-/
import ChomskyForm.Normal.GeneratedRule

set_option autoImplicit false

namespace ChomskyForm.Grammar

/-- Starts a grammar with a new rule that refers to the old start symbol. A
grammar without rules is refused, even if its start is set. -/
def wrapStart (g : Grammar) : Logged NormalizeError Grammar :=
  match g.names, g.start? with
  | _ :: _, some inner => do
    let (start, _) := (TakenNames.ofGrammar g).claim WantedName.start
    if g.contains start then
      Logged.fail (.nameCollision start)
    else do
      Logged.note .debug ("wrapping start symbol <" ++ inner ++ "> in <" ++ start ++ ">")
      return (g.prepend start [Production.unit (.nonterminal inner)]).setStart start
  | _, _ => Logged.fail .emptyGrammar

end ChomskyForm.Grammar
