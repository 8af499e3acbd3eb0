/-
Conversion: from the text of a grammar to its Chomsky normal form.

The result is checked before it is given out, so a grammar that is not in
normal form leaves as an error and never as a result.
-/
import ChomskyForm.Bnf.RuleReader
import ChomskyForm.Normal.Form

set_option autoImplicit false

namespace ChomskyForm

/-- Why a text was not converted. -/
inductive ConversionError where
  /-- The text is no grammar. -/
  | parse (cause : Bnf.ParseError)
  /-- The grammar has no normal form. -/
  | normalize (cause : NormalizeError)
  /-- The result failed its check. -/
  | notNormal (cause : Violation)
deriving DecidableEq

/-- The error in words. -/
def ConversionError.message : ConversionError → String
  | parse cause => cause.message
  | normalize cause => cause.message
  | notNormal cause =>
    "converted grammar is not in Chomsky Normal Form: " ++ cause.message

/-- The Chomsky normal form of the grammar that a source holds. -/
def convert (source : Source) : Logged ConversionError Grammar := do
  let g ← (Bnf.readGrammar source).mapError .parse
  Logged.note .info ("read " ++ toString g.size ++ " nonterminals with "
    ++ toString g.productionCount ++ " productions")
  let g ← g.toNormalForm.mapError .normalize
  match g.violation? with
  | some violation => Logged.fail (.notNormal violation)
  | none => return g

end ChomskyForm
