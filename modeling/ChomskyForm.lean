import ChomskyForm.Literal.Parser
import ChomskyForm.Main
import ChomskyForm.Proofs.Grammar.Language
import ChomskyForm.Proofs.Normal.LanguagePreserved
import ChomskyForm.Proofs.Normal.Shape
import ChomskyForm.Proofs.Normal.Failure
import ChomskyForm.Proofs.Bnf.ReadText
import ChomskyForm.Proofs.Normal.GeneratedNames
import ChomskyForm.Proofs.Bnf.TokenStream
import ChomskyForm.Proofs.Bnf.Spans
import ChomskyForm.Proofs.Bnf.ReadSymbols
import ChomskyForm.Proofs.Bnf.RoundTrip
import ChomskyForm.Proofs.Normal.UnitTour
import ChomskyForm.Proofs.Normal.Reconversion
import ChomskyForm.Proofs.Normal.Expansion
import ChomskyForm.Proofs.Normal.DeclarationOrder
import ChomskyForm.Proofs.Normal.Size
import ChomskyForm.Proofs.Normal.Settled
import ChomskyForm.Proofs.Input.Cursor
import ChomskyForm.Proofs.Input.Retrying
import ChomskyForm.Proofs.Input.ValidPrefix
import ChomskyForm.Proofs.Bnf.LongWords
import ChomskyForm.Proofs.Literal.Printed
import ChomskyForm.Proofs.Normal.LeastPrimes
import ChomskyForm.Proofs.Input.Intact
import ChomskyForm.Proofs.Files.OutputOnly
import ChomskyForm.Proofs.Normal.UnitCycles
import ChomskyForm.Proofs.Normal.FirstViolation
