/-
Reading rules: from tokens to a grammar.

A rule stands on a line of its own: a name, `::=`, and alternatives separated
by bars. A reader takes one token after the other and is in one of three
places: at the start of a line, behind the name of a rule, or among its
alternatives. A line that declares a name again adds to the alternatives that
the name has.

`readGrammar` joins the reader to a lexer. It asks for a token only when the
reader is ready for it, so an error in an early rule is found before anything
behind it is read.
-/
import ChomskyForm.Logged
import ChomskyForm.Grammar.Basic
import ChomskyForm.Bnf.Lexer

set_option autoImplicit false

namespace ChomskyForm.Bnf

/-! ## Errors -/

/-- What is wrong with a rule. -/
inductive RuleFault where
  /-- A line begins with something else than a name. -/
  | nameExpected (found : Token)
  /-- The name is not followed by `::=`. -/
  | defineExpected (name : String)
  /-- An alternative has no symbol. -/
  | alternativeEmpty (name : String)
  /-- A fault that a caller puts into words of its own. -/
  | stated (reason : String)
deriving DecidableEq

/-- The fault in words. -/
def RuleFault.reason : RuleFault → String
  | nameExpected found => "expected a nonterminal, found `" ++ found.text ++ "`"
  | defineExpected name => "expected `::=` after <" ++ name ++ ">"
  | alternativeEmpty name => "empty alternative in the rule for <" ++ name ++ ">"
  | stated reason => reason

/-- Why a text is no grammar. -/
inductive ParseError where
  /-- A rule has a fault, which was found at a token. -/
  | malformedRule (place : Span) (fault : RuleFault)
  /-- A token stands where it cannot. -/
  | unexpectedToken (token : Token) (place : Span)
  /-- There is no next token. -/
  | lex (cause : LexError)
deriving DecidableEq

/-- The number of a line as people count it. -/
def Span.lineNumber (span : Span) : Nat := span.start.line + 1

/-- The error in words. -/
def ParseError.message : ParseError → String
  | malformedRule place fault =>
    "Malformed rule on line " ++ toString place.lineNumber ++ ": " ++ fault.reason
  | unexpectedToken token place => "Unexpected token `" ++ token.text ++ "` on " ++ place.text
  | lex cause => cause.message

/-! ## The reader -/

/-- Where in a rule a reader is. -/
inductive Place where
  /-- At the start of a line. -/
  | lineStart
  /-- Behind the name of a rule. -/
  | head (name : String)
  /-- Among the alternatives of a rule: those that are complete and the symbols
  of the present one, each the latest first. -/
  | body (name : String) (alternatives : List Production) (symbols : List Symbol)
deriving DecidableEq

/-- The rules read so far, and the place in the present one. -/
structure RuleReader where
  grammar : Grammar
  place : Place
deriving DecidableEq

namespace RuleReader

/-- A reader that has read nothing. -/
def start : RuleReader := ⟨Grammar.empty, .lineStart⟩

/-- Completes the present alternative at the token that ends it. -/
def close (name : String) (symbols : List Symbol) (span : Span) :
    Logged ParseError Production :=
  match Production.ofList? symbols.reverse with
  | some production => pure production
  | none => Logged.fail (.malformedRule span (.alternativeEmpty name))

/-- Completes the present rule at the token that ends it. -/
def finishRule (g : Grammar) (name : String) (alternatives : List Production)
    (symbols : List Symbol) (span : Span) : Logged ParseError RuleReader := do
  let last ← close name symbols span
  if g.contains name then
    Logged.note .debug ("merging repeated declaration of <" ++ name ++ ">")
  return ⟨g.extend name (last :: alternatives).reverse, .lineStart⟩

/-- Takes one token. -/
def step (r : RuleReader) (token : Token) (span : Span) : Logged ParseError RuleReader :=
  match r.place, token with
  | .lineStart, .newLine => pure r
  | .lineStart, .endMarker => pure r
  | .lineStart, .name name => pure { r with place := .head name }
  | .lineStart, _ => Logged.fail (.malformedRule span (.nameExpected token))
  | .head name, .define => pure { r with place := .body name [] [] }
  | .head name, _ => Logged.fail (.malformedRule span (.defineExpected name))
  | .body name alternatives symbols, .name text =>
    pure { r with place := .body name alternatives (.nonterminal text :: symbols) }
  | .body name alternatives symbols, .word text =>
    pure { r with place := .body name alternatives (.terminal text :: symbols) }
  | .body name alternatives symbols, .pipe => do
    let production ← close name symbols span
    return { r with place := .body name (production :: alternatives) [] }
  | .body _ _ _, .define => Logged.fail (.unexpectedToken token span)
  | .body name alternatives symbols, .newLine => finishRule r.grammar name alternatives symbols span
  | .body name alternatives symbols, .endMarker =>
    finishRule r.grammar name alternatives symbols span

end RuleReader

/-! ## Reading a grammar -/

/-- The notice of a read. -/
def readNotice (size : Nat) : Notice := ⟨.trace, "buffered " ++ toString size ++ " bytes"⟩

/-- Lets a reader take the tokens of a lexer until they run out. -/
def readRules (l : Lexer) (r : RuleReader) : Logged ParseError Grammar :=
  match _h : l.next with
  | (none, l') => (pure r.grammar : Logged ParseError Grammar).after (l'.takeReads.1.map readNotice)
  | (some (.error e), l') =>
    (Logged.fail (.lex e) : Logged ParseError Grammar).after (l'.takeReads.1.map readNotice)
  | (some (.ok (token, span)), l') =>
    (do
      let r ← r.step token span
      readRules l'.takeReads.2 r : Logged ParseError Grammar).after
        (l'.takeReads.1.map readNotice)
termination_by l.remaining
decreasing_by
  rw [Lexer.remaining_takeReads]
  exact Lexer.remaining_next_lt _h

/-- Reads the grammar of a source. -/
def readGrammar (source : Source) : Logged ParseError Grammar :=
  match Window.ofSource source with
  | .error e => Logged.fail (.lex (.read e .start))
  | .ok window => readRules (Lexer.ofWindow window) RuleReader.start

end ChomskyForm.Bnf
