/-
Tokens of the line-oriented grammar format, and where they stand.

A token is a run of characters between blanks. `::=` and `|` are punctuation, a
text in angle brackets is the name of a nonterminal, and everything else stands
for itself. Operators such as `<`, `<=` and `<<` are ordinary words; a token
that begins like a name and does not end like one is refused.
-/
import ChomskyForm.Unicode.Alphanumeric

set_option autoImplicit false

namespace ChomskyForm.Bnf

/-! ## Positions -/

/-- A place in a text. Lines and columns are counted from zero, columns in
characters. -/
structure Position where
  line : Nat
  column : Nat
deriving DecidableEq

namespace Position

/-- The beginning of a text. -/
def start : Position := ⟨0, 0⟩

/-- The place behind a character: a line feed ends its line. -/
def after (p : Position) (c : Char) : Position :=
  if c = '\n' then ⟨p.line + 1, 0⟩ else ⟨p.line, p.column + 1⟩

/-- The place in words. People count lines and columns from one. -/
def text (p : Position) : String :=
  "line " ++ toString (p.line + 1) ++ " col " ++ toString (p.column + 1)

end Position

/-- The extent of a token: where it begins, and the place behind it. -/
structure Span where
  start : Position
  stop : Position
deriving DecidableEq

/-- A span is shown by the place where it begins. -/
def Span.text (span : Span) : String := span.start.text

/-! ## Tokens -/

/-- A token of the format. -/
inductive Token where
  /-- The end of the input. -/
  | endMarker
  /-- A line feed. -/
  | newLine
  /-- A nonterminal, without its brackets. -/
  | name (text : String)
  /-- A terminal. -/
  | word (text : String)
  /-- The sign between a name and its alternatives. -/
  | define
  /-- The sign between two alternatives. -/
  | pipe
deriving DecidableEq

namespace Token

/-- The text of a token as it is shown in messages. -/
def text : Token → String
  | endMarker => "ENDMARKER"
  | newLine => "NEWLINE"
  | name text => "<" ++ text ++ ">"
  | word text => text
  | define => "::="
  | pipe => "|"

/-- The characters between angle brackets, if the brackets enclose at least one
character and none of the enclosed ones is a bracket. -/
def bracketed? : List Char → Option (List Char)
  | '<' :: rest =>
    let inner := rest.dropLast
    if rest.getLast? = some '>' ∧ inner ≠ [] ∧ '<' ∉ inner ∧ '>' ∉ inner then some inner else none
  | _ => none

/-- Whether a text begins like a bracketed name: a bracket, then a letter, a
number, `_` or `$`. -/
def opensName : List Char → Bool
  | '<' :: c :: _ => Unicode.isAlphanumeric c || c == '_' || c == '$'
  | _ => false

/-- The token of a text between blanks, or nothing if the text begins like a
name and is none. -/
def classify? (text : String) : Option Token :=
  if text = "::=" then some define
  else if text = "|" then some pipe
  else
    match bracketed? text.toList with
    | some inner => some (name (String.ofList inner))
    | none => if opensName text.toList then none else some (word text)

end Token

end ChomskyForm.Bnf
