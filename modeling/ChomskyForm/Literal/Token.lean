/-
Tokens of grammar literals.

A grammar literal is written with identifiers, string literals, `:`, `|` and
`;`. White space and comments separate tokens. Text that is none of these is
read as far as it has to be and becomes `Token.other`; no literal contains
one.

Identifiers are those of ASCII letters, digits and `_`.
-/
import ChomskyForm.Unicode.WhiteSpace

set_option autoImplicit false

namespace ChomskyForm.Literal

/-- A token of a grammar literal. -/
inductive Token where
  | identifier (name : String)
  | text (value : String)
  | colon
  | bar
  | semicolon
  | other
deriving DecidableEq

/-- The words that are no identifiers. -/
def reservedWords : List String :=
  ["_", "abstract", "as", "become", "box", "break", "const", "continue", "crate", "do", "else",
    "enum", "extern", "false", "final", "fn", "for", "if", "impl", "in", "let", "loop", "macro",
    "match", "mod", "move", "mut", "override", "priv", "pub", "ref", "return", "Self", "self",
    "static", "struct", "super", "trait", "true", "type", "typeof", "unsafe", "unsized", "use",
    "virtual", "where", "while", "yield"]

/-- The characters that an identifier begins with. Identifiers are ASCII here: the
wider classes of characters that Unicode has for them are outside of the literals
that are covered. -/
def startsIdentifier (c : Char) : Bool := c.isAlpha || c == '_'

/-- The characters that an identifier goes on with, again those of ASCII alone. -/
def continuesIdentifier (c : Char) : Bool := c.isAlphanum || c == '_'

/-- The characters between tokens: white space and the two direction marks. -/
def isSpace (c : Char) : Bool :=
  Unicode.isWhiteSpace c || c == '\u200e' || c == '\u200f'

/-! ## String literals -/

/-- The value of a hexadecimal digit. -/
def hexDigit? (c : Char) : Option Nat :=
  if '0' ≤ c ∧ c ≤ '9' then some (c.toNat - '0'.toNat)
  else if 'a' ≤ c ∧ c ≤ 'f' then some (c.toNat - 'a'.toNat + 10)
  else if 'A' ≤ c ∧ c ≤ 'F' then some (c.toNat - 'A'.toNat + 10)
  else none

/-- The characters that stand for others behind a backslash, with what they
stand for. -/
def simpleEscapes : List (Char × Char) :=
  [('n', '\n'), ('r', '\r'), ('t', '\t'), ('\\', '\\'), ('0', '\x00'), ('\'', '\''), ('"', '"')]

/-- The code point of an escape in braces, whose digits so far make `code` and
are `digits` in number, and what follows the closing brace. There are one to
six digits; underscores between them say nothing. -/
def bracedCode (code digits : Nat) : List Char → Option (Nat × List Char)
  | [] => none
  | '_' :: rest => if digits = 0 then none else bracedCode code digits rest
  | '\x7d' :: rest => if digits = 0 ∨ 6 < digits then none else some (code, rest)
  | c :: rest => (hexDigit? c).bind fun d => bracedCode (code * 16 + d) (digits + 1) rest

/-- What follows an escape in braces is shorter, by the closing brace at least. -/
theorem length_bracedCode {code digits n : Nat} {cs rest : List Char}
    (h : bracedCode code digits cs = some (n, rest)) : rest.length < cs.length := by
  fun_induction bracedCode code digits cs with
  | case1 => simp at h
  | case2 => simp at h
  | case3 _ _ _ _ ih => exact Nat.lt_succ_of_lt (ih h)
  | case4 => simp at h
  | case5 => simp at h; simp [h.2]
  | case6 code digits c cs _ _ ih =>
    obtain ⟨d, _, hd⟩ := Option.bind_eq_some_iff.1 h
    exact Nat.lt_succ_of_lt (ih d hd)

/-- The value of a string literal behind its opening quote, and what follows
its closing quote. A line break inside the literal is a line feed; a backslash
at the end of a line skips the white space that follows. -/
def quoted : List Char → Option (List Char × List Char)
  | [] => none
  | '"' :: rest => some ([], rest)
  | '\r' :: '\n' :: rest => (quoted rest).map fun (value, rest) => ('\n' :: value, rest)
  | '\r' :: _ => none
  | '\\' :: '\n' :: rest => quoted (rest.dropWhile Unicode.isWhiteSpace)
  | '\\' :: '\r' :: rest => quoted (rest.dropWhile Unicode.isWhiteSpace)
  | '\\' :: 'x' :: a :: b :: rest => do
    let a ← hexDigit? a
    let b ← hexDigit? b
    if a < 8 then
      let (value, rest) ← quoted rest
      return (Char.ofNat (a * 16 + b) :: value, rest)
    else none
  | '\\' :: 'u' :: '\x7b' :: rest =>
    match _h : bracedCode 0 0 rest with
    | none => none
    | some (code, rest') =>
      if code.isValidChar then
        (quoted rest').map fun (value, rest) => (Char.ofNat code :: value, rest)
      else none
  | '\\' :: c :: rest => do
    let c ← simpleEscapes.lookup c
    let (value, rest) ← quoted rest
    return (c :: value, rest)
  | '\\' :: [] => none
  | c :: rest => (quoted rest).map fun (value, rest) => (c :: value, rest)
termination_by cs => cs.length
decreasing_by
  all_goals simp only [List.length_cons]
  all_goals try omega
  · have := (List.dropWhile_sublist (l := rest) Unicode.isWhiteSpace).length_le
    omega
  · have := (List.dropWhile_sublist (l := rest) Unicode.isWhiteSpace).length_le
    omega
  · have := length_bracedCode _h
    omega

/-- What follows a string literal is shorter. The scan of a literal ends by it, and so
does that of the text behind the literal. -/
theorem length_quoted {cs value rest : List Char} (h : quoted cs = some (value, rest)) :
    rest.length < cs.length := by
  fun_induction quoted cs generalizing value rest with
  | case1 => simp at h
  | case2 rest' => cases h; simp
  | case3 cs ih =>
    obtain ⟨⟨v, r⟩, hv, he⟩ := Option.map_eq_some_iff.1 h
    cases he
    have := ih hv
    simp only [List.length_cons]
    omega
  | case4 => simp at h
  -- a skipped line break takes the white space behind it along
  | case5 cs ih =>
    have := ih h
    have := (List.dropWhile_sublist (l := cs) Unicode.isWhiteSpace).length_le
    simp only [List.length_cons]
    omega
  | case6 cs ih =>
    have := ih h
    have := (List.dropWhile_sublist (l := cs) Unicode.isWhiteSpace).length_le
    simp only [List.length_cons]
    omega
  | case7 a b cs ih =>
    simp only [Option.bind_eq_bind, Option.bind_eq_some_iff] at h
    obtain ⟨x, _, y, _, h⟩ := h
    split at h
    · obtain ⟨⟨v, r⟩, hv, he⟩ := Option.bind_eq_some_iff.1 h
      cases he
      have := ih hv
      simp only [List.length_cons]
      omega
    · simp at h
  | case8 => simp at h
  -- the braces of the escape are taken off before the rest is scanned
  | case9 cs code cs' hc _ ih =>
    obtain ⟨⟨v, r⟩, hv, he⟩ := Option.map_eq_some_iff.1 h
    cases he
    have := ih hv
    have := length_bracedCode hc
    simp only [List.length_cons]
    omega
  | case10 => simp at h
  | case11 c cs _ _ _ _ ih =>
    simp only [Option.bind_eq_bind, Option.bind_eq_some_iff] at h
    obtain ⟨x, _, ⟨v, r⟩, hv, he⟩ := h
    cases he
    have := ih hv
    simp only [List.length_cons]
    omega
  | case12 => simp at h
  | case13 =>
    rename_i ih
    obtain ⟨⟨v, r⟩, hv, he⟩ := Option.map_eq_some_iff.1 h
    cases he
    have := ih hv
    simp only [List.length_cons]
    omega

/-- What follows the closing quote of a byte string literal, behind its opening
quote, if it closes. All its characters are ASCII, escapes for bytes go up to
`\xff`, and there are none for code points. -/
def byteStringRest? : List Char → Option (List Char)
  | [] => none
  | '"' :: rest => some rest
  | '\r' :: '\n' :: rest => byteStringRest? rest
  | '\r' :: _ => none
  | '\\' :: '\n' :: rest => byteStringRest? (rest.dropWhile Unicode.isWhiteSpace)
  | '\\' :: '\r' :: rest => byteStringRest? (rest.dropWhile Unicode.isWhiteSpace)
  | '\\' :: 'x' :: a :: b :: rest =>
    if (hexDigit? a).isSome ∧ (hexDigit? b).isSome then byteStringRest? rest else none
  | '\\' :: c :: rest =>
    if (simpleEscapes.lookup c).isSome then byteStringRest? rest else none
  | c :: rest => if c.toNat < 128 then byteStringRest? rest else none
termination_by cs => cs.length
decreasing_by
  all_goals simp only [List.length_cons]
  all_goals try omega
  all_goals
    have := (List.dropWhile_sublist (l := rest) Unicode.isWhiteSpace).length_le
    omega

/-- What follows a byte string literal is shorter. -/
theorem length_byteStringRest? {cs rest : List Char} (h : byteStringRest? cs = some rest) :
    rest.length < cs.length := by
  fun_induction byteStringRest? cs with
  | case1 => simp at h
  | case2 => cases h; simp
  | case3 cs ih => exact Nat.lt_succ_of_lt (Nat.lt_succ_of_lt (ih h))
  | case4 => simp at h
  | case5 cs ih | case6 cs ih =>
    have := ih h
    have := (List.dropWhile_sublist (l := cs) Unicode.isWhiteSpace).length_le
    simp only [List.length_cons]
    omega
  | case7 a b cs _ ih =>
    have := ih h
    simp only [List.length_cons]
    omega
  | case8 => simp at h
  | case9 =>
    rename_i ih
    exact Nat.lt_succ_of_lt (Nat.lt_succ_of_lt (ih h))
  | case10 => simp at h
  | case11 =>
    rename_i ih
    exact Nat.lt_succ_of_lt (ih h)
  | case12 => simp at h

/-- What a text begins with is cut off, if it begins with it. -/
def cutPrefix? : (start text : List Char) → Option (List Char)
  | [], text => some text
  | _ :: _, [] => none
  | s :: start, c :: text => if s = c then cutPrefix? start text else none

/-- Cutting a beginning off takes just its length away. -/
theorem length_cutPrefix? {start cs rest : List Char} (h : cutPrefix? start cs = some rest) :
    rest.length + start.length = cs.length := by
  fun_induction cutPrefix? start cs with
  | case1 => cases h; simp
  | case2 => simp at h
  | case3 start c cs ih =>
    have := ih h
    simp only [List.length_cons]
    omega
  | case4 => simp at h

/-- The value of a raw string literal behind its opening quote, and what
follows its end: a quote and as many `#` as the literal began with. -/
def rawQuoted (hashes : List Char) : List Char → Option (List Char × List Char)
  | [] => none
  | c :: cs =>
    match if c = '\x22' then cutPrefix? hashes cs else none with
    | some rest => some ([], rest)
    | none => (rawQuoted hashes cs).map fun (value, rest) => (c :: value, rest)

/-- What follows a raw string literal is shorter, by the closing quote at least. -/
theorem length_rawQuoted {hashes cs value rest : List Char}
    (h : rawQuoted hashes cs = some (value, rest)) : rest.length < cs.length := by
  induction cs generalizing value rest with
  | nil => simp [rawQuoted] at h
  | cons c cs ih =>
    unfold rawQuoted at h
    split at h
    · rename_i r hr
      cases h
      split at hr
      · have := length_cutPrefix? hr
        simp only [List.length_cons]
        omega
      · simp at hr
    · obtain ⟨⟨v, r⟩, hv, he⟩ := Option.map_eq_some_iff.1 h
      cases he
      exact Nat.lt_succ_of_lt (ih hv)

/-- A raw string literal behind its `r`. -/
def rawString? (cs : List Char) : Option (List Char × List Char) :=
  match cs.dropWhile (· == '#') with
  | '\x22' :: rest => rawQuoted (cs.takeWhile (· == '#')) rest
  | _ => none

/-- The `#` ahead of the quote make the rest shorter still. -/
theorem length_rawString? {cs value rest : List Char} (h : rawString? cs = some (value, rest)) :
    rest.length < cs.length := by
  unfold rawString? at h
  split at h
  · rename_i r hr
    have := length_rawQuoted h
    have := (List.dropWhile_sublist (l := cs) (· == '#')).length_le
    rw [hr, List.length_cons] at this
    omega
  · simp at h

/-! ## Comments -/

/-- What follows the end of a block comment that is `depth` comments deep, if
it ends. -/
def blockCommentRest? : (depth : Nat) → List Char → Option (List Char)
  | _, [] => none
  | depth, '/' :: '*' :: rest => blockCommentRest? (depth + 1) rest
  | depth, '*' :: '/' :: rest => if depth ≤ 1 then some rest else blockCommentRest? (depth - 1) rest
  | depth, _ :: rest => blockCommentRest? depth rest

/-- What follows a block comment is shorter, however deep the comment is. -/
theorem length_blockCommentRest? {depth : Nat} {cs rest : List Char}
    (h : blockCommentRest? depth cs = some rest) : rest.length < cs.length := by
  fun_induction blockCommentRest? depth cs with
  | case1 => simp at h
  | case2 depth cs ih => exact Nat.lt_succ_of_lt (Nat.lt_succ_of_lt (ih h))
  | case3 depth cs _ => cases h; simp only [List.length_cons]; omega
  | case4 depth cs _ ih => exact Nat.lt_succ_of_lt (Nat.lt_succ_of_lt (ih h))
  | case5 depth c cs _ _ ih => exact Nat.lt_succ_of_lt (ih h)

/-- What follows a comment, if a text begins with one. A comment that documents
something is no comment but a token of its own. -/
def commentRest? : List Char → Option (List Char)
  | '/' :: '/' :: '/' :: '/' :: rest => some (rest.dropWhile (· != '\n'))
  | '/' :: '/' :: '/' :: _ => none
  | '/' :: '/' :: '!' :: _ => none
  | '/' :: '/' :: rest => some (rest.dropWhile (· != '\n'))
  | '/' :: '*' :: '*' :: '/' :: rest => some rest
  | '/' :: '*' :: '*' :: '*' :: rest => blockCommentRest? 1 ('*' :: '*' :: rest)
  | '/' :: '*' :: '*' :: _ => none
  | '/' :: '*' :: '!' :: _ => none
  | '/' :: '*' :: rest => blockCommentRest? 1 rest
  | _ => none

/-- What follows a comment is shorter: two characters open it. -/
theorem length_commentRest? {cs rest : List Char} (h : commentRest? cs = some rest) :
    rest.length < cs.length := by
  unfold commentRest? at h
  split at h
  · rename_i r
    have := (List.dropWhile_sublist (l := r) (· != '\n')).length_le
    cases h
    simp only [List.length_cons]
    omega
  · simp at h
  · simp at h
  · rename_i r _ _ _
    have := (List.dropWhile_sublist (l := r) (· != '\n')).length_le
    cases h
    simp only [List.length_cons]
    omega
  · cases h
    simp only [List.length_cons]
    omega
  · have := length_blockCommentRest? h
    simp only [List.length_cons] at this ⊢
    omega
  · simp at h
  · simp at h
  · have := length_blockCommentRest? h
    simp only [List.length_cons] at this ⊢
    omega
  · simp at h

/-! ## Tokens -/

/-- The token of a word. -/
def wordToken (word : List Char) : Token :=
  let name := String.ofList word
  if name ∈ reservedWords then .other else .identifier name

/-- What follows a byte string literal whose beginning, up to its first quote
or `#`, is a given word. -/
def byteLiteralRest? (word rest : List Char) : Option (List Char) :=
  if word = ['b'] then
    match rest with
    | '\x22' :: rest => byteStringRest? rest
    | _ => none
  else if word = ['b', 'r'] then (rawString? rest).map fun (_, rest) => rest
  else none

/-- What follows a byte literal is shorter, of whichever of the two sorts it is. -/
theorem length_byteLiteralRest? {word cs rest : List Char}
    (h : byteLiteralRest? word cs = some rest) : rest.length < cs.length := by
  unfold byteLiteralRest? at h
  split at h
  · split at h
    · exact Nat.lt_succ_of_lt (length_byteStringRest? h)
    · simp at h
  split at h
  · obtain ⟨⟨v, r⟩, hv, he⟩ := Option.map_eq_some_iff.1 h
    cases he
    exact length_rawString? hv
  · simp at h

/-- The token that begins with a letter or `_`, which is not among the
characters `cs` behind it, and what follows the token. A word may turn out to
be the beginning of a raw identifier, or of a literal. A word whose literal
does not come about is a word, and the quote behind it begins a token. -/
def wordAt (first : Char) (cs : List Char) : Token × List Char :=
  let word := first :: cs.takeWhile continuesIdentifier
  let rest := cs.dropWhile continuesIdentifier
  if word = ['r'] then
    match rawString? rest with
    | some (value, rest) => (.text (String.ofList value), rest)
    | none =>
      match rest with
      | '#' :: c :: more =>
        let raw := c :: more.takeWhile continuesIdentifier
        if startsIdentifier c ∧ raw ≠ ['_'] then
          (.identifier (String.ofList ('r' :: '#' :: raw)), more.dropWhile continuesIdentifier)
        else (.other, rest)
      | _ => (wordToken word, rest)
  else
    match byteLiteralRest? word rest with
    | some rest => (.other, rest)
    | none => (wordToken word, rest)

/-- The token that a text begins with, and what follows it. Nothing has to come
between a string literal and the next token. -/
def tokenAt (c : Char) (cs : List Char) : Token × List Char :=
  if startsIdentifier c then wordAt c cs
  else if c = '\x22' then
    match quoted cs with
    | some (value, rest) => (.text (String.ofList value), rest)
    | none => (.other, cs)
  else if c = ':' then (.colon, cs)
  else if c = '|' then (.bar, cs)
  else if c = ';' then (.semicolon, cs)
  else (.other, cs)

/-- A word, or a literal that begins like one, takes nothing but what stands behind it. -/
theorem length_wordAt_le (first : Char) (cs : List Char) :
    (wordAt first cs).2.length ≤ cs.length := by
  have le := (List.dropWhile_sublist (l := cs) continuesIdentifier).length_le
  unfold wordAt
  dsimp only
  split
  · split
    · rename_i value rest h
      have := length_rawString? h
      dsimp only
      omega
    · split
      · -- a raw identifier: the `#` and the word behind it are taken
        rename_i c more hm
        rw [hm] at le
        simp only [List.length_cons] at le
        have := (List.dropWhile_sublist (l := more) continuesIdentifier).length_le
        split
        · dsimp only; omega
        · rw [hm]; simp only [List.length_cons]; omega
      · exact le
  · split
    · -- a byte literal behind the word is taken along
      rename_i rest h
      have := length_byteLiteralRest? h
      dsimp only
      omega
    · exact le

/-- What follows a token is part of the text behind its first character, so the tokens
of a text run out. -/
theorem length_tokenAt_le (c : Char) (cs : List Char) : (tokenAt c cs).2.length ≤ cs.length := by
  unfold tokenAt
  split
  · exact length_wordAt_le c cs
  split
  · split
    · rename_i value rest h
      exact Nat.le_of_lt (length_quoted h)
    · exact Nat.le_refl _
  repeat' split
  all_goals exact Nat.le_refl _

/-- The tokens of a text. -/
def tokens : List Char → List Token
  | [] => []
  | c :: cs =>
    if isSpace c then tokens cs
    else
      match _h : commentRest? (c :: cs) with
      | some rest => tokens rest
      | none => (tokenAt c cs).1 :: tokens (tokenAt c cs).2
termination_by cs => cs.length
decreasing_by
  · simp
  · exact length_commentRest? _h
  · exact Nat.lt_succ_of_le (length_tokenAt_le c cs)

end ChomskyForm.Literal
