/-
Literals that are printed are read back.

Printing puts a space between items and marks the other levels by `|`, `:` and
`;`, so behind a word there is never a character that would carry it on or make
a raw or a byte literal of it. `ReadAs` says of a text that it is read as a row
of tokens whatever follows it at a distance; it is shown of one item, and
separators carry it from each level to the next.
-/
import ChomskyForm.Proofs.Literal.Rows
import ChomskyForm.Proofs.Literal.Spelling

set_option autoImplicit false

namespace ChomskyForm.Literal

/-! ## 1. Printing -/

/-- The words that are identifiers: of ASCII letters, digits and `_`, with no
digit in front, and not reserved. -/
def isIdentifier (name : String) : Bool :=
  match name.toList with
  | [] => false
  | first :: rest =>
    startsIdentifier first && rest.all continuesIdentifier && !reservedWords.contains name

section Printing

variable (spell : String → List Char)

/-- The text of an item; `spell` says what is written between quotes. -/
def itemText : Symbol → List Char
  | .nonterminal name => name.toList
  | .terminal value => '\x22' :: spell value ++ ['\x22']

/-- The text of an alternative: its items with spaces between them. -/
def alternativeText (symbols : List Symbol) : List Char :=
  [' '].intercalate (symbols.map (itemText spell))

/-- The text of a rule: its name, a colon, and its alternatives with bars between them. -/
def ruleText (rule : LiteralRule) : List Char :=
  rule.name.toList ++ [':', ' '] ++
    [' ', '|', ' '].intercalate (rule.alternatives.map (alternativeText spell))

/-- The text of rules, with or without a semicolon behind the last one. -/
def print (rules : List LiteralRule) (closed : Bool) : String :=
  String.ofList ([';', ' '].intercalate (rules.map (ruleText spell)) ++
    if closed ∧ rules ≠ [] then [';'] else [])

end Printing

/-- A rule that can be written: all its names are identifiers, and it has
alternatives with items. -/
structure LiteralRule.Writable (rule : LiteralRule) : Prop where
  filled : Filled rule.alternatives
  name : isIdentifier rule.name
  items : ∀ symbols ∈ rule.alternatives, ∀ symbol ∈ symbols, ∀ name ∈ symbol.name?,
    isIdentifier name

/-! ## 2. Single tokens -/

/-- Nothing in front of a text is carried on by it: no word, and no beginning of
a raw or a byte literal. -/
def Apart (text : List Char) : Prop :=
  ∀ c ∈ text.head?, continuesIdentifier c = false ∧ c ≠ '\x22' ∧ c ≠ '#'

theorem apart_nil : Apart [] := fun _ h => by cases h

theorem apart_cons {c : Char} (word : continuesIdentifier c = false) (noQuote : c ≠ '\x22')
    (noHash : c ≠ '#') (text : List Char) : Apart (c :: text) := by
  intro d h
  obtain rfl : c = d := Option.some.inj h
  exact ⟨word, noQuote, noHash⟩

theorem tokens_space (behind : List Char) : tokens (' ' :: behind) = tokens behind := by
  rw [tokens.eq_def]
  exact if_pos (by decide)

/-- A token is read where neither white space nor a comment begins. -/
theorem tokens_cons {c : Char} (solid : isSpace c = false) (noSlash : c ≠ '/')
    (behind : List Char) :
    tokens (c :: behind) = (tokenAt c behind).1 :: tokens (tokenAt c behind).2 := by
  have noComment : commentRest? (c :: behind) = none := by
    unfold commentRest?
    split <;> simp_all
  rw [tokens.eq_def]
  dsimp only
  rw [if_neg (by rw [solid]; decide)]
  split
  · rename_i e
    rw [noComment] at e
    cases e
  · rfl

/-- A spelling between quotes is read as the text that it spells. -/
theorem tokens_quote {value text : List Char} (h : SpelledAs value text) (behind : List Char) :
    tokens ('\x22' :: (text ++ '\x22' :: behind)) =
      .text (String.ofList value) :: tokens behind := by
  have read : tokenAt '\x22' (text ++ '\x22' :: behind) =
      (.text (String.ofList value), behind) := by
    unfold tokenAt
    rw [if_neg (by decide), if_pos rfl, quoted_of_spelledAs h]
  rw [tokens_cons (by decide) (by decide), read]

/-- A word ends where a text begins that stands apart. -/
theorem takeWhile_of_apart {rest behind : List Char}
    (word : ∀ c ∈ rest, continuesIdentifier c = true) (apart : Apart behind) :
    (rest ++ behind).takeWhile continuesIdentifier = rest ∧
      (rest ++ behind).dropWhile continuesIdentifier = behind := by
  rw [List.takeWhile_append_of_pos word, List.dropWhile_append_of_pos word]
  cases behind with
  | nil => exact ⟨List.append_nil rest, rfl⟩
  | cons c more =>
    have ends : ¬ continuesIdentifier c = true := by
      rw [(apart c rfl).1]
      exact Bool.false_ne_true
    rw [List.takeWhile_cons_of_neg ends, List.dropWhile_cons_of_neg ends]
    exact ⟨List.append_nil rest, rfl⟩

/-- No raw string begins with a text that stands apart: it has neither a quote nor a
hash in front. -/
theorem rawString?_of_apart {behind : List Char} (apart : Apart behind) :
    rawString? behind = none := by
  unfold rawString?
  cases behind with
  | nil => rfl
  | cons c more =>
    obtain ⟨-, noQuote, noHash⟩ := apart c rfl
    rw [List.dropWhile_cons_of_neg (by simpa using noHash)]
    split
    · rename_i e
      exact absurd (List.cons.inj e).1 noQuote
    · rfl

/-- No byte literal begins with a text that stands apart. -/
theorem byteLiteralRest?_of_apart {behind : List Char} (word : List Char) (apart : Apart behind) :
    byteLiteralRest? word behind = none := by
  unfold byteLiteralRest?
  split
  · split
    · exact absurd rfl (apart _ rfl).2.1
    · rfl
  split
  · rw [rawString?_of_apart apart]
    rfl
  · rfl

/-- A word is read as far as it goes, and nothing is made of it but the word. -/
theorem wordAt_of_apart (first : Char) {rest behind : List Char}
    (word : ∀ c ∈ rest, continuesIdentifier c = true) (apart : Apart behind) :
    wordAt first (rest ++ behind) = (wordToken (first :: rest), behind) := by
  obtain ⟨taken, dropped⟩ := takeWhile_of_apart word apart
  unfold wordAt
  dsimp only
  rw [taken, dropped, rawString?_of_apart apart, byteLiteralRest?_of_apart _ apart]
  split
  · -- even the word that may begin a raw identifier does not, for want of a hash
    dsimp only
    split
    · exact absurd rfl (apart _ rfl).2.2
    · rfl
  · rfl

/-- What begins an identifier is neither white space nor the beginning of a comment. -/
theorem solid_of_startsIdentifier {c : Char} (h : startsIdentifier c = true) :
    isSpace c = false ∧ c ≠ '/' := by
  -- by code points, as white space is given by ranges of these
  have code : 65 ≤ c.toNat ∧ c.toNat ≤ 90 ∨ 97 ≤ c.toNat ∧ c.toNat ≤ 122 ∨ c.toNat = 95 := by
    unfold startsIdentifier Char.isAlpha Char.isUpper Char.isLower at h
    simp only [Bool.or_eq_true, Bool.and_eq_true, decide_eq_true_eq, beq_iff_eq, ge_iff_le,
      UInt32.le_iff_toNat_le] at h
    rcases h with (upper | lower) | rfl
    · exact .inl upper
    · exact .inr (.inl lower)
    · exact .inr (.inr rfl)
  constructor
  · have noMark : c ≠ '\u200e' ∧ c ≠ '\u200f' := by
      constructor <;>
      · rintro rfl
        revert code
        decide
    unfold isSpace Unicode.isWhiteSpace
    simp [noMark]
    omega
  · rintro rfl
    revert code
    decide

/-- An identifier is read as such, as it is not reserved. -/
theorem tokens_identifier {name : String} (h : isIdentifier name = true) {behind : List Char}
    (apart : Apart behind) :
    tokens (name.toList ++ behind) = .identifier name :: tokens behind := by
  unfold isIdentifier at h
  split at h
  · cases h
  rename_i first rest e
  rw [Bool.and_eq_true, Bool.and_eq_true, List.all_eq_true] at h
  obtain ⟨⟨starts, word⟩, free⟩ := h
  obtain ⟨solid, noSlash⟩ := solid_of_startsIdentifier starts
  have same : String.ofList (first :: rest) = name := by rw [← e, String.ofList_toList]
  have read : tokenAt first (rest ++ behind) = (.identifier name, behind) := by
    unfold tokenAt
    rw [if_pos starts, wordAt_of_apart first word apart]
    unfold wordToken
    rw [same, if_neg (by simpa using free)]
  rw [e, List.cons_append, tokens_cons solid noSlash, read]

/-! ## 3. From each level to the next -/

/-- A text is read as a row of tokens, whatever stands apart behind it. -/
def ReadAs (text : List Char) (row : List Token) : Prop :=
  ∀ behind, Apart behind → tokens (text ++ behind) = row ++ tokens behind

/-- A text that stands apart from anything in front of it, and is read as a row of
tokens whatever is behind it. -/
structure Separates (text : List Char) (row : List Token) : Prop where
  apart : ∀ behind, Apart (text ++ behind)
  read : ∀ behind, tokens (text ++ behind) = row ++ tokens behind

/-- Pieces with separators between them are read one after the other. -/
theorem readAs_intercalate {α : Type} {text : α → List Char} {row : α → List Token}
    {between : List Char} {marks : List Token} (separates : Separates between marks)
    {pieces : List α} (h : ∀ piece ∈ pieces, ReadAs (text piece) (row piece)) :
    ReadAs (between.intercalate (pieces.map text)) (marks.intercalate (pieces.map row)) := by
  induction pieces with
  | nil => exact fun behind _ => rfl
  | cons first others ih =>
    have ⟨read, later⟩ := List.forall_mem_cons.1 h
    intro behind apart
    cases others with
    | nil =>
      rw [List.map_singleton, List.map_singleton, List.intercalate_singleton,
        List.intercalate_singleton, read behind apart]
    | cons second others =>
      -- the first piece is followed by a separator, and that one by the text of the others
      have rest := ih later behind apart
      rw [List.map_cons, List.map_cons] at rest ⊢
      rw [List.map_cons, List.map_cons, List.intercalate_cons_cons, List.intercalate_cons_cons,
        List.append_assoc, List.append_assoc, read _ (separates.apart _), separates.read, rest]
      simp only [List.append_assoc]

/-- A space separates without a token of its own. -/
theorem separates_space : Separates [' '] [] where
  apart := apart_cons (by decide) (by decide) (by decide)
  read := tokens_space

/-- A mark with a space behind it. -/
theorem separates_mark {c : Char} {mark : Token}
    (read : ∀ behind, tokenAt c behind = (mark, behind))
    (solid : isSpace c = false) (noSlash : c ≠ '/') (apart : ∀ behind, Apart (c :: behind)) :
    Separates [c, ' '] [mark] where
  apart := fun behind => apart (' ' :: behind)
  read := fun behind => by
    show tokens (c :: ' ' :: behind) = mark :: tokens behind
    rw [tokens_cons solid noSlash, read, tokens_space]

theorem Separates.space {text : List Char} {row : List Token} (h : Separates text row) :
    Separates (' ' :: text) row where
  apart := fun behind => separates_space.apart (text ++ behind)
  read := fun behind => (tokens_space (text ++ behind)).trans (h.read behind)

/-- The bar between alternatives, with a space on both sides. -/
theorem separates_bar : Separates [' ', '|', ' '] [.bar] :=
  (separates_mark (fun _ => rfl) (by decide) (by decide)
    (apart_cons (by decide) (by decide) (by decide))).space

theorem separates_colon : Separates [':', ' '] [.colon] :=
  separates_mark (fun _ => rfl) (by decide) (by decide)
    (apart_cons (by decide) (by decide) (by decide))

theorem separates_semicolon : Separates [';', ' '] [.semicolon] :=
  separates_mark (fun _ => rfl) (by decide) (by decide)
    (apart_cons (by decide) (by decide) (by decide))

/-- Where nothing is between single tokens, they make up one row. -/
theorem intercalate_singletons (symbols : List Symbol) :
    [].intercalate (symbols.map fun symbol => [tokenOf symbol]) = symbols.map tokenOf := by
  induction symbols with
  | nil => rfl
  | cons first others ih =>
    cases others with
    | nil => exact List.intercalate_singleton
    | cons second others => exact List.intercalate_cons_cons.trans (congrArg _ ih)

section Printing

variable {spell : String → List Char}
  (spells : ∀ value : String, SpelledAs value.toList (spell value))

include spells

theorem readAs_itemText {symbol : Symbol}
    (h : ∀ name ∈ symbol.name?, isIdentifier name = true) :
    ReadAs (itemText spell symbol) [tokenOf symbol] := by
  intro behind apart
  cases symbol with
  | nonterminal name => exact tokens_identifier (h name rfl) apart
  | terminal value =>
    show tokens (('\x22' :: spell value ++ ['\x22']) ++ behind) = .text value :: tokens behind
    have read := tokens_quote (spells value) behind
    rw [String.ofList_toList] at read
    rw [← read, List.cons_append, List.cons_append, List.append_assoc]
    rfl

/-- An alternative is read as the tokens of its items. -/
theorem readAs_alternativeText {symbols : List Symbol}
    (h : ∀ symbol ∈ symbols, ∀ name ∈ symbol.name?, isIdentifier name = true) :
    ReadAs (alternativeText spell symbols) (symbols.map tokenOf) := by
  rw [← intercalate_singletons]
  apply readAs_intercalate separates_space
  intro symbol member
  exact readAs_itemText spells (h symbol member)

theorem readAs_ruleText {rule : LiteralRule} (h : rule.Writable) :
    ReadAs (ruleText spell rule) (ruleTokens rule) := by
  intro behind apart
  have alternatives : ReadAs _ (alternativesTokens rule.alternatives) :=
    readAs_intercalate separates_bar fun symbols member =>
      readAs_alternativeText spells (h.items symbols member)
  unfold ruleText
  rw [List.append_assoc, List.append_assoc,
    tokens_identifier h.name (separates_colon.apart _), separates_colon.read,
    alternatives behind apart]
  rfl

/-- **What is printed is read back.** -/
theorem parse?_print {rules : List LiteralRule} (h : ∀ rule ∈ rules, rule.Writable)
    (closed : Bool) : parse? (print spell rules closed) = some rules := by
  have text : ReadAs _ (literalTokens rules) :=
    readAs_intercalate separates_semicolon fun rule member => readAs_ruleText spells (h rule member)
  have filled : ∀ rule ∈ rules, Filled rule.alternatives :=
    fun rule member => (h rule member).filled
  -- a semicolon at the end has no space behind it, so it is no separator
  have last : tokens [';'] = [.semicolon] := by
    rw [tokens_cons (by decide) (by decide)]
    exact congrArg (List.cons Token.semicolon) (by rw [tokens.eq_def]; rfl)
  unfold parse? print
  rw [rules?_eq_some_iff, String.toList_ofList]
  split
  · rename_i ends
    rw [text _ (apart_cons (by decide) (by decide) (by decide) _), last]
    exact ⟨filled, .inr ⟨ends.2, rfl⟩⟩
  · rw [text _ apart_nil, tokens.eq_def]
    exact ⟨filled, .inl (List.append_nil _)⟩

end Printing

/-- **Literals are read exactly.** Of all rows of tokens those are read that are
written for rules, each as the rules that it is written for. So rules are read
back from their text, however the values of their terminals are spelled. -/
theorem literals_read_exactly :
    (∀ (tokens : List Token) (rules : List LiteralRule),
      rules? tokens = some rules ↔ WrittenFor rules tokens) ∧
    ∀ (spell : String → List Char), (∀ value, SpelledAs value.toList (spell value)) →
      ∀ (rules : List LiteralRule), (∀ rule ∈ rules, rule.Writable) →
        ∀ closed, parse? (print spell rules closed) = some rules :=
  ⟨fun _ _ => rules?_eq_some_iff, fun _ spells _ writable closed =>
    parse?_print spells writable closed⟩

/-- Two rules of one name, with values that have to be escaped, and with words that
begin literals where a quote follows at once. -/
def twiceNamed : List LiteralRule :=
  [⟨"br", [[.nonterminal "b", .terminal "\"\\\r\n", .nonterminal "r"], [.terminal "é\x00"]]⟩,
    ⟨"br", [[.nonterminal "_1"]]⟩]

/-- They can be written: each part of that is decidable. -/
theorem writable_twiceNamed : ∀ rule ∈ twiceNamed, rule.Writable := by
  refine List.forall_mem_cons.2 ⟨⟨⟨?_, ?_⟩, ?_, ?_⟩,
    List.forall_mem_singleton.2 ⟨⟨?_, ?_⟩, ?_, ?_⟩⟩
  all_goals decide +kernel

/-- The row and the printed text of these rules, with a semicolon behind the last one. -/
theorem literals_read_exactly_twiceNamed :
    rules? (literalTokens twiceNamed ++ [.semicolon]) = some twiceNamed ∧
      print escaped twiceNamed true =
        "br: b \"\\\"\\\\\\r\\n\" r | \"\\u\x7be9\x7d\\0\"; br: _1;" ∧
      parse? (print escaped twiceNamed true) = some twiceNamed := by
  have filled : ∀ rule ∈ twiceNamed, Filled rule.alternatives :=
    fun rule member => (writable_twiceNamed rule member).filled
  refine ⟨?_, by decide +kernel, ?_⟩
  · exact (literals_read_exactly.1 _ _).2 ⟨filled, .inr ⟨by decide, rfl⟩⟩
  · exact literals_read_exactly.2 escaped spelledAs_escaped twiceNamed writable_twiceNamed true

-- a bar, a colon or a semicolon too many, a semicolon missing, and an empty alternative
example :
    [[.identifier "A", .colon, .text "a", .bar], [.identifier "A", .colon, .colon, .text "a"],
      [.semicolon], [.identifier "A", .colon, .text "a", .semicolon, .semicolon],
      [.identifier "A", .colon, .text "a", .identifier "B", .colon, .text "b"],
      [.identifier "A", .colon, .bar, .text "a"]].map rules? =
      [none, none, none, none, none, none] := by
  decide +kernel

end ChomskyForm.Literal
