/-
How the value of a string literal may be spelled.

Between the quotes a character stands for itself, or it is escaped: by a letter,
by the two digits of an ASCII code, or by its code point in braces. A value has
many spellings, and reading undoes every one of them. `escaped` is one that can
be computed for every value.
-/
import Mathlib.Data.List.Forall2
import ChomskyForm.Literal.Token

set_option autoImplicit false

namespace ChomskyForm.Literal

/-! ## 1. Spellings -/

/-- The number that hexadecimal digits write behind those of `code`. -/
def hexValue? (code : Nat) : List Char → Option Nat
  | [] => some code
  | c :: rest => (hexDigit? c).bind fun d => hexValue? (code * 16 + d) rest

/-- How a character may be spelled between the quotes of a string literal. -/
inductive Spells : Char → List Char → Prop
  | plain {c : Char} : c ≠ '\x22' → c ≠ '\\' → c ≠ '\r' → Spells c [c]
  | letter {c letter : Char} : simpleEscapes.lookup letter = some c → Spells c ['\\', letter]
  | byte {first second : Char} {a b : Nat} : hexDigit? first = some a → hexDigit? second = some b →
      a < 8 → Spells (Char.ofNat (a * 16 + b)) ['\\', 'x', first, second]
  | code {c : Char} {digits : List Char} : digits ≠ [] → digits.length ≤ 6 →
      hexValue? 0 digits = some c.toNat → Spells c ('\\' :: 'u' :: '\x7b' :: digits ++ ['\x7d'])

/-- A text between quotes spells a value, character by character. -/
def SpelledAs (value text : List Char) : Prop :=
  ∃ pieces, List.Forall₂ Spells value pieces ∧ text = pieces.flatten

/-! ## 2. Reading undoes spelling -/

/-- A digit is neither the underscore between digits nor the brace behind them. -/
theorem ne_of_hexDigit? {c : Char} {d : Nat} (h : hexDigit? c = some d) : c ≠ '_' ∧ c ≠ '\x7d' := by
  constructor <;>
  · rintro rfl
    cases h

/-- The code point in braces is read, whatever stands behind the brace. -/
theorem bracedCode_of_hexValue? {digits : List Char} {code count value : Nat}
    (h : hexValue? code digits = some value) (any : count ≠ 0 ∨ digits ≠ [])
    (few : count + digits.length ≤ 6) (behind : List Char) :
    bracedCode code count (digits ++ '\x7d' :: behind) = some (value, behind) := by
  -- on the digits; `count` is how many were read before, of the six that are allowed
  induction digits generalizing code count with
  | nil =>
    obtain rfl : code = value := Option.some.inj h
    have some : count ≠ 0 := any.resolve_right fun h => h rfl
    rw [List.nil_append, bracedCode, if_neg]
    rw [List.length_nil] at few
    omega
  | cons c rest ih =>
    obtain ⟨d, digit, later⟩ := Option.bind_eq_some_iff.1 h
    have ⟨noScore, noBrace⟩ := ne_of_hexDigit? digit
    rw [List.length_cons] at few
    rw [List.cons_append, bracedCode, digit, Option.bind_some]
    · exact ih later (.inl (Nat.succ_ne_zero count)) (by omega)
    · exact noScore
    · exact noBrace

/-- No letter of an escape is one of those that begin longer escapes, nor a line
break. -/
theorem ne_of_lookup {c letter : Char} (h : simpleEscapes.lookup letter = some c) :
    letter ≠ '\n' ∧ letter ≠ '\r' ∧ letter ≠ 'x' ∧ letter ≠ 'u' := by
  refine ⟨?_, ?_, ?_, ?_⟩ <;>
  · rintro rfl
    cases h

/-- Whatever spelling of a character stands first, the text between the quotes has that
character first. -/
theorem quoted_of_spells {c : Char} {piece : List Char} (h : Spells c piece) (behind : List Char) :
    quoted (piece ++ behind) = (quoted behind).map fun (value, rest) => (c :: value, rest) := by
  cases h with
  | plain noQuote noBackslash noReturn =>
    rw [List.singleton_append, quoted]
    all_goals intros; contradiction
  | letter named =>
    obtain ⟨noFeed, noReturn, noByte, noCode⟩ := ne_of_lookup named
    rw [List.cons_append, List.singleton_append, quoted, named]
    · cases quoted behind <;> rfl
    all_goals intros; contradiction
  | byte high low small =>
    rw [List.cons_append, List.cons_append, List.cons_append, List.cons_append, List.nil_append,
      quoted]
    simp only [high, low, Option.bind_eq_bind, Option.bind_some, if_pos small]
    cases quoted behind <;> rfl
  | @code c digits any few value =>
    have few' : 0 + digits.length ≤ 6 := by omega
    have inBraces := bracedCode_of_hexValue? value (.inr any) few' behind
    have valid : c.toNat.isValidChar := c.valid
    -- so that the pattern of an escape by code point is in front
    have row : ('\\' :: 'u' :: '\x7b' :: digits ++ ['\x7d']) ++ behind =
        '\\' :: 'u' :: '\x7b' :: (digits ++ '\x7d' :: behind) := by simp
    rw [row, quoted]
    split <;> rename_i e <;> rw [inBraces] at e <;> cases e
    rw [if_pos valid, Char.ofNat_toNat]

/-- **Reading undoes spelling**, up to the closing quote. -/
theorem quoted_of_spelledAs {value text : List Char} (h : SpelledAs value text)
    (behind : List Char) : quoted (text ++ '\x22' :: behind) = some (value, behind) := by
  obtain ⟨pieces, spells, rfl⟩ := h
  induction spells with
  | nil => rw [List.flatten_nil, List.nil_append, quoted]
  | cons first _ ih => rw [List.flatten_cons, List.append_assoc, quoted_of_spells first, ih]; rfl

/-! ## 3. A spelling of every value -/

/-- A character by its letter, if it has one; else it stands for itself if it is
printable ASCII, and is told by its code point if it is not. -/
def escapedChar (c : Char) : List Char :=
  match simpleEscapes.find? fun escape => escape.2 == c with
  | some (letter, _) => ['\\', letter]
  | none =>
    if ' ' ≤ c ∧ c ≤ '~' then [c]
    else '\\' :: 'u' :: '\x7b' :: Nat.toDigits 16 c.toNat ++ ['\x7d']

/-- The spelling of a value character by character. -/
def escaped (value : String) : List Char := value.toList.flatMap escapedChar

/-- The digits that numbers are written with are read as what they stand for. -/
theorem hexDigit?_digitChar {d : Nat} (h : d < 16) : hexDigit? d.digitChar = some d := by
  revert d
  decide

/-- A digit more at the end is worth itself, and the digits before it sixteen times as
much. -/
theorem hexValue?_concat {digits : List Char} {code value d : Nat}
    (h : hexValue? code digits = some value) (small : d < 16) :
    hexValue? code (digits ++ [d.digitChar]) = some (value * 16 + d) := by
  induction digits generalizing code with
  | nil =>
    obtain rfl : code = value := Option.some.inj h
    rw [List.nil_append, hexValue?, hexDigit?_digitChar small]
    rfl
  | cons c rest ih =>
    obtain ⟨first, digit, later⟩ := Option.bind_eq_some_iff.1 h
    rw [List.cons_append, hexValue?, digit, Option.bind_some, ih later]

/-- A number is read back from its hexadecimal digits. -/
theorem hexValue?_toDigits (n : Nat) : hexValue? 0 (Nat.toDigits 16 n) = some n := by
  induction n using Nat.strongRecOn with
  | ind n ih =>
    by_cases small : n < 16
    · rw [Nat.toDigits_of_lt_base small]
      have one := hexValue?_concat (show hexValue? 0 [] = some 0 from rfl) small
      rwa [List.nil_append, Nat.zero_mul, Nat.zero_add] at one
    · -- all digits but the last one are those of a smaller number
      have less : n / 16 < n := Nat.div_lt_self (by omega) (by decide)
      rw [Nat.toDigits_of_base_le (by decide) (Nat.le_of_not_lt small),
        hexValue?_concat (ih _ less) (Nat.mod_lt n (by decide)), Nat.div_add_mod']

/-- Every letter stands for one character only. -/
theorem lookup_of_mem :
    ∀ escape ∈ simpleEscapes, simpleEscapes.lookup escape.1 = some escape.2 := by
  decide

/-- The spelling that is computed for a character spells it. -/
theorem spells_escapedChar (c : Char) : Spells c (escapedChar c) := by
  unfold escapedChar
  split
  · rename_i letter other found
    have same : other = c := by simpa using List.find?_some found
    have named := lookup_of_mem _ (List.mem_of_find?_eq_some found)
    rw [same] at named
    exact .letter named
  · rename_i unnamed
    -- a quote, a backslash and a carriage return have letters
    have differs : ∀ escape ∈ simpleEscapes, c ≠ escape.2 := by
      intro escape listed same
      exact List.find?_eq_none.1 unnamed escape listed (by rw [same, beq_self_eq_true])
    split
    · exact .plain (differs ('"', '"') (by decide)) (differs ('\\', '\\') (by decide))
        (differs ('r', '\r') (by decide))
    · -- no code point has more than six digits
      have few : (Nat.toDigits 16 c.toNat).length ≤ 6 := by
        rw [Nat.length_toDigits_le_iff (by decide) (by decide)]
        rcases c.valid with low | ⟨-, high⟩
        · exact Nat.lt_trans low (by decide)
        · exact Nat.lt_trans high (by decide)
      exact .code (List.length_pos_iff.1 Nat.length_toDigits_pos) few (hexValue?_toDigits _)

/-- **Every value has a spelling.** -/
theorem spelledAs_escaped (value : String) : SpelledAs value.toList (escaped value) := by
  refine ⟨value.toList.map escapedChar, ?_, List.flatMap_def⟩
  rw [List.forall₂_map_right_iff]
  exact List.forall₂_same.2 fun c _ => spells_escapedChar c

end ChomskyForm.Literal
