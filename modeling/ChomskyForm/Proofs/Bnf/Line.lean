/-
Lines, words and comments.

A text is cut at its line feeds, and a line at its blanks. The words of a line
are the pieces that are not empty; where each begins follows from the lengths of
the pieces before it. A line whose first word begins with `#` is a comment and
has no words that count. Nothing here looks at one character after the other:
`splits_text` shows that passing through a text character by character finds the
words that this cutting gives, line after line, and `lexes_text` that these are
the items of the lexer where all words are shorter than a window.
-/
import ChomskyForm.Proofs.Bnf.Lexes
import ChomskyForm.Proofs.Joining

set_option autoImplicit false

namespace ChomskyForm.Bnf

/-! ## 1. Cutting a text -/

/-- The pieces of a line that are not empty; the first begins at a place, and
one blank separates a piece from the next. -/
def wordsFrom (place : Position) : List (List Char) → List Lexeme
  | [] => []
  | piece :: rest =>
    if piece = [] then wordsFrom (place.right 1) rest
    else ⟨piece, place⟩ :: wordsFrom (place.right (piece.length + 1)) rest

/-- A line: how many are before it, its characters, and whether it is the last
one, which no line feed ends. -/
structure Line where
  number : Nat
  chars : List Char
  last : Bool
deriving DecidableEq

namespace Line

/-- The runs of characters between blanks. -/
def words (line : Line) : List Lexeme :=
  wordsFrom ⟨line.number, 0⟩ (line.chars.splitOnP Lexer.isBlank)

/-- Whether the first word begins with the sign of a comment. -/
def isComment (line : Line) : Bool :=
  (line.words.head?.bind fun x => x.text.head?) == some '#'

/-- The words of a line, none if it is a comment. -/
def lexemes (line : Line) : List Lexeme := if line.isComment then [] else line.words

/-- The token that stands for the end of the line. -/
def stop (line : Line) : Token × Span :=
  let place : Position := ⟨line.number, line.chars.length⟩
  if line.last then (.endMarker, ⟨place, place⟩) else (.newLine, ⟨place, place.below⟩)

/-- Everything that the lexer gives for a line. -/
def items (line : Line) : List Item := line.lexemes.map Lexeme.item ++ [.ok line.stop]

end Line

/-- Numbered lines. -/
def linesFrom (number : Nat) : List (List Char) → List Line
  | [] => []
  | [chars] => [⟨number, chars, true⟩]
  | chars :: next :: rest => ⟨number, chars, false⟩ :: linesFrom (number + 1) (next :: rest)

/-- The lines of a text. -/
def linesOf (text : List Char) : List Line := linesFrom 0 (text.splitOn '\n')

/-! ## 2. Cutting at blanks -/

/-- A piece that is not empty is a word, and the next piece begins behind the blank that
follows it. -/
theorem wordsFrom_cons (place : Position) {piece : List Char} (h : piece ≠ [])
    (rest : List (List Char)) : wordsFrom place (piece :: rest) =
      ⟨piece, place⟩ :: wordsFrom (place.right (piece.length + 1)) rest :=
  if_neg h

/-- A line is a piece without blanks, or such a piece, a blank and another
line. -/
theorem blank_induction {motive : List Char → Prop}
    (piece : ∀ word, (∀ c ∈ word, Lexer.isBlank c = false) → motive word)
    (blank : ∀ word b rest, (∀ c ∈ word, Lexer.isBlank c = false) → Lexer.isBlank b = true →
      motive rest → motive (word ++ b :: rest)) (chars : List Char) : motive chars := by
  -- the first blank divides the line; behind it stands a shorter one
  cases e : chars.find? Lexer.isBlank with
  | none =>
    rw [List.find?_eq_none] at e
    exact piece chars fun c hc => Bool.eq_false_iff.2 (e c hc)
  | some b =>
    obtain ⟨isBlank, word, rest, whole, before⟩ := List.find?_eq_some_iff_append.1 e
    rw [whole]
    refine blank word b rest (fun c hc => ?_) isBlank (blank_induction piece blank rest)
    simpa using before c hc
termination_by chars.length
decreasing_by
  rw [whole, List.length_append, List.length_cons]
  omega

theorem endsWord_of_isBlank {c : Char} (h : Lexer.isBlank c = true) :
    Lexer.endsWord c = true := by
  unfold Lexer.endsWord
  rw [h, Bool.true_or]

/-- What is neither a blank nor a line feed belongs to a word. -/
theorem endsWord_eq_false {c : Char} (h : Lexer.isBlank c = false) (h' : c ≠ '\n') :
    Lexer.endsWord c = false := by
  unfold Lexer.endsWord
  rw [h, Bool.false_or]
  exact beq_eq_false_iff_ne.2 h'

/-- At the end of a line a word ends: before a line feed, and where no character
follows. -/
theorem AtLineEnd.endsWord {text : List Char} (h : AtLineEnd text) :
    ∀ c ∈ text.head?, Lexer.endsWord c = true := by
  intro c hc
  rw [h c hc]
  rfl

/-! ## 3. Marks -/

/-- What there is in a text for the lexer: a word, or the end of a line or of the
text. -/
inductive Mark where
  | word (x : Lexeme)
  | stop (given : Token × Span)

/-- What the lexer gives for a mark whose word is shorter than a window. -/
def Mark.item : Mark → Item
  | word x => x.item
  | stop given => .ok given

/-- The marks of a text that begins at a place, where a token precedes the text on
its line or not. Words may be of any length. -/
inductive Splits : Position → Bool → List Char → List Mark → Prop where
  | stop (place : Position) (seen : Bool) :
      Splits place seen [] [.stop (.endMarker, ⟨place, place⟩)]
  | newLine {place : Position} (seen : Bool) {text : List Char} {marks : List Mark} :
      Splits place.below false text marks →
      Splits place seen ('\n' :: text) (.stop (.newLine, ⟨place, place.below⟩) :: marks)
  | blank {place : Position} {seen : Bool} {c : Char} {text : List Char} {marks : List Mark} :
      Lexer.isBlank c = true → Splits (place.right 1) seen text marks →
      Splits place seen (c :: text) marks
  | comment {place : Position} {body text : List Char} {marks : List Mark} :
      '\n' ∉ body → AtLineEnd text → Splits (place.right (body.length + 1)) false text marks →
      Splits place false ('#' :: body ++ text) marks
  | word {place : Position} {seen : Bool} {c : Char} {rest text : List Char} {marks : List Mark} :
      (∀ d ∈ c :: rest, Lexer.endsWord d = false) → ¬ (c = '#' ∧ seen = false) →
      (∀ d ∈ text.head?, Lexer.endsWord d = true) →
      Splits (place.right (rest.length + 1)) true text marks →
      Splits place seen (c :: rest ++ text) (.word ⟨c :: rest, place⟩ :: marks)

/-- A text whose words are short has the items of its marks. -/
theorem Splits.lexes {place : Position} {seen : Bool} {text : List Char} {marks : List Mark}
    (h : Splits place seen text marks)
    (small : ∀ x, Mark.word x ∈ marks → Utf8.size x.text < Window.capacity) :
    Lexes place seen text (marks.map Mark.item) := by
  induction h with
  | stop place seen => exact .stop place seen
  | newLine seen _ ih =>
    exact .newLine seen (ih fun x hx => small x (List.mem_cons_of_mem _ hx))
  | blank blank _ ih => exact .blank blank (ih small)
  | comment inside ends _ ih => exact .comment inside ends (ih small)
  | word inside begins ends _ ih =>
    refine .word inside begins (small _ List.mem_cons_self) ends ?_
    exact ih fun x hx => small x (List.mem_cons_of_mem _ hx)

/-! ## 4. The words of a line -/

/-- The first word begins with the sign of a comment. -/
def BeginsComment (words : List Lexeme) : Prop :=
  (words.head?.bind fun x => x.text.head?) = some '#'

/-- The rest of a line has a mark for each of its words. -/
theorem splits_words {chars text : List Char} {marks : List Mark} {place : Position} {seen : Bool}
    (inside : '\n' ∉ chars)
    (begins : seen = false → ¬ BeginsComment (wordsFrom place (chars.splitOnP Lexer.isBlank)))
    (ends : AtLineEnd text)
    (others : ∀ seen, Splits (place.right chars.length) seen text marks) :
    Splits place seen (chars ++ text)
      ((wordsFrom place (chars.splitOnP Lexer.isBlank)).map Mark.word ++ marks) := by
  -- on the pieces of the line; what follows the line is fixed, but the place moves on
  induction chars using blank_induction generalizing place seen with
  | piece word solid =>
    rw [List.splitOnP_eq_singleton solid] at begins ⊢
    cases word with
    | nil => exact others seen
    | cons c rest =>
      rw [wordsFrom_cons place (List.cons_ne_nil c rest)] at begins ⊢
      refine .word ?_ ?_ ends.endsWord (others true)
      · intro d hd
        exact endsWord_eq_false (solid d hd) fun e => inside (e ▸ hd)
      · rintro ⟨rfl, unseen⟩
        exact begins unseen rfl
  | blank word b rest solid blank ih =>
    rw [List.splitOnP_append_cons_of_forall_mem solid b blank] at begins ⊢
    have inside' : '\n' ∉ rest := fun hr =>
      inside (List.mem_append_right _ (List.mem_cons_of_mem _ hr))
    have behind : ∀ seen, Splits ((place.right (word.length + 1)).right rest.length) seen text
        marks := by
      intro seen
      rw [Position.right_right]
      have := others seen
      rwa [List.length_append, List.length_cons, Nat.add_comm rest.length, ← Nat.add_assoc] at this
    rw [List.append_assoc, List.cons_append]
    cases word with
    | nil => exact .blank blank (ih inside' begins behind)
    | cons c word =>
      rw [wordsFrom_cons place (List.cons_ne_nil c word)] at begins ⊢
      refine .word ?_ ?_ ?_ (.blank blank ?_)
      · intro d hd
        exact endsWord_eq_false (solid d hd) fun e => inside (e ▸ List.mem_append_left _ hd)
      · rintro ⟨rfl, unseen⟩
        exact begins unseen rfl
      · intro d hd
        cases hd
        exact endsWord_of_isBlank blank
      · -- behind a word no comment begins, whatever the next word is
        rw [Position.right_right]
        exact ih inside' (fun h => Bool.noConfusion h) behind

/-- The rest of a line whose first word begins a comment has no marks. -/
theorem splits_comment {chars text : List Char} {marks : List Mark} {place : Position}
    (inside : '\n' ∉ chars)
    (begins : BeginsComment (wordsFrom place (chars.splitOnP Lexer.isBlank)))
    (ends : AtLineEnd text)
    (others : Splits (place.right chars.length) false text marks) :
    Splits place false (chars ++ text) marks := by
  induction chars using blank_induction generalizing place with
  | piece word solid =>
    rw [List.splitOnP_eq_singleton solid] at begins
    cases word with
    | nil => cases begins
    | cons c body =>
      rw [wordsFrom_cons place (List.cons_ne_nil c body)] at begins
      cases begins
      exact .comment (fun h => inside (List.mem_cons_of_mem _ h)) ends others
  | blank word b rest solid blank ih =>
    rw [List.splitOnP_append_cons_of_forall_mem solid b blank] at begins
    cases word with
    | nil =>
      refine .blank blank (ih (fun h => inside (List.mem_cons_of_mem _ h)) begins ?_)
      rwa [Position.right_right, Nat.add_comm]
    | cons c word =>
      -- the comment takes the blank and the words behind it as well
      rw [wordsFrom_cons place (List.cons_ne_nil c word)] at begins
      cases begins
      exact .comment (fun h => inside (List.mem_cons_of_mem _ h)) ends others

/-! ## 5. The lines of a text -/

/-- The marks of a line. -/
def Line.marks (line : Line) : List Mark := line.lexemes.map .word ++ [.stop line.stop]

theorem Line.map_item_marks (line : Line) : line.marks.map Mark.item = line.items := by
  unfold marks items
  rw [List.map_append, List.map_map]
  rfl

/-- A line has its words as marks, and what follows has its marks behind them. -/
theorem Line.splits (line : Line) {text : List Char} {marks : List Mark}
    (inside : '\n' ∉ line.chars) (ends : AtLineEnd text)
    (others : ∀ seen, Splits ⟨line.number, line.chars.length⟩ seen text marks) :
    Splits ⟨line.number, 0⟩ false (line.chars ++ text) (line.lexemes.map Mark.word ++ marks) := by
  have stop : (⟨line.number, 0⟩ : Position).right line.chars.length =
      ⟨line.number, line.chars.length⟩ := by
    unfold Position.right
    rw [Nat.zero_add]
  unfold Line.lexemes
  -- a comment is passed in one piece and has no marks, other lines go word by word
  by_cases comment : line.isComment = true
  · rw [if_pos comment]
    exact splits_comment inside (beq_iff_eq.1 comment) ends (by rw [stop]; exact others false)
  · rw [if_neg comment]
    exact splits_words inside (fun _ begins => comment (beq_iff_eq.2 begins)) ends
      (fun seen => by rw [stop]; exact others seen)

/-- Numbered pieces without line feeds, joined by line feeds, have the marks of the
lines that they are. This is the direction in which the lines can be built up one by
one; `splits_text` applies it to the pieces of a text. -/
theorem splits_lines {number : Nat} {pieces : List (List Char)} (any : pieces ≠ [])
    (inside : ∀ chars ∈ pieces, '\n' ∉ chars) :
    Splits ⟨number, 0⟩ false (['\n'].intercalate pieces)
      ((linesFrom number pieces).flatMap Line.marks) := by
  fun_induction linesFrom number pieces with
  | case1 => exact absurd rfl any
  | case2 number chars =>
    rw [List.forall_mem_singleton] at inside
    have last := Line.splits ⟨number, chars, true⟩ inside (fun _ none => by cases none)
      fun seen => .stop _ seen
    rw [List.append_nil] at last
    rw [List.intercalate_singleton, List.flatMap_cons, List.flatMap_nil, List.append_nil]
    exact last
  | case3 number chars next rest ih =>
    rw [List.forall_mem_cons] at inside
    have others := ih (List.cons_ne_nil _ _) inside.2
    -- the line feed behind the first line resets the flag, so the others begin afresh
    have first := Line.splits ⟨number, chars, false⟩ inside.1 (fun c hc => by cases hc; rfl)
      fun seen => .newLine seen others
    rw [List.intercalate_cons_cons, List.append_assoc, List.flatMap_cons]
    unfold Line.marks
    rw [List.append_assoc]
    exact first

/-- **The marks of a text** are those of its lines. -/
theorem splits_text (text : List Char) :
    Splits .start false text ((linesOf text).flatMap Line.marks) := by
  have lines : Splits ⟨0, 0⟩ false (['\n'].intercalate (text.splitOn '\n'))
      ((linesOf text).flatMap Line.marks) :=
    splits_lines (List.splitOn_ne_nil '\n' text) fun _ h => notMem_of_mem_splitOn h
  rwa [List.intercalate_splitOn] at lines

/-- A word among the marks is a lexeme of one of the lines. -/
theorem exists_line_of_word_mem {lines : List Line} {x : Lexeme}
    (h : Mark.word x ∈ lines.flatMap Line.marks) : ∃ line ∈ lines, x ∈ line.lexemes := by
  obtain ⟨line, hl, hx⟩ := List.mem_flatMap.1 h
  refine ⟨line, hl, ?_⟩
  rcases List.mem_append.1 hx with hx | hx
  · obtain ⟨y, hy, e⟩ := List.mem_map.1 hx
    cases e
    exact hy
  · cases List.mem_singleton.1 hx

/-- **The items of a text** are those of its lines. -/
theorem lexes_text {text : List Char}
    (small : ∀ line ∈ linesOf text, ∀ x ∈ line.lexemes, Utf8.size x.text < Window.capacity) :
    Lexes .start false text ((linesOf text).flatMap Line.items) := by
  have lexes := (splits_text text).lexes fun x hx => by
    obtain ⟨line, hl, hx⟩ := exists_line_of_word_mem hx
    exact small line hl x hx
  rw [List.map_flatMap] at lexes
  simpa only [Line.map_item_marks] using lexes

end ChomskyForm.Bnf
