/-
Words that fill the window.

A word is scanned as a whole, and what ends it is looked at behind it. So a word
that is as long as a window leaves no room for this, and one that is longer not
even for its own characters: both are refused, at the first character that has no
room. Everything else that stands in a text is dropped as it is scanned, blanks
and comments character by character, so nothing but a long word is refused, however
long a comment, a run of blanks or a line may be.
-/
import Mathlib.Data.List.Nodup
import Mathlib.Order.Bounds.Defs
import ChomskyForm.Proofs.Bnf.ReadSymbols
import ChomskyForm.Proofs.Bnf.Spans
import ChomskyForm.Proofs.Input.Cursor

set_option autoImplicit false

namespace ChomskyForm.Bnf

/-! ## 1. Characters that fit -/

/-- How many characters at the beginning of a row fit into some bytes. -/
def fitting : Nat → List Char → Nat
  | _, [] => 0
  | room, c :: rest => if c.utf8Size ≤ room then fitting (room - c.utf8Size) rest + 1 else 0

/-- They are as many as possible. -/
theorem isGreatest_fitting (room : Nat) (chars : List Char) :
    IsGreatest {n | n ≤ chars.length ∧ Utf8.size (chars.take n) ≤ room} (fitting room chars) := by
  induction chars generalizing room with
  | nil => exact ⟨⟨Nat.le_refl 0, Nat.zero_le room⟩, fun n hn => hn.1⟩
  | cons c rest ih =>
    unfold fitting
    by_cases fits : c.utf8Size ≤ room
    · -- the first character fits, so the row is one longer than the best one behind it
      rw [if_pos fits]
      obtain ⟨⟨le, size⟩, most⟩ := ih (room - c.utf8Size)
      refine ⟨⟨Nat.succ_le_succ le, ?_⟩, fun n hn => ?_⟩
      · rw [List.take_succ_cons, Utf8.size_cons]
        omega
      · obtain ⟨le', size'⟩ := hn
        cases n with
        | zero => exact Nat.zero_le _
        | succ n =>
          rw [List.take_succ_cons, Utf8.size_cons] at size'
          exact Nat.succ_le_succ (most ⟨Nat.le_of_succ_le_succ le', by omega⟩)
    · -- the first character does not fit, and then nothing does
      rw [if_neg fits]
      refine ⟨⟨Nat.zero_le _, Nat.zero_le _⟩, fun n hn => ?_⟩
      obtain ⟨-, size'⟩ := hn
      cases n with
      | zero => exact Nat.le_refl 0
      | succ n =>
        rw [List.take_succ_cons, Utf8.size_cons] at size'
        omega

/-! ## 2. A window that a word fills -/

namespace Lexer

variable {l l' : Lexer} {scanned text : List Char} {place : Position} {seen : Bool}

/-- What is needed to scan at the edge of a window: its bytes are in bounds and its
source flows. -/
theorem At.sound (h : l.At scanned text place seen) (fits : l.window.Fits) : l.window.Sound :=
  ⟨fits, h.awaits.flows⟩

/-- Behind a word that fills the window the end of the text is not found. -/
theorem scan_of_nil_of_full (h : l.At scanned [] place seen) (fits : l.window.Fits)
    (full : Window.capacity ≤ Utf8.size scanned) :
    ∃ l', l.scan = (.error (.read .tokenTooLong place), l') := by
  rw [← h.scanned] at full
  obtain ⟨w, e, -⟩ := Window.scan_of_nil_of_full (h.sound fits) h.awaits full
  unfold scan
  rw [e, h.position]
  exact ⟨_, rfl⟩

/-- A character that has no room is not scanned. -/
theorem scan_of_cons_of_full {c : Char} (h : l.At scanned (c :: text) place seen)
    (fits : l.window.Fits) (tight : Window.capacity < Utf8.size scanned + c.utf8Size) :
    ∃ l', l.scan = (.error (.read .tokenTooLong place), l') := by
  rw [← h.scanned] at tight
  obtain ⟨w, e, -⟩ := Window.scan_of_cons_of_full (h.sound fits) h.awaits tight
  unfold scan
  rw [e, h.position]
  exact ⟨_, rfl⟩

/-- A scan that fails inside of a word fails the word. -/
theorem finishWord_of_failed_scan {e : LexError} (h : l.scan = (.error e, l')) :
    l.finishWord = (.error e, l') := by
  rw [finishWord_eq, h]

/-- The rest of a word is scanned as far as there is room. -/
theorem finishWord_of_long {word : List Char} (inside : ∀ c ∈ word, endsWord c = false)
    (h : l.At scanned (word ++ text) place seen) (fits : l.window.Fits)
    (full : Window.capacity ≤ Utf8.size scanned + Utf8.size word) :
    ∃ l', l.finishWord = (.error (.read .tokenTooLong
      (place.right (fitting (Window.capacity - Utf8.size scanned) word))), l') := by
  -- on the rest of the word; each scan takes its bytes from the room that is left
  induction word generalizing l scanned place with
  | nil =>
    rw [Utf8.size_nil, Nat.add_zero] at full
    cases text with
    | nil =>
      obtain ⟨l', e⟩ := scan_of_nil_of_full h fits full
      exact ⟨l', finishWord_of_failed_scan e⟩
    | cons c text =>
      -- whatever ends the word has no room
      have least := c.utf8Size_pos
      obtain ⟨l', e⟩ := scan_of_cons_of_full h fits (by omega)
      exact ⟨l', finishWord_of_failed_scan e⟩
  | cons c word ih =>
    rw [List.forall_mem_cons] at inside
    rw [Utf8.size_cons] at full
    unfold fitting
    by_cases room : Utf8.size scanned + c.utf8Size ≤ Window.capacity
    · -- the character has room, and the one without room is found behind it
      have goesOn : ¬ endsWord c = true := by
        rw [inside.1]
        exact Bool.false_ne_true
      obtain ⟨l₁, e₁, h₁⟩ := scan_of_cons h room
      rw [Position.after_of_ne _ (ne_of_endsWord_eq_false inside.1).2] at h₁
      have size : Utf8.size (c :: scanned) = c.utf8Size + Utf8.size scanned := Utf8.size_cons _ _
      obtain ⟨l₂, e₂⟩ := ih inside.2 h₁ (fits_of_scan fits e₁) (by omega)
      have left : Window.capacity - Utf8.size (c :: scanned) =
          Window.capacity - Utf8.size scanned - c.utf8Size := by omega
      refine ⟨l₂, ?_⟩
      rw [finishWord_eq, e₁, if_pos (by omega)]
      refine (if_neg goesOn).trans (e₂.trans ?_)
      rw [left, Position.right_right, Nat.add_comm]
    · have least := c.utf8Size_pos
      rw [if_neg (by omega)]
      obtain ⟨l', e⟩ := scan_of_cons_of_full h fits (Nat.lt_of_not_le room)
      exact ⟨l', finishWord_of_failed_scan e⟩

/-- A step at a word that is as long as a window or longer fails. The place of the error
is behind the characters that fit. -/
theorem step_of_long {c : Char} {rest : List Char}
    (inside : ∀ d ∈ c :: rest, endsWord d = false) (begins : ¬ (c = '#' ∧ seen = false))
    (long : Window.capacity ≤ Utf8.size (c :: rest))
    (h : l.At [] (c :: rest ++ text) place seen) (fits : l.window.Fits) :
    ∃ l', l.step = (some (.error (.read .tokenTooLong
      (place.right (fitting Window.capacity (c :: rest))))), l') := by
  rw [List.forall_mem_cons] at inside
  obtain ⟨blank, newLine⟩ := ne_of_endsWord_eq_false inside.1
  -- one character has always room
  have first : c.utf8Size ≤ Window.capacity := Nat.le_trans c.utf8Size_le_four (by decide)
  have room : Utf8.size [] + c.utf8Size ≤ Window.capacity := by
    rwa [Utf8.size_nil, Nat.zero_add]
  have full : Window.capacity ≤ Utf8.size [c] + Utf8.size rest := by
    rwa [Utf8.size_cons, Utf8.size_nil, Nat.add_zero, ← Utf8.size_cons]
  obtain ⟨l₁, e₁, h₁⟩ := scan_of_cons h room
  rw [Position.after_of_ne _ newLine] at h₁
  obtain ⟨l₂, e₂⟩ := finishWord_of_long inside.2 h₁ (fits_of_scan fits e₁) full
  rw [Utf8.size_cons, Utf8.size_nil, Nat.add_zero, Position.right_right, Nat.add_comm] at e₂
  unfold step fitting
  rw [e₁, if_pos first]
  dsimp only
  rw [blank, if_neg Bool.false_ne_true, if_neg newLine, if_neg, e₂]
  · exact ⟨l₂, rfl⟩
  · rintro ⟨rfl, unseen⟩
    rw [h.lineHasToken] at unseen
    exact begins ⟨rfl, Bool.eq_false_iff.2 unseen⟩

end Lexer

/-! ## 3. The items of any text -/

namespace Lexeme

/-- The error at a word that fills the window: it is found behind the characters
that fit. -/
def overflow (x : Lexeme) : LexError :=
  .read .tokenTooLong (x.place.right (fitting Window.capacity x.text))

/-- What the lexer gives for a word of any length. -/
def answer (x : Lexeme) : Item :=
  if Utf8.size x.text < Window.capacity then x.item else .error x.overflow

theorem answer_of_short {x : Lexeme} (short : Utf8.size x.text < Window.capacity) :
    x.answer = x.item :=
  if_pos short

/-- A long word is answered with an error, whether or not it would be a token. -/
theorem answer_of_long {x : Lexeme} (long : Window.capacity ≤ Utf8.size x.text) :
    x.answer = .error x.overflow :=
  if_neg (Nat.not_lt.2 long)

end Lexeme

/-- What the lexer gives for a mark. -/
def Mark.answer : Mark → Item
  | word x => x.answer
  | stop given => .ok given

namespace Lexer

variable {l l' : Lexer}

/-- A lexer gives nothing behind an error. -/
theorem items_of_failed_step {e : LexError} (going : l.finished = false)
    (h : l.step = (some (.error e), l')) : l.items.1 = [.error e] := by
  rw [items_eq, l.next_eq going, h]
  have last : l'.finish.finished = true := rfl
  exact congrArg (List.cons _) (items_of_finished last)

/-- A lexer that gave a token is ready for what comes behind. -/
theorem ready_of_step {given : Token × Span} (ready : l.Ready)
    (h : l.step = (some (.ok given), l')) : l'.Ready := by
  have proceeds := ready.step
  rw [h] at proceeds
  exact proceeds.1

theorem ready_of_step_none (ready : l.Ready) (h : l.step = (none, l')) : l'.Ready := by
  have proceeds := ready.step
  rw [h] at proceeds
  exact proceeds

/-- **The items of a text are the answers to its marks**, up to the first error. -/
theorem items_of_splits {place : Position} {seen : Bool} {text : List Char} {marks : List Mark}
    (splits : Splits place seen text marks) {l : Lexer} (h : l.At [] text place seen)
    (ready : l.Ready) : l.items.1 = untilError (marks.map Mark.answer) := by
  induction splits generalizing l with
  | stop place seen =>
    obtain ⟨l', e, finished⟩ := step_of_nil h
    exact items_of_step h.going e (items_of_finished finished)
  | newLine seen _ ih =>
    obtain ⟨l', e, h'⟩ := step_of_newLine h
    exact items_of_step h.going e (ih h' (ready_of_step ready e))
  | blank blank _ ih =>
    obtain ⟨l', e, h'⟩ := step_of_blank blank h
    exact (items_of_step_none h.going e).trans (ih h' (ready_of_step_none ready e))
  | comment inside ends _ ih =>
    obtain ⟨l', e, h'⟩ := step_of_comment inside ends h
    exact (items_of_step_none h.going e).trans (ih h' (ready_of_step_none ready e))
  -- the only mark that may be an error: a long word, or one that is no token
  | @word place seen c rest text marks inside begins ends _ ih =>
    let x : Lexeme := ⟨c :: rest, place⟩
    show l.items.1 = untilError (x.answer :: marks.map Mark.answer)
    by_cases short : Utf8.size x.text < Window.capacity
    · rw [Lexeme.answer_of_short short]
      obtain ⟨l', e, h'⟩ := step_of_word inside begins short ends h
      cases token : x.token? with
      | none =>
        rw [x.item_of_refused token] at e ⊢
        exact items_of_failed_step h.going e
      | some token' =>
        rw [x.item_of_token? token] at e ⊢
        exact items_of_step h.going e (ih h' (ready_of_step ready e))
    · have long := Nat.le_of_not_lt short
      rw [Lexeme.answer_of_long long]
      obtain ⟨l', e⟩ := step_of_long inside begins long h ready.fits
      exact items_of_failed_step h.going e

end Lexer

/-! ## 4. The first failure -/

/-- The error of an item, if it is one. -/
def errorOf : Item → Option LexError
  | .error e => some e
  | .ok _ => none

/-- What reading fails with at a word, if it does. -/
def Lexeme.failure? (x : Lexeme) : Option LexError := errorOf x.answer

/-- The words of a text that are not part of a comment, in order. -/
def lexemesOf (text : List Char) : List Lexeme := (linesOf text).flatMap Line.lexemes

/-- Of several errors in a row of answers only the first one is given. -/
theorem error_mem_untilError_iff (items : List Item) (e : LexError) :
    .error e ∈ untilError items ↔ items.findSome? errorOf = some e := by
  induction items with
  | nil => exact iff_of_false List.not_mem_nil (fun h => by cases h)
  | cons item rest ih =>
    cases item with
    | error cause =>
      show Except.error e ∈ [Except.error cause] ↔ some cause = some e
      simp [eq_comm]
    | ok given =>
      show Except.error e ∈ Except.ok given :: untilError rest ↔ rest.findSome? errorOf = some e
      simpa using ih

/-- The first error among the marks of some lines is the first failure of a word, as the
ends of lines never fail. -/
theorem findSome?_marks (lines : List Line) :
    ((lines.flatMap Line.marks).map Mark.answer).findSome? errorOf =
      (lines.flatMap Line.lexemes).findSome? Lexeme.failure? := by
  induction lines with
  | nil => rfl
  | cons line lines ih =>
    have stop : [Mark.answer (.stop line.stop)].findSome? errorOf = none := rfl
    have words : ((line.lexemes.map Mark.word).map Mark.answer).findSome? errorOf =
        line.lexemes.findSome? Lexeme.failure? := by
      rw [List.findSome?_map, List.findSome?_map]
      rfl
    rw [List.flatMap_cons, List.flatMap_cons, List.map_append, List.findSome?_append,
      List.findSome?_append, ih, Line.marks, List.map_append, List.findSome?_append, words]
    simp [stop]

namespace Lexeme

variable {x y : Lexeme}

/-- A long word fails, and its error is the overflow. -/
theorem failure?_of_long (long : Window.capacity ≤ Utf8.size x.text) :
    x.failure? = some x.overflow := by
  unfold failure?
  rw [answer_of_long long]
  rfl

theorem failure?_of_short (short : Utf8.size x.text < Window.capacity) (known : x.token? ≠ none) :
    x.failure? = none := by
  obtain ⟨token, e⟩ := Option.ne_none_iff_exists'.1 known
  unfold failure?
  rw [answer_of_short short, x.item_of_token? e]
  rfl

/-- A read fails at a word only if the word fills the window. -/
theorem eq_overflow_of_failure? {cause : ReadError} {place : Position}
    (h : x.failure? = some (.read cause place)) :
    Window.capacity ≤ Utf8.size x.text ∧ LexError.read cause place = x.overflow := by
  by_cases short : Utf8.size x.text < Window.capacity
  · exfalso
    unfold failure? at h
    rw [answer_of_short short] at h
    cases token : x.token? with
    | none =>
      rw [x.item_of_refused token] at h
      cases h
    | some _ =>
      rw [x.item_of_token? token] at h
      cases h
  · have long := Nat.le_of_not_lt short
    rw [failure?_of_long long] at h
    exact ⟨long, (Option.some.inj h).symm⟩

/-! ## 5. The order of words -/

/-- A word stands on an earlier line, or on the same line and ends before the other
one begins. -/
def Before (x y : Lexeme) : Prop :=
  x.place.line < y.place.line ∨
    x.place.line = y.place.line ∧ x.place.column + x.text.length < y.place.column

/-- The places at which two words may fill the window are apart. -/
theorem Before.overflow_ne (h : x.Before y) : x.overflow ≠ y.overflow := by
  intro e
  -- an error stands at most at the end of its word, and so before the next word begins
  have least := (isGreatest_fitting Window.capacity x.text).1.1
  unfold overflow Position.right at e
  simp only [LexError.read.injEq, Position.mk.injEq, true_and] at e
  unfold Before at h
  omega

end Lexeme

/-- The words of a line stand one before the other. The place of each is at or behind
the place where the line begins, which carries the induction. -/
theorem pairwise_wordsFrom (place : Position) (pieces : List (List Char)) :
    (wordsFrom place pieces).Pairwise Lexeme.Before ∧
      ∀ x ∈ wordsFrom place pieces, x.place.line = place.line ∧ place.column ≤ x.place.column := by
  fun_induction wordsFrom place pieces with
  | case1 place => exact ⟨.nil, fun x hx => absurd hx List.not_mem_nil⟩
  | case2 place rest ih =>
    obtain ⟨ordered, behind⟩ := ih
    exact ⟨ordered, fun x hx => ⟨(behind x hx).1, Nat.le_of_succ_le (behind x hx).2⟩⟩
  | case3 place piece rest any ih =>
    obtain ⟨ordered, behind⟩ := ih
    unfold Position.right at behind
    dsimp only at behind
    have first : (⟨piece, place⟩ : Lexeme).Before = fun y => place.line < y.place.line ∨
        place.line = y.place.line ∧ place.column + piece.length < y.place.column := rfl
    refine ⟨List.pairwise_cons.2 ⟨fun y hy => ?_, ordered⟩, List.forall_mem_cons.2 ⟨?_, ?_⟩⟩
    · obtain ⟨line, column⟩ := behind y hy
      rw [first]
      omega
    · exact ⟨rfl, Nat.le_refl _⟩
    · intro y hy
      obtain ⟨line, column⟩ := behind y hy
      exact ⟨line, by omega⟩

/-- The numbers of lines increase. -/
theorem pairwise_linesFrom (number : Nat) (pieces : List (List Char)) :
    (linesFrom number pieces).Pairwise (fun a b => a.number < b.number) ∧
      ∀ line ∈ linesFrom number pieces, number ≤ line.number := by
  fun_induction linesFrom number pieces with
  | case1 number => exact ⟨.nil, fun x hx => absurd hx List.not_mem_nil⟩
  | case2 number chars =>
    refine ⟨List.pairwise_singleton _ _, fun line hl => ?_⟩
    cases List.mem_singleton.1 hl
    exact Nat.le_refl _
  | case3 number chars next rest ih =>
    obtain ⟨ordered, behind⟩ := ih
    refine ⟨List.pairwise_cons.2 ⟨behind, ordered⟩, List.forall_mem_cons.2 ⟨Nat.le_refl _, ?_⟩⟩
    exact fun line hl => Nat.le_of_succ_le (behind line hl)

/-- The lexemes of a line stand one before the other, all of them on that line. -/
theorem Line.pairwise_lexemes (line : Line) : line.lexemes.Pairwise Lexeme.Before ∧
    ∀ x ∈ line.lexemes, x.place.line = line.number := by
  have all := pairwise_wordsFrom ⟨line.number, 0⟩ (line.chars.splitOnP Lexer.isBlank)
  unfold lexemes
  by_cases comment : line.isComment = true
  · rw [if_pos comment]
    exact ⟨.nil, fun x hx => absurd hx List.not_mem_nil⟩
  · rw [if_neg comment]
    exact ⟨all.1, fun x hx => (all.2 x hx).1⟩

/-- The lexemes of a text stand one before the other. -/
theorem pairwise_lexemesOf (text : List Char) : (lexemesOf text).Pairwise Lexeme.Before := by
  unfold lexemesOf
  rw [List.pairwise_flatMap]
  refine ⟨fun line _ => line.pairwise_lexemes.1, ?_⟩
  refine (pairwise_linesFrom 0 _).1.imp fun {a b} lt x hx y hy => .inl ?_
  rwa [a.pairwise_lexemes.2 x hx, b.pairwise_lexemes.2 y hy]

/-- The places at which words may fill the window are different. -/
theorem nodup_overflow (text : List Char) : ((lexemesOf text).map Lexeme.overflow).Nodup :=
  List.pairwise_map.2 ((pairwise_lexemesOf text).imp Lexeme.Before.overflow_ne)

/-- The first failure is that of a given word if this is the first one that fills the
window. -/
theorem findSome?_failure?_eq_overflow_iff {text : List Char} {earlier later : List Lexeme}
    {x : Lexeme} (row : lexemesOf text = earlier ++ x :: later)
    (known : ∀ y ∈ earlier, y.token? ≠ none) :
    (lexemesOf text).findSome? Lexeme.failure? = some x.overflow ↔
      Window.capacity ≤ Utf8.size x.text ∧ ∀ y ∈ earlier, Utf8.size y.text < Window.capacity := by
  constructor
  · intro fails
    obtain ⟨before, y, behind, split, failure, fine⟩ := List.findSome?_eq_some_iff.1 fails
    obtain ⟨long, same⟩ := Lexeme.eq_overflow_of_failure? failure
    -- the place of the error tells which word it is of
    have hx : x ∈ lexemesOf text := row ▸ List.mem_append_right _ List.mem_cons_self
    have hy : y ∈ lexemesOf text := split ▸ List.mem_append_right _ List.mem_cons_self
    have first : y = x := List.inj_on_of_nodup_map (nodup_overflow text) hy hx same.symm
    subst first
    have distinct := (nodup_overflow text).of_map
    rw [split, List.nodup_middle, List.nodup_cons, List.mem_append, not_or] at distinct
    obtain ⟨rfl, -⟩ :=
      (List.append_cons_inj_of_notMem distinct.1.1 distinct.1.2).1 (split.symm.trans row)
    refine ⟨long, fun z hz => Nat.lt_of_not_le fun long' => ?_⟩
    have failed := fine z hz
    rw [Lexeme.failure?_of_long long'] at failed
    cases failed
  · rintro ⟨long, short⟩
    have fine : earlier.findSome? Lexeme.failure? = none := by
      rw [List.findSome?_eq_none_iff]
      exact fun y hy => Lexeme.failure?_of_short (short y hy) (known y hy)
    rw [row, List.findSome?_append, fine, List.findSome?_cons, Lexeme.failure?_of_long long]
    rfl

/-! ## 6. What is refused -/

/-- Reading a text gives an error if it is the first failure of a word. -/
theorem error_mem_items_iff {source : Source} {text : List Char} (flows : source.Flows)
    (bytes : source.events = (text.flatMap Utf8.encode).map .ok) :
    ∃ w, Window.ofSource source = .ok w ∧ ∀ e,
      .error e ∈ (Lexer.ofWindow w).items.1 ↔
        (lexemesOf text).findSome? Lexeme.failure? = some e := by
  obtain ⟨w, started, scanned, awaits⟩ := Window.ofSource_of_text flows bytes
  -- the lexer is ready: nothing is scanned yet, and the window that was opened is in bounds
  have items := Lexer.items_of_splits (splits_text text) (l := .ofWindow w)
    ⟨scanned, awaits, rfl, rfl, rfl⟩ ⟨scanned, Window.fits_of_ofSource started⟩
  refine ⟨w, started, fun e => ?_⟩
  rw [items, error_mem_untilError_iff, findSome?_marks]
  rfl

/-- **Only long words are refused for their length.** Let a text come from a source
without failing reads. Where no earlier word is refused, the lexer fails at a word
because of its length if the word takes 8192 bytes or more, and is the first one that
does: lexing ends at its first error. The place of the error is behind the characters
of the word that fit into 8192 bytes. No other read fails, so nothing that stands
between words or in comments is refused, and a text without such words and without
refused ones is lexed to its end. -/
theorem long_words_refused {source : Source} {text : List Char} (flows : source.Flows)
    (bytes : source.events = (text.flatMap Utf8.encode).map .ok) :
    ∃ w, Window.ofSource source = .ok w ∧
      (∀ earlier x later, lexemesOf text = earlier ++ x :: later →
        (∀ y ∈ earlier, y.token? ≠ none) →
        (.error (.read .tokenTooLong (x.place.right (fitting 8192 x.text))) ∈
            (Lexer.ofWindow w).items.1 ↔
          8192 ≤ Utf8.size x.text ∧ ∀ y ∈ earlier, Utf8.size y.text < 8192)) ∧
      (∀ cause place, .error (.read cause place) ∈ (Lexer.ofWindow w).items.1 →
        cause = .tokenTooLong ∧ ∃ x ∈ lexemesOf text, 8192 ≤ Utf8.size x.text ∧
          place = x.place.right (fitting 8192 x.text)) ∧
      ((∀ x ∈ lexemesOf text, Utf8.size x.text < 8192 ∧ x.token? ≠ none) →
        ∀ e, .error e ∉ (Lexer.ofWindow w).items.1) ∧
      (∀ chars, IsGreatest {n | n ≤ chars.length ∧ Utf8.size (chars.take n) ≤ 8192}
        (fitting 8192 chars)) ∧
      ReadError.tokenTooLong.message = "token longer than 8192 bytes" := by
  obtain ⟨w, started, errors⟩ := error_mem_items_iff flows bytes
  refine ⟨w, started, ?_, ?_, ?_, isGreatest_fitting 8192, by decide⟩
  · intro earlier x later row known
    exact (errors x.overflow).trans (findSome?_failure?_eq_overflow_iff row known)
  · intro cause place failed
    obtain ⟨x, hx, failure⟩ := List.exists_of_findSome?_eq_some ((errors _).1 failed)
    obtain ⟨long, same⟩ := Lexeme.eq_overflow_of_failure? failure
    cases same
    exact ⟨rfl, x, hx, long, rfl⟩
  · intro fine e failed
    obtain ⟨x, hx, failure⟩ := List.exists_of_findSome?_eq_some ((errors e).1 failed)
    rw [Lexeme.failure?_of_short (fine x hx).1 (fine x hx).2] at failure
    cases failure

/-- A word that fills the window to its last byte. -/
def brimfulWord : List Char := List.replicate 8192 'a'

/-- It stands at the end of a text, behind another word. -/
def brimfulText : List Char := ['é'] ++ ' ' :: brimfulWord

theorem length_brimfulWord : brimfulWord.length = 8192 := List.length_replicate

theorem eq_of_mem_brimfulWord {c : Char} (h : c ∈ brimfulWord) : c = 'a' :=
  List.eq_of_mem_replicate h

/-- The two words of the text. It is too long to be cut by evaluation, so the general
lemmas cut it. -/
theorem lexemesOf_brimfulText :
    lexemesOf brimfulText = [⟨['é'], ⟨0, 0⟩⟩, ⟨brimfulWord, ⟨0, 2⟩⟩] := by
  have lines : linesOf brimfulText = [⟨0, brimfulText, true⟩] := by
    unfold linesOf List.splitOn
    rw [List.splitOnP_eq_singleton]
    · rfl
    · intro c hc
      rcases List.mem_append.1 hc with hc | hc
      · rw [List.mem_singleton.1 hc]
        rfl
      · rcases List.mem_cons.1 hc with rfl | hc
        · rfl
        · rw [eq_of_mem_brimfulWord hc]
          rfl
  have pieces : brimfulText.splitOnP Lexer.isBlank = [['é'], brimfulWord] := by
    unfold brimfulText
    rw [List.splitOnP_append_cons_of_forall_mem (List.forall_mem_singleton.2 rfl) ' ' rfl,
      List.splitOnP_eq_singleton]
    intro c hc
    rw [eq_of_mem_brimfulWord hc]
    rfl
  have words : Line.words ⟨0, brimfulText, true⟩ = [⟨['é'], ⟨0, 0⟩⟩, ⟨brimfulWord, ⟨0, 2⟩⟩] := by
    have any : brimfulWord ≠ [] := List.ne_nil_of_length_eq_add_one length_brimfulWord
    unfold Line.words
    rw [pieces, wordsFrom_cons _ (List.cons_ne_nil _ _), wordsFrom_cons _ any]
    rfl
  unfold lexemesOf Line.lexemes Line.isComment
  rw [lines, List.flatMap_cons, List.flatMap_nil, List.append_nil, words]
  exact if_neg (by decide)

/-- All characters of the word fit, and still it is refused, as there is no room to look
behind it. The error stands at the end of the word. -/
theorem long_words_refused_brimful :
    ∃ w, Window.ofSource (Source.ofBytes (brimfulText.flatMap Utf8.encode)) = .ok w ∧
      .error (.read .tokenTooLong ⟨0, 8194⟩) ∈ (Lexer.ofWindow w).items.1 := by
  obtain ⟨w, started, fails, -, -, most, -⟩ :=
    long_words_refused (Source.flows_ofBytes _) (Source.events_ofBytes _)
  have size : Utf8.size brimfulWord = 8192 := by decide +kernel
  have all : fitting 8192 brimfulWord = 8192 := by
    obtain ⟨⟨le, -⟩, greatest⟩ := most brimfulWord
    rw [length_brimfulWord] at le
    have whole : Utf8.size (brimfulWord.take 8192) = 8192 := by
      rw [List.take_of_length_le (Nat.le_of_eq length_brimfulWord), size]
    exact Nat.le_antisymm le
      (greatest ⟨Nat.le_of_eq length_brimfulWord.symm, Nat.le_of_eq whole⟩)
  have failed := (fails [⟨['é'], ⟨0, 0⟩⟩] ⟨brimfulWord, ⟨0, 2⟩⟩ [] lexemesOf_brimfulText
    (by decide +kernel)).2 ⟨Nat.le_of_eq size.symm, by decide +kernel⟩
  rw [all] at failed
  exact ⟨w, started, failed⟩

end ChomskyForm.Bnf
