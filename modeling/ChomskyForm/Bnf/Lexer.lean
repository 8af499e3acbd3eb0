/-
The lexer: from the characters of a window to tokens.

The lexer walks through the window character by character and keeps its
position. Blanks are dropped one by one, and so are the characters of a
comment, so neither can fill the window. A word is scanned up to the blank
behind it, which is given back. A `#` opens a comment only where no token
precedes it on its line.

Every token but the end marker takes at least one character, and the end marker
finishes the lexer. `Lexer.remaining` measures what is left to do; each item
lowers it, so the items run out.
-/
import ChomskyForm.Input.Window
import ChomskyForm.Bnf.Token

set_option autoImplicit false

namespace ChomskyForm.Bnf

/-- Why there is no next token. -/
inductive LexError where
  /-- No character could be read at a place. -/
  | read (cause : ReadError) (place : Position)
  /-- A token at a place begins like a name and is none. -/
  | unmatchedBracket (token : String) (place : Position)
deriving DecidableEq

namespace LexError

/-- Where the error is. -/
def place : LexError → Position
  | read _ place => place
  | unmatchedBracket _ place => place

/-- The line of the error. -/
def line (e : LexError) : Nat := e.place.line

/-- The error in words. -/
def message : LexError → String
  | read cause place => "Read error on " ++ place.text ++ ": " ++ cause.message
  | unmatchedBracket token place => "Unmatched bracket in `" ++ token ++ "` on " ++ place.text

end LexError

/-- What the lexer gives: a token with its extent, or the error that ends
it. -/
abbrev Item := Except LexError (Token × Span)

/-- A window, the position of its next character, whether the present line has
a token already, and whether the last item was given. -/
structure Lexer where
  window : Window
  position : Position
  lineHasToken : Bool
  finished : Bool

namespace Lexer

/-- The characters between tokens, apart from the line feed. -/
def isBlank (c : Char) : Bool := c == ' ' || c == '\t' || c == '\r'

/-- Whether a character ends a word. -/
def endsWord (c : Char) : Bool := isBlank c || c == '\n'

/-- A lexer at the beginning of a window. -/
def ofWindow (window : Window) : Lexer := ⟨window, .start, false, false⟩

/-- How many bytes are still to be scanned. -/
def unscanned (l : Lexer) : Nat := l.window.unscanned

/-- Scans a character and moves on behind it. -/
def scan (l : Lexer) : Except LexError (Option Char) × Lexer :=
  match l.window.scan with
  | (.error e, w) => (.error (.read e l.position), { l with window := w })
  | (.ok none, w) => (.ok none, { l with window := w })
  | (.ok (some c), w) => (.ok (some c), { l with window := w, position := l.position.after c })

/-- Forgets the characters scanned so far. -/
def discard (l : Lexer) : Lexer := { l with window := l.window.pop.2 }

/-- Gives the last scanned character back; `l` is the lexer before it was
scanned, and `scanned` the one after. -/
def giveBack (l scanned : Lexer) : Lexer := { l with window := scanned.window.back.2 }

/-- A scanned character comes from the window, and the position moves on behind it. -/
theorem scan_some_eq {l l' : Lexer} {c : Char} (h : l.scan = (.ok (some c), l')) :
    ∃ w, l.window.scan = (.ok (some c), w) ∧
      l' = { l with window := w, position := l.position.after c } := by
  unfold scan at h
  split at h
  · simp at h
  · simp at h
  · rename_i d w hw
    cases h
    exact ⟨w, hw, rfl⟩

/-- Scanning a character leaves less to scan. -/
theorem unscanned_scan_some {l l' : Lexer} {c : Char} (h : l.scan = (.ok (some c), l')) :
    l'.unscanned < l.unscanned := by
  obtain ⟨w, hw, rfl⟩ := scan_some_eq h
  exact Window.unscanned_scan_some hw

/-- A scan never leaves more to scan, whatever it answers. -/
theorem unscanned_scan_le (l : Lexer) : l.scan.2.unscanned ≤ l.unscanned := by
  have := l.window.unscanned_scan_le
  unfold scan
  split <;> rename_i h <;> simpa [unscanned, h] using this

theorem unscanned_giveBack {l l' : Lexer} {c : Char} (h : l.scan = (.ok (some c), l')) :
    (l.giveBack l').unscanned = l.unscanned := by
  obtain ⟨w, hw, rfl⟩ := scan_some_eq h
  exact Window.unscanned_back_of_scan hw

/-- The characters that are forgotten were scanned. -/
@[simp] theorem unscanned_discard (l : Lexer) : l.discard.unscanned = l.unscanned := rfl

/-! ## Words and comments -/

/-- Scans up to the end of the word whose first character was scanned. -/
def finishWord (l : Lexer) : Except LexError Unit × Lexer :=
  match _h : l.scan with
  | (.error e, l') => (.error e, l')
  | (.ok none, l') => (.ok (), l')
  | (.ok (some c), l') =>
    if endsWord c then (.ok (), l.giveBack l') else finishWord l'
termination_by l.unscanned
decreasing_by exact unscanned_scan_some _h

/-- Drops the characters up to the end of the line. -/
def skipComment (l : Lexer) : Except LexError Unit × Lexer :=
  match _h : l.scan with
  | (.error e, l') => (.error e, l')
  | (.ok none, l') => (.ok (), l')
  | (.ok (some c), l') =>
    if c = '\n' then (.ok (), l.giveBack l') else skipComment l'.discard
termination_by l.unscanned
decreasing_by
  rw [unscanned_discard]
  exact unscanned_scan_some _h

/-- A word may end where it is, so finishing one need not scan anything. -/
theorem unscanned_finishWord_le (l : Lexer) : l.finishWord.2.unscanned ≤ l.unscanned := by
  fun_induction finishWord l with
  | case1 l e l' h => simpa [h] using l.unscanned_scan_le
  | case2 l l' h => simpa [h] using l.unscanned_scan_le
  -- the character that ended the word was given back
  | case3 l c l' h _ => exact Nat.le_of_eq (unscanned_giveBack h)
  | case4 l c l' h _ ih => exact Nat.le_trans ih (Nat.le_of_lt (unscanned_scan_some h))

/-- A comment may be empty, so skipping one need not scan anything. -/
theorem unscanned_skipComment_le (l : Lexer) : l.skipComment.2.unscanned ≤ l.unscanned := by
  fun_induction skipComment l with
  | case1 l e l' h => simpa [h] using l.unscanned_scan_le
  | case2 l l' h => simpa [h] using l.unscanned_scan_le
  | case3 l l' h => exact Nat.le_of_eq (unscanned_giveBack h)
  | case4 l c l' h _ ih =>
    have lt : l'.discard.unscanned < l.unscanned := by
      rw [unscanned_discard]
      exact unscanned_scan_some h
    exact Nat.le_trans ih (Nat.le_of_lt lt)

/-! ## Items -/

/-- Takes the scanned word, which began at `start`, out of the window. -/
def takeWord (l : Lexer) (start : Position) : Item × Lexer :=
  let (text, window) := l.window.pop
  let l := { l with window := window, lineHasToken := true }
  match Token.classify? text with
  | some token => (.ok (token, ⟨start, l.position⟩), l)
  | none => (.error (.unmatchedBracket text start), l)

/-- Taking a word out of the window scans nothing, whether it is a token or not. -/
@[simp] theorem unscanned_takeWord (l : Lexer) (start : Position) :
    (l.takeWord start).2.unscanned = l.unscanned := by
  unfold takeWord
  dsimp only
  split <;> rfl

/-- The end of the items: no item comes after this one. -/
def finish (l : Lexer) : Lexer := { l with finished := true }

/-- The item that begins at the next character, if one begins there: blanks and
comments are passed without an item. The lexer is not finished. -/
def step (l : Lexer) : Option Item × Lexer :=
  match l.scan with
  | (.error e, l') => (some (.error e), l')
  | (.ok none, l') => (some (.ok (.endMarker, ⟨l.position, l.position⟩)), l'.finish)
  | (.ok (some c), l') =>
    -- blanks and comments are dropped at once, so they never fill the window
    if isBlank c then (none, l'.discard)
    else if c = '\n' then
      (some (.ok (.newLine, ⟨l.position, l'.position⟩)), { l'.discard with lineHasToken := false })
    else if c = '#' ∧ ¬ l.lineHasToken then
      match l'.discard.skipComment with
      | (.error e, l'') => (some (.error e), l'')
      | (.ok (), l'') => (none, l'')
    else
      match l'.finishWord with
      | (.error e, l'') => (some (.error e), l'')
      | (.ok (), l'') =>
        let (item, l'') := l''.takeWord l.position
        (some item, l'')

/-- A step takes at least one byte, unless it gives an error or finishes the
lexer with an item. -/
theorem unscanned_step_lt {l l' : Lexer} {item : Option Item} (h : l.step = (item, l')) :
    l'.unscanned < l.unscanned ∨ (∃ e, item = some (.error e)) ∨
      (item.isSome = true ∧ l'.finished = true) := by
  unfold step at h
  split at h
  · cases h; exact .inr (.inl ⟨_, rfl⟩)
  · cases h; exact .inr (.inr ⟨rfl, rfl⟩)
  rename_i c l₁ h₁
  have lt := unscanned_scan_some h₁
  split at h
  · cases h; exact .inl lt
  split at h
  · cases h; exact .inl lt
  split at h
  · -- the `#` was scanned, and the comment behind it adds nothing
    have le := l₁.discard.unscanned_skipComment_le
    split at h
    · cases h; exact .inr (.inl ⟨_, rfl⟩)
    · rename_i l₂ h₂
      rw [h₂] at le
      cases h
      exact .inl (Nat.lt_of_le_of_lt le lt)
  · -- the first character of the word was scanned, and the rest of it adds nothing
    have le := l₁.unscanned_finishWord_le
    split at h
    · cases h; exact .inr (.inl ⟨_, rfl⟩)
    · rename_i l₂ h₂
      rw [h₂] at le
      cases h
      have eq := unscanned_takeWord l₂ l.position
      exact .inl (Nat.lt_of_le_of_lt (Nat.le_trans (Nat.le_of_eq eq) le) lt)

/-- The next item, or nothing if the last one was given. After an error there
is no next item. -/
def next (l : Lexer) : Option Item × Lexer :=
  if l.finished then (none, l)
  else
    match _h : l.step with
    | (some (.error e), l') => (some (.error e), l'.finish)
    | (some (.ok token), l') => (some (.ok token), l')
    | (none, l') => next l'
termination_by l.unscanned
decreasing_by
  rcases unscanned_step_lt _h with lt | ⟨e, he⟩ | ⟨hs, _⟩
  · exact lt
  · simp at he
  · simp at hs

/-- What is left to do: nothing when the last item was given, else the bytes
that are still to be scanned and the end. -/
def remaining (l : Lexer) : Nat := if l.finished then 0 else l.unscanned + 1

/-- Every item takes something of what is left to do. -/
theorem remaining_next_lt {l l' : Lexer} {item : Item} (h : l.next = (some item, l')) :
    l'.remaining < l.remaining := by
  fun_induction next l with
  | case1 l hf => simp at h
  | case2 l hf e l₁ h₁ => cases h; simp [remaining, finish, hf]
  | case3 l hf token l₁ h₁ =>
    cases h
    rcases unscanned_step_lt h₁ with lt | ⟨e, he⟩ | ⟨_, hf'⟩
    · simp only [remaining, hf]
      split <;> simp_all
    · simp at he
    · simp [remaining, hf, hf']
  | case4 l hf l₁ h₁ ih =>
    have less := ih h
    rcases unscanned_step_lt h₁ with lt | ⟨e, he⟩ | ⟨hs, _⟩
    · -- a step without an item scans something, and the item takes the rest from there
      have bound : l₁.remaining ≤ l₁.unscanned + 1 := by
        unfold remaining
        split
        · exact Nat.zero_le _
        · exact Nat.le_refl _
      have whole : l.remaining = l.unscanned + 1 := if_neg hf
      omega
    · simp at he
    · simp at hs

/-- The sizes of the reads since this was last asked, in order. -/
def takeReads (l : Lexer) : List Nat × Lexer :=
  let (reads, window) := l.window.takeReads
  (reads, { l with window := window })

@[simp] theorem remaining_takeReads (l : Lexer) : l.takeReads.2.remaining = l.remaining := rfl

/-- All items that are left, and the lexer after the last one. -/
def items (l : Lexer) : List Item × Lexer :=
  match _h : l.next with
  | (none, l') => ([], l')
  | (some item, l') =>
    let (others, l'') := items l'
    (item :: others, l'')
termination_by l.remaining
decreasing_by exact remaining_next_lt _h

end Lexer

end ChomskyForm.Bnf
