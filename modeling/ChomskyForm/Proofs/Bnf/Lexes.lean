/-
Lexing as a relation between a text and its items.

The lexer looks at a window of bytes and keeps what it has read there. `Lexes`
says the same of a text alone: which piece stands next, what item it gives, and
where the next piece begins. A text goes on behind a refused word; that the
lexer stops there is said by `feed`, which lets a reader take the items up to
the first error. `outcome_readRules` brings the two together: whatever the
window does with the bytes of a text, the reader gets the items of the text.
-/
import ChomskyForm.Bnf.RuleReader
import ChomskyForm.Proofs.Input.Upcoming

set_option autoImplicit false

namespace ChomskyForm.Bnf

/-! ## 1. The judgment -/

/-- The place some characters further on the same line. -/
def Position.right (p : Position) (count : Nat) : Position := ⟨p.line, p.column + count⟩

/-- The beginning of the line behind. -/
def Position.below (p : Position) : Position := ⟨p.line + 1, 0⟩

/-- A word of a text and the place where it begins. -/
structure Lexeme where
  text : List Char
  place : Position
deriving DecidableEq

/-- The token of a word, if it is one. -/
def Lexeme.token? (x : Lexeme) : Option Token := Token.classify? (String.ofList x.text)

/-- What the lexer gives for a word. -/
def Lexeme.item (x : Lexeme) : Item :=
  match x.token? with
  | some token => .ok (token, ⟨x.place, x.place.right x.text.length⟩)
  | none => .error (.unmatchedBracket (String.ofList x.text) x.place)

/-- The text begins with a line feed or is empty. -/
def AtLineEnd (text : List Char) : Prop := ∀ c ∈ text.head?, c = '\n'

/-- The items of a text that begins at a place, where a token precedes the text
on its line or not. Words are shorter than a window. -/
inductive Lexes : Position → Bool → List Char → List Item → Prop where
  | stop (place : Position) (seen : Bool) :
      Lexes place seen [] [.ok (.endMarker, ⟨place, place⟩)]
  | newLine {place : Position} (seen : Bool) {text : List Char} {items : List Item} :
      Lexes place.below false text items →
      Lexes place seen ('\n' :: text) (.ok (.newLine, ⟨place, place.below⟩) :: items)
  | blank {place : Position} {seen : Bool} {c : Char} {text : List Char} {items : List Item} :
      Lexer.isBlank c = true → Lexes (place.right 1) seen text items →
      Lexes place seen (c :: text) items
  | comment {place : Position} {body text : List Char} {items : List Item} :
      '\n' ∉ body → AtLineEnd text → Lexes (place.right (body.length + 1)) false text items →
      Lexes place false ('#' :: body ++ text) items
  | word {place : Position} {seen : Bool} {c : Char} {rest text : List Char} {items : List Item} :
      (∀ d ∈ c :: rest, Lexer.endsWord d = false) → ¬ (c = '#' ∧ seen = false) →
      Utf8.size (c :: rest) < Window.capacity → (∀ d ∈ text.head?, Lexer.endsWord d = true) →
      Lexes (place.right (rest.length + 1)) true text items →
      Lexes place seen (c :: rest ++ text) (Lexeme.item ⟨c :: rest, place⟩ :: items)

/-- A reader takes items up to the first error. -/
def feed (r : RuleReader) : List Item → Except ParseError Grammar
  | [] => .ok r.grammar
  | .error e :: _ => .error (.lex e)
  | .ok (token, span) :: rest => (r.step token span).outcome.bind fun r => feed r rest

/-! ## 2. Places -/

/-- Any character but a line feed moves the place by one column. -/
theorem Position.after_of_ne (p : Position) {c : Char} (h : c ≠ '\n') :
    p.after c = p.right 1 := by
  unfold Position.after
  rw [if_neg h]
  rfl

theorem Position.right_right (p : Position) (m n : Nat) :
    (p.right m).right n = p.right (m + n) := by
  unfold Position.right
  rw [Nat.add_assoc]

/-! ## 3. A lexer before a text -/

namespace Lexer

/-- The lexer has scanned some characters of the present word, the latest
first, and stands before a text. -/
structure At (l : Lexer) (scanned text : List Char) (place : Position) (seen : Bool) :
    Prop where
  scanned : l.window.scanned = scanned
  awaits : l.window.Awaits text
  position : l.position = place
  lineHasToken : l.lineHasToken = seen
  going : l.finished = false

variable {l l' : Lexer} {scanned text : List Char} {place : Position} {seen : Bool}

/-- At the end of the text a scan answers that there is no character, and the lexer
stays where it is. The window has room for a byte, or the scan would refuse before it
looked for one. -/
theorem scan_of_nil (h : l.At scanned [] place seen)
    (room : Utf8.size scanned < Window.capacity) :
    ∃ l', l.scan = (.ok none, l') ∧ l'.At scanned [] place seen := by
  obtain ⟨w, e, hs, hw⟩ := Window.scan_of_nil h.awaits (by rwa [h.scanned])
  unfold scan
  rw [e]
  exact ⟨_, rfl, hs.trans h.scanned, hw, h.position, h.lineHasToken, h.going⟩

/-- A scan answers the next character of the text if the window has room for it. The
character joins the scanned ones and the place moves behind it. -/
theorem scan_of_cons {c : Char} (h : l.At scanned (c :: text) place seen)
    (room : Utf8.size scanned + c.utf8Size ≤ Window.capacity) :
    ∃ l', l.scan = (.ok (some c), l') ∧ l'.At (c :: scanned) text (place.after c) seen := by
  obtain ⟨w, e, hs, hw⟩ := Window.scan_of_cons h.awaits (by rwa [h.scanned])
  unfold scan
  rw [e]
  refine ⟨_, rfl, ?_, hw, ?_, h.lineHasToken, h.going⟩
  · rw [hs, h.scanned]
  · rw [h.position]

/-- To drop the scanned characters moves neither the text nor the place. -/
theorem At.discard (h : l.At scanned text place seen) : l.discard.At [] text place seen :=
  ⟨rfl, ⟨h.awaits.upcoming, h.awaits.flows⟩, h.position, h.lineHasToken, h.going⟩

/-- A character that is given back stands before the lexer again. The place and the flag
come from the lexer as it was before the scan, so nothing has to be undone there. -/
theorem At.giveBack {c : Char} {behind : Position} (h : l.At scanned (c :: text) place seen)
    (h' : l'.At (c :: scanned) text behind seen) :
    (l.giveBack l').At scanned (c :: text) place seen := by
  obtain ⟨hs, hw⟩ := Window.back_of_cons h'.awaits h'.scanned
  exact ⟨hs, hw, h.position, h.lineHasToken, h.going⟩

/-! ## 4. Words and comments -/

/-- `finishWord` in one turn, without the bound on the bytes left that its recursion
carries. -/
theorem finishWord_eq (l : Lexer) : l.finishWord =
    match l.scan with
    | (.error e, l') => (.error e, l')
    | (.ok none, l') => (.ok (), l')
    | (.ok (some c), l') => if endsWord c then (.ok (), l.giveBack l') else finishWord l' := by
  rw [finishWord]
  split <;> simp_all

/-- `skipComment` in one turn, likewise. -/
theorem skipComment_eq (l : Lexer) : l.skipComment =
    match l.scan with
    | (.error e, l') => (.error e, l')
    | (.ok none, l') => (.ok (), l')
    | (.ok (some c), l') =>
      if c = '\n' then (.ok (), l.giveBack l') else skipComment l'.discard := by
  rw [skipComment]
  split <;> simp_all

/-- What ends a word is a single byte, and so fits behind any word that is
shorter than a window. -/
theorem utf8Size_of_endsWord {c : Char} (h : endsWord c = true) : c.utf8Size = 1 := by
  simp only [endsWord, isBlank, Bool.or_eq_true, beq_iff_eq] at h
  rcases h with ((rfl | rfl) | rfl) | rfl <;> rfl

/-- What does not end a word is neither a blank nor a line feed. -/
theorem ne_of_endsWord_eq_false {c : Char} (h : endsWord c = false) :
    isBlank c = false ∧ c ≠ '\n' := by
  simpa [endsWord] using h

/-- The rest of a word is scanned up to what ends it, which is given back. -/
theorem finishWord_of_word {word : List Char} (inside : ∀ c ∈ word, endsWord c = false)
    (ends : ∀ c ∈ text.head?, endsWord c = true) (h : l.At scanned (word ++ text) place seen)
    (room : Utf8.size scanned + Utf8.size word < Window.capacity) :
    ∃ l', l.finishWord = (.ok (), l') ∧
      l'.At (word.reverse ++ scanned) text (place.right word.length) seen := by
  induction word generalizing l scanned place with
  | nil =>
    rw [Utf8.size_nil, Nat.add_zero] at room
    cases text with
    | nil =>
      obtain ⟨l', e, h'⟩ := scan_of_nil h room
      exact ⟨l', by rw [finishWord_eq, e], h'⟩
    | cons c text =>
      -- the character that ends the word takes the last free byte at most
      have hc : endsWord c = true := ends c rfl
      obtain ⟨l', e, h'⟩ := scan_of_cons h (by rw [utf8Size_of_endsWord hc]; exact room)
      refine ⟨l.giveBack l', ?_, At.giveBack h h'⟩
      rw [finishWord_eq, e]
      exact if_pos hc
  | cons c word ih =>
    rw [List.forall_mem_cons] at inside
    rw [Utf8.size_cons] at room
    have goesOn : ¬ endsWord c = true := by
      rw [inside.1]
      exact Bool.false_ne_true
    -- the word is shorter than a window, so its next character fits
    obtain ⟨l₁, e₁, h₁⟩ := scan_of_cons h (by omega)
    rw [Position.after_of_ne _ (ne_of_endsWord_eq_false inside.1).2] at h₁
    have room₁ : Utf8.size (c :: scanned) + Utf8.size word < Window.capacity := by
      rw [Utf8.size_cons]
      omega
    obtain ⟨l₂, e₂, h₂⟩ := ih inside.2 h₁ room₁
    refine ⟨l₂, ?_, ?_⟩
    · rw [finishWord_eq, e₁]
      exact (if_neg goesOn).trans e₂
    · rwa [List.reverse_cons, List.append_assoc, List.length_cons, Nat.add_comm,
        ← Position.right_right]

/-- A comment is dropped up to the end of its line, however long it is. -/
theorem skipComment_of_body {body : List Char} (inside : '\n' ∉ body) (ends : AtLineEnd text)
    (h : l.At [] (body ++ text) place seen) :
    ∃ l', l.skipComment = (.ok (), l') ∧ l'.At [] text (place.right body.length) seen := by
  induction body generalizing l place with
  | nil =>
    cases text with
    | nil =>
      obtain ⟨l', e, h'⟩ := scan_of_nil h (by decide)
      exact ⟨l', by rw [skipComment_eq, e], h'⟩
    | cons c text =>
      have hc : c = '\n' := ends c rfl
      subst hc
      obtain ⟨l', e, h'⟩ := scan_of_cons h (by decide)
      refine ⟨l.giveBack l', ?_, At.giveBack h h'⟩
      rw [skipComment_eq, e]
      exact if_pos rfl
  | cons c body ih =>
    rw [List.mem_cons, not_or] at inside
    have other : c ≠ '\n' := Ne.symm inside.1
    -- the window is empty again before each character, so there is always room
    have room : Utf8.size [] + c.utf8Size ≤ Window.capacity := by
      rw [Utf8.size_nil, Nat.zero_add]
      exact Nat.le_trans c.utf8Size_le_four (by decide)
    obtain ⟨l₁, e₁, h₁⟩ := scan_of_cons h room
    rw [Position.after_of_ne _ other] at h₁
    obtain ⟨l₂, e₂, h₂⟩ := ih inside.2 h₁.discard
    refine ⟨l₂, ?_, ?_⟩
    · rw [skipComment_eq, e₁]
      exact (if_neg other).trans e₂
    · rwa [List.length_cons, Nat.add_comm, ← Position.right_right]

/-! ## 5. What a step can do -/

/-- A step scans a character and acts on it. A line feed is a token of its own, a blank
and a comment are passed, and a word is scanned to its end and taken out of the window;
the end of the text finishes the lexer. Where a character cannot be scanned, that is
the item. -/
inductive Stepped (l : Lexer) : Option Item → Lexer → Prop where
  | failed {e : LexError} {l' : Lexer} :
      l.scan = (.error e, l') → Stepped l (some (.error e)) l'
  | ended {l' : Lexer} :
      l.scan = (.ok none, l') →
      Stepped l (some (.ok (.endMarker, ⟨l.position, l.position⟩))) l'.finish
  | blank {c : Char} {l' : Lexer} :
      l.scan = (.ok (some c), l') → isBlank c = true → Stepped l none l'.discard
  | newLine {l' : Lexer} :
      l.scan = (.ok (some '\n'), l') →
      Stepped l (some (.ok (.newLine, ⟨l.position, l'.position⟩)))
        { l'.discard with lineHasToken := false }
  | failedComment {e : LexError} {l₁ l' : Lexer} :
      l.scan = (.ok (some '#'), l₁) → l.lineHasToken = false →
      l₁.discard.skipComment = (.error e, l') → Stepped l (some (.error e)) l'
  | comment {l₁ l' : Lexer} :
      l.scan = (.ok (some '#'), l₁) → l.lineHasToken = false →
      l₁.discard.skipComment = (.ok (), l') → Stepped l none l'
  | failedWord {c : Char} {e : LexError} {l₁ l' : Lexer} :
      l.scan = (.ok (some c), l₁) → endsWord c = false → ¬ (c = '#' ∧ l.lineHasToken = false) →
      l₁.finishWord = (.error e, l') → Stepped l (some (.error e)) l'
  | word {c : Char} {l₁ l₂ : Lexer} :
      l.scan = (.ok (some c), l₁) → endsWord c = false → ¬ (c = '#' ∧ l.lineHasToken = false) →
      l₁.finishWord = (.ok (), l₂) →
      Stepped l (some (l₂.takeWord l.position).1) (l₂.takeWord l.position).2

/-- Whatever a step gives is given by one of the constructors, so a fact about all steps
is a case analysis on `Stepped`, with no need to open `step` again. -/
theorem stepped_of_step {item : Option Item} (h : l.step = (item, l')) : Stepped l item l' := by
  unfold step at h
  cases e : l.scan with
  | mk answer l₁ =>
  rw [e] at h
  match answer, e with
  | .error cause, e =>
    cases h
    exact .failed e
  | .ok none, e =>
    cases h
    exact .ended e
  | .ok (some c), e =>
    dsimp only at h
    -- the step asks in this order, and each question is asked only of what the earlier ones left
    by_cases blank : isBlank c = true
    · rw [if_pos blank] at h
      cases h
      exact .blank e blank
    rw [if_neg blank] at h
    by_cases newLine : c = '\n'
    · rw [if_pos newLine] at h
      subst newLine
      cases h
      exact .newLine e
    rw [if_neg newLine] at h
    by_cases comment : c = '#' ∧ ¬ l.lineHasToken = true
    · rw [if_pos comment] at h
      obtain ⟨rfl, first⟩ := comment
      cases done : l₁.discard.skipComment with
      | mk answer behind =>
      rw [done] at h
      cases answer <;> cases h
      · exact .failedComment e (Bool.eq_false_iff.2 first) done
      · exact .comment e (Bool.eq_false_iff.2 first) done
    · rw [if_neg comment] at h
      rw [Bool.not_eq_true] at comment
      have inside : endsWord c = false := by
        simpa [endsWord, newLine] using blank
      cases done : l₁.finishWord with
      | mk answer behind =>
      rw [done] at h
      cases answer <;> cases h
      · exact .failedWord e inside comment done
      · exact .word e inside comment done

/-! ## 6. Steps -/

/-- The end of the text gives the end marker and finishes the lexer. -/
theorem step_of_nil (h : l.At [] [] place seen) :
    ∃ l', l.step = (some (.ok (.endMarker, ⟨place, place⟩)), l') ∧ l'.finished = true := by
  obtain ⟨l', e, -⟩ := scan_of_nil h (by decide)
  unfold step
  rw [e, h.position]
  exact ⟨_, rfl, rfl⟩

/-- A line feed gives a token whose span ends where the next line begins. -/
theorem step_of_newLine (h : l.At [] ('\n' :: text) place seen) :
    ∃ l', l.step = (some (.ok (.newLine, ⟨place, place.below⟩)), l') ∧
      l'.At [] text place.below false := by
  obtain ⟨l₁, e, h₁⟩ := scan_of_cons h (by decide)
  unfold step
  rw [e, h.position]
  dsimp only
  rw [if_neg (by decide), if_pos rfl, h₁.position]
  have h₂ := h₁.discard
  exact ⟨_, rfl, h₂.scanned, h₂.awaits, h₂.position, rfl, h₂.going⟩

/-- A blank gives no item, and the lexer is one column further. -/
theorem step_of_blank {c : Char} (blank : isBlank c = true) (h : l.At [] (c :: text) place seen) :
    ∃ l', l.step = (none, l') ∧ l'.At [] text (place.right 1) seen := by
  have ends : endsWord c = true := by
    unfold endsWord
    rw [blank, Bool.true_or]
  have other : c ≠ '\n' := by
    rintro rfl
    exact absurd blank (by decide)
  obtain ⟨l₁, e, h₁⟩ := scan_of_cons h (by rw [utf8Size_of_endsWord ends]; decide)
  rw [Position.after_of_ne _ other] at h₁
  unfold step
  rw [e]
  dsimp only
  rw [if_pos blank]
  exact ⟨_, rfl, h₁.discard⟩

/-- A comment that opens a line gives no item and leaves the line without a token, so
the lexer stands before the end of that line. -/
theorem step_of_comment {body : List Char} (inside : '\n' ∉ body) (ends : AtLineEnd text)
    (h : l.At [] ('#' :: body ++ text) place false) :
    ∃ l', l.step = (none, l') ∧ l'.At [] text (place.right (body.length + 1)) false := by
  obtain ⟨l₁, e₁, h₁⟩ := scan_of_cons h (by decide)
  rw [Position.after_of_ne _ (by decide)] at h₁
  obtain ⟨l₂, e₂, h₂⟩ := skipComment_of_body inside ends h₁.discard
  have first : ¬ l.lineHasToken = true := by
    rw [h.lineHasToken]
    exact Bool.false_ne_true
  unfold step
  rw [e₁]
  dsimp only
  rw [if_neg (by decide), if_neg (by decide), if_pos ⟨rfl, first⟩, e₂]
  refine ⟨l₂, rfl, ?_⟩
  rwa [Nat.add_comm, ← Position.right_right]

/-- To take a scanned word out of the window gives the item of that word. From then on a
token stands on the line, also where the word is no token. -/
theorem takeWord_of_word (word : List Char) (start : Position)
    (h : l.At word.reverse text (start.right word.length) seen) :
    ∃ l', l.takeWord start = (Lexeme.item ⟨word, start⟩, l') ∧
      l'.At [] text (start.right word.length) true := by
  have popped : l.window.pop.1 = String.ofList word := by
    unfold Window.pop
    rw [h.scanned, List.reverse_reverse]
  have h' := h.discard
  unfold takeWord Lexeme.item Lexeme.token?
  dsimp only
  rw [popped, h.position]
  -- a refused word is taken out of the window like any other
  cases Token.classify? (String.ofList word) <;>
    refine ⟨_, rfl, ?_⟩ <;>
    exact ⟨h'.scanned, h'.awaits, rfl, rfl, h'.going⟩

/-- A word that is shorter than a window gives its item, whether it is a token or not. -/
theorem step_of_word {c : Char} {rest : List Char}
    (inside : ∀ d ∈ c :: rest, endsWord d = false) (begins : ¬ (c = '#' ∧ seen = false))
    (size : Utf8.size (c :: rest) < Window.capacity)
    (ends : ∀ d ∈ text.head?, endsWord d = true)
    (h : l.At [] (c :: rest ++ text) place seen) :
    ∃ l', l.step = (some (Lexeme.item ⟨c :: rest, place⟩), l') ∧
      l'.At [] text (place.right (rest.length + 1)) true := by
  rw [List.forall_mem_cons] at inside
  obtain ⟨blank, newLine⟩ := ne_of_endsWord_eq_false inside.1
  rw [Utf8.size_cons] at size
  have room : Utf8.size [] + c.utf8Size ≤ Window.capacity := by
    rw [Utf8.size_nil]
    omega
  have room₁ : Utf8.size [c] + Utf8.size rest < Window.capacity := by
    rwa [Utf8.size_cons, Utf8.size_nil, Nat.add_zero]
  obtain ⟨l₁, e₁, h₁⟩ := scan_of_cons h room
  rw [Position.after_of_ne _ newLine] at h₁
  -- the first character was scanned by the step itself, and the others by `finishWord`
  obtain ⟨l₂, e₂, h₂⟩ := finishWord_of_word inside.2 ends h₁ room₁
  rw [Position.right_right, Nat.add_comm, ← List.reverse_cons] at h₂
  obtain ⟨l₃, e₃, h₃⟩ := takeWord_of_word (c :: rest) place h₂
  unfold step
  rw [e₁]
  dsimp only
  rw [blank, if_neg Bool.false_ne_true, if_neg newLine, if_neg, e₂]
  · dsimp only
    rw [h.position, e₃]
    exact ⟨l₃, rfl, h₃⟩
  · rintro ⟨rfl, first⟩
    rw [h.lineHasToken] at first
    exact begins ⟨rfl, Bool.eq_false_iff.2 first⟩

/-! ## 7. Items -/

/-- `next` repeats steps until one gives an item. An error finishes the lexer. -/
theorem next_eq (l : Lexer) (h : l.finished = false) : l.next =
    match l.step with
    | (some (.error e), l') => (some (.error e), l'.finish)
    | (some (.ok token), l') => (some (.ok token), l')
    | (none, l') => next l' := by
  rw [next, if_neg (by rw [h]; exact Bool.false_ne_true)]
  split <;> simp_all

theorem next_of_finished (h : l.finished = true) : l.next = (none, l) := by
  rw [next, if_pos h]

/-- The items of a lexer are the next one and the items of the lexer behind it. -/
theorem items_eq (l : Lexer) : l.items.1 =
    match l.next with
    | (none, _) => []
    | (some item, l') => item :: l'.items.1 := by
  rw [items]
  split <;> simp_all

end Lexer

/-! ## 8. What a reader gets -/

/-- A reader takes one item after the other. Its outcome is an error of the lexer, an
error of its own, or the grammar at the end. -/
theorem outcome_readRules_eq (l : Lexer) (r : RuleReader) : (readRules l r).outcome =
    match l.next with
    | (none, _) => .ok r.grammar
    | (some (.error e), _) => .error (.lex e)
    | (some (.ok (token, span)), l') =>
      (r.step token span).outcome.bind fun r => (readRules l'.takeReads.2 r).outcome := by
  rw [readRules]
  split <;> simp_all

/-- To look at the reads so far does not move the lexer. -/
theorem Lexer.At.takeReads {l : Lexer} {scanned text : List Char} {place : Position}
    {seen : Bool} (h : l.At scanned text place seen) :
    l.takeReads.2.At scanned text place seen :=
  ⟨h.scanned, ⟨h.awaits.upcoming, h.awaits.flows⟩, h.position, h.lineHasToken, h.going⟩

/-- A step without an item is not seen by the reader. -/
theorem outcome_readRules_of_step_none {l l' : Lexer} (r : RuleReader)
    (going : l.finished = false) (h : l.step = (none, l')) :
    (readRules l r).outcome = (readRules l' r).outcome := by
  have same : l.next = l'.next := by rw [l.next_eq going, h]
  rw [outcome_readRules_eq, outcome_readRules_eq l', same]

/-- If the lexer gives an item, and then other items whatever becomes of the
reader, then the reader gets the one before the others. -/
theorem outcome_readRules_of_step {l l' : Lexer} {item : Item} {items : List Item}
    (r : RuleReader) (going : l.finished = false) (h : l.step = (some item, l'))
    (others : ∀ r', (readRules l'.takeReads.2 r').outcome = feed r' items) :
    (readRules l r).outcome = feed r (item :: items) := by
  rw [outcome_readRules_eq, l.next_eq going, h]
  cases item with
  | error e => rfl
  | ok given =>
    unfold feed
    dsimp only
    congr 1
    funext r'
    exact others r'

/-- **What a reader gets from the lexer of a text** are the items of the text. -/
theorem outcome_readRules {place : Position} {seen : Bool} {text : List Char}
    {items : List Item} (lexes : Lexes place seen text items) {l : Lexer} (r : RuleReader)
    (h : l.At [] text place seen) : (readRules l r).outcome = feed r items := by
  induction lexes generalizing l r with
  | stop place seen =>
    obtain ⟨l', e, finished⟩ := Lexer.step_of_nil h
    -- the end marker finishes the lexer, so the reader is asked once more only
    refine outcome_readRules_of_step r h.going e fun r' => ?_
    have last : l'.takeReads.2.finished = true := finished
    rw [outcome_readRules_eq, Lexer.next_of_finished last]
    rfl
  | newLine seen _ ih =>
    obtain ⟨l', e, h'⟩ := Lexer.step_of_newLine h
    exact outcome_readRules_of_step r h.going e fun r' => ih r' h'.takeReads
  | blank isBlank _ ih =>
    obtain ⟨l', e, h'⟩ := Lexer.step_of_blank isBlank h
    rw [outcome_readRules_of_step_none r h.going e]
    exact ih r h'
  | comment inside ends _ ih =>
    obtain ⟨l', e, h'⟩ := Lexer.step_of_comment inside ends h
    rw [outcome_readRules_of_step_none r h.going e]
    exact ih r h'
  | word inside begins size ends _ ih =>
    obtain ⟨l', e, h'⟩ := Lexer.step_of_word inside begins size ends h
    exact outcome_readRules_of_step r h.going e fun r' => ih r' h'.takeReads

/-- A text that reaches the reader through any reads of its bytes gives the
items of the text. -/
theorem outcome_readGrammar_eq_feed {source : Source} {text : List Char} {items : List Item}
    (flows : source.Flows) (bytes : source.events = (text.flatMap Utf8.encode).map .ok)
    (lexes : Lexes .start false text items) :
    (readGrammar source).outcome = feed .start items := by
  obtain ⟨w, e, scanned, awaits⟩ := Window.ofSource_of_text flows bytes
  unfold readGrammar
  rw [e]
  exact outcome_readRules lexes RuleReader.start ⟨scanned, awaits, rfl, rfl, rfl⟩

end ChomskyForm.Bnf
