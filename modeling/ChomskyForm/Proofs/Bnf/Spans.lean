/-
The tokens of a text and the characters that they take.

An `Extent` is a token with the indices between which it stands in its text.
`Accounts` says that the extents of a stretch of text leave nothing out: each
token shows the characters that it takes, no character is taken twice, every
line feed is a token, and what no token takes is a blank or stands in a comment.
Lexing walks through a text piece by piece, and so does the proof: a piece in
front of an accounted stretch is either passed (`Accounts.pass`) or taken by one
more token (`Accounts.take`).
-/
import ChomskyForm.Proofs.Bnf.ReadText

set_option autoImplicit false

namespace ChomskyForm.Bnf

/-! ## 1. Places in a text -/

/-- The place behind some characters: how many line feeds they hold, and how
many characters follow the last of these. -/
def Position.behind (before : List Char) : Position :=
  ⟨before.count '\n', (before.reverse.takeWhile (· ≠ '\n')).length⟩

/-- The place of the character with an index. -/
def placeAt (text : List Char) (i : Nat) : Position := .behind (text.take i)

namespace Position

variable (before : List Char)

/-- Behind a line feed begins the next line. -/
theorem behind_newLine : behind (before ++ ['\n']) = (behind before).below := by
  unfold behind below
  rw [List.reverse_concat, List.takeWhile_cons_of_neg (by decide), List.count_append]
  rfl

/-- Characters without line feeds lead to the right on the same line. -/
theorem behind_append {chars : List Char} (inside : '\n' ∉ chars) :
    behind (before ++ chars) = (behind before).right chars.length := by
  have further : ∀ c ∈ chars.reverse, decide (c ≠ '\n') = true := by
    intro c hc
    rw [decide_eq_true_iff]
    rintro rfl
    exact inside (List.mem_reverse.1 hc)
  unfold behind right
  rw [List.count_append, List.count_eq_zero.2 inside, List.reverse_append,
    List.takeWhile_append_of_pos further, List.length_append, List.length_reverse, Nat.add_zero,
    Nat.add_comm]

end Position

/-- The place behind the beginning of a text is that behind its characters. -/
theorem placeAt_length (before rest : List Char) :
    placeAt (before ++ rest) before.length = .behind before := by
  unfold placeAt
  rw [List.take_left]

example : placeAt "a\né#".toList 3 = ⟨1, 1⟩ := by decide

/-- The characters of a piece are those at the indices of the piece. -/
theorem getElem?_piece {before piece : List Char} (rest : List Char) {i : Nat}
    (le : before.length ≤ i) (lt : i < (before ++ piece).length) :
    ∃ c ∈ piece, (before ++ piece ++ rest)[i]? = some c := by
  have inside : i - before.length < piece.length := by
    rw [List.length_append] at lt
    omega
  refine ⟨piece[i - before.length], List.getElem_mem inside, ?_⟩
  rw [List.getElem?_append_left lt, List.getElem?_append_right le, List.getElem?_eq_getElem inside]

/-! ## 2. What stands at an index -/

/-- A word stands at an index: a longest run of characters that end no word. -/
def WordAt (text : List Char) (first : Nat) (word : List Char) : Prop :=
  ∃ before behind, text = before ++ word ++ behind ∧ before.length = first ∧ word ≠ [] ∧
    (∀ c ∈ word, Lexer.endsWord c = false) ∧ (∀ c ∈ before.getLast?, Lexer.endsWord c = true) ∧
    ∀ c ∈ behind.head?, Lexer.endsWord c = true

/-- Nothing but blanks stands between the beginning of the line and the end of
the text. -/
def Indented (before : List Char) : Prop :=
  ∃ lines indent, before = lines ++ indent ∧ (∀ c ∈ lines.getLast?, c = '\n') ∧
    ∀ c ∈ indent, Lexer.isBlank c = true

/-- An index is in a comment: the sign of the comment, with nothing but blanks
before it on its line, or a character behind the sign on the same line. -/
def InComment (text : List Char) (i : Nat) : Prop :=
  ∃ before body behind, text = before ++ '#' :: body ++ behind ∧ Indented before ∧
    '\n' ∉ body ∧ before.length ≤ i ∧ i < (before ++ '#' :: body).length

/-- No token takes the character at an index. -/
def Passed (text : List Char) (i : Nat) : Prop :=
  (∃ c, text[i]? = some c ∧ Lexer.isBlank c = true) ∨ InComment text i

/-- The indices of the line feeds of a stretch of text. -/
def lineFeeds (text : List Char) (start stop : Nat) : List Nat :=
  (List.range' start (stop - start)).filter fun i => text[i]? = some '\n'

section LineFeeds

variable {text : List Char} {start middle stop : Nat}

/-- The line feeds of a stretch are those of its two parts. -/
theorem lineFeeds_append (le : start ≤ middle) (le' : middle ≤ stop) :
    lineFeeds text start stop = lineFeeds text start middle ++ lineFeeds text middle stop := by
  unfold lineFeeds
  have first : start + (middle - start) = middle := by omega
  have both : stop - start = (middle - start) + (stop - middle) := by omega
  rw [← List.filter_append, both, ← List.range'_append_1, first]

/-- A stretch without line feeds has no index of one. -/
theorem lineFeeds_eq_nil (none : ∀ i, start ≤ i → i < stop → text[i]? ≠ some '\n') :
    lineFeeds text start stop = [] := by
  unfold lineFeeds
  rw [List.filter_eq_nil_iff]
  intro i hi feed
  obtain ⟨le, lt⟩ := List.mem_range'_1.1 hi
  exact none i le (by omega) (of_decide_eq_true feed)

theorem lineFeeds_of_piece {before piece rest : List Char} (inside : '\n' ∉ piece) :
    lineFeeds (before ++ piece ++ rest) before.length (before ++ piece).length = [] := by
  refine lineFeeds_eq_nil fun i le lt feed => ?_
  obtain ⟨c, hc, e⟩ := getElem?_piece rest le lt
  rw [e] at feed
  cases feed
  exact inside hc

theorem lineFeeds_of_newLine (before rest : List Char) :
    lineFeeds (before ++ ['\n'] ++ rest) before.length (before ++ ['\n']).length =
      [before.length] := by
  have feed : (before ++ ['\n'] ++ rest)[before.length]? = some '\n' := by
    rw [List.append_assoc, List.getElem?_append_right (Nat.le_refl _), Nat.sub_self]
    rfl
  unfold lineFeeds
  rw [List.length_append, Nat.add_sub_cancel_left]
  simp only [List.length_singleton, List.range'_one, List.filter_cons, feed, decide_true,
    if_true, List.filter_nil]

end LineFeeds

/-! ## 3. Extents -/

/-- A token, the index of its first character, and the index behind its last
one. -/
structure Extent where
  token : Token
  first : Nat
  stop : Nat
deriving DecidableEq

namespace Extent

/-- The characters that a token takes. -/
def slice (x : Extent) (text : List Char) : List Char := (text.take x.stop).drop x.first

/-- The token as the lexer gives it, with its place behind the characters
before it. -/
def item (x : Extent) (text : List Char) : Item :=
  .ok (x.token, ⟨placeAt text x.first, placeAt text x.stop⟩)

/-- A token shows the characters that it takes: a line feed, or a whole word. -/
def Shows (x : Extent) (text : List Char) : Prop :=
  match x.token with
  | .newLine => x.slice text = ['\n']
  | .endMarker => False
  | token => x.slice text = token.text.toList ∧ WordAt text x.first token.text.toList

end Extent

/-- The extents of a stretch of text leave nothing out and take nothing
twice. -/
structure Accounts (text : List Char) (start reach : Nat) (extents : List Extent) : Prop where
  le : start ≤ reach
  within : ∀ x ∈ extents, start ≤ x.first ∧ x.first < x.stop ∧ x.stop ≤ reach
  ordered : extents.Pairwise fun x y => x.stop ≤ y.first
  shows : ∀ x ∈ extents, x.Shows text
  newLines : (extents.filter fun x => x.token = .newLine).map Extent.first =
    lineFeeds text start reach
  passed : ∀ i, start ≤ i → i < reach → (∀ x ∈ extents, ¬ (x.first ≤ i ∧ i < x.stop)) →
    Passed text i

/-- What the lexer gives where a text ends, or where a refused word begins. -/
inductive Ends (text : List Char) (reach : Nat) : Item → Prop where
  | endMarker : reach = text.length →
      Ends text reach (.ok (.endMarker, ⟨placeAt text reach, placeAt text reach⟩))
  | refused {word : List Char} : WordAt text reach word →
      Token.classify? (String.ofList word) = none →
      Ends text reach (.error (.unmatchedBracket (String.ofList word) (placeAt text reach)))

namespace Accounts

variable {text : List Char} {start middle reach : Nat} {extents : List Extent}

/-- At its end a stretch holds nothing. -/
theorem nothing (text : List Char) (start : Nat) : Accounts text start start [] where
  le := Nat.le_refl _
  within := fun _ h => absurd h List.not_mem_nil
  ordered := .nil
  shows := fun _ h => absurd h List.not_mem_nil
  newLines := (lineFeeds_eq_nil fun _ le lt => absurd lt (Nat.not_lt.2 le)).symm
  passed := fun _ le lt => absurd lt (Nat.not_lt.2 le)

/-- Characters that no token takes may stand before a stretch. -/
theorem pass (h : Accounts text middle reach extents) (le : start ≤ middle)
    (feeds : lineFeeds text start middle = [])
    (gap : ∀ i, start ≤ i → i < middle → Passed text i) :
    Accounts text start reach extents where
  le := Nat.le_trans le h.le
  within := fun x hx => ⟨Nat.le_trans le (h.within x hx).1, (h.within x hx).2⟩
  ordered := h.ordered
  shows := h.shows
  newLines := by rw [lineFeeds_append le h.le, feeds, List.nil_append, h.newLines]
  passed := by
    intro i le' lt' free
    by_cases before : i < middle
    · exact gap i le' before
    · exact h.passed i (Nat.le_of_not_lt before) lt' free

/-- So may a token that shows what it takes. -/
theorem take {x : Extent} (h : Accounts text x.stop reach extents) (lt : x.first < x.stop)
    (shows : x.Shows text)
    (feeds : lineFeeds text x.first x.stop = if x.token = .newLine then [x.first] else []) :
    Accounts text x.first reach (x :: extents) where
  le := Nat.le_trans (Nat.le_of_lt lt) h.le
  within := by
    rw [List.forall_mem_cons]
    refine ⟨⟨Nat.le_refl _, lt, h.le⟩, fun y hy => ?_⟩
    obtain ⟨behind, rest⟩ := h.within y hy
    exact ⟨Nat.le_trans (Nat.le_of_lt lt) behind, rest⟩
  ordered := List.pairwise_cons.2 ⟨fun y hy => (h.within y hy).1, h.ordered⟩
  shows := List.forall_mem_cons.2 ⟨shows, h.shows⟩
  newLines := by
    rw [lineFeeds_append (Nat.le_of_lt lt) h.le, feeds, ← h.newLines, List.filter_cons]
    by_cases newLine : x.token = .newLine
    · rw [if_pos newLine, if_pos (decide_eq_true newLine)]
      rfl
    · rw [if_neg newLine, if_neg (by simpa using newLine)]
      rfl
  passed := by
    intro i le' lt' free
    rw [List.forall_mem_cons] at free
    have behind : x.stop ≤ i := Nat.le_of_not_lt fun before => free.1 ⟨le', before⟩
    exact h.passed i behind lt' free.2

end Accounts

/-! ## 4. The lexer gives the items of the text -/

/-- The items up to the first error, which is the last item. -/
def untilError : List Item → List Item
  | [] => []
  | .error e :: _ => [.error e]
  | .ok given :: rest => .ok given :: untilError rest

namespace Lexer

variable {l l' : Lexer}

/-- A step without an item changes no items. -/
theorem items_of_step_none (going : l.finished = false) (h : l.step = (none, l')) :
    l.items.1 = l'.items.1 := by
  have same : l.next = l'.next := by rw [l.next_eq going, h]
  rw [items_eq, items_eq l', same]

theorem items_of_finished (h : l.finished = true) : l.items.1 = [] := by
  rw [items_eq, next_of_finished h]

/-- If the lexer gives an item, and then other items, then these are its items,
up to the first error. -/
theorem items_of_step {item : Item} {items : List Item} (going : l.finished = false)
    (h : l.step = (some item, l')) (others : l'.items.1 = untilError items) :
    l.items.1 = untilError (item :: items) := by
  rw [items_eq, l.next_eq going, h]
  cases item with
  | error e =>
    have last : l'.finish.finished = true := rfl
    exact congrArg (List.cons _) (items_of_finished last)
  | ok given => exact congrArg (List.cons _) others

/-- The lexer of a text gives the items of the text up to the first error. There it
stops, and the rest of the judgment is not asked for. -/
theorem items_of_lexes {place : Position} {seen : Bool} {text : List Char} {items : List Item}
    (lexes : Lexes place seen text items) {l : Lexer} (h : l.At [] text place seen) :
    l.items.1 = untilError items := by
  induction lexes generalizing l with
  | stop place seen =>
    obtain ⟨l', e, finished⟩ := step_of_nil h
    exact items_of_step h.going e (items_of_finished finished)
  | newLine seen _ ih =>
    obtain ⟨l', e, h'⟩ := step_of_newLine h
    exact items_of_step h.going e (ih h')
  | blank isBlank _ ih =>
    obtain ⟨l', e, h'⟩ := step_of_blank isBlank h
    exact (items_of_step_none h.going e).trans (ih h')
  | comment inside ends _ ih =>
    obtain ⟨l', e, h'⟩ := step_of_comment inside ends h
    exact (items_of_step_none h.going e).trans (ih h')
  | word inside begins size ends _ ih =>
    obtain ⟨l', e, h'⟩ := step_of_word inside begins size ends h
    exact items_of_step h.going e (ih h')

end Lexer

/-! ## 5. The items of a text account for it -/

/-- Some items of a stretch of text: its extents, and an item that ends them. -/
def Tells (text : List Char) (start : Nat) (items : List Item) : Prop :=
  ∃ extents reach last, items = extents.map (Extent.item · text) ++ [last] ∧
    Accounts text start reach extents ∧ Ends text reach last

section Pieces

variable {before piece rest : List Char} {items : List Item}

/-- A passed piece in front of a stretch adds no item. -/
theorem Tells.pass (h : Tells (before ++ piece ++ rest) (before ++ piece).length items)
    (inside : '\n' ∉ piece)
    (gap : ∀ i, before.length ≤ i → i < (before ++ piece).length →
      Passed (before ++ piece ++ rest) i) :
    Tells (before ++ piece ++ rest) before.length items := by
  obtain ⟨extents, reach, last, row, accounts, ends⟩ := h
  have le := (List.prefix_append before piece).length_le
  exact ⟨extents, reach, last, row, accounts.pass le (lineFeeds_of_piece inside) gap, ends⟩

/-- A taken piece in front of a stretch adds the item of its token, with the places
behind what comes before and behind the piece. -/
theorem Tells.take {token : Token} (any : piece ≠ [])
    (h : Tells (before ++ piece ++ rest) (before ++ piece).length items)
    (shows : Extent.Shows ⟨token, before.length, (before ++ piece).length⟩
      (before ++ piece ++ rest))
    (feeds : lineFeeds (before ++ piece ++ rest) before.length (before ++ piece).length =
      if token = .newLine then [before.length] else []) :
    Tells (before ++ piece ++ rest) before.length
      (.ok (token, ⟨.behind before, .behind (before ++ piece)⟩) :: items) := by
  obtain ⟨extents, reach, last, row, accounts, ends⟩ := h
  let x : Extent := ⟨token, before.length, (before ++ piece).length⟩
  have lt : x.first < x.stop := by
    show before.length < (before ++ piece).length
    rw [List.length_append]
    exact Nat.lt_add_of_pos_right (List.length_pos_iff.2 any)
  have item : x.item (before ++ piece ++ rest) =
      .ok (token, ⟨.behind before, .behind (before ++ piece)⟩) := by
    unfold Extent.item
    rw [placeAt_length (before ++ piece) rest, List.append_assoc,
      placeAt_length before (piece ++ rest)]
  refine ⟨x :: extents, reach, last, ?_, accounts.take lt shows feeds, ends⟩
  rw [List.map_cons, item, row, List.cons_append]

/-- The slice of the extent of a piece is that piece. -/
theorem slice_piece (token : Token) (before piece rest : List Char) :
    Extent.slice ⟨token, before.length, (before ++ piece).length⟩ (before ++ piece ++ rest) =
      piece := by
  unfold Extent.slice
  rw [List.take_left, List.drop_left]

theorem passed_of_blank {c : Char} (blank : Lexer.isBlank c = true) {i : Nat}
    (le : before.length ≤ i) (lt : i < (before ++ [c]).length) :
    Passed (before ++ [c] ++ rest) i := by
  obtain ⟨d, hd, e⟩ := getElem?_piece rest le lt
  rw [List.mem_singleton.1 hd] at e
  exact .inl ⟨c, e, blank⟩

theorem indented_nil : Indented [] :=
  ⟨[], [], rfl, (fun c hc => by cases hc), fun c hc => by cases hc⟩

theorem indented_newLine (before : List Char) : Indented (before ++ ['\n']) := by
  refine ⟨before ++ ['\n'], [], (List.append_nil _).symm, fun c hc => ?_, fun c hc => by cases hc⟩
  rw [List.getLast?_concat] at hc
  exact (Option.some.inj hc).symm

/-- What ends a word stands apart from the next one. -/
theorem apart_of_endsWord {c : Char} (ends : Lexer.endsWord c = true) :
    ∀ d ∈ (before ++ [c]).getLast?, Lexer.endsWord d = true := by
  intro d hd
  rw [List.getLast?_concat] at hd
  exact Option.some.inj hd ▸ ends

theorem Indented.blank {c : Char} (h : Indented before) (blank : Lexer.isBlank c = true) :
    Indented (before ++ [c]) := by
  obtain ⟨lines, indent, rfl, start, blanks⟩ := h
  refine ⟨lines, indent ++ [c], List.append_assoc _ _ _, start, ?_⟩
  rw [List.forall_mem_append, List.forall_mem_singleton]
  exact ⟨blanks, blank⟩

end Pieces

/-- A word is told by its token, or it ends the items. -/
theorem tells_word {before word rest : List Char} {items : List Item}
    (any : word ≠ []) (solid : ∀ c ∈ word, Lexer.endsWord c = false)
    (left : ∀ c ∈ before.getLast?, Lexer.endsWord c = true)
    (right : ∀ c ∈ rest.head?, Lexer.endsWord c = true)
    (h : Tells (before ++ word ++ rest) (before ++ word).length (untilError items)) :
    Tells (before ++ word ++ rest) before.length
      (untilError (Lexeme.item ⟨word, .behind before⟩ :: items)) := by
  let x : Lexeme := ⟨word, .behind before⟩
  have inside : '\n' ∉ word := fun h => Bool.noConfusion (solid _ h)
  have stands : WordAt (before ++ word ++ rest) before.length word :=
    ⟨before, rest, rfl, rfl, any, solid, left, right⟩
  have here : placeAt (before ++ word ++ rest) before.length = .behind before := by
    rw [List.append_assoc, placeAt_length]
  cases e : x.token? with
  -- the stretch ends here: the refused word is the last item, and what the induction says of
  -- the text behind it is not used
  | none =>
    rw [Lexeme.item_of_refused e]
    refine ⟨[], before.length, _, rfl, .nothing _ _, ?_⟩
    have ends := Ends.refused stands e
    rwa [here] at ends
  | some token =>
    have text : token.text.toList = word := by
      have classified := x.classified
      rw [e] at classified
      exact classified.text_eq
    have inner := Lexeme.not_endsLine e
    have other : token ≠ .newLine := fun same => inner (.inl same)
    rw [Lexeme.item_of_token? e]
    show Tells _ _ (.ok (token, ⟨.behind before, Position.right (.behind before) word.length⟩) :: _)
    rw [← Position.behind_append before inside]
    refine h.take any ?_ ?_
    · have shows : Extent.slice ⟨token, before.length, (before ++ word).length⟩
          (before ++ word ++ rest) = token.text.toList ∧
          WordAt (before ++ word ++ rest) before.length token.text.toList := by
        rw [text]
        exact ⟨slice_piece token before word rest, stands⟩
      cases token with
      | newLine => exact absurd rfl other
      | endMarker => exact absurd (.inr rfl) inner
      | name | word | define | pipe => exact shows
    · rw [if_neg other]
      exact lineFeeds_of_piece inside

/-- **The items of a text account for it.** The induction is on the lexing; the
characters before the present piece are those that were accounted for, and
where no token stands on the line yet, a comment may begin. -/
theorem Lexes.tells {place : Position} {seen : Bool} {text : List Char} {items : List Item}
    (lexes : Lexes place seen text items) {before : List Char} (here : place = .behind before)
    (clear : seen = false → AtLineEnd text ∨ Indented before)
    (apart : (∀ c ∈ before.getLast?, Lexer.endsWord c = true) ∨
      ∀ c ∈ text.head?, Lexer.endsWord c = true) :
    Tells (before ++ text) before.length (untilError items) := by
  induction lexes generalizing before with
  | stop place seen =>
    have whole : before.length = (before ++ []).length := by rw [List.append_nil]
    have ends : Ends (before ++ []) before.length _ := .endMarker whole
    rw [placeAt_length, ← here] at ends
    exact ⟨[], before.length, _, rfl, .nothing _ _, ends⟩
  | @newLine place seen text items _ ih =>
    have below := Position.behind_newLine before
    rw [← here] at below
    have others := ih below.symm (fun _ => .inr (indented_newLine before))
      (.inl (apart_of_endsWord rfl))
    rw [List.append_cons before '\n' text, untilError, ← below, here]
    refine others.take (List.cons_ne_nil _ _) (slice_piece .newLine before ['\n'] text) ?_
    rw [if_pos rfl]
    exact lineFeeds_of_newLine before text
  | @blank place seen c text items blank _ ih =>
    have ends := endsWord_of_isBlank blank
    have other : '\n' ∉ [c] := by
      rw [List.mem_singleton]
      rintro rfl
      exact absurd blank (by decide)
    -- a line that ends here would begin with a line feed
    have clear' : seen = false → AtLineEnd text ∨ Indented (before ++ [c]) := by
      intro unseen
      rcases clear unseen with lineEnd | indented
      · exact absurd (List.mem_singleton.2 (lineEnd c rfl).symm) other
      · exact .inr (indented.blank blank)
    have here' := Position.behind_append before other
    rw [← here] at here'
    have others := ih here'.symm clear' (.inl (apart_of_endsWord ends))
    rw [List.append_cons before c text]
    exact others.pass other fun i le lt => passed_of_blank blank le lt
  -- a comment begins only where no token precedes it, and the text does not end its line here
  | @comment place body text items inside ends _ ih =>
    have inside' : '\n' ∉ '#' :: body := by
      rw [List.mem_cons, not_or]
      exact ⟨by decide, inside⟩
    have indented : Indented before := by
      rcases clear rfl with lineEnd | indented
      · exact absurd (lineEnd '#' rfl) (by decide)
      · exact indented
    have here' := Position.behind_append before inside'
    rw [← here] at here'
    have others := ih here'.symm (fun _ => .inl ends) (.inr ends.endsWord)
    rw [← List.append_assoc]
    refine others.pass inside' fun i le lt => .inr ?_
    exact ⟨before, body, text, rfl, indented, inside, le, lt⟩
  -- the piece before ended a word, since otherwise the word would have begun earlier
  | @word place seen c rest text items inside begins size ends _ ih =>
    have inside' : '\n' ∉ c :: rest := fun h => Bool.noConfusion (inside _ h)
    have left : ∀ d ∈ before.getLast?, Lexer.endsWord d = true := by
      rcases apart with left | right
      · exact left
      · exact Bool.noConfusion ((inside c List.mem_cons_self).symm.trans (right c rfl))
    have here' := Position.behind_append before inside'
    rw [← here] at here'
    have others := ih here'.symm (fun seen => Bool.noConfusion seen) (.inr ends)
    rw [← List.append_assoc, here]
    exact tells_word (List.cons_ne_nil _ _) inside left ends others

/-! ## 6. The lexer of a text -/

/-- A character that was scanned is given back by one step to the left, and
there is a column to the left; only a line feed leads to the line before. -/
theorem Lexer.position_giveBack {l l' : Lexer} {c : Char} (h : l.scan = (.ok (some c), l')) :
    (c ≠ '\n' → 0 < l'.position.column) ∧
      (l.giveBack l').position =
        if c = '\n' then l.position else ⟨l'.position.line, l'.position.column - 1⟩ := by
  obtain ⟨w, -, rfl⟩ := scan_some_eq h
  by_cases newLine : c = '\n'
  · rw [if_pos newLine]
    exact ⟨fun other => absurd newLine other, rfl⟩
  · rw [if_neg newLine]
    dsimp only
    rw [Position.after_of_ne _ newLine]
    exact ⟨fun _ => Nat.succ_pos _, rfl⟩

/-- **The tokens of a text account for it.** However the bytes of a text are
delivered, if its words are shorter than a window, then the lexer gives tokens
with their places in the text and ends with the end marker, or at a refused
word. Up to there the tokens show the characters that they take, one behind the
other, and nothing but blanks and comments is left out. A column is given back
only where there is one. -/
theorem items_account_for_text (source : Source) (text : List Char) (flows : source.Flows)
    (bytes : source.events = (text.flatMap Utf8.encode).map .ok)
    (short : ∀ line ∈ linesOf text, ∀ x ∈ line.lexemes, Utf8.size x.text < 8192) :
    (∃ w extents reach last, Window.ofSource source = .ok w ∧
      (Lexer.ofWindow w).items.1 = extents.map (Extent.item · text) ++ [last] ∧
      Accounts text 0 reach extents ∧ Ends text reach last) ∧
    ∀ (l l' : Lexer) (c : Char), l.scan = (.ok (some c), l') →
      (c ≠ '\n' → 0 < l'.position.column) ∧
        (l.giveBack l').position =
          if c = '\n' then l.position else ⟨l'.position.line, l'.position.column - 1⟩ := by
  refine ⟨?_, fun l l' c h => Lexer.position_giveBack h⟩
  obtain ⟨w, e, scanned, awaits⟩ := Window.ofSource_of_text flows bytes
  have lexes := lexes_text short
  -- nothing is before the text, so the text itself is the stretch that is accounted for
  have start : (Lexer.ofWindow w).At [] text .start false := ⟨scanned, awaits, rfl, rfl, rfl⟩
  have none : ∀ c ∈ ([] : List Char).getLast?, Lexer.endsWord c = true := fun c hc => by cases hc
  have told : Tells ([] ++ text) ([] : List Char).length _ :=
    lexes.tells rfl (fun _ => .inr indented_nil) (.inl none)
  obtain ⟨extents, reach, last, row, accounts, ends⟩ := told
  refine ⟨w, extents, reach, last, e, ?_, accounts, ends⟩
  rw [Lexer.items_of_lexes lexes start]
  exact row

/-- Tokens beside blanks of each sort, a comment behind an indentation, and a
refused word behind the line feed that ends the comment. -/
def mixedText : List Char := "<a>\té#|\r\n # ::=\n <b".toList

/-- Reads and interruptions do not matter, and the words are short, as evaluation shows. -/
theorem items_account_for_text_refused :
    ∃ w extents reach last,
      Window.ofSource ⟨[.bytes (mixedText.flatMap Utf8.encode), .interruption], some 1⟩ = .ok w ∧
      (Lexer.ofWindow w).items.1 = extents.map (Extent.item · mixedText) ++ [last] ∧
      Accounts mixedText 0 reach extents ∧ Ends mixedText reach last := by
  refine (items_account_for_text _ mixedText ?_ ?_ ?_).1
  · intro h
    cases h
  · exact List.append_nil _
  · decide +kernel

end ChomskyForm.Bnf
