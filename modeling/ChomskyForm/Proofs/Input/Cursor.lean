/-
A window over a text is a cursor in the text.

A window holds a part of the bytes of its source, shifts them, reads on behind
them, and encodes again what is given back. Over a text that is delivered
without a failure none of that shows: a window answers like two positions in the
text, where the current token starts and where the next character is. What does
show is the capacity: a token and the character behind it have to fit.
-/
import ChomskyForm.Proofs.Input.Outlook

set_option autoImplicit false

namespace ChomskyForm

/-! ## 1. Cursors -/

/-- A current token in a text: the characters from `start` up to `front`. -/
structure Cursor (text : List Char) where
  start : Nat
  front : Nat
  ordered : start ≤ front
  within : front ≤ text.length

namespace Cursor

variable {text : List Char}

/-- The cursor before the first character, with no token yet. -/
def ofText (text : List Char) : Cursor text := ⟨0, 0, Nat.le_refl 0, Nat.zero_le _⟩

/-- The characters of the current token. -/
def token (c : Cursor text) : List Char := (text.take c.front).drop c.start

/-- The cursor behind the next character. -/
def advance (c : Cursor text) (more : c.front < text.length) : Cursor text :=
  ⟨c.start, c.front + 1, Nat.le_succ_of_le c.ordered, more⟩

/-- The cursor before the last character of the token. -/
def retreat (c : Cursor text) (any : c.start < c.front) : Cursor text :=
  ⟨c.start, c.front - 1, Nat.le_sub_one_of_lt any, Nat.le_trans (Nat.sub_le _ _) c.within⟩

theorem last_lt (c : Cursor text) (any : c.start < c.front) : c.front - 1 < text.length :=
  Nat.lt_of_lt_of_le (Nat.sub_one_lt_of_lt any) c.within

/-- The next character, if it fits into a window together with the token. At the
end of the text there is none, and a token that fills a window is too long to
find that out. -/
def scan (c : Cursor text) : Except ReadError (Option Char) × Cursor text :=
  if more : c.front < text.length then
    if Utf8.size c.token + text[c.front].utf8Size ≤ Window.capacity then
      (.ok (some text[c.front]), c.advance more)
    else (.error .tokenTooLong, c)
  else if Utf8.size c.token < Window.capacity then (.ok none, c)
  else (.error .tokenTooLong, c)

/-- The last character of the token, if it has any. -/
def back (c : Cursor text) : Option Char × Cursor text :=
  if any : c.start < c.front then
    have less : c.front - 1 < text.length := c.last_lt any
    (some text[c.front - 1], c.retreat any)
  else (none, c)

/-- The token; the next one starts behind it. -/
def pop (c : Cursor text) : String × Cursor text :=
  (String.ofList c.token, ⟨c.front, c.front, Nat.le_refl _, c.within⟩)

/-- What a step answers, and the cursor after it. -/
def perform (c : Cursor text) : Window.Step → Window.Answer × Cursor text
  | .scan => (.scanned c.scan.1, c.scan.2)
  | .back => (.gaveBack c.back.1, c.back.2)
  | .pop => (.popped c.pop.1, c.pop.2)

/-- The answers to a row of steps. -/
def answers (c : Cursor text) : List Window.Step → List Window.Answer
  | [] => []
  | step :: rest => (c.perform step).1 :: (c.perform step).2.answers rest

/-- A cursor that moves on has one character more in its token. -/
theorem token_advance (c : Cursor text) (more : c.front < text.length) :
    (c.advance more).token = c.token ++ [text[c.front]] := by
  have taken : c.start ≤ (text.take c.front).length := by
    rw [List.length_take, Nat.min_eq_left c.within]
    exact c.ordered
  show (text.take (c.front + 1)).drop c.start = _
  rw [List.take_succ_eq_append_getElem more, List.drop_append_of_le_length taken]
  rfl

/-- A cursor that has a token is behind the last character of it. -/
theorem token_retreat (c : Cursor text) (any : c.start < c.front)
    (less : c.front - 1 < text.length) :
    c.token = (c.retreat any).token ++ [text[c.front - 1]] := by
  refine Eq.trans ?_ ((c.retreat any).token_advance less)
  show _ = (text.take (c.front - 1 + 1)).drop c.start
  rw [Nat.sub_add_cancel (Nat.one_le_of_lt any)]
  rfl

/-- A token that starts at the front is empty. -/
theorem token_of_start_eq {c : Cursor text} (h : c.start = c.front) : c.token = [] := by
  refine List.drop_eq_nil_of_le ?_
  rw [List.length_take, h]
  exact Nat.min_le_left _ _

end Cursor

/-! ## 2. Scanning with a full window -/

namespace Window

variable {w : Window}

/-- Where more is needed than there is room for, and there would be enough to
fill the room, filling fails. -/
theorem Sound.fill_of_full {need : Nat} {bytes : List UInt8} (h : w.Sound)
    (row : w.upcoming = bytes.map .ok) (tight : capacity < Utf8.size w.scanned + need)
    (full : capacity ≤ Utf8.size w.scanned + bytes.length) :
    ∃ w', w.fill need = (.error .tokenTooLong, w') ∧ ReadOn w w' := by
  have split : splitFault w.upcoming = (bytes, []) := by
    rw [row]
    exact splitFault_bytes bytes
  have spec := h.fill_eq need
  have refused : w.outlook.fill need = (.error .tokenTooLong, w.outlook) :=
    Outlook.fill_of_full split (fun enough => absurd enough.2 (Nat.not_le.2 tight)) full
  rw [refused, Prod.mk.injEq] at spec
  exact ⟨_, Prod.ext spec.1 rfl, congrArg Outlook.scanned spec.2,
    congrArg Outlook.upcoming spec.2, fun _ => (h.fill need).flows⟩

/-- A token that fills the window does not let the end be found. -/
theorem scan_of_nil_of_full (h : w.Sound) (awaits : w.Awaits [])
    (full : capacity ≤ Utf8.size w.scanned) :
    ∃ w', w.scan = (.error .tokenTooLong, w') ∧ ReadOn w w' := by
  have tight : capacity < Utf8.size w.scanned + 1 := Nat.lt_succ_of_le full
  obtain ⟨w', e, on⟩ := h.fill_of_full awaits.upcoming tight full
  unfold scan
  rw [e]
  exact ⟨w', rfl, on⟩

/-- A character that does not fit behind the token is refused, be it that its
first byte has no room or a later one. -/
theorem scan_of_cons_of_full {c : Char} {text : List Char} (h : w.Sound)
    (awaits : w.Awaits (c :: text))
    (tight : capacity < Utf8.size w.scanned + c.utf8Size) :
    ∃ w', w.scan = (.error .tokenTooLong, w') ∧ ReadOn w w' := by
  have long : c.utf8Size ≤ ((c :: text).flatMap Utf8.encode).length := by
    rw [List.flatMap_cons, List.length_append, Utf8.length_encode]
    exact Nat.le_add_right _ _
  have full : capacity ≤ Utf8.size w.scanned + ((c :: text).flatMap Utf8.encode).length := by
    omega
  unfold scan
  -- the first byte has room or it has not
  by_cases room : Utf8.size w.scanned + 1 ≤ capacity
  · have any : 1 ≤ ((c :: text).flatMap Utf8.encode).length := Nat.le_trans c.utf8Size_pos long
    obtain ⟨w₁, e₁, on₁⟩ := fill_of_bytes 1 awaits.flows awaits.upcoming room
    rw [decide_eq_true any] at e₁
    have sound₁ := h.fill 1
    rw [e₁] at sound₁
    have awaits₁ := on₁.awaits awaits
    rw [← on₁.scanned] at tight full
    obtain ⟨w₂, e₂, on₂⟩ := sound₁.fill_of_full awaits₁.upcoming tight full
    simp only [e₁, width?_head?_ahead awaits₁.upcoming (le_length_ahead_fill e₁), e₂]
    exact ⟨w₂, rfl, on₁.trans on₂⟩
  · obtain ⟨w', e, on⟩ := h.fill_of_full awaits.upcoming (Nat.lt_of_not_le room) full
    rw [e]
    exact ⟨w', rfl, on⟩

end Window

/-! ## 3. A window follows a cursor -/

namespace Window

variable {text : List Char} {w : Window} {c : Cursor text}

/-- A window over a text that stands where a cursor does. -/
structure Tracks (w : Window) (c : Cursor text) : Prop where
  scanned : w.scanned = c.token.reverse
  awaits : w.Awaits (text.drop c.front)
  sound : w.Sound

/-- The tokens of the two are of the same size. -/
theorem Tracks.size_scanned (h : w.Tracks c) : Utf8.size w.scanned = Utf8.size c.token := by
  rw [h.scanned, Utf8.size_reverse]

/-- A window that only read on stands where it stood. -/
theorem Tracks.readOn {w' : Window} (h : w.Tracks c) (on : ReadOn w w') (sound : w'.Sound) :
    w'.Tracks c :=
  ⟨on.scanned.trans h.scanned, on.awaits h.awaits, sound⟩

/-- A scan finds the next character of the text, or the end, or no room, and the cursor
says which. -/
theorem Tracks.scan (h : w.Tracks c) : Agree Tracks w.scan c.scan := by
  have sound := h.sound.scan
  have awaits := h.awaits
  unfold Cursor.scan
  by_cases more : c.front < text.length
  · rw [dif_pos more]
    rw [List.drop_eq_getElem_cons more] at awaits
    by_cases room : Utf8.size c.token + text[c.front].utf8Size ≤ capacity
    · rw [if_pos room]
      rw [← h.size_scanned] at room
      obtain ⟨w', e, scanned, behind⟩ := scan_of_cons awaits room
      rw [e] at sound ⊢
      refine ⟨rfl, ?_, behind, sound⟩
      rw [scanned, h.scanned, Cursor.token_advance, List.reverse_concat]
    · rw [if_neg room]
      rw [← h.size_scanned] at room
      obtain ⟨w', e, on⟩ := scan_of_cons_of_full h.sound awaits (Nat.lt_of_not_le room)
      rw [e] at sound ⊢
      exact ⟨rfl, h.readOn on sound⟩
  · rw [dif_neg more]
    rw [List.drop_eq_nil_of_le (Nat.le_of_not_lt more)] at awaits
    by_cases room : Utf8.size c.token < capacity
    · rw [if_pos room]
      rw [← h.size_scanned] at room
      obtain ⟨w', e, scanned, behind⟩ := scan_of_nil awaits room
      rw [e] at sound ⊢
      refine ⟨rfl, scanned.trans h.scanned, ?_, sound⟩
      rwa [List.drop_eq_nil_of_le (Nat.le_of_not_lt more)]
    · rw [if_neg room]
      rw [← h.size_scanned] at room
      obtain ⟨w', e, on⟩ := scan_of_nil_of_full h.sound awaits (Nat.le_of_not_lt room)
      rw [e] at sound ⊢
      exact ⟨rfl, h.readOn on sound⟩

/-- What is given back is the character before the front. -/
theorem Tracks.back (h : w.Tracks c) : Agree Tracks w.back c.back := by
  have sound := h.sound.back
  have scanned := h.scanned
  unfold Cursor.back
  by_cases any : c.start < c.front
  · rw [dif_pos any]
    have less := c.last_lt any
    -- the character given back is the first of what is awaited then
    have next : text.drop (c.front - 1) = text[c.front - 1] :: text.drop c.front := by
      rw [List.drop_eq_getElem_cons less, Nat.sub_add_cancel (Nat.one_le_of_lt any)]
    rw [c.token_retreat any less, List.reverse_concat] at scanned
    obtain ⟨before, behind⟩ := back_of_cons h.awaits scanned
    rw [← next] at behind
    refine ⟨?_, before, behind, sound⟩
    unfold Window.back
    rw [scanned]
  · have empty : c.start = c.front := Nat.le_antisymm c.ordered (Nat.le_of_not_lt any)
    rw [dif_neg any]
    rw [Cursor.token_of_start_eq empty] at scanned
    have stays : w.back = (none, w) := by
      unfold Window.back
      rw [scanned]
      rfl
    rw [stays]
    exact ⟨rfl, h⟩

/-- Both start a new token where they stand. -/
theorem Tracks.pop (h : w.Tracks c) : Agree Tracks w.pop c.pop := by
  have emptied : c.pop.2.token = [] := Cursor.token_of_start_eq rfl
  refine ⟨?_, ?_, ⟨h.awaits.upcoming, h.awaits.flows⟩, h.sound.pop⟩
  · show String.ofList w.scanned.reverse = String.ofList c.token
    rw [h.scanned, List.reverse_reverse]
  · rw [emptied]
    rfl

/-- No step takes the window away from where the cursor is. -/
theorem Tracks.perform (h : w.Tracks c) (step : Step) :
    Agree Tracks (w.perform step) (c.perform step) := by
  cases step with
  | scan => exact ⟨congrArg Answer.scanned h.scan.answer, h.scan.state⟩
  | back => exact ⟨congrArg Answer.gaveBack h.back.answer, h.back.state⟩
  | pop => exact ⟨congrArg Answer.popped h.pop.answer, h.pop.state⟩

/-- By induction on the steps: a window answers as the cursor does where it stands. -/
theorem Tracks.answers_eq (h : w.Tracks c) (steps : List Step) :
    w.answers steps = c.answers steps := by
  induction steps generalizing w c with
  | nil => rfl
  | cons step rest ih =>
    rw [answers, Cursor.answers, (h.perform step).answer, ih (h.perform step).state]

/-- **A window over a text is a cursor in it**, however the text is delivered. -/
theorem answers_eq_cursor {source : Source} (flows : source.Flows)
    (delivered : source.events = (text.flatMap Utf8.encode).map .ok) :
    ∃ w, ofSource source = .ok w ∧
      (∀ steps, w.answers steps = (Cursor.ofText text).answers steps) ∧
      ReadError.tokenTooLong.message = "token longer than 8192 bytes" := by
  obtain ⟨w, started, scanned, awaits⟩ := ofSource_of_text flows delivered
  have sound : w.Sound := ⟨fits_of_ofSource started, awaits.flows⟩
  have start : w.Tracks (Cursor.ofText text) := ⟨scanned, awaits, sound⟩
  exact ⟨w, started, start.answers_eq, rfl⟩

/-- A delivery that cuts a character in two, with an interruption in between. -/
def cutDelivery : Source := ⟨[.bytes [0x61, 0xE2, 0x86], .interruption, .bytes [0x92]], some 2⟩

/-- The cuts of the delivery do not show. -/
theorem answers_eq_cursor_cut :
    cutDelivery.Flows ∧ cutDelivery.events = (['a', '→'].flatMap Utf8.encode).map .ok ∧
      ∃ w, ofSource cutDelivery = .ok w ∧
        (∀ steps, w.answers steps = (Cursor.ofText ['a', '→']).answers steps) ∧
        ReadError.tokenTooLong.message = "token longer than 8192 bytes" :=
  have flows : cutDelivery.Flows := fun h => by cases h
  have delivered : cutDelivery.events = (['a', '→'].flatMap Utf8.encode).map .ok := by
    decide +kernel
  ⟨flows, delivered, answers_eq_cursor flows delivered⟩

example :
    (Cursor.ofText ['a', '→']).answers [.scan, .scan, .back, .pop, .back, .scan, .scan, .pop] =
      [.scanned (.ok (some 'a')), .scanned (.ok (some '→')), .gaveBack (some '→'), .popped "a",
        .gaveBack none, .scanned (.ok (some '→')), .scanned (.ok none), .popped "→"] := by
  decide +kernel

end Window

end ChomskyForm
