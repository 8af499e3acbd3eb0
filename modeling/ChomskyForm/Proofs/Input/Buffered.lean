/-
A buffer does what a window does.

A buffer holds a window when the bytes between its places are those of the
window: from the start of the token up to the front its characters, and from
there on what was read ahead. It takes its bytes out of a memory without asking
whether they are there. That they are is what the places say, so an operation on
a buffer that holds a window has a result: the answer of the window, and a buffer
that holds what is left of it.
-/
import ChomskyForm.Proofs.Input.Memory
import ChomskyForm.Proofs.Input.Outlook

set_option autoImplicit false

namespace ChomskyForm

namespace Window

/-- The bytes of the current token. -/
def token (w : Window) : List UInt8 := w.scanned.reverse.flatMap Utf8.encode

/-- The token has as many bytes as its characters. -/
theorem length_token (w : Window) : w.token.length = Utf8.size w.scanned := by
  rw [token, Utf8.length_flatMap_encode, Utf8.size_reverse]

/-- Reading on leaves what is ahead in front. -/
theorem ahead_isPrefix_load (w : Window) : w.ahead <+: w.load.2.ahead := by
  unfold load
  split
  · exact List.prefix_rfl
  split
  · exact List.prefix_rfl
  split
  · exact List.prefix_append _ _
  · exact List.prefix_rfl
  · exact List.prefix_rfl

theorem ahead_isPrefix_fill (need : Nat) (w : Window) : w.ahead <+: (w.fill need).2.ahead :=
  fill_preserves (P := fun w' => w.ahead <+: w'.ahead)
    (fun w' front => front.trans w'.ahead_isPrefix_load) need List.prefix_rfl

/-- Filling does not touch the byte in front. -/
theorem head?_ahead_fill {need : Nat} {w w' : Window} {found : Except ReadError Bool}
    (any : 1 ≤ w.ahead.length) (e : w.fill need = (found, w')) :
    w'.ahead.head? = w.ahead.head? := by
  have front := w.ahead_isPrefix_fill need
  rw [e] at front
  exact (head?_eq_of_isPrefix front any).symm

end Window

namespace Buffer

/-! ## 1. Buffers that hold a window -/

/-- The bytes of a window lie in a buffer, between its places. -/
structure Holds (b : Buffer) (w : Window) : Prop where
  start_le : b.start ≤ b.front
  front_le : b.front ≤ b.stop
  stop_le : b.stop ≤ Window.capacity
  token : b.memory.between b.start b.front = w.token
  ahead : b.memory.between b.front b.stop = w.ahead
  ended : b.ended = w.ended
  source : b.source = w.source
  reads : b.reads = w.reads

variable {b : Buffer} {w : Window}

/-- The front is as far behind the start as the token is long. -/
theorem Holds.front_eq (h : b.Holds w) : b.front = b.start + w.token.length := by
  have length := b.memory.length_between h.start_le (Nat.le_trans h.front_le h.stop_le)
  have order := h.start_le
  rw [h.token] at length
  omega

/-- The stop is as far behind the front as bytes are ahead. -/
theorem Holds.stop_eq (h : b.Holds w) : b.stop = b.front + w.ahead.length := by
  have length := b.memory.length_between h.front_le h.stop_le
  have order := h.front_le
  rw [h.ahead] at length
  omega

/-- The token and the bytes ahead are what the window holds. -/
theorem Holds.stop_eq_held (h : b.Holds w) : b.stop = b.start + w.held := by
  rw [h.stop_eq, h.front_eq, w.length_token, Window.held, Nat.add_assoc]

/-- From start to stop lie the bytes of the token and those ahead. -/
theorem Holds.between (h : b.Holds w) : b.memory.between b.start b.stop = w.token ++ w.ahead := by
  rw [← b.memory.between_append h.start_le h.front_le, h.token, h.ahead]

/-- A computation on buffers has a result. It is that of a computation on windows,
and the buffer that is left holds the window that is left. -/
def Follows {α : Type} (x : Option (α × Buffer)) (y : α × Window) : Prop :=
  ∃ b, x = some (y.1, b) ∧ b.Holds y.2

/-! ## 2. Reading on -/

/-- The bytes that a buffer holds can be moved to the front of its memory. -/
theorem Holds.shift? (h : b.Holds w) : ∃ b', b.shift? = some b' ∧ b'.Holds w ∧ b'.start = 0 := by
  by_cases first : b.start = 0
  · exact ⟨b, if_pos first, h, first⟩
  have start_le := h.start_le
  have front_le := h.front_le
  have stop_le := h.stop_le
  have length := b.memory.length_between (Nat.le_trans start_le front_le) stop_le
  obtain ⟨m, written, -, copied⟩ :=
    b.memory.write?_spec 0 (b.memory.between b.start b.stop) (by omega)
  simp only [Nat.zero_add] at copied
  refine ⟨{ b with
    memory := m, start := 0, front := b.front - b.start, stop := b.stop - b.start }, ?_, ?_, rfl⟩
  · -- all places are in order, so the copy and both distances have a result
    unfold Buffer.shift?
    rw [if_neg first, b.memory.slice?_eq (Nat.le_trans start_le front_le) stop_le]
    simp only [Option.bind_eq_bind, Option.bind_some, written]
    rw [distance?, if_pos start_le, distance?, if_pos (Nat.le_trans start_le front_le)]
    rfl
  · refine ⟨Nat.zero_le _, by dsimp only; omega, by dsimp only; omega, ?_, ?_, h.ended, h.source,
      h.reads⟩
    · dsimp only
      rw [copied 0 _ (by omega), List.drop_zero, b.memory.take_between (by omega), ← h.token]
      congr 1
      omega
    · dsimp only
      rw [copied _ _ (by omega), b.memory.drop_between, b.memory.take_between (by omega), ← h.ahead]
      congr 1 <;> omega

/-- **A buffer loads as its window does.** The shift comes first; it makes the space of
the read, which is what the window has free. -/
theorem Holds.load (h : b.Holds w) : Follows b.load w.load := by
  unfold Buffer.load Window.load
  by_cases ended : w.ended = true
  · rw [if_pos (h.ended.trans ended), if_pos ended]
    exact ⟨b, rfl, h⟩
  rw [if_neg (by rwa [h.ended]), if_neg ended]
  obtain ⟨moved, shifted, holds, first⟩ := h.shift?
  have stop_eq : w.held = moved.stop := by rw [holds.stop_eq_held, first, Nat.zero_add]
  have stop_le := holds.stop_le
  have order := holds.front_le
  rw [shifted, Option.bind_eq_bind, Option.bind_some, stop_eq]
  by_cases full : moved.stop = Window.capacity
  · rw [if_pos full, if_pos (Nat.le_of_eq full.symm)]
    exact ⟨moved, rfl, holds⟩
  rw [if_neg full, if_neg (by omega), distance?, if_pos stop_le, holds.source]
  simp only [Option.bind_eq_bind, Option.bind_some]
  cases e : w.source.read (Window.capacity - moved.stop) with
  | finished rest => exact ⟨_, rfl, { holds with ended := rfl, source := rfl }⟩
  | fault cause rest => exact ⟨_, rfl, { holds with source := rfl }⟩
  | bytes content rest =>
    have le := Source.length_read_le e
    obtain ⟨m, written, kept, added⟩ :=
      moved.memory.write?_spec moved.stop content (by omega)
    have behind := added 0 content.length (Nat.le_refl _)
    rw [Nat.add_zero, List.drop_zero, Nat.sub_zero, List.take_length] at behind
    simp only [written, Option.bind_some]
    -- what was held is in front of the place that was written to
    refine ⟨_, rfl, ⟨holds.start_le, Nat.le_add_right_of_le order, by dsimp only; omega, ?_, ?_,
      holds.ended, rfl, congrArg _ holds.reads⟩⟩
    · -- the token lies in front of the place, and so do the bytes that were ahead
      rw [kept _ _ order]
      exact holds.token
    · rw [← m.between_append order (Nat.le_add_right _ _), kept _ _ (Nat.le_refl _), behind,
        holds.ahead]

/-- Where too little is held, to fill is to load and to go on. -/
theorem Holds.fill_of_few (h : b.Holds w) {width : Nat}
    (few : ¬ Window.hasAtLeast width w.ahead = true) :
    b.fill width = match b.load with
      | some (.ok true, b') => fill width b'
      | other => other := by
  have stop_eq := h.stop_eq
  rw [Window.hasAtLeast_iff] at few
  rw [Buffer.fill.eq_def, if_pos (by omega)]
  -- the two matches differ only in that one of them keeps what it matched
  split
  · rename_i loaded
    rw [loaded]
  · rename_i differs
    split
    · rename_i b' loaded
      exact (differs b' loaded).elim
    · rfl

/-- A buffer fills as its window does, load by load. -/
theorem Holds.fill (h : b.Holds w) (width : Nat) : Follows (b.fill width) (w.fill width) := by
  fun_induction Window.fill width w generalizing b with
  | case1 w enough =>
    have stop_eq := h.stop_eq
    have enough := (Window.hasAtLeast_iff _ _).1 enough
    rw [Buffer.fill.eq_def, if_neg (by omega)]
    exact ⟨b, rfl, h⟩
  | case2 w few w' e ih =>
    obtain ⟨b', loaded, holds⟩ := h.load
    rw [e] at loaded holds
    rw [h.fill_of_few few, loaded]
    exact ih holds
  | case3 w few w' e =>
    obtain ⟨b', loaded, holds⟩ := h.load
    rw [e] at loaded holds
    rw [h.fill_of_few few, loaded]
    exact ⟨b', rfl, holds⟩
  | case4 w few cause w' e =>
    obtain ⟨b', loaded, holds⟩ := h.load
    rw [e] at loaded holds
    rw [h.fill_of_few few, loaded]
    exact ⟨b', rfl, holds⟩

/-- A buffer loads before it scans when nothing is ahead, which is when a byte is
needed. -/
theorem Holds.await (h : b.Holds w) : Follows b.await (w.fill 1) := by
  have stop_eq := h.stop_eq
  unfold Buffer.await
  by_cases nothing : w.ahead = []
  · rw [Window.fill_one_eq_load nothing, if_pos (by rw [stop_eq, nothing]; rfl)]
    exact h.load
  · have any : 1 ≤ w.ahead.length := List.length_pos_iff.2 nothing
    rw [Window.fill, if_pos ((Window.hasAtLeast_iff _ _).2 any), if_neg (by omega)]
    exact ⟨b, rfl, h⟩

/-! ## 3. Scanning, giving back and taking out -/

/-- The text of as many bytes as the first one announces is a character. -/
theorem text?_of_width {bytes : List UInt8} {width : Nat} (enough : width ≤ bytes.length)
    (announced : bytes.head?.bind Utf8.width? = some width) :
    Utf8.text? (bytes.take width) = (Utf8.decode? (bytes.take width)).map fun c => [c] := by
  apply Utf8.text?_of_announced
  cases bytes with
  | nil => cases announced
  | cons first more =>
    have pos := Utf8.width?_pos announced
    rw [List.length_take, Nat.min_eq_left enough, ← announced, List.head?_take, if_neg (by omega)]

theorem Holds.byte?_front (h : b.Holds w) {first : UInt8} {more : List UInt8}
    (e : w.ahead = first :: more) : b.memory.byte? b.front = some first := by
  have stop_eq := h.stop_eq
  rw [e, List.length_cons] at stop_eq
  have byte := b.memory.byte?_eq (b := b.stop) b.front 0 (by omega)
  rw [h.ahead, e] at byte
  exact byte

/-- Bytes that are ahead lie behind the front. -/
theorem Holds.between_front (h : b.Holds w) {width : Nat} (enough : width ≤ w.ahead.length) :
    b.memory.between b.front (b.front + width) = w.ahead.take width := by
  have stop_eq := h.stop_eq
  rw [← h.ahead, b.memory.take_between (by omega)]

/-- As many as are ahead may be asked for. -/
theorem Holds.slice?_front (h : b.Holds w) {width : Nat} (enough : width ≤ w.ahead.length) :
    b.memory.slice? b.front (b.front + width) = some (w.ahead.take width) := by
  have stop_eq := h.stop_eq
  have stop_le := h.stop_le
  rw [b.memory.slice?_eq (Nat.le_add_right _ _) (by omega), h.between_front enough]

/-- The bytes of a character that are ahead can be taken into the token. -/
theorem Holds.accept (h : b.Holds w) {c : Char} {width : Nat} (enough : width ≤ w.ahead.length)
    (decoded : Utf8.decode? (w.ahead.take width) = some c) :
    Holds { b with front := b.front + width }
      { w with scanned := c :: w.scanned, ahead := w.ahead.drop width } := by
  have start_le := h.start_le
  have stop_eq := h.stop_eq
  refine { h with
    start_le := Nat.le_add_right_of_le start_le, front_le := by dsimp only; omega,
    token := ?_, ahead := ?_ }
  · dsimp only
    rw [← b.memory.between_append start_le (Nat.le_add_right _ _), h.token, h.between_front enough,
      ← Utf8.encode_of_decode? decoded]
    simp [Window.token]
  · dsimp only
    rw [← b.memory.drop_between, h.ahead]

/-- **A buffer scans as its window does.** -/
theorem Holds.scan (h : b.Holds w) : Follows b.scan w.scan := by
  obtain ⟨b₁, awaited, holds₁⟩ := h.await
  unfold Buffer.scan Window.scan
  rw [awaited, Option.bind_eq_bind, Option.bind_some]
  cases e₁ : w.fill 1 with
  | mk found w₁ =>
  rw [e₁] at holds₁
  rcases found with cause | _ | _
  · exact ⟨b₁, rfl, holds₁⟩
  · exact ⟨b₁, rfl, holds₁⟩
  · -- a byte is ahead, so the look at the front has a result
    have any : 1 ≤ w₁.ahead.length := Window.le_length_ahead_fill e₁
    cases ahead : w₁.ahead with
    | nil =>
      rw [ahead] at any
      cases any
    | cons first more =>
    simp only [holds₁.byte?_front ahead, ahead, List.head?_cons, Option.bind_eq_bind,
      Option.bind_some]
    cases announced : Utf8.width? first with
    | none => exact ⟨b₁, rfl, holds₁⟩
    | some width =>
      obtain ⟨b₂, filled, holds₂⟩ := holds₁.fill width
      simp only [filled, Option.bind_some]
      cases e₂ : w₁.fill width with
      | mk found w₂ =>
      rw [e₂] at holds₂
      rcases found with cause | _ | _
      · exact ⟨b₂, rfl, holds₂⟩
      · exact ⟨b₂, rfl, holds₂⟩
      · have enough : width ≤ w₂.ahead.length := Window.le_length_ahead_fill e₂
        -- the second filling left the first byte where it was, and so its announcement
        have announced : w₂.ahead.head?.bind Utf8.width? = some width := by
          rw [Window.head?_ahead_fill any e₂, ahead]
          exact announced
        simp only [holds₂.slice?_front enough, Option.bind_some, text?_of_width enough announced]
        cases decoded : Utf8.decode? (w₂.ahead.take width) with
        | none => exact ⟨b₂, rfl, holds₂⟩
        | some c => exact ⟨_, rfl, holds₂.accept enough decoded⟩

/-- The last character of the token lies in front of the front. -/
theorem Holds.last (h : b.Holds w) {c : Char} {rest : List Char} (e : w.scanned = c :: rest) :
    b.start + c.utf8Size ≤ b.front ∧
      b.memory.between b.start (b.front - c.utf8Size) = rest.reverse.flatMap Utf8.encode ∧
      b.memory.between (b.front - c.utf8Size) b.front = Utf8.encode c := by
  have token : w.token = rest.reverse.flatMap Utf8.encode ++ Utf8.encode c := by
    simp [Window.token, e]
  have front_eq := h.front_eq
  rw [token, List.length_append, Utf8.length_encode] at front_eq
  have place : b.front - c.utf8Size = b.start + (rest.reverse.flatMap Utf8.encode).length := by
    omega
  refine ⟨by omega, ?_, ?_⟩
  · rw [place, ← b.memory.take_between (c := b.front) (by omega), h.token, token, List.take_left]
  · rw [place, ← b.memory.drop_between, h.token, token, List.drop_left]

theorem Holds.back_of_nil (h : b.Holds w) (e : w.scanned = []) : b.back = some (none, b) := by
  have front_eq : b.front = b.start := by
    rw [h.front_eq, Window.token, e]
    rfl
  exact if_pos front_eq

/-- The last character of a token that has one is given back whole. -/
theorem Holds.back_of_cons (h : b.Holds w) {c : Char} {rest : List Char}
    (e : w.scanned = c :: rest) :
    b.back = some (some c, { b with front := b.front - c.utf8Size }) := by
  have front_le := h.front_le
  have stop_le := h.stop_le
  have pos := c.utf8Size_pos
  obtain ⟨start_le, -, last⟩ := h.last e
  obtain ⟨first, more, bytes, starts, goesOn⟩ := Utf8.encode_eq_cons c
  have size : more.length + 1 = c.utf8Size := by
    rw [← Utf8.length_encode, bytes]
    rfl
  -- the last character is found from its last byte back
  have found : b.memory.characterStart? b.start (b.front - 1) = some (b.front - c.utf8Size) := by
    have front_eq : b.front - 1 = b.front - c.utf8Size + more.length := by omega
    have row : b.memory.between (b.front - c.utf8Size) (b.front - c.utf8Size + (more.length + 1)) =
        first :: more := by
      rw [size, Nat.sub_add_cancel (by omega), last, bytes]
    rw [front_eq]
    exact b.memory.characterStart?_eq (by omega) (by omega) row starts goesOn _ (Nat.le_refl _)
  have character : Utf8.text? (Utf8.encode c) = some [c] := by
    simpa using Utf8.text?_flatMap_encode [c]
  unfold Buffer.back
  rw [if_neg (by omega), distance?, if_pos (by omega)]
  simp only [found, Option.bind_eq_bind, Option.bind_some]
  rw [b.memory.slice?_eq (by omega) (by omega), last, Option.bind_some, character]
  rfl

/-- **A buffer gives back as its window does.** Its front moves back; the window encodes
the character into the same bytes. -/
theorem Holds.back (h : b.Holds w) : Follows b.back w.back := by
  unfold Window.back
  cases e : w.scanned with
  | nil => exact ⟨b, h.back_of_nil e, h⟩
  | cons c rest =>
    have front_le := h.front_le
    obtain ⟨start_le, before, last⟩ := h.last e
    refine ⟨_, h.back_of_cons e, { h with
      start_le := by dsimp only; omega, front_le := by dsimp only; omega, token := before,
      ahead := ?_ }⟩
    dsimp only
    rw [← b.memory.between_append (b := b.front) (by omega) front_le, last, h.ahead]

/-- The token is popped as it is: nothing in it is replaced. -/
theorem Holds.pop_eq (h : b.Holds w) :
    b.pop = some (String.ofList w.scanned.reverse, { b with start := b.front }) := by
  have inside : b.front ≤ Window.capacity := Nat.le_trans h.front_le h.stop_le
  unfold Buffer.pop
  rw [b.memory.slice?_eq h.start_le inside, h.token, Option.bind_eq_bind, Option.bind_some,
    Window.token, Utf8.lossyText_flatMap_encode]
  rfl

/-- **A buffer pops as its window does.** The token is a text, so nothing of it is
replaced. -/
theorem Holds.pop (h : b.Holds w) : Follows b.pop w.pop := by
  refine ⟨_, h.pop_eq, { h with start_le := Nat.le_refl _, token := ?_ }⟩
  dsimp only
  rw [Memory.between, Nat.sub_self]
  rfl

/-! ## 4. Rows of steps -/

/-- Takes a step. -/
def perform (b : Buffer) : Window.Step → Option (Window.Answer × Buffer)
  | .scan => b.scan.map fun (found, b) => (.scanned found, b)
  | .back => b.back.map fun (c, b) => (.gaveBack c, b)
  | .pop => b.pop.map fun (text, b) => (.popped text, b)

/-- The answers to a row of steps, and the buffer after it. -/
def run (b : Buffer) : List Window.Step → Option (List Window.Answer × Buffer)
  | [] => some ([], b)
  | step :: rest => do
    let (answer, b) ← b.perform step
    let (answers, b) ← b.run rest
    return (answer :: answers, b)

/-- Whatever step is asked for, the buffer takes it as its window does. -/
theorem Holds.perform (h : b.Holds w) (step : Window.Step) :
    Follows (b.perform step) (w.perform step) := by
  cases step with
  | scan =>
    obtain ⟨b', done, holds⟩ := h.scan
    exact ⟨b', by rw [Buffer.perform, done]; rfl, holds⟩
  | back =>
    obtain ⟨b', done, holds⟩ := h.back
    exact ⟨b', by rw [Buffer.perform, done]; rfl, holds⟩
  | pop =>
    obtain ⟨b', done, holds⟩ := h.pop
    exact ⟨b', by rw [Buffer.perform, done]; rfl, holds⟩

/-- **A buffer answers to every row of steps what the window that it holds
does.** -/
theorem Holds.run (h : b.Holds w) (steps : List Window.Step) :
    Follows (b.run steps) (w.answers steps, w.after steps) := by
  induction steps generalizing b w with
  | nil => exact ⟨b, rfl, h⟩
  | cons step rest ih =>
    obtain ⟨b₁, done, holds⟩ := h.perform step
    obtain ⟨b₂, others, holds₂⟩ := ih holds
    refine ⟨b₂, ?_, holds₂⟩
    simp only [Buffer.run, done, others, Option.bind_eq_bind, Option.bind_some]
    rfl

/-- A buffer that nothing was read into holds a window that nothing was read
into. -/
theorem holds_of_unread (source : Source) :
    Holds ⟨Memory.zeros, 0, 0, 0, false, source, []⟩ ⟨[], [], false, source, []⟩ :=
  ⟨Nat.le_refl _, Nat.le_refl _, Nat.zero_le _, rfl, rfl, rfl, rfl, rfl⟩

/-- A buffer fails to start where a window does, and else holds that window. -/
theorem holds_of_ofSource (source : Source) :
    (∃ e, ofSource source = some (.error e) ∧ Window.ofSource source = .error e) ∨
      ∃ b w, ofSource source = some (.ok b) ∧ Window.ofSource source = .ok w ∧ b.Holds w := by
  obtain ⟨b, loaded, holds⟩ := (holds_of_unread source).load
  unfold Buffer.ofSource Window.ofSource
  rw [loaded]
  cases e : Window.load ⟨[], [], false, source, []⟩ with
  | mk found w =>
  rw [e] at holds
  cases found with
  | error cause => exact .inl ⟨cause, rfl, rfl⟩
  | ok some => exact .inr ⟨b, w, rfl, rfl, holds⟩

end Buffer

end ChomskyForm
