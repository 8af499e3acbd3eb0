/-
What is still to come from a source.

A reader cannot tell how the bytes of a source are cut into reads, nor how
often a read was interrupted. What it can tell is the row of bytes and failures
up to the end, `Source.events`. A window holds the first bytes of that row
already; `Window.upcoming` puts the two together. Reading on moves bytes from
the source into the window and leaves this row as it is, so what a window
answers is said in terms of it.
-/
import Mathlib.Data.List.Basic
import ChomskyForm.Proofs.Input.Decoding
import ChomskyForm.Input.Window

set_option autoImplicit false

namespace ChomskyForm

/-! ## 1. The events of a source -/

namespace Source

/-- The bytes and failures of a row of blocks up to its end. -/
def eventsOf : List Block → List (Except Fault UInt8)
  | [] => []
  | .bytes content :: rest => content.map .ok ++ eventsOf rest
  | .interruption :: rest => eventsOf rest
  | .fault cause :: rest => .error cause :: eventsOf rest
  | .endMark :: _ => []

/-- The bytes and failures of a source up to its end. -/
def events (source : Source) : List (Except Fault UInt8) := eventsOf source.blocks

/-- A read into some space delivers something, if there is something. -/
def Flows (source : Source) : Prop := source.limit ≠ some 0

/-- Bytes that are delivered without a failure are the events. -/
theorem events_ofBytes (content : List UInt8) :
    (ofBytes content).events = content.map .ok :=
  List.append_nil _

/-- A source without a limit delivers. -/
theorem flows_ofBytes (content : List UInt8) : (ofBytes content).Flows := by
  intro h
  cases h

end Source

/-- A delivery is the next part of a row of events. -/
def Delivery.Continues (limit : Option Nat) (events : List (Except Fault UInt8)) :
    Delivery → Prop
  | .bytes content rest =>
    rest.limit = limit ∧ events = content.map .ok ++ rest.events
  | .finished rest => rest.limit = limit ∧ events = []
  | .fault cause rest => rest.limit = limit ∧ events = .error cause :: rest.events

namespace Source

/-- A read of blocks delivers the next events, if it is for one byte at least. -/
theorem continues_readBlocks (limit : Option Nat) {count : Nat} (room : 0 < count)
    (blocks : List Block) :
    (readBlocks limit count blocks).Continues limit (eventsOf blocks) := by
  induction blocks with
  | nil => exact ⟨rfl, rfl⟩
  | cons block rest ih =>
    cases block with
    | interruption => exact ih
    | fault cause => exact ⟨rfl, rfl⟩
    | endMark => exact ⟨rfl, rfl⟩
    | bytes content =>
      cases content with
      | nil => exact ih
      | cons b content =>
        cases count with
        | zero => exact absurd room (Nat.lt_irrefl 0)
        | succ n =>
          -- the part of the block that is delivered and the part that stays make the block
          refine ⟨rfl, ?_⟩
          show (b :: content).map .ok ++ eventsOf rest =
            (b :: content.take n).map .ok ++ ((content.drop n).map .ok ++ eventsOf rest)
          rw [← List.append_assoc, ← List.map_append, List.cons_append, List.take_append_drop]

/-- A read into some space delivers the next events of a source that delivers. -/
theorem continues_read {source : Source} (flows : source.Flows) {room : Nat} (h : 0 < room) :
    (source.read room).Continues source.limit source.events := by
  unfold read
  apply continues_readBlocks
  cases e : source.limit with
  | none => exact h
  | some limit =>
    have : limit ≠ 0 := fun zero => flows (zero ▸ e)
    show 0 < min room limit
    omega

end Source

/-! ## 2. The events of a window -/

/-- As many elements as a beginning has can be taken from the beginning. -/
theorem take_eq_of_isPrefix {α : Type} {front whole : List α} {count : Nat} (h : front <+: whole)
    (enough : count ≤ front.length) : front.take count = whole.take count := by
  obtain ⟨behind, rfl⟩ := h
  rw [List.take_append_of_le_length enough]

theorem head?_eq_of_isPrefix {α : Type} {front whole : List α} (h : front <+: whole)
    (any : 1 ≤ front.length) : front.head? = whole.head? := by
  obtain ⟨behind, rfl⟩ := h
  exact (List.head?_append_of_ne_nil _ (List.length_pos_iff.1 any)).symm

namespace Window

/-- The bytes and failures that a window is still to meet, read or not. -/
def upcoming (w : Window) : List (Except Fault UInt8) :=
  w.ahead.map .ok ++ if w.ended then [] else w.source.events

/-- A window after it read on: more may have been read, nothing was scanned. -/
structure ReadOn (w w' : Window) : Prop where
  scanned : w'.scanned = w.scanned
  upcoming : w'.upcoming = w.upcoming
  flows : w.source.Flows → w'.source.Flows

theorem ReadOn.refl (w : Window) : ReadOn w w := ⟨rfl, rfl, id⟩

theorem ReadOn.trans {w w' w'' : Window} (h : ReadOn w w') (h' : ReadOn w' w'') :
    ReadOn w w'' :=
  ⟨h'.scanned.trans h.scanned, h'.upcoming.trans h.upcoming, h'.flows ∘ h.flows⟩

/-- After the end of its source a window meets the bytes that it holds, and nothing
else. -/
theorem upcoming_of_ended {w : Window} (h : w.ended = true) :
    w.upcoming = w.ahead.map .ok := by
  unfold upcoming
  rw [if_pos h, List.append_nil]

/-- Before the end of its source a window meets what it holds, and then what the source
has. -/
theorem upcoming_of_not_ended {w : Window} (h : ¬ w.ended = true) :
    w.upcoming = w.ahead.map .ok ++ w.source.events := by
  unfold upcoming
  rw [if_neg h]

/-- Two rows of bytes are one if they are the same events. -/
theorem map_ok_inj {a b : List UInt8}
    (h : a.map (Except.ok (ε := Fault)) = b.map .ok) : a = b :=
  List.map_injective_iff.2 (fun _ _ => Except.ok.inj) h

/-- The bytes ahead are the first of what is upcoming. -/
theorem ahead_isPrefix_upcoming {w : Window} {bytes : List UInt8} (h : w.upcoming = bytes.map .ok) :
    w.ahead <+: bytes := by
  obtain ⟨first, behind, rfl, e, -⟩ := List.append_eq_map_iff.1 h
  rw [map_ok_inj e]
  exact List.prefix_append _ _

/-- What one load does where no read fails: either it reads on, or everything
that is upcoming is ahead already. -/
theorem load_of_bytes {w : Window} {bytes : List UInt8} (flows : w.source.Flows)
    (h : w.upcoming = bytes.map .ok) (room : w.held < capacity) :
    (∃ w', w.load = (.ok true, w') ∧ ReadOn w w') ∨
    ∃ w', w.load = (.ok false, w') ∧ ReadOn w w' ∧ w.ahead = bytes := by
  unfold load
  by_cases ended : w.ended = true
  · rw [upcoming_of_ended ended] at h
    rw [if_pos ended]
    exact .inr ⟨w, rfl, .refl w, map_ok_inj h⟩
  -- a read into a positive space delivers the next events
  have spec := Source.continues_read flows (Nat.sub_pos_of_lt room)
  have row := upcoming_of_not_ended ended
  rw [if_neg ended, if_neg (Nat.not_le.2 room)]
  cases e : w.source.read (capacity - w.held) with
  | bytes content rest =>
    rw [e] at spec
    obtain ⟨limit, events⟩ := spec
    refine .inl ⟨_, rfl, rfl, ?_, fun _ => ?_⟩
    · rw [row, events, ← List.append_assoc, ← List.map_append]
      exact upcoming_of_not_ended ended
    · show rest.limit ≠ some 0
      rw [limit]
      exact flows
  | finished rest =>
    rw [e] at spec
    obtain ⟨limit, events⟩ := spec
    rw [events, List.append_nil] at row
    refine .inr ⟨_, rfl, ⟨rfl, ?_, fun _ => ?_⟩, ?_⟩
    · rw [row, upcoming_of_ended rfl]
    · show rest.limit ≠ some 0
      rw [limit]
      exact flows
    · exact map_ok_inj (row.symm.trans h)
  | fault cause rest =>
    -- a failing read would be one of the events
    rw [e] at spec
    have failing : .error cause ∈ bytes.map (Except.ok (ε := Fault)) := by
      rw [← h, row, spec.2]
      exact List.mem_append_right _ List.mem_cons_self
    obtain ⟨b, -, hb⟩ := List.mem_map.1 failing
    cases hb

/-- What filling does where no read fails: it answers whether there are as many
bytes as needed. -/
theorem fill_of_bytes (need : Nat) {w : Window} {bytes : List UInt8} (flows : w.source.Flows)
    (h : w.upcoming = bytes.map .ok) (room : Utf8.size w.scanned + need ≤ capacity) :
    ∃ w', w.fill need = (.ok (decide (need ≤ bytes.length)), w') ∧ ReadOn w w' := by
  fun_induction fill need w with
  | case1 w enough =>
    rw [hasAtLeast_iff] at enough
    have : need ≤ bytes.length := Nat.le_trans enough (ahead_isPrefix_upcoming h).length_le
    exact ⟨w, by rw [decide_eq_true this], .refl w⟩
  | case2 w few w₁ h₁ ih =>
    -- too few bytes are ahead, so the window is not full and may read
    rw [hasAtLeast_iff] at few
    rcases load_of_bytes flows h (by unfold held; omega) with ⟨w', e, on⟩ | ⟨w', e, -⟩
    · rw [h₁] at e
      cases e
      obtain ⟨w₂, h₂, on₂⟩ := ih (on.flows flows) (on.upcoming.trans h) (by rwa [on.scanned])
      exact ⟨w₂, h₂, on.trans on₂⟩
    · rw [h₁] at e
      cases e
  -- everything was ahead already, and that was too little
  | case3 w few w₁ h₁ =>
    rw [hasAtLeast_iff] at few
    rcases load_of_bytes flows h (by unfold held; omega) with ⟨w', e, -⟩ | ⟨w', e, on, all⟩
    · rw [h₁] at e
      cases e
    · rw [h₁] at e
      cases e
      rw [all] at few
      exact ⟨w₁, by rw [decide_eq_false few], on⟩
  -- a load that fails is neither of the two that there are
  | case4 w few w₁ cause h₁ =>
    rw [hasAtLeast_iff] at few
    rcases load_of_bytes flows h (by unfold held; omega) with ⟨w', e, -⟩ | ⟨w', e, -⟩ <;>
    · rw [h₁] at e
      cases e

/-! ## 3. A window before bytes -/

/-- Taking bytes out of the window takes them from what is upcoming. -/
theorem upcoming_drop {w : Window} {count : Nat} (enough : count ≤ w.ahead.length)
    (scanned : List Char) :
    upcoming { w with scanned := scanned, ahead := w.ahead.drop count } =
      w.upcoming.drop count := by
  unfold upcoming
  rw [List.drop_append_of_le_length (by rwa [List.length_map]), List.map_drop]

/-- Any byte that is ahead announces the width of the first character. -/
theorem width?_head?_ahead {w : Window} {c : Char} {rest : List UInt8}
    (row : w.upcoming = (Utf8.encode c ++ rest).map .ok) (any : 1 ≤ w.ahead.length) :
    w.ahead.head?.bind Utf8.width? = some c.utf8Size := by
  have nonempty : Utf8.encode c ≠ [] := by
    rw [← List.length_pos_iff, Utf8.length_encode]
    exact c.utf8Size_pos
  rw [head?_eq_of_isPrefix (ahead_isPrefix_upcoming row) any,
    List.head?_append_of_ne_nil _ nonempty, Utf8.width?_head?_encode]

/-- **Scanning a character** that is upcoming, if the window has room. -/
theorem scan_of_character {w : Window} {c : Char} {rest : List UInt8} (flows : w.source.Flows)
    (row : w.upcoming = (Utf8.encode c ++ rest).map .ok)
    (room : Utf8.size w.scanned + c.utf8Size ≤ capacity) :
    ∃ w', w.scan = (.ok (some c), w') ∧ w'.scanned = c :: w.scanned ∧
      w'.upcoming = rest.map .ok ∧ w'.source.Flows := by
  have least := c.utf8Size_pos
  have long : c.utf8Size ≤ (Utf8.encode c ++ rest).length := by
    rw [List.length_append, Utf8.length_encode]
    omega
  obtain ⟨w₁, e₁, on₁⟩ := fill_of_bytes 1 flows row (by omega)
  rw [decide_eq_true (Nat.le_trans least long)] at e₁
  have row₁ := on₁.upcoming.trans row
  obtain ⟨w₂, e₂, on₂⟩ := fill_of_bytes c.utf8Size (on₁.flows flows) row₁ (by rwa [on₁.scanned])
  rw [decide_eq_true long] at e₂
  have row₂ := on₂.upcoming.trans row₁
  -- after the second filling the character is ahead as a whole
  have enough := le_length_ahead_fill e₂
  unfold scan
  simp only [e₁, width?_head?_ahead row₁ (le_length_ahead_fill e₁), e₂]
  rw [take_eq_of_isPrefix (ahead_isPrefix_upcoming row₂) enough, Utf8.decode?_take_encode]
  refine ⟨_, rfl, ?_, ?_, on₂.flows (on₁.flows flows)⟩
  · rw [on₂.scanned, on₁.scanned]
  · rw [upcoming_drop enough _, row₂, ← List.map_drop, ← Utf8.length_encode, List.drop_left]

/-! ## 4. A window before a text -/

/-- What is upcoming is a text, and no read fails on the way. -/
structure Awaits (w : Window) (text : List Char) : Prop where
  upcoming : w.upcoming = (text.flatMap Utf8.encode).map .ok
  flows : w.source.Flows

/-- Reading on changes nothing about the text that is awaited. -/
theorem ReadOn.awaits {w w' : Window} {text : List Char} (on : ReadOn w w')
    (h : w.Awaits text) : w'.Awaits text :=
  ⟨on.upcoming.trans h.upcoming, on.flows h.flows⟩

/-- At the end of a text a scan finds nothing, if the window has room to look. -/
theorem scan_of_nil {w : Window} (h : w.Awaits []) (room : Utf8.size w.scanned < capacity) :
    ∃ w', w.scan = (.ok none, w') ∧ w'.scanned = w.scanned ∧ w'.Awaits [] := by
  obtain ⟨w', e, on⟩ := fill_of_bytes 1 h.flows h.upcoming room
  unfold scan
  rw [e]
  exact ⟨w', rfl, on.scanned, on.awaits h⟩

/-- **Scanning a text** gives its first character, if the window has room. -/
theorem scan_of_cons {w : Window} {c : Char} {text : List Char} (h : w.Awaits (c :: text))
    (room : Utf8.size w.scanned + c.utf8Size ≤ capacity) :
    ∃ w', w.scan = (.ok (some c), w') ∧ w'.scanned = c :: w.scanned ∧ w'.Awaits text := by
  obtain ⟨w', e, scanned, upcoming, flows⟩ := scan_of_character h.flows h.upcoming room
  exact ⟨w', e, scanned, upcoming, flows⟩

/-- What is given back is awaited again. -/
theorem back_of_cons {w : Window} {c : Char} {before text : List Char} (h : w.Awaits text)
    (scanned : w.scanned = c :: before) :
    w.back.2.scanned = before ∧ w.back.2.Awaits (c :: text) := by
  unfold back
  rw [scanned]
  refine ⟨rfl, ?_, h.flows⟩
  have row := h.upcoming
  unfold upcoming at row
  -- the bytes of the character go in front of those that are ahead
  show (Utf8.encode c ++ w.ahead).map .ok ++ (if w.ended then [] else w.source.events) = _
  rw [List.flatMap_cons, List.map_append, List.map_append, ← row, List.append_assoc]

/-- A window on a source whose reads do not fail starts before all of its bytes. -/
theorem ofSource_of_bytes {source : Source} {bytes : List UInt8} (flows : source.Flows)
    (h : source.events = bytes.map .ok) :
    ∃ w, ofSource source = .ok w ∧ w.scanned = [] ∧ w.upcoming = bytes.map .ok ∧
      w.source.Flows := by
  have row : upcoming ⟨[], [], false, source, []⟩ = bytes.map .ok := h
  unfold ofSource
  rcases load_of_bytes flows row (Nat.zero_lt_succ _) with ⟨w', e, on⟩ | ⟨w', e, on, -⟩ <;>
  · rw [e]
    exact ⟨w', rfl, on.scanned, on.upcoming.trans row, on.flows flows⟩

/-- A window on the bytes of a text starts before the text. -/
theorem ofSource_of_text {source : Source} {text : List Char} (flows : source.Flows)
    (h : source.events = (text.flatMap Utf8.encode).map .ok) :
    ∃ w, ofSource source = .ok w ∧ w.scanned = [] ∧ w.Awaits text := by
  obtain ⟨w, e, scanned, upcoming, flows'⟩ := ofSource_of_bytes flows h
  exact ⟨w, e, scanned, upcoming, flows'⟩

end Window

end ChomskyForm
