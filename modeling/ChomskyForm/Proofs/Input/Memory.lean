/-
What lies in the memory of a buffer.

The bytes between two places are what a buffer's operations are about: which
bytes are there after a write, which text they are, and where the last character
of a text starts. For the last question only one bit pattern is looked at, and it
is enough: of the bytes of a character all but the first have it.
-/
import Mathlib.Data.List.Basic
import ChomskyForm.Input.Buffer
import ChomskyForm.Proofs.Input.Decoding

set_option autoImplicit false

namespace ChomskyForm

/-! ## 1. Texts in bytes -/

namespace Utf8

/-- A text has as many bytes as are counted for it. -/
theorem length_flatMap_encode (text : List Char) : (text.flatMap encode).length = size text := by
  induction text with
  | nil => rfl
  | cons c rest ih => rw [List.flatMap_cons, List.length_append, length_encode, ih, size_cons]

/-- In front of the bytes of a character the character is found, and what is behind it
is left. -/
theorem firstChar?_encode (c : Char) (behind : List UInt8) :
    firstChar? (encode c ++ behind) = some (c, behind) := by
  have nonempty : encode c ≠ [] := by
    rw [← List.length_pos_iff, length_encode]
    exact c.utf8Size_pos
  have width : (encode c ++ behind).head?.bind width? = some c.utf8Size := by
    rw [List.head?_append_of_ne_nil _ nonempty, width?_head?_encode]
  have dropped : (encode c ++ behind).drop c.utf8Size = behind := by
    rw [← length_encode, List.drop_left]
  unfold firstChar?
  rw [width, Option.bind_eq_bind, Option.bind_some, decode?_take_encode, Option.bind_eq_bind,
    Option.bind_some, dropped]
  rfl

/-- A character has a byte, so a row with its bytes is not empty. -/
theorem encode_append_ne_nil (c : Char) (behind : List UInt8) : encode c ++ behind ≠ [] := by
  rw [← List.length_pos_iff, List.length_append, length_encode]
  exact Nat.lt_of_lt_of_le c.utf8Size_pos (Nat.le_add_right _ _)

/-- The bytes of a text decode to it. -/
theorem text?_flatMap_encode (text : List Char) : text? (text.flatMap encode) = some text := by
  induction text with
  | nil => rw [List.flatMap_nil, text?.eq_def, if_pos rfl]
  | cons c rest ih =>
    rw [List.flatMap_cons, text?.eq_def, if_neg (encode_append_ne_nil c _)]
    -- the first character is found, so only one branch is left
    split <;> rename_i e <;> rw [firstChar?_encode] at e <;> cases e
    rw [ih]
    rfl

/-- Of the bytes of a text nothing is replaced. -/
theorem lossyText_flatMap_encode (text : List Char) : lossyText (text.flatMap encode) = text := by
  induction text with
  | nil => rw [List.flatMap_nil, lossyText.eq_def, if_pos rfl]
  | cons c rest ih =>
    rw [List.flatMap_cons, lossyText.eq_def, if_neg (encode_append_ne_nil c _)]
    split <;> rename_i e <;> rw [firstChar?_encode] at e <;> cases e
    rw [ih]

/-- As many bytes as the first one announces are one character or no text. -/
theorem text?_of_announced {bytes : List UInt8}
    (h : bytes.head?.bind width? = some bytes.length) :
    text? bytes = (decode? bytes).map fun c => [c] := by
  have nonempty : bytes ≠ [] := by
    rintro rfl
    cases h
  have first : firstChar? bytes = (decode? bytes).map fun c => (c, []) := by
    unfold firstChar?
    rw [h, Option.bind_eq_bind, Option.bind_some, List.take_length, List.drop_length]
    cases decode? bytes <;> rfl
  rw [text?.eq_def, if_neg nonempty]
  split <;> rename_i e <;> rw [first] at e
  · cases decoded : decode? bytes with
    | none => rfl
    | some c =>
      rw [decoded] at e
      cases e
  · cases decoded : decode? bytes with
    | none =>
      rw [decoded] at e
      cases e
    | some c =>
      rw [decoded] at e
      cases e
      rw [text?.eq_def, if_pos rfl]
      rfl

/-! ## 2. The bytes of one character -/

/-- The test of two bits, by the number of the byte: all 256 are looked at. -/
theorem isContinuation_ofNat :
    ∀ n < 256, isContinuation (UInt8.ofNat n) = decide (128 ≤ n ∧ n < 192) := by
  decide +kernel

/-- A byte that holds six bits under the mark `10` goes on with a character. -/
theorem isContinuation_of_lt {n : Nat} (h : n < 64) :
    isContinuation (UInt8.ofNat (n + 128)) = true := by
  rw [isContinuation_ofNat _ (by omega), decide_eq_true_eq]
  omega

/-- A byte with another mark goes on with no character. -/
theorem not_isContinuation {n : Nat} (h : n < 128 ∨ 192 ≤ n) (h' : n < 256) :
    isContinuation (UInt8.ofNat n) = false := by
  rw [isContinuation_ofNat n h', decide_eq_false_iff_not]
  omega

/-- Of the bytes of a character all but the first go on with it. -/
theorem encode_eq_cons (c : Char) : ∃ first more, encode c = first :: more ∧
    isContinuation first = false ∧ ∀ b ∈ more, isContinuation b = true := by
  have bound := toNat_val_lt c
  unfold encode String.utf8EncodeChar
  generalize c.val.toNat = n at bound
  dsimp only
  have digit : ∀ k, isContinuation (UInt8.ofNat (k % 64 + 128)) = true :=
    fun k => isContinuation_of_lt (Nat.mod_lt k (by decide))
  split
  · -- in each of the four forms the first byte has a mark of its own
    exact ⟨_, _, rfl, not_isContinuation (by omega) (by omega), List.forall_mem_nil _⟩
  split
  · exact ⟨_, _, rfl, not_isContinuation (by omega) (by omega),
      List.forall_mem_singleton.2 (digit _)⟩
  split
  · exact ⟨_, _, rfl, not_isContinuation (by omega) (by omega),
      List.forall_mem_cons.2 ⟨digit _, List.forall_mem_singleton.2 (digit _)⟩⟩
  · exact ⟨_, _, rfl, not_isContinuation (by omega) (by omega),
      List.forall_mem_cons.2 ⟨digit _, List.forall_mem_cons.2
        ⟨digit _, List.forall_mem_singleton.2 (digit _)⟩⟩⟩

end Utf8

/-! ## 3. Bytes between places -/

namespace Memory

variable (m : Memory) {a b c : Nat}

/-- There are as many bytes between two places as the places are apart. -/
theorem length_between (order : a ≤ b) (inside : b ≤ Window.capacity) :
    (m.between a b).length = b - a := by
  have length := m.length_bytes
  rw [between, List.length_take, List.length_drop]
  omega

/-- Bytes up to a place and bytes from there on make one row. -/
theorem between_append (order : a ≤ b) (order' : b ≤ c) :
    m.between a b ++ m.between b c = m.between a c := by
  have whole : c - a = b - a + (c - b) := by omega
  rw [between, between, between, whole, List.take_add, List.drop_drop, Nat.add_sub_cancel' order]

theorem take_between {n : Nat} (inside : a + n ≤ c) :
    (m.between a c).take n = m.between a (a + n) := by
  rw [between, between, List.take_take, Nat.min_eq_left (by omega), Nat.add_sub_cancel_left]

/-- What is behind the first bytes of a row begins later. -/
theorem drop_between {n : Nat} : (m.between a c).drop n = m.between (a + n) c := by
  rw [between, between, List.drop_take, List.drop_drop, Nat.sub_sub]

/-- A single byte is one of a row that reaches beyond it. -/
theorem byte?_eq (place i : Nat) (inside : place + i < b) :
    m.byte? (place + i) = (m.between place b)[i]? := by
  rw [byte?, between, List.getElem?_take_of_lt (by omega), List.getElem?_drop]

/-- Places that are in order and in the memory may be asked for. -/
theorem slice?_eq (order : a ≤ b) (inside : b ≤ Window.capacity) :
    m.slice? a b = some (m.between a b) :=
  if_pos ⟨order, inside⟩

/-- Bytes that there is room for are written between what is in front of them and what
is behind. -/
theorem write?_eq {place : Nat} {content : List UInt8}
    (room : place + content.length ≤ Window.capacity) :
    ∃ m', m.write? place content = some m' ∧
      m'.bytes = m.bytes.take place ++ (content ++ m.bytes.drop (place + content.length)) :=
  ⟨_, dif_pos room, List.append_assoc _ _ _⟩

/-- A memory with bytes written at a place: they are there, and what was in front
of the place still is. -/
theorem write?_spec (place : Nat) (content : List UInt8)
    (room : place + content.length ≤ Window.capacity) :
    ∃ m', m.write? place content = some m' ∧
      (∀ a b, b ≤ place → m'.between a b = m.between a b) ∧
      ∀ a b, b ≤ content.length →
        m'.between (place + a) (place + b) = (content.drop a).take (b - a) := by
  have length := m.length_bytes
  have front : (m.bytes.take place).length = place := by
    rw [List.length_take]
    omega
  obtain ⟨m', written, bytes⟩ := m.write?_eq room
  refine ⟨m', written, ?_, ?_⟩
  · intro a b inside
    -- place by place: whatever is compared, only one of the three parts has it
    apply List.ext_getElem?
    intro i
    by_cases here : i < b - a
    · rw [between, between, List.getElem?_take_of_lt here, List.getElem?_take_of_lt here,
        List.getElem?_drop, List.getElem?_drop, bytes,
        List.getElem?_append_left (by omega), List.getElem?_take_of_lt (by omega)]
    · rw [between, between, List.getElem?_take_eq_none (by omega),
        List.getElem?_take_eq_none (by omega)]
  · intro a b inside
    apply List.ext_getElem?
    intro i
    by_cases here : i < b - a
    · rw [between, List.getElem?_take_of_lt (by omega), List.getElem?_take_of_lt here,
        List.getElem?_drop, List.getElem?_drop, bytes,
        List.getElem?_append_right (by omega), List.getElem?_append_left (by omega), front]
      congr 1
      omega
    · rw [between, List.getElem?_take_eq_none (by omega), List.getElem?_take_eq_none (by omega)]

/-- The bytes of a character are looked through back to the first one. -/
theorem characterStart?_eq {least place : Nat} {first : UInt8} {more : List UInt8}
    (order : least ≤ place) (inside : place + (more.length + 1) ≤ Window.capacity)
    (row : m.between place (place + (more.length + 1)) = first :: more)
    (starts : Utf8.isContinuation first = false)
    (goesOn : ∀ b ∈ more, Utf8.isContinuation b = true) :
    ∀ count ≤ more.length, m.characterStart? least (place + count) = some place := by
  intro count bound
  induction count with
  | zero =>
    have byte : m.byte? place = some first := by
      rw [← Nat.add_zero place, m.byte?_eq place 0 (b := place + (more.length + 1)) (by omega), row]
      rfl
    rw [Nat.add_zero]
    cases place with
    | zero => rfl
    | succ before =>
      unfold characterStart?
      split
      · rw [byte, Option.bind_eq_bind, Option.bind_some, starts]
        rfl
      · rfl
  -- a byte that goes on with the character sends the search one place back
  | succ count ih =>
    have byte : m.byte? (place + (count + 1)) = more[count]? := by
      rw [m.byte?_eq place (count + 1) (b := place + (more.length + 1)) (by omega), row]
      rfl
    have less : count < more.length := bound
    have continued := goesOn _ (List.getElem_mem less)
    rw [← Nat.add_assoc]
    unfold characterStart?
    rw [if_pos (by omega), Nat.add_assoc, byte, List.getElem?_eq_getElem less, Option.bind_eq_bind,
      Option.bind_some, if_pos continued]
    exact ih (Nat.le_of_lt less)

end Memory

end ChomskyForm
