/-
Buffers: a window as it lies in memory.

The bytes of a window are held in a memory of fixed length. Three places in it
say where the current token starts, where the next character is looked for, and
where the bytes that were read stop. Reading on first shifts the token to the
front of the memory and then fills the space behind the bytes that are held.

An operation looks into the memory without asking whether it may. Where it would
look outside, or go back behind the first place, it has no result. Bytes that
are no text can be taken out all the same: what is wrong with them is replaced.
-/
import ChomskyForm.Input.Window

set_option autoImplicit false

namespace ChomskyForm

/-! ## Bytes as texts -/

namespace Utf8

/-- The first character of a text, and the bytes behind it. -/
def firstChar? (bytes : List UInt8) : Option (Char × List UInt8) := do
  let width ← bytes.head?.bind width?
  let c ← decode? (bytes.take width)
  return (c, bytes.drop width)

/-- Behind the first character of a text there is less of it. -/
theorem length_firstChar? {bytes rest : List UInt8} {c : Char}
    (h : firstChar? bytes = some (c, rest)) : rest.length < bytes.length := by
  simp only [firstChar?, Option.bind_eq_bind, Option.bind_eq_some_iff] at h
  obtain ⟨width, ⟨first, any, announced⟩, d, -, e⟩ := h
  cases e
  have pos := width?_pos announced
  have nonempty : bytes.length ≠ 0 := by
    rintro none
    rw [List.eq_nil_of_length_eq_zero none] at any
    cases any
  rw [List.length_drop]
  omega

/-- The text that some bytes encode, all together. -/
def text? (bytes : List UInt8) : Option (List Char) :=
  if bytes = [] then some []
  else
    match _h : firstChar? bytes with
    | none => none
    | some (c, rest) => (text? rest).map (c :: ·)
termination_by bytes.length
decreasing_by exact length_firstChar? _h

/-- Whether some bytes are the beginning of a character of `width` bytes. The
bytes that end a character may be any continuation bytes. -/
def beginsCharacter (width : Nat) (bytes : List UInt8) : Bool :=
  (decode? (bytes ++ List.replicate (width - bytes.length) 0x80)).isSome

/-- How many bytes in front of a text that begins with no character are replaced
together: the longest beginning of a character, or a single byte. -/
def brokenLength (bytes : List UInt8) : Nat :=
  match bytes.head?.bind width? with
  | none => 1
  | some width =>
    if 3 < width ∧ beginsCharacter width (bytes.take 3) then 3
    else if 2 < width ∧ beginsCharacter width (bytes.take 2) then 2
    else 1

/-- At least one byte is replaced, so replacing goes on to the end. -/
theorem brokenLength_pos (bytes : List UInt8) : 0 < brokenLength bytes := by
  unfold brokenLength
  split
  · decide
  · split
    · decide
    · split <;> decide

/-- The text of some bytes, with a replacement character wherever they encode
none. -/
def lossyText (bytes : List UInt8) : List Char :=
  if bytes = [] then []
  else
    match _h : firstChar? bytes with
    | some (c, rest) => c :: lossyText rest
    | none => '\ufffd' :: lossyText (bytes.drop (brokenLength bytes))
termination_by bytes.length
decreasing_by
  · exact length_firstChar? _h
  · have pos := brokenLength_pos bytes
    have nonempty := List.length_pos_iff.2 (by assumption : ¬ bytes = [])
    rw [List.length_drop]
    omega

/-- A byte that goes on with a character has the bits `10` in front. -/
def isContinuation (b : UInt8) : Bool := b &&& 0xC0 == 0x80

end Utf8

/-! ## Memories -/

/-- As many bytes as a window holds at most. -/
structure Memory where
  bytes : List UInt8
  length_bytes : bytes.length = Window.capacity

namespace Memory

/-- A memory of zeros. -/
def zeros : Memory := ⟨List.replicate Window.capacity 0, List.length_replicate⟩

/-- The byte at a place. -/
def byte? (m : Memory) (place : Nat) : Option UInt8 := m.bytes[place]?

/-- The bytes from one place up to another. -/
def between (m : Memory) (start stop : Nat) : List UInt8 := (m.bytes.drop start).take (stop - start)

/-- The bytes from one place up to another, if the places are in order and in the
memory. -/
def slice? (m : Memory) (start stop : Nat) : Option (List UInt8) :=
  if start ≤ stop ∧ stop ≤ Window.capacity then some (m.between start stop) else none

/-- Puts bytes at a place, if there is room for them. -/
def write? (m : Memory) (place : Nat) (content : List UInt8) : Option Memory :=
  if h : place + content.length ≤ Window.capacity then
    some ⟨m.bytes.take place ++ content ++ m.bytes.drop (place + content.length), by
      have length := m.length_bytes
      rw [List.length_append, List.length_append, List.length_take, List.length_drop]
      omega⟩
  else none

/-- The place of the first byte of the character that the byte at `place` belongs
to; it is looked for down to `least`. -/
def characterStart? (m : Memory) (least : Nat) : (place : Nat) → Option Nat
  | 0 => some 0
  | place + 1 =>
    if least < place + 1 then do
      if Utf8.isContinuation (← m.byte? (place + 1)) then m.characterStart? least place
      else some (place + 1)
    else some (place + 1)

end Memory

/-- How far one place is behind another. -/
def distance? (place earlier : Nat) : Option Nat :=
  if earlier ≤ place then some (place - earlier) else none

/-! ## Buffers -/

/-- A memory with three places in it, and the source that it is filled from. -/
structure Buffer where
  memory : Memory
  /-- Where the current token starts. -/
  start : Nat
  /-- Where the next character is looked for. -/
  front : Nat
  /-- Where the bytes that were read stop. -/
  stop : Nat
  /-- Whether the source has ended; an ended source is not read again. -/
  ended : Bool
  /-- What is still to be read. -/
  source : Source
  /-- The sizes of the reads that were not reported yet, the latest first. -/
  reads : List Nat

namespace Buffer

/-- Moves the current token and what was read behind it to the front of the
memory. -/
def shift? (b : Buffer) : Option Buffer :=
  if b.start = 0 then some b
  else do
    let memory ← b.memory.write? 0 (← b.memory.slice? b.start b.stop)
    return { b with
      memory := memory, start := 0, front := ← distance? b.front b.start,
      stop := ← distance? b.stop b.start }

/-- Reads once into the space behind the bytes that are held, and answers whether
there was anything to read. -/
def load (b : Buffer) : Option (Except ReadError Bool × Buffer) :=
  if b.ended then some (.ok false, b)
  else do
    let b ← b.shift?
    if b.stop = Window.capacity then return (.error .tokenTooLong, b)
    match b.source.read (← distance? Window.capacity b.stop) with
    | .bytes content rest =>
      let memory ← b.memory.write? b.stop content
      return (.ok true, { b with
        memory := memory, stop := b.stop + content.length, source := rest,
        reads := content.length :: b.reads })
    | .finished rest => return (.ok false, { b with ended := true, source := rest })
    | .fault cause rest => return (.error (.fault cause), { b with source := rest })

/-- Shifting is done in the memory; the source is not touched. -/
theorem source_shift? {b b' : Buffer} (h : b.shift? = some b') : b'.source = b.source := by
  unfold shift? at h
  split at h
  · cases h
    rfl
  · simp only [Option.bind_eq_bind, Option.bind_eq_some_iff] at h
    obtain ⟨kept, -, memory, -, front, -, stop, -, e⟩ := h
    cases e
    rfl

/-- What a successful load delivers is no longer to be read. -/
theorem size_load_true {b b' : Buffer} (h : b.load = some (.ok true, b')) :
    b'.source.size < b.source.size := by
  unfold load at h
  split at h
  · cases h
  simp only [Option.bind_eq_bind, Option.bind_eq_some_iff] at h
  obtain ⟨shifted, same, h⟩ := h
  -- the shift comes first and reads nothing
  rw [← source_shift? same]
  split at h
  · cases h
  obtain ⟨room, -, h⟩ := Option.bind_eq_some_iff.1 h
  split at h
  · rename_i content rest e
    obtain ⟨memory, -, h⟩ := Option.bind_eq_some_iff.1 h
    cases h
    have moved := Source.size_of_readBlocks_bytes _ _ _ e
    have same : (Source.mk shifted.source.blocks shifted.source.limit).size = shifted.source.size :=
      rfl
    dsimp only
    omega
  · cases h
  · cases h

/-- Reads on until `width` bytes are held from the next character on, and answers
whether the source has that many. -/
def fill (width : Nat) (b : Buffer) : Option (Except ReadError Bool × Buffer) :=
  if b.stop < b.front + width then
    match _h : b.load with
    | some (.ok true, b') => fill width b'
    | other => other
  else some (.ok true, b)
termination_by b.source.size
decreasing_by exact size_load_true _h

/-- Starts to read a source. The first read is made at once, and its failure is
the failure of the start. -/
def ofSource (source : Source) : Option (Except ReadError Buffer) :=
  (load ⟨Memory.zeros, 0, 0, 0, false, source, []⟩).map fun (found, b) => found.map fun _ => b

/-- Loads if no byte is ahead, and answers whether one is. -/
def await (b : Buffer) : Option (Except ReadError Bool × Buffer) :=
  if b.front = b.stop then b.load else some (.ok true, b)

/-- Scans the next character into the token and answers it, or nothing at the
end of the source. -/
def scan (b : Buffer) : Option (Except ReadError (Option Char) × Buffer) := do
  match ← b.await with
  | (.error e, b) => return (.error e, b)
  | (.ok false, b) => return (.ok none, b)
  | (.ok true, b) =>
    match Utf8.width? (← b.memory.byte? b.front) with
    | none => return (.error .invalidEncoding, b)
    | some width =>
      match ← b.fill width with
      | (.error e, b) => return (.error e, b)
      | (.ok false, b) => return (.error .truncatedCharacter, b)
      | (.ok true, b) =>
        match Utf8.text? (← b.memory.slice? b.front (b.front + width)) with
        | none => return (.error .invalidEncoding, b)
        | some text => return (.ok text.head?, { b with front := b.front + width })

/-- Gives the last character of the token back and answers it, or nothing if the
token is empty. -/
def back (b : Buffer) : Option (Option Char × Buffer) :=
  if b.front = b.start then some (none, b)
  else do
    let place ← b.memory.characterStart? b.start (← distance? b.front 1)
    let bytes ← b.memory.slice? place b.front
    return ((Utf8.text? bytes).bind List.head?, { b with front := place })

/-- Takes the token out and answers its text; the next token starts behind it. -/
def pop (b : Buffer) : Option (String × Buffer) := do
  let token ← b.memory.slice? b.start b.front
  return (String.ofList (Utf8.lossyText token), { b with start := b.front })

end Buffer

end ChomskyForm
