/-
Sources: where bytes come from, and how a read delivers them.

A source is a row of blocks. A read takes bytes from the first block that has
any, as many as there is room for, but never more than the limit of the source
and never past the end of the block. Between the bytes a read may be
interrupted, may fail, or may meet a mark at which the source says that it has
ended. Cutting a block of bytes in two changes what single reads deliver and
nothing else.
-/

set_option autoImplicit false

namespace ChomskyForm

/-- The sorts of failure that an operation on a file or a stream has. -/
inductive FaultKind where
  | invalidData
  | unexpectedEnd
  | permissionDenied
  | notFound
  | notADirectory
  | isADirectory
  | invalidName
  | other
deriving DecidableEq

/-- A failure of an operation on a file or a stream, with its text. -/
structure Fault where
  kind : FaultKind
  text : String
deriving DecidableEq

/-- A piece of a source. -/
inductive Block where
  /-- These bytes. -/
  | bytes (content : List UInt8)
  /-- A read that is interrupted; it is to be tried again. -/
  | interruption
  /-- A read that fails. -/
  | fault (cause : Fault)
  /-- A read that finds the end of the source. -/
  | endMark
deriving DecidableEq

/-- Blocks that are still to be read, and how many bytes a read delivers at
most, if there is a limit. -/
structure Source where
  blocks : List Block
  limit : Option Nat
deriving DecidableEq

/-- What a read finds, and the source after it. -/
inductive Delivery where
  | bytes (content : List UInt8) (rest : Source)
  | finished (rest : Source)
  | fault (cause : Fault) (rest : Source)

/-- The number of bytes of a piece. -/
def Block.size : Block → Nat
  | .bytes content => content.length
  | _ => 0

namespace Source

/-- The number of bytes that are still to be read. -/
def size (source : Source) : Nat := source.blocks.foldr (fun block rest => block.size + rest) 0

/-- The source of some bytes, read without a limit. -/
def ofBytes (content : List UInt8) : Source := ⟨[.bytes content], none⟩

/-- Reads at most `count` bytes of a row of blocks, without leaving a block. An
interrupted read is tried again, and blocks that are used up are passed. -/
def readBlocks (limit : Option Nat) (count : Nat) : List Block → Delivery
  | [] => .finished ⟨[], limit⟩
  | .interruption :: rest => readBlocks limit count rest
  | .fault cause :: rest => .fault cause ⟨rest, limit⟩
  | .endMark :: rest => .finished ⟨rest, limit⟩
  | .bytes [] :: rest => readBlocks limit count rest
  | .bytes (b :: content) :: rest =>
    match count with
    | 0 => .finished ⟨.bytes (b :: content) :: rest, limit⟩
    | n + 1 => .bytes (b :: content.take n) ⟨.bytes (content.drop n) :: rest, limit⟩

/-- Reads into a space of `room` bytes. -/
def read (source : Source) (room : Nat) : Delivery :=
  let count := match source.limit with
    | none => room
    | some limit => min room limit
  readBlocks source.limit count source.blocks

/-- A read moves bytes and loses none: what it delivers was at the front of
what is left. -/
theorem size_of_readBlocks_bytes (limit : Option Nat) (count : Nat) (blocks : List Block)
    {content : List UInt8} {rest : Source}
    (h : readBlocks limit count blocks = .bytes content rest) :
    content.length + rest.size = (Source.mk blocks limit).size ∧ 0 < content.length := by
  induction blocks with
  | nil => simp [readBlocks] at h
  | cons block others ih =>
    cases block with
    | interruption => simpa [size, Block.size] using ih h
    | fault cause => simp [readBlocks] at h
    | endMark => simp [readBlocks] at h
    | bytes c =>
      cases c with
      | nil => simpa [size, Block.size] using ih h
      | cons b c =>
        cases count with
        | zero => simp [readBlocks] at h
        | succ n =>
          simp only [readBlocks, Delivery.bytes.injEq] at h
          obtain ⟨rfl, rfl⟩ := h
          simp only [size, Block.size, List.foldr_cons, List.length_cons, List.length_take,
            List.length_drop]
          omega

/-- A read that finds the end moves no byte: what it passes on its way is empty. -/
theorem size_of_readBlocks_finished (limit : Option Nat) (count : Nat) (blocks : List Block)
    {rest : Source} (h : readBlocks limit count blocks = .finished rest) :
    rest.size = (Source.mk blocks limit).size := by
  induction blocks with
  | nil => simp only [readBlocks, Delivery.finished.injEq] at h; rw [← h]
  | cons block others ih =>
    cases block with
    | interruption => simpa [size, Block.size] using ih h
    | fault cause => simp [readBlocks] at h
    | endMark =>
      simp only [readBlocks, Delivery.finished.injEq] at h
      rw [← h]
      simp [size, Block.size]
    | bytes c =>
      cases c with
      | nil => simpa [size, Block.size] using ih h
      | cons b c =>
        cases count with
        | zero => simp only [readBlocks, Delivery.finished.injEq] at h; rw [← h]
        | succ n => simp [readBlocks] at h

/-- A failing read moves no byte. -/
theorem size_of_readBlocks_fault (limit : Option Nat) (count : Nat) (blocks : List Block)
    {cause : Fault} {rest : Source} (h : readBlocks limit count blocks = .fault cause rest) :
    rest.size = (Source.mk blocks limit).size := by
  induction blocks with
  | nil => simp [readBlocks] at h
  | cons block others ih =>
    cases block with
    | interruption => simpa [size, Block.size] using ih h
    | fault c =>
      simp only [readBlocks, Delivery.fault.injEq] at h
      rw [← h.2]
      simp [size, Block.size]
    | endMark => simp [readBlocks] at h
    | bytes c =>
      cases c with
      | nil => simpa [size, Block.size] using ih h
      | cons b c =>
        cases count with
        | zero => simp [readBlocks] at h
        | succ n => simp [readBlocks] at h

end Source

end ChomskyForm
