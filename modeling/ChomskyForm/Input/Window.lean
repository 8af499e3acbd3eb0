/-
The window: the part of a source that is held in memory while a token is
scanned.

A window holds at most `Window.capacity` bytes, the current token and what was
read behind it. Characters are scanned one after the other into the token; the
token can be given back character by character, or popped, after which its
bytes no longer count. The window reads on only when it needs a byte that it
does not have, so what has been read when a token ends depends on the source
alone.

The characters of the token are kept latest first, so scanning and giving back
work at the front of the list.
-/
import ChomskyForm.Input.Utf8
import ChomskyForm.Input.Source

set_option autoImplicit false

namespace ChomskyForm

/-- Why no character could be scanned. -/
inductive ReadError where
  /-- The bytes that follow are no character. -/
  | invalidEncoding
  /-- The source ends before the last byte of a character. -/
  | truncatedCharacter
  /-- The window is full. -/
  | tokenTooLong
  /-- A read failed. -/
  | fault (cause : Fault)
deriving DecidableEq

/-- The text scanned so far, the bytes read behind it, and the source. -/
structure Window where
  /-- The characters of the current token, the latest first. -/
  scanned : List Char
  /-- The bytes that were read and not scanned yet. -/
  ahead : List UInt8
  /-- Whether the source has ended; an ended source is not read again. -/
  ended : Bool
  /-- What is still to be read. -/
  source : Source
  /-- The sizes of the reads that were not reported yet, the latest first. -/
  reads : List Nat
deriving DecidableEq

namespace Window

/-- How many bytes a window holds at most. -/
def capacity : Nat := 8192

end Window

/-- The sort of failure that a read error is. -/
def ReadError.kind : ReadError → FaultKind
  | fault cause => cause.kind
  | _ => .invalidData

/-- The error in words. -/
def ReadError.message : ReadError → String
  | invalidEncoding => "input is not valid UTF-8"
  | truncatedCharacter => "input ends inside a character"
  | tokenTooLong => "token longer than " ++ toString Window.capacity ++ " bytes"
  | fault cause => cause.text

namespace Window

/-- How many bytes a window holds. -/
def held (w : Window) : Nat := Utf8.size w.scanned + w.ahead.length

/-- How many bytes are still to be scanned, read or not. -/
def unscanned (w : Window) : Nat := w.ahead.length + w.source.size

/-- Whether a row of bytes has at least `n` of them; looks at no more. -/
def hasAtLeast : Nat → List UInt8 → Bool
  | 0, _ => true
  | _ + 1, [] => false
  | n + 1, _ :: rest => hasAtLeast n rest

/-- The bounded count agrees with the length. -/
@[simp] theorem hasAtLeast_iff (n : Nat) (bytes : List UInt8) :
    hasAtLeast n bytes = true ↔ n ≤ bytes.length := by
  fun_induction hasAtLeast n bytes <;> simp_all

/-! ## Reading on -/

/-- Reads once into the free space of a window, and answers whether there was
anything to read. A full window cannot read, whatever the source holds. -/
def load (w : Window) : Except ReadError Bool × Window :=
  if w.ended then (.ok false, w)
  -- a full window is refused before the source is asked
  else if capacity ≤ w.held then (.error .tokenTooLong, w)
  else
    match w.source.read (capacity - w.held) with
    | .bytes content rest =>
      (.ok true, { w with
        ahead := w.ahead ++ content, source := rest, reads := content.length :: w.reads })
    | .finished rest => (.ok false, { w with ended := true, source := rest })
    | .fault cause rest => (.error (.fault cause), { w with source := rest })

/-- A successful load lets the bytes ahead grow and loses none. -/
theorem load_true {w w' : Window} (h : w.load = (.ok true, w')) :
    w.ahead.length < w'.ahead.length ∧ w'.unscanned = w.unscanned := by
  unfold load at h
  split at h
  · simp at h
  split at h
  · simp at h
  split at h
  · rename_i content rest hr
    cases h
    have := Source.size_of_readBlocks_bytes _ _ _ hr
    have hs : (Source.mk w.source.blocks w.source.limit).size = w.source.size := rfl
    simp only [unscanned, List.length_append]
    omega
  · simp at h
  · simp at h

/-- A load loses no byte, whatever it answers. -/
theorem unscanned_load (w : Window) : w.load.2.unscanned = w.unscanned := by
  unfold load
  split
  · rfl
  split
  · rfl
  split
  · -- what a read delivers moves from the source to the bytes ahead
    rename_i content rest hr
    have := Source.size_of_readBlocks_bytes _ _ _ hr
    have hs : (Source.mk w.source.blocks w.source.limit).size = w.source.size := rfl
    simp only [unscanned, List.length_append]
    omega
  · rename_i rest hr
    have := Source.size_of_readBlocks_finished _ _ _ hr
    have hs : (Source.mk w.source.blocks w.source.limit).size = w.source.size := rfl
    simp only [unscanned]
    omega
  · rename_i cause rest hr
    have := Source.size_of_readBlocks_fault _ _ _ hr
    have hs : (Source.mk w.source.blocks w.source.limit).size = w.source.size := rfl
    simp only [unscanned]
    omega

/-- Reads on until at least `need` bytes are ahead, and answers whether the
source has that many. -/
def fill (need : Nat) (w : Window) : Except ReadError Bool × Window :=
  if hasAtLeast need w.ahead then (.ok true, w)
  else
    match _h : w.load with
    | (.ok true, w') => fill need w'
    | (.ok false, w') => (.ok false, w')
    | (.error e, w') => (.error e, w')
termination_by need - w.ahead.length
decreasing_by
  have := load_true _h
  rename_i hn
  rw [hasAtLeast_iff] at hn
  omega

/-- Filling loses no byte. -/
theorem unscanned_fill (need : Nat) (w : Window) : (w.fill need).2.unscanned = w.unscanned := by
  fun_induction fill need w with
  | case1 => rfl
  | case2 w _ w' h ih => rw [ih, (load_true h).2]
  | case3 w _ w' h => simpa [h] using w.unscanned_load
  | case4 w _ e w' h => simpa [h] using w.unscanned_load

/-- What filling answered with yes is there. -/
theorem le_length_ahead_fill {need : Nat} {w w' : Window} (h : w.fill need = (.ok true, w')) :
    need ≤ w'.ahead.length := by
  fun_induction fill need w with
  | case1 w hle => cases h; exact (hasAtLeast_iff _ _).1 hle
  | case2 w _ w'' _ ih => exact ih h
  | case3 => simp at h
  | case4 => simp at h

/-! ## Scanning -/

/-- Starts to read a source. The first read is made at once, and its failure is
the failure of the start. -/
def ofSource (source : Source) : Except ReadError Window :=
  match load ⟨[], [], false, source, []⟩ with
  | (.ok _, w) => .ok w
  | (.error e, _) => .error e

/-- Scans the next character into the token and answers it, or nothing at the
end of the source. An error leaves the token as it is. -/
def scan (w : Window) : Except ReadError (Option Char) × Window :=
  match w.fill 1 with
  | (.error e, w) => (.error e, w)
  | (.ok false, w) => (.ok none, w)
  | (.ok true, w) =>
    match w.ahead.head?.bind Utf8.width? with
    | none => (.error .invalidEncoding, w)
    | some width =>
      match w.fill width with
      | (.error e, w) => (.error e, w)
      | (.ok false, w) => (.error .truncatedCharacter, w)
      | (.ok true, w) =>
        match Utf8.decode? (w.ahead.take width) with
        | none => (.error .invalidEncoding, w)
        | some c =>
          (.ok (some c), { w with scanned := c :: w.scanned, ahead := w.ahead.drop width })

/-- Gives the last character of the token back and answers it, or nothing if
the token is empty. -/
def back (w : Window) : Option Char × Window :=
  match w.scanned with
  | [] => (none, w)
  | c :: rest => (some c, { w with scanned := rest, ahead := Utf8.encode c ++ w.ahead })

/-- Takes the token out and answers it; the next token begins behind it. -/
def pop (w : Window) : String × Window :=
  (String.ofList w.scanned.reverse, { w with scanned := [] })

/-- The sizes of the reads since this was last asked, in order. -/
def takeReads (w : Window) : List Nat × Window :=
  (w.reads.reverse, { w with reads := [] })

/-! ## Progress -/

/-- Scanning moves forward: a scanned character is no longer to be scanned. -/
theorem unscanned_scan_some {w w' : Window} {c : Char} (h : w.scan = (.ok (some c), w')) :
    w'.unscanned < w.unscanned := by
  unfold scan at h
  split at h
  · simp at h
  · simp at h
  rename_i w₁ h₁
  have e₁ : w₁.unscanned = w.unscanned := by simpa [h₁] using unscanned_fill 1 w
  split at h
  · simp at h
  rename_i width hw
  split at h
  · simp at h
  · simp at h
  rename_i w₂ h₂
  have e₂ : w₂.unscanned = w₁.unscanned := by simpa [h₂] using unscanned_fill width w₁
  have l₂ := le_length_ahead_fill h₂
  split at h
  · simp at h
  -- the first byte announced a width, and a width is positive
  obtain ⟨first, _, hf⟩ := Option.bind_eq_some_iff.1 hw
  have := Utf8.width?_pos hf
  cases h
  simp only [unscanned, List.length_drop] at e₁ e₂ ⊢
  omega

/-- Scanning loses no byte, whatever it answers. -/
theorem unscanned_scan_le (w : Window) : w.scan.2.unscanned ≤ w.unscanned := by
  cases h : w.scan with
  | mk answer w' =>
    match answer, h with
    | .ok (some c), h => exact Nat.le_of_lt (unscanned_scan_some h)
    -- at the end of the source and at an error nothing was scanned, and the fills lost nothing
    | .ok none, h =>
      unfold scan at h
      split at h
      · simp at h
      · rename_i w₁ h₁
        cases h
        exact Nat.le_of_eq (by simpa [h₁] using unscanned_fill 1 w)
      · repeat' split at h
        all_goals simp at h
    | .error e, h =>
      unfold scan at h
      split at h
      · rename_i e' w₁ h₁
        cases h
        exact Nat.le_of_eq (by simpa [h₁] using unscanned_fill 1 w)
      · simp at h
      rename_i w₁ h₁
      have e₁ : w₁.unscanned = w.unscanned := by simpa [h₁] using unscanned_fill 1 w
      split at h
      · cases h; exact Nat.le_of_eq e₁
      rename_i width hw
      have e₂ : (w₁.fill width).2.unscanned = w₁.unscanned := unscanned_fill width w₁
      split at h
      · rename_i h₂
        cases h; rw [h₂] at e₂; exact Nat.le_of_eq (e₂.trans e₁)
      · rename_i h₂
        cases h; rw [h₂] at e₂; exact Nat.le_of_eq (e₂.trans e₁)
      · rename_i h₂
        rw [h₂] at e₂
        split at h
        · cases h; exact Nat.le_of_eq (e₂.trans e₁)
        · simp at h

/-- A character that is scanned and given back leaves as much to scan as
before. -/
theorem unscanned_back_of_scan {w w' : Window} {c : Char} (h : w.scan = (.ok (some c), w')) :
    w'.back.2.unscanned = w.unscanned := by
  unfold scan at h
  split at h
  · simp at h
  · simp at h
  rename_i w₁ h₁
  have e₁ : w₁.unscanned = w.unscanned := by simpa [h₁] using unscanned_fill 1 w
  split at h
  · simp at h
  rename_i width hw
  split at h
  · simp at h
  · simp at h
  rename_i w₂ h₂
  have e₂ : w₂.unscanned = w₁.unscanned := by simpa [h₂] using unscanned_fill width w₁
  have l₂ := le_length_ahead_fill h₂
  split at h
  · simp at h
  rename_i d hd
  -- giving back encodes the character into the bytes that it was decoded from
  have := Utf8.utf8Size_of_decode? hd
  cases h
  simp only [unscanned, back, List.length_append, Utf8.length_encode, List.length_drop,
    List.length_take] at e₁ e₂ this ⊢
  omega

/-- A popped token was scanned already. -/
@[simp] theorem unscanned_pop (w : Window) : w.pop.2.unscanned = w.unscanned := rfl

@[simp] theorem unscanned_takeReads (w : Window) : w.takeReads.2.unscanned = w.unscanned := rfl

end Window

end ChomskyForm
