/-
UTF-8, one character at a time.

The first byte of a character announces how many bytes it has. The bytes then
have to decode: continuation bytes where they belong, the shortest form, and a
code point that is a character. `Char` leaves out the surrogates and everything
above U+10FFFF, so only the shortest form needs a condition of its own.
-/

set_option autoImplicit false

namespace ChomskyForm.Utf8

/-- The bytes of a character. -/
def encode (c : Char) : List UInt8 := String.utf8EncodeChar c

/-- The number of bytes of a text. -/
def size (text : List Char) : Nat := text.foldr (fun c rest => c.utf8Size + rest) 0

/-- How many bytes a character has whose first byte this is. A continuation
byte begins no character; `C0`, `C1` and the bytes above `F4` occur in none. -/
def width? (first : UInt8) : Option Nat :=
  if first ≤ 0x7F then some 1
  else if 0xC2 ≤ first ∧ first ≤ 0xDF then some 2
  else if 0xE0 ≤ first ∧ first ≤ 0xEF then some 3
  else if 0xF0 ≤ first ∧ first ≤ 0xF4 then some 4
  else none

/-- The six bits that a continuation byte adds. -/
def continuation? (b : UInt8) : Option Nat :=
  if 0x80 ≤ b ∧ b ≤ 0xBF then some (b.toNat - 0x80) else none

/-- The character of a code point that needs no fewer bytes than were used for
it: `least` is the smallest code point of that many bytes. -/
def scalar? (least code : Nat) : Option Char :=
  if least ≤ code ∧ code.isValidChar then some (Char.ofNat code) else none

/-- The character that these bytes, all together, encode. -/
def decode? : List UInt8 → Option Char
  | [a] => if a ≤ 0x7F then some (Char.ofNat a.toNat) else none
  | [a, b] => do
    let b ← continuation? b
    if 0xC0 ≤ a ∧ a ≤ 0xDF then scalar? 0x80 ((a.toNat - 0xC0) * 0x40 + b) else none
  | [a, b, c] => do
    let b ← continuation? b
    let c ← continuation? c
    if 0xE0 ≤ a ∧ a ≤ 0xEF then
      scalar? 0x800 (((a.toNat - 0xE0) * 0x40 + b) * 0x40 + c)
    else none
  | [a, b, c, d] => do
    let b ← continuation? b
    let c ← continuation? c
    let d ← continuation? d
    if 0xF0 ≤ a ∧ a ≤ 0xF7 then
      scalar? 0x10000 ((((a.toNat - 0xF0) * 0x40 + b) * 0x40 + c) * 0x40 + d)
    else none
  | _ => none

/-- A character has at least one byte. -/
theorem width?_pos {first : UInt8} {n : Nat} (h : width? first = some n) : 0 < n := by
  unfold width? at h
  repeat' split at h
  all_goals simp_all
  all_goals omega

@[simp] theorem size_nil : size [] = 0 := rfl

@[simp] theorem size_cons (c : Char) (text : List Char) :
    size (c :: text) = c.utf8Size + size text := rfl

/-- The encoding of a character is as long as the library says. -/
@[simp] theorem length_encode (c : Char) : (encode c).length = c.utf8Size :=
  String.length_utf8EncodeChar c

/-! ## Decoding undoes encoding -/

/-- A code point that is a character is the code point of its character. -/
theorem toNat_val_ofNat {n : Nat} (h : n.isValidChar) : (Char.ofNat n).val.toNat = n := by
  have hlt : n < 2 ^ 32 := by
    rcases h with h | ⟨_, h⟩ <;> omega
  rw [Char.ofNat, dif_pos h]
  show (BitVec.ofNatLT n _).toNat = n
  simp

/-- A character of `scalar?` has the code point that was asked for, in its shortest
form. -/
theorem scalar?_eq_some {least code : Nat} {c : Char} (h : scalar? least code = some c) :
    least ≤ code ∧ c.val.toNat = code := by
  unfold scalar? at h
  split at h
  · rename_i hv
    cases h
    exact ⟨hv.1, toNat_val_ofNat hv.2⟩
  · simp at h

theorem eq_ofNat_of_toNat {a : UInt8} {n : Nat} (h : a.toNat = n) : UInt8.ofNat n = a := by
  subst h; simp

/-- A continuation byte is its six bits under the mark `10`. -/
theorem continuation?_eq_some {b : UInt8} {n : Nat} (h : continuation? b = some n) :
    n < 64 ∧ b = UInt8.ofNat (n + 128) := by
  unfold continuation? at h
  split at h
  · rename_i hb
    have h1 : 0x80 ≤ b.toNat := UInt8.le_iff_toNat_le.1 hb.1
    have h2 : b.toNat ≤ 0xBF := UInt8.le_iff_toNat_le.1 hb.2
    have hn : b.toNat - 0x80 = n := Option.some.inj h
    exact ⟨by omega, (eq_ofNat_of_toNat (by omega)).symm⟩
  · simp at h

/-- Decoding answers the character that the bytes are the encoding of. -/
theorem encode_of_decode? {bytes : List UInt8} {c : Char} (h : decode? bytes = some c) :
    encode c = bytes := by
  unfold decode? at h
  split at h
  · -- a single byte is its own code point
    rename_i a
    split at h
    · rename_i ha
      have ha' : a.toNat ≤ 127 := UInt8.le_iff_toNat_le.1 ha
      cases h
      have hv : (Char.ofNat a.toNat).val.toNat = a.toNat :=
        toNat_val_ofNat (Or.inl (by omega))
      simp only [encode, String.utf8EncodeChar, hv, ha', if_true]
      simp
    · simp at h
  · -- two bytes; the cases of three and four differ in the number of digits only
    rename_i a b
    simp only [Option.bind_eq_bind, Option.bind_eq_some_iff] at h
    obtain ⟨x, hx, h⟩ := h
    split at h
    case isFalse => simp at h
    rename_i ha
    have ha1 : 0xC0 ≤ a.toNat := UInt8.le_iff_toNat_le.1 ha.1
    have ha2 : a.toNat ≤ 0xDF := UInt8.le_iff_toNat_le.1 ha.2
    obtain ⟨hl, hv⟩ := scalar?_eq_some h
    obtain ⟨hx1, rfl⟩ := continuation?_eq_some hx
    simp only [encode, String.utf8EncodeChar, hv]
    rw [if_neg (by omega), if_pos (by omega)]
    rw [eq_ofNat_of_toNat (a := a) (by omega)]
    congr 3
    omega
  · rename_i a b d
    simp only [Option.bind_eq_bind, Option.bind_eq_some_iff] at h
    obtain ⟨x, hx, y, hy, h⟩ := h
    split at h
    case isFalse => simp at h
    rename_i ha
    have ha1 : 0xE0 ≤ a.toNat := UInt8.le_iff_toNat_le.1 ha.1
    have ha2 : a.toNat ≤ 0xEF := UInt8.le_iff_toNat_le.1 ha.2
    obtain ⟨hl, hv⟩ := scalar?_eq_some h
    obtain ⟨hx1, rfl⟩ := continuation?_eq_some hx
    obtain ⟨hy1, rfl⟩ := continuation?_eq_some hy
    simp only [encode, String.utf8EncodeChar, hv]
    rw [if_neg (by omega), if_neg (by omega), if_pos (by omega)]
    rw [eq_ofNat_of_toNat (a := a) (by omega)]
    congr 3
    · omega
    · congr 2; omega
  · rename_i a b d e
    simp only [Option.bind_eq_bind, Option.bind_eq_some_iff] at h
    obtain ⟨x, hx, y, hy, z, hz, h⟩ := h
    split at h
    case isFalse => simp at h
    rename_i ha
    have ha1 : 0xF0 ≤ a.toNat := UInt8.le_iff_toNat_le.1 ha.1
    have ha2 : a.toNat ≤ 0xF7 := UInt8.le_iff_toNat_le.1 ha.2
    obtain ⟨hl, hv⟩ := scalar?_eq_some h
    obtain ⟨hx1, rfl⟩ := continuation?_eq_some hx
    obtain ⟨hy1, rfl⟩ := continuation?_eq_some hy
    obtain ⟨hz1, rfl⟩ := continuation?_eq_some hz
    simp only [encode, String.utf8EncodeChar, hv]
    rw [if_neg (by omega), if_neg (by omega), if_neg (by omega)]
    rw [eq_ofNat_of_toNat (a := a) (by omega)]
    refine congrArg _ (congr (congrArg _ (congrArg _ ?_)) (congr (congrArg _ (congrArg _ ?_))
      (congr (congrArg _ (congrArg _ ?_)) rfl)))
    -- each byte is a digit of the code point, base 64, under the mark of its place
    all_goals omega
  · simp at h

/-- What decodes to a character has as many bytes as the character. -/
theorem utf8Size_of_decode? {bytes : List UInt8} {c : Char} (h : decode? bytes = some c) :
    c.utf8Size = bytes.length := by
  rw [← length_encode, encode_of_decode? h]

end ChomskyForm.Utf8
