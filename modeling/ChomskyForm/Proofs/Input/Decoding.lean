/-
Decoding the bytes of a character.

The model of a character's bytes is `Utf8.encode`; `Input.Utf8` shows that
decoding answers nothing else than what it encodes. Here is the other
direction: what a character was encoded to decodes to it, and its first byte
announces as many bytes as it has.
-/
import Mathlib.Tactic.Common
import ChomskyForm.Input.Utf8

set_option autoImplicit false

namespace ChomskyForm.Utf8

/-! ## 1. Bytes as numbers -/

theorem toNat_ofNat_of_lt {n : Nat} (h : n < 256) : (UInt8.ofNat n).toNat = n := by
  rw [UInt8.toNat_ofNat']
  exact Nat.mod_eq_of_lt h

/-- The announced width of a byte, by the number of the byte. -/
theorem width?_ofNat {n : Nat} (h : n < 256) :
    width? (UInt8.ofNat n) =
      if n ≤ 127 then some 1
      else if 194 ≤ n ∧ n ≤ 223 then some 2
      else if 224 ≤ n ∧ n ≤ 239 then some 3
      else if 240 ≤ n ∧ n ≤ 244 then some 4
      else none := by
  unfold width?
  simp only [UInt8.le_iff_toNat_le, toNat_ofNat_of_lt h]
  rfl

/-- Six bits come back out of the continuation byte that holds them. -/
theorem continuation?_ofNat {n : Nat} (h : n < 64) :
    continuation? (UInt8.ofNat (n + 128)) = some n := by
  unfold continuation?
  simp only [UInt8.le_iff_toNat_le, toNat_ofNat_of_lt (show n + 128 < 256 by omega),
    UInt8.reduceToNat]
  rw [if_pos (by omega), Nat.add_sub_cancel]

/-- The code point of a character is accepted for every form that is not longer than it
has to be. -/
theorem scalar?_toNat {least : Nat} {c : Char} (h : least ≤ c.val.toNat) :
    scalar? least c.val.toNat = some c := by
  unfold scalar?
  rw [if_pos ⟨h, c.valid⟩]
  congr 1
  apply Char.ext
  apply UInt32.toNat_inj.1
  exact toNat_val_ofNat c.valid

/-- A code point of a character takes 21 bits. -/
theorem toNat_val_lt (c : Char) : c.val.toNat < 1114112 := by
  rcases c.valid with h | ⟨_, h⟩
  · exact Nat.lt_trans h (by decide)
  · exact h

/-! ## 2. Whole characters -/

/-- The first byte of a character announces how many bytes it has. -/
theorem width?_head?_encode (c : Char) :
    (encode c).head?.bind width? = some c.utf8Size := by
  have bound := toNat_val_lt c
  rw [← length_encode]
  unfold encode String.utf8EncodeChar
  -- the bounds of the four forms keep clear of the bytes that no character begins with
  generalize c.val.toNat = n at bound
  dsimp only
  split
  · show width? _ = some 1
    rw [width?_ofNat (by omega), if_pos (by omega)]
  split
  · show width? _ = some 2
    rw [width?_ofNat (by omega), if_neg (by omega), if_pos (by omega)]
  split
  · show width? _ = some 3
    rw [width?_ofNat (by omega), if_neg (by omega), if_neg (by omega), if_pos (by omega)]
  · show width? _ = some 4
    rw [width?_ofNat (by omega), if_neg (by omega), if_neg (by omega), if_neg (by omega),
      if_pos (by omega)]

/-- **Decoding undoes encoding.** -/
theorem decode?_encode (c : Char) : decode? (encode c) = some c := by
  have bound := toNat_val_lt c
  unfold encode String.utf8EncodeChar
  dsimp only
  split
  · rename_i one
    unfold decode?
    simp only [UInt8.le_iff_toNat_le, toNat_ofNat_of_lt (show c.val.toNat < 256 by omega),
      UInt8.reduceToNat]
    rw [if_pos one]
    congr 1
    apply Char.ext
    apply UInt32.toNat_inj.1
    exact toNat_val_ofNat c.valid
  -- two, three and four bytes hold the digits of the code point to the base 64
  split
  · have digits : c.val.toNat / 64 % 32 * 64 + c.val.toNat % 64 = c.val.toNat := by omega
    unfold decode?
    simp only [Option.bind_eq_bind, Option.bind_some, UInt8.le_iff_toNat_le, UInt8.reduceToNat,
      continuation?_ofNat (show c.val.toNat % 64 < 64 by omega),
      toNat_ofNat_of_lt (show c.val.toNat / 64 % 32 + 192 < 256 by omega)]
    rw [if_pos (by omega), Nat.add_sub_cancel, digits, scalar?_toNat (by omega)]
  split
  · have digits : (c.val.toNat / 4096 % 16 * 64 + c.val.toNat / 64 % 64) * 64 +
        c.val.toNat % 64 = c.val.toNat := by omega
    unfold decode?
    simp only [Option.bind_eq_bind, Option.bind_some, UInt8.le_iff_toNat_le, UInt8.reduceToNat,
      continuation?_ofNat (show c.val.toNat % 64 < 64 by omega),
      continuation?_ofNat (show c.val.toNat / 64 % 64 < 64 by omega),
      toNat_ofNat_of_lt (show c.val.toNat / 4096 % 16 + 224 < 256 by omega)]
    rw [if_pos (by omega), Nat.add_sub_cancel, digits, scalar?_toNat (by omega)]
  · have digits : ((c.val.toNat / 262144 % 8 * 64 + c.val.toNat / 4096 % 64) * 64 +
        c.val.toNat / 64 % 64) * 64 + c.val.toNat % 64 = c.val.toNat := by omega
    unfold decode?
    simp only [Option.bind_eq_bind, Option.bind_some, UInt8.le_iff_toNat_le, UInt8.reduceToNat,
      continuation?_ofNat (show c.val.toNat % 64 < 64 by omega),
      continuation?_ofNat (show c.val.toNat / 64 % 64 < 64 by omega),
      continuation?_ofNat (show c.val.toNat / 4096 % 64 < 64 by omega),
      toNat_ofNat_of_lt (show c.val.toNat / 262144 % 8 + 240 < 256 by omega)]
    rw [if_pos (by omega), Nat.add_sub_cancel, digits, scalar?_toNat (by omega)]

/-- The bytes of a character, taken from the front of a row, decode to it. -/
theorem decode?_take_encode (c : Char) (behind : List UInt8) :
    decode? ((encode c ++ behind).take c.utf8Size) = some c := by
  rw [← length_encode, List.take_left, decode?_encode]

/-! ## 3. Whole texts -/

/-- The bytes of two texts in a row are counted together. -/
theorem size_append (a b : List Char) : size (a ++ b) = size a + size b := by
  induction a with
  | nil => rw [List.nil_append, size_nil, Nat.zero_add]
  | cons c rest ih => rw [List.cons_append, size_cons, size_cons, ih, Nat.add_assoc]

theorem size_reverse (chars : List Char) : size chars.reverse = size chars := by
  induction chars with
  | nil => rfl
  | cons c rest ih =>
    rw [List.reverse_cons, size_append, ih, size_cons, size_cons, size_nil, Nat.add_comm]
    rfl

/-- The loop of the library that lists the bytes of an array: those behind a place go
behind those that were taken, which it keeps in reverse. -/
theorem toList_loop_eq (bytes : ByteArray) (i : Nat) (taken : List UInt8) :
    ByteArray.toList.loop bytes i taken = taken.reverse ++ bytes.data.toList.drop i := by
  fun_induction ByteArray.toList.loop bytes i taken with
  | case1 i taken inside ih =>
    have bound : i < bytes.data.toList.length := inside
    have first : bytes.get! i = bytes.data.toList[i] := getElem!_pos bytes.data i inside
    rw [ih, List.reverse_cons, List.append_assoc, List.singleton_append, first,
      ← List.drop_eq_getElem_cons bound]
  | case2 i taken behind =>
    have bound : bytes.data.toList.length ≤ i := Nat.le_of_not_lt behind
    rw [List.drop_eq_nil_of_le bound, List.append_nil]

/-- The bytes of a text are those of its characters. -/
theorem toList_toUTF8 (text : String) : text.toUTF8.toList = text.toList.flatMap encode := by
  rw [ByteArray.toList, toList_loop_eq, List.reverse_nil, List.nil_append, List.drop_zero,
    String.toUTF8_eq_toByteArray, ← String.utf8Encode_toList, List.utf8Encode,
    List.toList_data_toByteArray]
  rfl

end ChomskyForm.Utf8
