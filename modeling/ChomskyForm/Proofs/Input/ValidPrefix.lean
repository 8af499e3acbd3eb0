/-
Scanning decodes UTF-8, no more and no less.

The bytes of a source need not be a text. There is a longest text whose encoding
they begin with: characters can be taken from the front as long as there are any,
and no two characters begin alike, so no other choice gets further. A window from
which every character is popped finds this text, and then answers the same
forever: that the source has ended, if nothing is left, and else one of two
errors, by the first byte that is left and the number of bytes.
-/
import ChomskyForm.Proofs.Input.Outlook

set_option autoImplicit false

namespace ChomskyForm

/-! ## 1. The longest text -/

namespace Utf8

/-- Bytes that begin with one character begin with no other. -/
theorem encode_prefix_unique {bytes : List UInt8} {c d : Char} (h : encode c <+: bytes)
    (h' : encode d <+: bytes) : c = d := by
  obtain ⟨behind, rfl⟩ := h
  obtain ⟨behind', e⟩ := h'
  have nonempty : ∀ c, encode c ≠ [] := by
    intro c
    rw [← List.length_pos_iff, length_encode]
    exact c.utf8Size_pos
  -- the first byte tells the width, so the two have the same bytes
  have first : (encode d).head? = (encode c).head? := by
    have heads := congrArg List.head? e
    rwa [List.head?_append_of_ne_nil _ (nonempty d), List.head?_append_of_ne_nil _ (nonempty c)]
      at heads
  have width : some d.utf8Size = some c.utf8Size := by
    rw [← width?_head?_encode, ← width?_head?_encode, first]
  have decoded := decode?_take_encode d behind'
  rw [e, Option.some.inj width, decode?_take_encode] at decoded
  exact Option.some.inj decoded

/-- A text whose encoding some bytes begin with, and no longer text is one. -/
structure LongestText (bytes : List UInt8) (text : List Char) : Prop where
  encoded : text.flatMap encode <+: bytes
  longest : ∀ other : List Char, other.flatMap encode <+: bytes → other <+: text

/-- Bytes are a text, and behind it bytes that begin with no character. -/
theorem exists_text (bytes : List UInt8) :
    ∃ (text : List Char) (rest : List UInt8), bytes = text.flatMap encode ++ rest ∧
      ∀ c, ¬ encode c <+: rest := by
  by_cases any : ∃ c, encode c <+: bytes
  · obtain ⟨c, behind, e⟩ := any
    have shorter : behind.length < bytes.length := by
      have least := c.utf8Size_pos
      rw [← e, List.length_append, length_encode]
      omega
    -- the character is taken off, and what is behind it is shorter
    obtain ⟨text, rest, split, stuck⟩ := exists_text behind
    refine ⟨c :: text, rest, ?_, stuck⟩
    rw [← e, split, List.flatMap_cons, List.append_assoc]
  · exact ⟨[], bytes, rfl, not_exists.1 any⟩
termination_by bytes.length

/-- To take characters from the front gets as far as anything does. -/
theorem longestText_of_rest {text : List Char} {rest : List UInt8}
    (stuck : ∀ c, ¬ encode c <+: rest) : LongestText (text.flatMap encode ++ rest) text := by
  refine ⟨List.prefix_append _ _, ?_⟩
  intro other h
  induction other generalizing text with
  | nil => exact List.nil_prefix
  | cons d others ih =>
    rw [List.flatMap_cons] at h
    have front : encode d <+: text.flatMap encode ++ rest := (List.prefix_append _ _).trans h
    cases text with
    | nil => exact absurd front (stuck d)
    | cons c text =>
      rw [List.flatMap_cons, List.append_assoc] at front h
      obtain rfl : c = d := encode_prefix_unique (List.prefix_append _ _) front
      rw [List.prefix_append_right_inj] at h
      rw [List.cons_prefix_cons]
      exact ⟨rfl, ih h⟩

/-- Bytes are a text if nothing is left behind the longest one. -/
theorem rest_eq_nil_iff {text : List Char} {rest : List UInt8}
    (stuck : ∀ c, ¬ encode c <+: rest) :
    rest = [] ↔ ∃ whole : List Char, text.flatMap encode ++ rest = whole.flatMap encode := by
  constructor
  · rintro rfl
    exact ⟨text, List.append_nil _⟩
  · rintro ⟨whole, e⟩
    have all : whole.flatMap encode <+: text.flatMap encode ++ rest :=
      ⟨[], by rw [List.append_nil, e]⟩
    obtain ⟨more, rfl⟩ := (longestText_of_rest stuck).longest whole all
    have lengths := congrArg List.length e
    simp only [List.flatMap_append, List.length_append] at lengths
    exact List.eq_nil_of_length_eq_zero (by omega)

/-! ## 2. What is answered behind it -/

/-- The number of bytes that a first byte announces, if it announces several. -/
def announced (first : UInt8) : Nat :=
  if first ≤ 0xDF then 2 else if first ≤ 0xEF then 3 else 4

/-- What scanning answers to bytes that begin with no character. -/
def verdict : List UInt8 → Except ReadError (Option Char)
  | [] => .ok none
  | first :: rest =>
    if 0xC2 ≤ first ∧ first ≤ 0xF4 ∧ (first :: rest).length < announced first then
      .error .truncatedCharacter
    else .error .invalidEncoding

/-- The end is found only where nothing is left. -/
theorem verdict_eq_none_iff {bytes : List UInt8} : verdict bytes = .ok none ↔ bytes = [] := by
  cases bytes with
  | nil => exact ⟨fun _ => rfl, fun _ => rfl⟩
  | cons first rest =>
    constructor
    · intro h
      rw [verdict] at h
      split at h <;> cases h
    · intro h
      cases h

/-- What a first byte announces: nothing or a single byte outside of the range of bytes
that begin a longer character, and inside it as many as the range says. -/
theorem width?_cases (first : UInt8) :
    (width? first = none ∨ width? first = some 1) ∧ ¬ (0xC2 ≤ first ∧ first ≤ 0xF4) ∨
      width? first = some (announced first) ∧ 0xC2 ≤ first ∧ first ≤ 0xF4 := by
  unfold width? announced
  simp only [UInt8.le_iff_toNat_le, UInt8.reduceToNat]
  generalize first.toNat = n
  split_ifs <;> simp <;> omega

/-- No byte announces more than four. -/
theorem width?_le {first : UInt8} {width : Nat} (h : width? first = some width) : width ≤ 4 := by
  unfold width? at h
  split_ifs at h <;> cases h <;> decide

/-- A first byte that announces nothing makes an invalid encoding. -/
theorem verdict_of_none {first : UInt8} {rest : List UInt8} (h : width? first = none) :
    verdict (first :: rest) = .error .invalidEncoding := by
  refine if_neg fun short => ?_
  rcases width?_cases first with ⟨-, off⟩ | ⟨some, -⟩
  · exact off ⟨short.1, short.2.1⟩
  · rw [h] at some
    cases some

/-- As many bytes as were announced give a verdict too, if they are no character. -/
theorem verdict_of_enough {first : UInt8} {rest : List UInt8} {width : Nat}
    (h : width? first = some width) (enough : width ≤ (first :: rest).length) :
    verdict (first :: rest) = .error .invalidEncoding := by
  refine if_neg fun short => ?_
  rcases width?_cases first with ⟨-, off⟩ | ⟨some, -⟩
  · exact off ⟨short.1, short.2.1⟩
  · rw [h, Option.some.injEq] at some
    rw [some] at enough
    exact absurd short.2.2 (Nat.not_lt.2 enough)

/-- Fewer bytes than were announced break off within a character. -/
theorem verdict_of_few {first : UInt8} {rest : List UInt8} {width : Nat}
    (h : width? first = some width) (few : (first :: rest).length < width) :
    verdict (first :: rest) = .error .truncatedCharacter := by
  rcases width?_cases first with ⟨none | one, -⟩ | ⟨some, least, most⟩
  · rw [h] at none
    cases none
  · -- a single byte is there
    rw [h, Option.some.injEq] at one
    rw [one, List.length_cons] at few
    omega
  · rw [h, Option.some.injEq] at some
    rw [some] at few
    exact if_pos ⟨least, most, few⟩

end Utf8

/-! ## 3. A window that is popped -/

namespace Window

variable {w : Window}

/-- A window with no token before some bytes, where no read fails. -/
structure Faces (w : Window) (bytes : List UInt8) : Prop where
  popped : w.scanned = []
  upcoming : w.upcoming = bytes.map .ok
  flows : w.source.Flows

/-- Reading on leaves the window before the same bytes. -/
theorem Faces.readOn {w' : Window} {bytes : List UInt8} (h : w.Faces bytes) (on : ReadOn w w') :
    w'.Faces bytes :=
  ⟨on.scanned.trans h.popped, on.upcoming.trans h.upcoming, on.flows h.flows⟩

/-- A window without a token has room for every character. -/
theorem Faces.room {bytes : List UInt8} (h : w.Faces bytes) {width : Nat} (le : width ≤ 4) :
    Utf8.size w.scanned + width ≤ capacity := by
  rw [h.popped, Utf8.size_nil, Nat.zero_add]
  exact Nat.le_trans le (by decide)

/-- A character that the bytes begin with is scanned and popped. -/
theorem Faces.scan_pop {c : Char} {rest : List UInt8} (h : w.Faces (Utf8.encode c ++ rest)) :
    w.scan.1 = .ok (some c) ∧ w.scan.2.pop.1 = c.toString ∧ w.scan.2.pop.2.Faces rest := by
  obtain ⟨w', e, scanned, upcoming, flows⟩ :=
    scan_of_character h.flows h.upcoming (h.room c.utf8Size_le_four)
  rw [e]
  refine ⟨rfl, ?_, rfl, upcoming, flows⟩
  unfold pop
  rw [scanned, h.popped]
  rfl

/-- Where the bytes begin with no character, the verdict on them is answered. -/
theorem Faces.scan_verdict {bytes : List UInt8} (h : w.Faces bytes)
    (stuck : ∀ c, ¬ Utf8.encode c <+: bytes) :
    w.scan.1 = Utf8.verdict bytes ∧ w.scan.2.Faces bytes := by
  obtain ⟨w₁, e₁, on₁⟩ := fill_of_bytes 1 h.flows h.upcoming (h.room (by decide))
  have faces₁ := h.readOn on₁
  cases bytes with
  | nil =>
    unfold scan
    rw [e₁]
    exact ⟨rfl, faces₁⟩
  | cons first rest =>
    have any : 1 ≤ (first :: rest).length := Nat.succ_le_succ (Nat.zero_le _)
    rw [decide_eq_true any] at e₁
    have byte : w₁.ahead.head? = some first :=
      head?_eq_of_isPrefix (ahead_isPrefix_upcoming faces₁.upcoming) (le_length_ahead_fill e₁)
    unfold scan
    simp only [e₁, byte, Option.bind_some]
    -- the three reasons why the first bytes are no character
    cases announces : Utf8.width? first with
    | none => exact ⟨(Utf8.verdict_of_none announces).symm, faces₁⟩
    | some width =>
      obtain ⟨w₂, e₂, on₂⟩ := fill_of_bytes width faces₁.flows faces₁.upcoming
        (faces₁.room (Utf8.width?_le announces))
      have faces₂ := faces₁.readOn on₂
      by_cases enough : width ≤ (first :: rest).length
      · rw [decide_eq_true enough] at e₂
        -- what the bytes decoded to would be a character that they begin with
        have ahead := ahead_isPrefix_upcoming faces₂.upcoming
        have undecoded : Utf8.decode? (w₂.ahead.take width) = none := by
          rw [take_eq_of_isPrefix ahead (le_length_ahead_fill e₂)]
          cases decoded : Utf8.decode? ((first :: rest).take width) with
          | none => rfl
          | some c =>
            refine absurd ?_ (stuck c)
            rw [Utf8.encode_of_decode? decoded]
            exact List.take_prefix _ _
        simp only [e₂, undecoded]
        exact ⟨(Utf8.verdict_of_enough announces enough).symm, faces₂⟩
      · rw [decide_eq_false enough] at e₂
        simp only [e₂]
        exact ⟨(Utf8.verdict_of_few announces (Nat.lt_of_not_le enough)).symm, faces₂⟩

/-- What is answered behind the last character: a verdict, and nothing to give
back or to take out. -/
def respond (ending : Except ReadError (Option Char)) : Step → Answer
  | .scan => .scanned ending
  | .back => .gaveBack none
  | .pop => .popped ""

/-- Behind the last character every step is answered at once, and nothing changes any
more. -/
theorem Faces.answers_verdict {bytes : List UInt8} (h : w.Faces bytes)
    (stuck : ∀ c, ¬ Utf8.encode c <+: bytes) (steps : List Step) :
    w.answers steps = steps.map (respond (Utf8.verdict bytes)) := by
  induction steps generalizing w with
  | nil => rfl
  | cons step rest ih =>
    have answer : (w.perform step).1 = respond (Utf8.verdict bytes) step ∧
        (w.perform step).2.Faces bytes := by
      cases step with
      | scan =>
        obtain ⟨same, faces⟩ := h.scan_verdict stuck
        exact ⟨congrArg Answer.scanned same, faces⟩
      | back =>
        unfold perform back
        rw [h.popped]
        exact ⟨rfl, h⟩
      | pop =>
        refine ⟨?_, rfl, h.upcoming, h.flows⟩
        unfold perform pop
        rw [h.popped]
        rfl
    rw [answers, answer.1, ih answer.2, List.map_cons]

/-- By induction on the text: each character is scanned and popped, and the verdict
comes behind the last one. -/
theorem Faces.answers_text {text : List Char} {rest : List UInt8}
    (h : w.Faces (text.flatMap Utf8.encode ++ rest)) (stuck : ∀ c, ¬ Utf8.encode c <+: rest)
    (later : List Step) :
    w.answers ((text.flatMap fun _ => [.scan, .pop]) ++ later) =
      (text.flatMap fun c => [.scanned (.ok (some c)), .popped c.toString]) ++
        later.map (respond (Utf8.verdict rest)) := by
  induction text generalizing w with
  | nil => exact h.answers_verdict stuck later
  | cons c text ih =>
    rw [List.flatMap_cons, List.append_assoc] at h
    obtain ⟨scanned, popped, faces⟩ := h.scan_pop
    have behind := ih faces
    simp only [List.flatMap_cons, List.cons_append, List.nil_append]
    rw [answers, answers]
    show Answer.scanned w.scan.1 :: Answer.popped w.scan.2.pop.1 :: w.scan.2.pop.2.answers _ = _
    rw [scanned, popped, behind]

/-- **Scanning decodes UTF-8**: of any bytes the longest text is found, character
by character, and behind it the same verdict is answered to every scan. -/
theorem scanning_decodes_utf8 {source : Source} {bytes : List UInt8} (flows : source.Flows)
    (delivered : source.events = bytes.map .ok) :
    ∃ w text rest, ofSource source = .ok w ∧ bytes = text.flatMap Utf8.encode ++ rest ∧
      Utf8.LongestText bytes text ∧
      (∀ later, w.answers ((text.flatMap fun _ => [.scan, .pop]) ++ later) =
        (text.flatMap fun c => [.scanned (.ok (some c)), .popped c.toString]) ++
          later.map (respond (Utf8.verdict rest))) ∧
      (Utf8.verdict rest = .ok none ↔ ∃ whole : List Char, bytes = whole.flatMap Utf8.encode) ∧
      ReadError.truncatedCharacter.message = "input ends inside a character" ∧
      ReadError.invalidEncoding.message = "input is not valid UTF-8" := by
  obtain ⟨text, rest, rfl, stuck⟩ := Utf8.exists_text bytes
  obtain ⟨w, started, popped, upcoming, flows'⟩ := ofSource_of_bytes flows delivered
  have faces : w.Faces (text.flatMap Utf8.encode ++ rest) := ⟨popped, upcoming, flows'⟩
  exact ⟨w, text, rest, started, rfl, Utf8.longestText_of_rest stuck,
    fun later => faces.answers_text stuck later,
    Utf8.verdict_eq_none_iff.trans (Utf8.rest_eq_nil_iff stuck), rfl, rfl⟩

/-- A delivery that breaks off within a character, cut before its last byte. -/
def brokenDelivery : Source := ⟨[.bytes [0x61, 0xE2], .interruption, .bytes [0x86]], some 1⟩

/-- Of the three bytes one is a character; the other two break off within the next. -/
theorem scanning_decodes_utf8_broken :
    brokenDelivery.Flows ∧ brokenDelivery.events = [0x61, 0xE2, 0x86].map .ok ∧
      ∃ w text rest, ofSource brokenDelivery = .ok w ∧
        [0x61, 0xE2, 0x86] = text.flatMap Utf8.encode ++ rest ∧
        Utf8.LongestText [0x61, 0xE2, 0x86] text ∧
        (∀ later, w.answers ((text.flatMap fun _ => [.scan, .pop]) ++ later) =
          (text.flatMap fun c => [.scanned (.ok (some c)), .popped c.toString]) ++
            later.map (respond (Utf8.verdict rest))) ∧
        (Utf8.verdict rest = .ok none ↔
          ∃ whole : List Char, [0x61, 0xE2, 0x86] = whole.flatMap Utf8.encode) ∧
        ReadError.truncatedCharacter.message = "input ends inside a character" ∧
        ReadError.invalidEncoding.message = "input is not valid UTF-8" :=
  have flows : brokenDelivery.Flows := fun h => by cases h
  ⟨flows, rfl, scanning_decodes_utf8 flows rfl⟩

-- a character that breaks off, an overlong form, a surrogate, one above U+10FFFF
example :
    [[0xE2, 0x86], [0xC0, 0x80], [0xED, 0xA0, 0x80], [0xF4, 0x90, 0x80, 0x80]].map Utf8.verdict =
      [.error .truncatedCharacter, .error .invalidEncoding, .error .invalidEncoding,
        .error .invalidEncoding] := by
  decide

end Window

end ChomskyForm
