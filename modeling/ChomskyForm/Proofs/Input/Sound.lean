/-
What a window keeps, whatever its source delivers.

A window holds no more than its capacity, and less once its source has ended:
the read that found the end had room. A source that delivers goes on delivering.
`Window.Sound` is the two together, and every step keeps it. The current token is
changed by the steps that are there to change it and by no read.
-/
import ChomskyForm.Proofs.Input.Upcoming

set_option autoImplicit false

namespace ChomskyForm

/-! ## 1. The size of a read -/

namespace Source

/-- A read of blocks delivers no more bytes than it was asked for. -/
theorem length_readBlocks_le {limit : Option Nat} {count : Nat} {blocks : List Block}
    {content : List UInt8} {rest : Source}
    (h : readBlocks limit count blocks = .bytes content rest) : content.length ≤ count := by
  induction blocks with
  | nil => cases h
  | cons block others ih =>
    cases block with
    | interruption => exact ih h
    | fault cause => cases h
    | endMark => cases h
    | bytes held =>
      cases held with
      | nil => exact ih h
      | cons b held =>
        cases count with
        | zero => cases h
        | succ n =>
          cases h
          rw [List.length_cons, List.length_take]
          exact Nat.succ_le_succ (Nat.min_le_left _ _)

/-- A read delivers no more than there is room for. -/
theorem length_read_le {source : Source} {room : Nat} {content : List UInt8} {rest : Source}
    (h : source.read room = .bytes content rest) : content.length ≤ room := by
  unfold read at h
  have le := length_readBlocks_le h
  cases e : source.limit with
  | none =>
    rw [e] at le
    exact le
  | some limit =>
    rw [e] at le
    exact Nat.le_trans le (Nat.min_le_left _ _)

end Source

namespace Window

/-! ## 2. A window holds no more than its capacity -/

/-- A window holds no more than its capacity, and less once its source has
ended: it had room for the read that found the end. -/
structure Fits (w : Window) : Prop where
  held : w.held ≤ capacity
  ended : w.ended = true → w.held < capacity

/-- A load asks for no more than the space that is free. -/
theorem fits_load {w : Window} (h : w.Fits) : w.load.2.Fits := by
  unfold load
  by_cases ended : w.ended = true
  · rw [if_pos ended]
    exact h
  by_cases full : capacity ≤ w.held
  · rw [if_neg ended, if_pos full]
    exact h
  rw [if_neg ended, if_neg full]
  cases e : w.source.read (capacity - w.held) with
  | bytes content rest =>
    have le := Source.length_read_le e
    refine ⟨?_, fun ended' => absurd ended' ended⟩
    unfold held at le full ⊢
    dsimp only
    rw [List.length_append]
    omega
  -- the end was found by a read, and the read had room
  | finished rest => exact ⟨h.held, fun _ => Nat.lt_of_not_le full⟩
  | fault cause rest => exact ⟨h.held, fun ended' => absurd ended' ended⟩

/-- Filling is a row of loads, so it keeps what every load keeps. -/
theorem fill_preserves {P : Window → Prop} (kept : ∀ w, P w → P w.load.2) (need : Nat)
    {w : Window} (h : P w) : P (w.fill need).2 := by
  fun_induction fill need w with
  | case1 w _ => exact h
  | case2 w _ w' e ih =>
    have loaded := kept w h
    rw [e] at loaded
    exact ih loaded
  | case3 w _ w' e | case4 w _ cause w' e =>
    have loaded := kept w h
    rwa [e] at loaded

/-- Filling keeps a window within its capacity. -/
theorem fits_fill (need : Nat) {w : Window} (h : w.Fits) : (w.fill need).2.Fits :=
  fill_preserves (fun _ => fits_load) need h

/-- Scanning moves the bytes of a character, and their number stays. -/
theorem held_of_decode? {w : Window} {width : Nat} {c : Char}
    (enough : width ≤ w.ahead.length) (decoded : Utf8.decode? (w.ahead.take width) = some c) :
    held { w with scanned := c :: w.scanned, ahead := w.ahead.drop width } = w.held := by
  have size := Utf8.utf8Size_of_decode? decoded
  rw [List.length_take, Nat.min_eq_left enough] at size
  unfold held
  dsimp only
  rw [Utf8.size_cons, List.length_drop, size]
  omega

/-- Scanning keeps a window within its capacity: a scanned character was held before. -/
theorem fits_scan {w : Window} (h : w.Fits) : w.scan.2.Fits := by
  have first := fits_fill 1 h
  unfold scan
  split
  · rename_i e
    rwa [e] at first
  · rename_i e
    rwa [e] at first
  rename_i w₁ e
  rw [e] at first
  split
  · exact first
  rename_i width _
  have second := fits_fill width first
  split
  · rename_i e₂
    rwa [e₂] at second
  · rename_i e₂
    rwa [e₂] at second
  rename_i w₂ e₂
  rw [e₂] at second
  split
  · exact second
  · rename_i c decoded
    -- the bytes of the character move from one side of the window to the other
    have same := held_of_decode? (le_length_ahead_fill e₂) decoded
    exact ⟨by rw [same]; exact second.held, fun ended => by rw [same]; exact second.ended ended⟩

/-- Giving back moves bytes within the window. -/
theorem held_back (w : Window) : w.back.2.held = w.held := by
  unfold back
  cases e : w.scanned with
  | nil => rfl
  | cons c rest =>
    unfold held
    dsimp only
    rw [e, Utf8.size_cons, List.length_append, Utf8.length_encode]
    omega

/-- Giving back says nothing of the source. -/
theorem ended_back (w : Window) : w.back.2.ended = w.ended := by
  unfold back
  cases w.scanned <;> rfl

/-- A window that gives back stays within its capacity. -/
theorem fits_back {w : Window} (h : w.Fits) : w.back.2.Fits := by
  constructor
  · rw [held_back]
    exact h.held
  · rw [held_back, ended_back]
    exact h.ended

theorem fits_pop {w : Window} (h : w.Fits) : w.pop.2.Fits := by
  have le : w.pop.2.held ≤ w.held := by
    show 0 + w.ahead.length ≤ Utf8.size w.scanned + w.ahead.length
    omega
  exact ⟨Nat.le_trans le h.held, fun ended => Nat.lt_of_le_of_lt le (h.ended ended)⟩

/-- Before the first read a window holds nothing. -/
theorem fits_of_unread (source : Source) : Fits ⟨[], [], false, source, []⟩ :=
  ⟨Nat.zero_le _, fun ended => Bool.noConfusion ended⟩

/-- A window that was started has made one load. -/
theorem fits_of_ofSource {source : Source} {w : Window} (h : ofSource source = .ok w) :
    w.Fits := by
  have loaded := fits_load (fits_of_unread source)
  unfold ofSource at h
  split at h
  · rename_i e
    cases h
    rwa [e] at loaded
  · cases h

/-! ## 3. A source that delivers goes on delivering -/

/-- A read never changes the limit of the source, whatever it delivers. -/
theorem flows_load {w : Window} (h : w.source.Flows) : w.load.2.source.Flows := by
  unfold load
  by_cases ended : w.ended = true
  · rw [if_pos ended]
    exact h
  by_cases full : capacity ≤ w.held
  · rw [if_neg ended, if_pos full]
    exact h
  have spec := Source.continues_read h (Nat.sub_pos_of_lt (Nat.lt_of_not_le full))
  rw [if_neg ended, if_neg full]
  cases e : w.source.read (capacity - w.held) with
  | bytes content rest | finished rest | fault cause rest =>
    rw [e] at spec
    show rest.limit ≠ some 0
    rw [spec.1]
    exact h

theorem flows_fill (need : Nat) {w : Window} (h : w.source.Flows) :
    (w.fill need).2.source.Flows :=
  fill_preserves (P := fun w => w.source.Flows) (fun _ => flows_load) need h

/-- Scanning reads through filling alone, so it leaves such a source too. -/
theorem flows_scan {w : Window} (h : w.source.Flows) : w.scan.2.source.Flows := by
  have first := flows_fill 1 h
  unfold scan
  split
  · rename_i e
    rwa [e] at first
  · rename_i e
    rwa [e] at first
  rename_i w₁ e
  rw [e] at first
  split
  · exact first
  rename_i width _
  have second := flows_fill width first
  split <;> rename_i e₂ <;> rw [e₂] at second
  · exact second
  · exact second
  · split <;> exact second

theorem flows_back {w : Window} (h : w.source.Flows) : w.back.2.source.Flows := by
  unfold Window.back
  cases w.scanned <;> exact h

/-- A window that holds no more than it can, before a source that delivers. -/
structure Sound (w : Window) : Prop where
  fits : w.Fits
  flows : w.source.Flows

theorem Sound.fill {w : Window} (h : w.Sound) (need : Nat) : (w.fill need).2.Sound :=
  ⟨fits_fill need h.fits, flows_fill need h.flows⟩

/-- Scanning keeps a window sound. -/
theorem Sound.scan {w : Window} (h : w.Sound) : w.scan.2.Sound :=
  ⟨fits_scan h.fits, flows_scan h.flows⟩

theorem Sound.back {w : Window} (h : w.Sound) : w.back.2.Sound :=
  ⟨fits_back h.fits, flows_back h.flows⟩

theorem Sound.pop {w : Window} (h : w.Sound) : w.pop.2.Sound :=
  ⟨fits_pop h.fits, h.flows⟩

/-- Before its first read a window on a source that delivers is sound. -/
theorem sound_of_unread {source : Source} (flows : source.Flows) :
    Sound ⟨[], [], false, source, []⟩ :=
  ⟨fits_of_unread source, flows⟩

/-! ## 4. What scanning leaves of the token -/

variable {w w' : Window}

/-- A load adds to what is ahead; the token is not touched. -/
theorem scanned_load (w : Window) : w.load.2.scanned = w.scanned := by
  unfold load
  split
  · rfl
  split
  · rfl
  split <;> rfl

/-- Filling does not touch the token. -/
theorem scanned_fill (need : Nat) (w : Window) : (w.fill need).2.scanned = w.scanned :=
  fill_preserves (P := fun w' => w'.scanned = w.scanned)
    (fun w' same => w'.scanned_load.trans same) need rfl

/-- A load that answers no has found the end, now or earlier. -/
theorem ended_of_load_false (h : w.load = (.ok false, w')) : w'.ended = true := by
  unfold load at h
  split at h
  · rename_i ended
    cases h
    exact ended
  split at h
  · cases h
  split at h
  · cases h
  · cases h
    rfl
  · cases h

/-- A filling that answers no has found the end: its last load has. -/
theorem ended_of_fill_false {need : Nat} (h : w.fill need = (.ok false, w')) :
    w'.ended = true := by
  fun_induction fill need w with
  | case1 w _ => cases h
  | case2 w _ w₁ e ih => exact ih h
  | case3 w _ w₁ e =>
    cases h
    exact ended_of_load_false e
  | case4 w _ cause w₁ e => cases h

/-- A started window has no token yet. -/
theorem scanned_of_ofSource {source : Source} (h : ofSource source = .ok w) : w.scanned = [] := by
  have loaded := scanned_load ⟨[], [], false, source, []⟩
  unfold ofSource at h
  split at h
  · rename_i e
    cases h
    rwa [e] at loaded
  · cases h

/-- A character that is found is added to the token; else the token stays. -/
theorem scanned_scan (w : Window) :
    w.scan.2.scanned =
      match w.scan.1 with
      | .ok (some c) => c :: w.scanned
      | _ => w.scanned := by
  have first := scanned_fill 1 w
  unfold scan
  split
  · rename_i e
    rwa [e] at first
  · rename_i e
    rwa [e] at first
  rename_i w₁ e
  rw [e] at first
  split
  · exact first
  rename_i width _
  have second := scanned_fill width w₁
  split <;> rename_i e₂ <;> rw [e₂] at second
  · exact second.trans first
  · exact second.trans first
  · split
    · exact second.trans first
    · rename_i c _
      exact congrArg (List.cons c) (second.trans first)

/-- A scanned character is the latest of the token. -/
theorem scanned_scan_some {c : Char} (h : w.scan = (.ok (some c), w')) :
    w'.scanned = c :: w.scanned := by
  have scanned := scanned_scan w
  rwa [h] at scanned

/-- No character is found where the source has ended. -/
theorem scan_none_eq (h : w.scan = (.ok none, w')) :
    w'.ended = true ∧ w'.scanned = w.scanned := by
  have scanned := scanned_scan w
  rw [h] at scanned
  -- of the answers of a scan only that of the first filling can be `none`
  refine ⟨?_, scanned⟩
  unfold scan at h
  split at h
  · cases h
  · rename_i w₁ e
    cases h
    exact ended_of_fill_false e
  · repeat' split at h
    all_goals cases h

/-- Giving back takes the latest character off the token. -/
theorem scanned_back {c : Char} {rest : List Char} (h : w.scanned = c :: rest) :
    w.back.2.scanned = rest := by
  unfold back
  rw [h]

end Window

end ChomskyForm
