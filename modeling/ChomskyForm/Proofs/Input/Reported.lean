/-
Reads and their reports.

A window notes the size of each of its reads until it is asked for them. Whoever
asks gets the sizes, and the note begins again. Scanning adds to the note and
never looks at it, so no row of steps can tell whether a window was asked.
-/
import ChomskyForm.Proofs.Input.Outlook

set_option autoImplicit false

namespace ChomskyForm

namespace Window

/-! ## 1. Filling in steps -/

/-- Filling asks what there is, and goes on behind a load. -/
theorem fill_eq (need : Nat) (w : Window) : w.fill need =
    if hasAtLeast need w.ahead then (.ok true, w)
    else
      match w.load with
      | (.ok true, w') => fill need w'
      | (.ok false, w') => (.ok false, w')
      | (.error e, w') => (.error e, w') := by
  rw [fill]
  split
  · rfl
  · split <;> simp_all

/-! ## 2. Windows that differ in the reads they have not reported -/

variable {w w' : Window}

/-- Two windows that differ at most in the reads that were not reported yet. -/
def SameButReads (w w' : Window) : Prop := ∃ reads, w' = { w with reads := reads }

/-- A load adds to the note of reads and does not look at it. -/
theorem SameButReads.load (h : SameButReads w w') : Agree SameButReads w.load w'.load := by
  obtain ⟨reads, rfl⟩ := h
  have held : Window.held { w with reads := reads } = w.held := rfl
  unfold Window.load
  rw [held]
  by_cases ended : w.ended = true
  · rw [if_pos ended, if_pos ended]
    exact ⟨rfl, reads, rfl⟩
  rw [if_neg ended, if_neg ended]
  by_cases full : capacity ≤ w.held
  · rw [if_pos full, if_pos full]
    exact ⟨rfl, reads, rfl⟩
  rw [if_neg full, if_neg full]
  dsimp only
  cases w.source.read (capacity - w.held) with
  | bytes content rest => exact ⟨rfl, content.length :: reads, rfl⟩
  | finished rest => exact ⟨rfl, reads, rfl⟩
  | fault cause rest => exact ⟨rfl, reads, rfl⟩

/-- Windows that differ in the reported reads have the same bytes ahead. -/
theorem SameButReads.ahead (h : SameButReads w w') : w'.ahead = w.ahead := by
  obtain ⟨reads, rfl⟩ := h
  rfl

/-- Filling asks for the bytes ahead and loads, so it does not look at the note either. -/
theorem SameButReads.fill (h : SameButReads w w') (need : Nat) :
    Agree SameButReads (w.fill need) (w'.fill need) := by
  fun_induction Window.fill need w generalizing w' with
  | case1 w enough =>
    rw [fill_eq need w', h.ahead, if_pos enough]
    exact ⟨rfl, h⟩
  | case2 w short after e ih =>
    obtain ⟨after', e', state⟩ := h.load.exists_eq e
    rw [fill_eq need w', h.ahead, if_neg short, e']
    exact ih state
  | case3 w short after e =>
    obtain ⟨after', e', state⟩ := h.load.exists_eq e
    rw [fill_eq need w', h.ahead, if_neg short, e']
    exact ⟨rfl, state⟩
  | case4 w short cause after e =>
    obtain ⟨after', e', state⟩ := h.load.exists_eq e
    rw [fill_eq need w', h.ahead, if_neg short, e']
    exact ⟨rfl, state⟩

/-- Scanning does not look at the reported reads. -/
theorem SameButReads.scan (h : SameButReads w w') : Agree SameButReads w.scan w'.scan := by
  unfold Window.scan
  cases e : w.fill 1 with
  | mk found w₁ =>
  obtain ⟨w₁', e', state⟩ := (h.fill 1).exists_eq e
  rw [e']
  match found with
  | .error cause => exact ⟨rfl, state⟩
  | .ok false => exact ⟨rfl, state⟩
  | .ok true =>
    dsimp only
    rw [state.ahead]
    cases w₁.ahead.head?.bind Utf8.width? with
    | none => exact ⟨rfl, state⟩
    | some width =>
      dsimp only
      cases e₂ : w₁.fill width with
      | mk found w₂ =>
      obtain ⟨w₂', e₂', state₂⟩ := (state.fill width).exists_eq e₂
      rw [e₂']
      match found with
      | .error cause => exact ⟨rfl, state₂⟩
      | .ok false => exact ⟨rfl, state₂⟩
      | .ok true =>
        dsimp only
        rw [state₂.ahead]
        obtain ⟨reads, rfl⟩ := state₂
        cases Utf8.decode? (w₂.ahead.take width) with
        | none => exact ⟨rfl, reads, rfl⟩
        | some c => exact ⟨rfl, reads, rfl⟩

theorem SameButReads.back (h : SameButReads w w') : Agree SameButReads w.back w'.back := by
  obtain ⟨reads, rfl⟩ := h
  obtain ⟨scanned, ahead, ended, source, earlier⟩ := w
  cases scanned with
  | nil => exact ⟨rfl, reads, rfl⟩
  | cons c rest => exact ⟨rfl, reads, rfl⟩

/-- No step tells the two windows apart, and they differ in nothing else afterwards. -/
theorem SameButReads.perform (h : SameButReads w w') (step : Step) :
    Agree SameButReads (w.perform step) (w'.perform step) := by
  cases step with
  | scan => exact ⟨congrArg Answer.scanned h.scan.answer, h.scan.state⟩
  | back => exact ⟨congrArg Answer.gaveBack h.back.answer, h.back.state⟩
  | pop =>
    obtain ⟨reads, rfl⟩ := h
    exact ⟨rfl, reads, rfl⟩

/-- **No answer depends on the reads that were not reported.** -/
theorem SameButReads.indistinct (h : SameButReads w w') : Indistinct w w' := by
  intro steps
  induction steps generalizing w w' with
  | nil => rfl
  | cons step rest ih =>
    unfold answers
    rw [(h.perform step).answer, ih (h.perform step).state]

/-- A window that has reported its reads answers as if it had not. -/
theorem indistinct_takeReads (w : Window) : Indistinct w w.takeReads.2 :=
  SameButReads.indistinct ⟨[], rfl⟩

end Window

end ChomskyForm
