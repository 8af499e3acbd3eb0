/-
No grammar is read past a failing read.

A window finds the end of its source where nothing is to come any more, and not
where a failure is. So as long as a failure is to come, scanning gives characters
or fails, and a lexer that has not failed has not come to its end. What was read
without an error was therefore read from a source without failures, up to its
end.
-/
import ChomskyForm.Conversion
import ChomskyForm.Proofs.Bnf.Lexes
import ChomskyForm.Proofs.Input.Retrying

set_option autoImplicit false

namespace ChomskyForm

/-! ## 1. Scanning in front of a failure -/

namespace Outlook

variable {o o' : Outlook}

/-- The end is found where no failure is to come. -/
theorem faultsOf_of_fill_false {need : Nat} (h : o.fill need = (.ok false, o')) :
    faultsOf o.upcoming = [] := by
  simp only [fill] at h
  split at h
  · cases h
  split at h
  · cases h
  rcases splitFault_cases o.upcoming with ⟨bytes, row, e⟩ | ⟨bytes, cause, behind, row, e⟩
  · rw [row, faultsOf_append]
    rfl
  · rw [e] at h
    cases h

/-- What is scanned comes before the first failure, and the end behind the last
one. -/
theorem faultsOf_scan {found : Option Char} (h : o.scan = (.ok found, o')) :
    faultsOf o'.upcoming = faultsOf o.upcoming ∧ (found = none → faultsOf o.upcoming = []) := by
  refine ⟨?_, ?_⟩
  · -- an answer without an error is the one that the stream without failures gives too
    have clears := o.scan_clears
    rw [h] at clears
    generalize o.cleared.scan = without at clears
    cases clears with
    | stays unfailed => rfl
    | moves same => exact same
  · -- only a fill that found nothing lets a scan answer that the end is reached
    intro none
    subst none
    unfold scan at h
    split at h
    · cases h
    · rename_i o₁ e
      exact faultsOf_of_fill_false e
    · repeat' split at h
      all_goals cases h

end Outlook

namespace Window

/-- A failure is still to come. -/
structure Troubled (w : Window) : Prop where
  sound : w.Sound
  faults : faultsOf w.upcoming ≠ []

variable {w w' : Window}

/-- A scan in front of a failure gives a character or fails. If it gives one, the
failure is still to come. -/
theorem Troubled.scan (h : w.Troubled) {found : Option Char} (e : w.scan = (.ok found, w')) :
    found ≠ none ∧ w'.Troubled := by
  have told := h.sound.scan_eq
  have sound := h.sound.scan
  rw [e] at told sound
  obtain ⟨same, last⟩ := Outlook.faultsOf_scan told.symm
  refine ⟨fun none => h.faults (last none), sound, ?_⟩
  intro nothing
  exact h.faults (same.symm.trans nothing)

/-- To give a character back does not remove a failure from what is to come. -/
theorem Troubled.back (h : w.Troubled) : w.back.2.Troubled := by
  have told := w.back_eq_outlook_back
  have kept := w.outlook.back_cleared.2
  rw [← told] at kept
  refine ⟨h.sound.back, ?_⟩
  intro nothing
  exact h.faults (kept.symm.trans nothing)

theorem Troubled.pop (h : w.Troubled) : w.pop.2.Troubled := ⟨h.sound.pop, h.faults⟩

theorem Troubled.takeReads (h : w.Troubled) : w.takeReads.2.Troubled :=
  ⟨⟨⟨h.sound.fits.held, h.sound.fits.ended⟩, h.sound.flows⟩, h.faults⟩

/-- A window that starts in front of a failure has it still to come. -/
theorem troubled_of_ofSource {source : Source} (flows : source.Flows)
    (faults : faultsOf source.events ≠ []) (h : ofSource source = .ok w) : w.Troubled := by
  have started := ofSource_eq flows
  rcases Outlook.fill_cases ⟨[], source.events⟩ 1 with
    ⟨cause, o', e, -, -⟩ | ⟨found, -, e, -⟩
  · rw [e] at started
    cases h.symm.trans started
  · rw [e] at started
    cases found with
    | error cause => cases h.symm.trans started
    | ok any =>
      obtain ⟨w', started, sound, told⟩ := started
      cases h.symm.trans started
      have same : w.upcoming = source.events := congrArg Outlook.upcoming told
      exact ⟨sound, by rwa [same]⟩

end Window

/-! ## 2. Lexing in front of a failure -/

namespace Bnf

namespace Lexer

/-- The lexer goes on, and a failure is still to come. -/
structure Troubled (l : Lexer) : Prop where
  going : l.finished = false
  window : l.window.Troubled

variable {l l' : Lexer}

/-- A lexer in front of a failure scans a character or fails. -/
theorem Troubled.scan (h : l.Troubled) {found : Option Char} (e : l.scan = (.ok found, l')) :
    found ≠ none ∧ l'.Troubled := by
  unfold Lexer.scan at e
  cases scanned : l.window.scan with
  | mk answer w =>
  rw [scanned] at e
  match answer, scanned with
  | .error cause, _ => cases e
  | .ok none, scanned =>
    cases e
    exact ⟨(h.window.scan scanned).1, h.going, (h.window.scan scanned).2⟩
  | .ok (some c), scanned =>
    cases e
    exact ⟨(h.window.scan scanned).1, h.going, (h.window.scan scanned).2⟩

/-- The failure stays ahead when scanned characters are dropped. -/
theorem Troubled.discard (h : l.Troubled) : l.discard.Troubled := ⟨h.going, h.window.pop⟩

theorem Troubled.giveBack (h : l.Troubled) (h' : l'.Troubled) : (l.giveBack l').Troubled :=
  ⟨h.going, h'.window.back⟩

theorem Troubled.takeWord (h : l.Troubled) (start : Position) : (l.takeWord start).2.Troubled := by
  unfold Lexer.takeWord
  dsimp only
  split
  · exact ⟨h.going, h.window.pop⟩
  · exact ⟨h.going, h.window.pop⟩

/-- A word that is scanned without an error is followed by what ends it, and not by the
end of the text. So the failure is behind it. -/
theorem Troubled.finishWord (h : l.Troubled) (e : l.finishWord = (.ok (), l')) :
    l'.Troubled := by
  fun_induction Lexer.finishWord l with
  | case1 l cause after scanned => cases e
  | case2 l after scanned => exact absurd rfl (h.scan scanned).1
  | case3 l c after scanned ends =>
    cases e
    exact h.giveBack (h.scan scanned).2
  | case4 l c after scanned goesOn ih => exact ih (h.scan scanned).2 e

/-- A comment that is skipped without an error lies in front of the failure. -/
theorem Troubled.skipComment (h : l.Troubled) (e : l.skipComment = (.ok (), l')) :
    l'.Troubled := by
  fun_induction Lexer.skipComment l with
  | case1 l cause after scanned => cases e
  | case2 l after scanned => exact absurd rfl (h.scan scanned).1
  | case3 l after scanned =>
    cases e
    exact h.giveBack (h.scan scanned).2
  | case4 l c after scanned goesOn ih => exact ih (h.scan scanned).2.discard e

/-- A step fails, or the failure is still to come. -/
theorem Troubled.step (h : l.Troubled) {item : Option Item} (e : l.step = (item, l')) :
    (∃ cause, item = some (.error cause)) ∨ l'.Troubled := by
  cases stepped_of_step e with
  | failed | failedComment | failedWord => exact .inl ⟨_, rfl⟩
  -- the only step that gives the end marker would have found the end, which is behind the failure
  | ended scanned => exact absurd rfl (h.scan scanned).1
  | blank scanned => exact .inr (h.scan scanned).2.discard
  | newLine scanned =>
    have after := (h.scan scanned).2.discard
    exact .inr ⟨after.going, after.window⟩
  | comment scanned _ done => exact .inr ((h.scan scanned).2.discard.skipComment done)
  | word scanned _ _ done => exact .inr (((h.scan scanned).2.finishWord done).takeWord _)

/-- The next item is an error, or a token with the failure still to come. -/
theorem Troubled.next (h : l.Troubled) :
    (∃ cause l', l.next = (some (.error cause), l')) ∨
      ∃ given l', l.next = (some (.ok given), l') ∧ l'.Troubled := by
  fun_induction Lexer.next l with
  | case1 l last =>
    rw [h.going] at last
    cases last
  | case2 l going cause after e => exact .inl ⟨_, _, rfl⟩
  | case3 l going given after e =>
    rcases h.step e with ⟨cause, failed⟩ | after
    · cases failed
    · exact .inr ⟨_, _, rfl, after⟩
  | case4 l going after e ih =>
    rcases h.step e with ⟨cause, failed⟩ | after
    · cases failed
    · exact ih after

theorem Troubled.takeReads (h : l.Troubled) : l.takeReads.2.Troubled :=
  ⟨h.going, h.window.takeReads⟩

end Lexer

/-! ## 3. Reading in front of a failure -/

/-- No reader gets a grammar from a lexer in front of a failure: its tokens never run
out, and sooner or later one of them is an error. -/
theorem outcome_readRules_of_troubled {l : Lexer} (h : l.Troubled) (r : RuleReader) (g : Grammar) :
    (readRules l r).outcome ≠ .ok g := by
  fun_induction readRules l r with
  -- the items would have run out, but in front of a failure there is always another one
  | case1 l r l' e =>
    rcases h.next with ⟨cause, l₁, e'⟩ | ⟨given, l₁, e', -⟩ <;> cases e.symm.trans e'
  | case2 l r cause l' e =>
    intro ok
    cases ok
  | case3 l r token span l' e ih =>
    rcases h.next with ⟨cause, l₁, e'⟩ | ⟨given, l₁, e', after⟩
    · cases e.symm.trans e'
    cases e.symm.trans e'
    rw [Logged.outcome_after, Logged.outcome_bind]
    cases (r.step token span).outcome with
    | error cause =>
      intro ok
      cases ok
    | ok r' => exact ih r' after.takeReads

/-- **A grammar is read where no read fails.** -/
theorem faultsOf_of_readGrammar {source : Source} (flows : source.Flows) {g : Grammar}
    (h : (readGrammar source).outcome = .ok g) : faultsOf source.events = [] := by
  by_contra faults
  unfold readGrammar at h
  cases started : Window.ofSource source with
  | error cause =>
    rw [started] at h
    cases h
  | ok w =>
    rw [started] at h
    have troubled := Window.troubled_of_ofSource flows faults started
    exact outcome_readRules_of_troubled (l := .ofWindow w) ⟨rfl, troubled⟩ .start g h

end Bnf

end ChomskyForm
