/-
The result does not depend on how bytes are delivered.

Two sources may cut one stream into reads of different sizes and interrupt it
anywhere. The windows before them then hold different bytes at every moment, but
they have one outlook, and with it they answer alike. The lexer asks nothing
else of its window, the reader nothing else of the lexer, and the conversion
nothing else of the reader; so the tokens, their places, the grammar and the
first error are those of the stream.
-/
import ChomskyForm.Conversion
import ChomskyForm.Proofs.Bnf.Lexes
import ChomskyForm.Proofs.Input.Reported

set_option autoImplicit false

namespace ChomskyForm.Bnf

namespace Lexer

/-! ## 1. Two lexers before windows that cannot be told apart -/

/-- Two lexers at one place, before windows that cannot be told apart. -/
structure Alike (l l' : Lexer) : Prop where
  window : l.window.Indistinct l'.window
  position : l.position = l'.position
  lineHasToken : l.lineHasToken = l'.lineHasToken
  finished : l.finished = l'.finished

variable {l l' : Lexer}

/-- Before windows with one outlook, two fresh lexers are alike. -/
theorem alike_ofWindow {w w' : Window} (h : w.Alike w') : Alike (ofWindow w) (ofWindow w') :=
  ⟨h.answers_eq, rfl, rfl, rfl⟩

/-- Lexers that are alike scan alike. A failure is given the place where the lexer
stands, so the places have to agree here already. -/
theorem Alike.scan (h : Alike l l') : Agree Alike l.scan l'.scan := by
  obtain ⟨answer, window⟩ := h.window.scan
  unfold Lexer.scan
  cases e : l.window.scan with
  | mk found w =>
  cases e' : l'.window.scan with
  | mk found' w' =>
  rw [e, e'] at answer window
  cases answer
  match found with
  | .error cause =>
    exact ⟨by rw [h.position], window, h.position, h.lineHasToken, h.finished⟩
  | .ok none => exact ⟨rfl, window, h.position, h.lineHasToken, h.finished⟩
  | .ok (some c) =>
    exact ⟨rfl, window, congrArg (Position.after · c) h.position, h.lineHasToken, h.finished⟩

theorem Alike.discard (h : Alike l l') : Alike l.discard l'.discard :=
  ⟨h.window.pop.state, h.position, h.lineHasToken, h.finished⟩

/-- They stay alike when both give a character back: each takes its place from before
the scan, and there they agreed. -/
theorem Alike.giveBack {scanned scanned' : Lexer} (h : Alike l l')
    (behind : Alike scanned scanned') : Alike (l.giveBack scanned) (l'.giveBack scanned') :=
  ⟨behind.window.back.state, h.position, h.lineHasToken, h.finished⟩

theorem Alike.finish (h : Alike l l') : Alike l.finish l'.finish :=
  ⟨h.window, h.position, h.lineHasToken, rfl⟩

/-- What the second of two lexers that are alike scans, if the first one scanned
something. -/
theorem Alike.scan_eq (h : Alike l l') {answer : Except LexError (Option Char)} {after : Lexer}
    (e : l.scan = (answer, after)) :
    ∃ after', l'.scan = (answer, after') ∧ Alike after after' :=
  h.scan.exists_eq e

/-- The rest of a word is scanned alike. The induction is on the scans of the first
lexer, and the second one is only unfolded once at a time. -/
theorem Alike.finishWord (h : Alike l l') : Agree Alike l.finishWord l'.finishWord := by
  fun_induction Lexer.finishWord l generalizing l' with
  | case1 l cause after e =>
    obtain ⟨after', e', state⟩ := h.scan_eq e
    rw [finishWord_eq l', e']
    exact ⟨rfl, state⟩
  | case2 l after e =>
    obtain ⟨after', e', state⟩ := h.scan_eq e
    rw [finishWord_eq l', e']
    exact ⟨rfl, state⟩
  | case3 l c after e ends =>
    obtain ⟨after', e', state⟩ := h.scan_eq e
    rw [finishWord_eq l', e']
    dsimp only
    rw [if_pos ends]
    exact ⟨rfl, h.giveBack state⟩
  | case4 l c after e goesOn ih =>
    obtain ⟨after', e', state⟩ := h.scan_eq e
    rw [finishWord_eq l', e']
    dsimp only
    rw [if_neg goesOn]
    exact ih state

theorem Alike.skipComment (h : Alike l l') : Agree Alike l.skipComment l'.skipComment := by
  fun_induction Lexer.skipComment l generalizing l' with
  | case1 l cause after e =>
    obtain ⟨after', e', state⟩ := h.scan_eq e
    rw [skipComment_eq l', e']
    exact ⟨rfl, state⟩
  | case2 l after e =>
    obtain ⟨after', e', state⟩ := h.scan_eq e
    rw [skipComment_eq l', e']
    exact ⟨rfl, state⟩
  | case3 l after e =>
    obtain ⟨after', e', state⟩ := h.scan_eq e
    rw [skipComment_eq l', e']
    exact ⟨rfl, h.giveBack state⟩
  | case4 l c after e goesOn ih =>
    obtain ⟨after', e', state⟩ := h.scan_eq e
    rw [skipComment_eq l', e']
    dsimp only
    rw [if_neg goesOn]
    exact ih state.discard

/-- A word is taken alike: its text is what both windows pop, and its places are those
of the lexers. -/
theorem Alike.takeWord (h : Alike l l') (start : Position) :
    Agree Alike (l.takeWord start) (l'.takeWord start) := by
  obtain ⟨text, window⟩ := h.window.pop
  unfold Lexer.takeWord
  dsimp only
  rw [text, h.position]
  cases Token.classify? l'.window.pop.1 with
  | some token => exact ⟨rfl, window, rfl, rfl, h.finished⟩
  | none => exact ⟨rfl, window, rfl, rfl, h.finished⟩

/-! ## 2. Items -/

/-- Steps of lexers that are alike give the same item and leave the lexers alike. -/
theorem Alike.step (h : Alike l l') : Agree Alike l.step l'.step := by
  unfold Lexer.step
  cases e : l.scan with
  | mk answer after =>
  obtain ⟨after', e', state⟩ := h.scan_eq e
  rw [e']
  match answer with
  | .error cause => exact ⟨rfl, state⟩
  | .ok none =>
    dsimp only
    rw [h.position]
    exact ⟨rfl, state.finish⟩
  | .ok (some c) =>
    dsimp only
    -- both lexers have the same character, so both take the same branch
    by_cases blank : isBlank c = true
    · rw [if_pos blank, if_pos blank]
      exact ⟨rfl, state.discard⟩
    rw [if_neg blank, if_neg blank]
    by_cases newLine : c = '\n'
    · rw [if_pos newLine, if_pos newLine, h.position, state.position]
      exact ⟨rfl, state.discard.window, state.position, rfl, state.finished⟩
    rw [if_neg newLine, if_neg newLine, h.lineHasToken]
    by_cases comment : c = '#' ∧ ¬ l'.lineHasToken = true
    · rw [if_pos comment, if_pos comment]
      obtain ⟨same, behind⟩ := state.discard.skipComment
      cases e₂ : after.discard.skipComment with
      | mk answer l₂ =>
      cases e₂' : after'.discard.skipComment with
      | mk answer' l₂' =>
      rw [e₂, e₂'] at same behind
      cases same
      cases answer <;> exact ⟨rfl, behind⟩
    · rw [if_neg comment, if_neg comment]
      obtain ⟨same, behind⟩ := state.finishWord
      cases e₂ : after.finishWord with
      | mk answer l₂ =>
      cases e₂' : after'.finishWord with
      | mk answer' l₂' =>
      rw [e₂, e₂'] at same behind
      cases same
      cases answer with
      | error cause => exact ⟨rfl, behind⟩
      | ok done =>
        obtain ⟨item, last⟩ := behind.takeWord l.position
        rw [← h.position]
        exact ⟨congrArg some item, last⟩

/-- What a step of the second lexer gives, if the first one has stepped. -/
theorem Alike.step_eq (h : Alike l l') {item : Option Item} {after : Lexer}
    (e : l.step = (item, after)) : ∃ after', l'.step = (item, after') ∧ Alike after after' :=
  h.step.exists_eq e

/-- The next items are the same, as both lexers come to them by the same number of
steps. -/
theorem Alike.next (h : Alike l l') : Agree Alike l.next l'.next := by
  fun_induction Lexer.next l generalizing l' with
  | case1 l last =>
    rw [next_of_finished (h.finished ▸ last)]
    exact ⟨rfl, h⟩
  | case2 l going cause after e =>
    obtain ⟨after', e', state⟩ := h.step_eq e
    rw [l'.next_eq (by rw [← h.finished]; exact Bool.eq_false_iff.2 going), e']
    exact ⟨rfl, state.finish⟩
  | case3 l going token after e =>
    obtain ⟨after', e', state⟩ := h.step_eq e
    rw [l'.next_eq (by rw [← h.finished]; exact Bool.eq_false_iff.2 going), e']
    exact ⟨rfl, state⟩
  | case4 l going after e ih =>
    obtain ⟨after', e', state⟩ := h.step_eq e
    rw [l'.next_eq (by rw [← h.finished]; exact Bool.eq_false_iff.2 going), e']
    exact ih state

/-- What the second lexer gives next, if the first one has given something. -/
theorem Alike.next_eq (h : Alike l l') {item : Option Item} {after : Lexer}
    (e : l.next = (item, after)) : ∃ after', l'.next = (item, after') ∧ Alike after after' :=
  h.next.exists_eq e

/-- **Lexers that are alike give the same items.** -/
theorem Alike.items_eq (h : Alike l l') : l.items.1 = l'.items.1 := by
  fun_induction Lexer.items l generalizing l' with
  | case1 l after e =>
    obtain ⟨after', e', -⟩ := h.next_eq e
    rw [l'.items_eq, e']
  | case2 l item after e others last e₂ ih =>
    obtain ⟨after', e', state⟩ := h.next_eq e
    have rest := ih state
    rw [e₂] at rest
    rw [l'.items_eq, e']
    exact congrArg (List.cons item) rest

/-- What was read is reported, and what is to come stays. -/
theorem alike_takeReads (l : Lexer) : Alike l l.takeReads.2 :=
  ⟨l.window.indistinct_takeReads, rfl, rfl, rfl⟩

/-- Lexers stay alike when their reads are reported. The reads themselves may differ, as
they are what tells two deliveries apart. -/
theorem Alike.takeReads (h : Alike l l') : Alike l.takeReads.2 l'.takeReads.2 :=
  have same : l.window.takeReads.2.Indistinct l'.window.takeReads.2 := fun steps => by
    rw [← l.window.indistinct_takeReads, h.window, l'.window.indistinct_takeReads]
  ⟨same, h.position, h.lineHasToken, h.finished⟩

end Lexer

/-! ## 3. Grammars -/

/-- A reader takes the same grammar, or finds the same error, behind lexers that
are alike. -/
theorem outcome_readRules_of_alike {l l' : Lexer} (h : l.Alike l') (r : RuleReader) :
    (readRules l r).outcome = (readRules l' r).outcome := by
  fun_induction readRules l r generalizing l' with
  | case1 l r after e =>
    obtain ⟨after', e', -⟩ := h.next_eq e
    rw [outcome_readRules_eq l', e']
    rfl
  | case2 l r cause after e =>
    obtain ⟨after', e', -⟩ := h.next_eq e
    rw [outcome_readRules_eq l', e']
    rfl
  | case3 l r token span after e ih =>
    obtain ⟨after', e', state⟩ := h.next_eq e
    rw [outcome_readRules_eq l', e', Logged.outcome_after, Logged.outcome_bind]
    dsimp only
    congr 1
    funext r'
    exact ih r' state.takeReads

/-- Reading a grammar depends on the events of the source only. A source whose first
read fails gives no window, and then the error is that of the other source as well. -/
theorem outcome_readGrammar_of_events {a b : Source} (flows : a.Flows) (flows' : b.Flows)
    (same : a.events = b.events) : (readGrammar a).outcome = (readGrammar b).outcome := by
  unfold readGrammar
  rcases Window.ofSource_alike flows flows' same with ⟨w, w', e, e', h⟩ | ⟨cause, e, e'⟩
  · rw [e, e']
    exact outcome_readRules_of_alike (Lexer.alike_ofWindow h) .start
  · rw [e, e']

/-- The conversion looks at its source only through the grammar that is read. -/
theorem outcome_convert_of_events {a b : Source} (flows : a.Flows) (flows' : b.Flows)
    (same : a.events = b.events) : (convert a).outcome = (convert b).outcome := by
  unfold convert
  rw [Logged.outcome_bind, Logged.outcome_bind, Logged.outcome_mapError, Logged.outcome_mapError,
    outcome_readGrammar_of_events flows flows' same]

/-! ## 4. Deliveries of one stream -/

/-- **How bytes are delivered cannot be told from the results.** Two sources of
one row of bytes and failures, whose reads deliver at least a byte each, give
the same answers to every row of steps on their windows, the same tokens at the
same places, the same grammar and the same normal form; and where one of them
fails the other one fails, with the same error. -/
theorem delivery_independent (a b : Source) (flows : a.Flows) (flows' : b.Flows)
    (same : a.events = b.events) :
    (∀ steps, (Window.ofSource a).map (Window.answers · steps) =
      (Window.ofSource b).map (Window.answers · steps)) ∧
    (Window.ofSource a).map (fun w => (Lexer.ofWindow w).items.1) =
      (Window.ofSource b).map (fun w => (Lexer.ofWindow w).items.1) ∧
    (readGrammar a).outcome = (readGrammar b).outcome ∧
    (convert a).outcome = (convert b).outcome := by
  have grammars := outcome_readGrammar_of_events flows flows' same
  have normalForms := outcome_convert_of_events flows flows' same
  rcases Window.ofSource_alike flows flows' same with ⟨w, w', e, e', h⟩ | ⟨cause, e, e'⟩
  · have items := (Lexer.alike_ofWindow h).items_eq
    rw [e, e']
    exact ⟨fun steps => congrArg Except.ok (h.answers_eq steps), congrArg Except.ok items,
      grammars, normalForms⟩
  · rw [e, e']
    exact ⟨fun _ => rfl, rfl, grammars, normalForms⟩

/-- A stream in one piece up to its failing read. -/
def wholeDelivery : Source :=
  ⟨[.bytes [60, 83, 62, 195, 169, 255], .fault ⟨.other, "broken"⟩, .bytes [10], .endMark], none⟩

/-- The same stream byte by byte, with interrupted reads and a cut inside of a
character. -/
def piecewiseDelivery : Source :=
  ⟨[.interruption, .bytes [60, 83, 62, 195], .interruption, .interruption, .bytes [169],
    .bytes [255], .fault ⟨.other, "broken"⟩, .interruption, .bytes [10], .endMark, .bytes [60]],
    some 1⟩

/-- The two of them differ in reads, interruptions and what comes behind the end, and
the results are the same. -/
theorem delivery_independent_piecewise :
    wholeDelivery.Flows ∧ piecewiseDelivery.Flows ∧
      wholeDelivery.events = piecewiseDelivery.events ∧
      (∀ steps, (Window.ofSource wholeDelivery).map (Window.answers · steps) =
        (Window.ofSource piecewiseDelivery).map (Window.answers · steps)) ∧
      (readGrammar wholeDelivery).outcome = (readGrammar piecewiseDelivery).outcome :=
  have flows : wholeDelivery.Flows := fun h => by cases h
  have flows' : piecewiseDelivery.Flows := fun h => by cases h
  have all := delivery_independent wholeDelivery piecewiseDelivery flows flows' rfl
  ⟨flows, flows', rfl, all.1, all.2.2.1⟩

end ChomskyForm.Bnf
