/-
What a failing scan loses: nothing.

A scan may fail in the middle of a character, when some of its bytes were read
already. The token is as it was before, and so are the bytes that are to come: a
scan that fails without a failing read leaves the outlook as it is, and a failing
read takes nothing from it but the failure. So one who repeats every scan that
reports a failing read gets what the source without those failures would give.

The comparison is made between outlooks. `Outlook.cleared` leaves the failures
out, and `Outlook.fill` and `Outlook.scan` either report the first failure and
clear to the same, or answer what they answer when cleared.
-/
import ChomskyForm.Proofs.Input.Outlook

set_option autoImplicit false

namespace ChomskyForm

/-! ## 1. The bytes and the failures of a row -/

/-- The bytes of a row of events, without the failures between them. -/
def bytesOf : List (Except Fault UInt8) → List UInt8
  | [] => []
  | .ok b :: rest => b :: bytesOf rest
  | .error _ :: rest => bytesOf rest

/-- The failures of a row of events. -/
def faultsOf : List (Except Fault UInt8) → List Fault
  | [] => []
  | .ok _ :: rest => faultsOf rest
  | .error cause :: rest => cause :: faultsOf rest

section Rows

variable (bytes : List UInt8) (events : List (Except Fault UInt8))

/-- Bytes in front are the first of all bytes. -/
theorem bytesOf_append : bytesOf (bytes.map .ok ++ events) = bytes ++ bytesOf events := by
  induction bytes with
  | nil => rfl
  | cons b rest ih => rw [List.map_cons, List.cons_append, bytesOf, ih, List.cons_append]

theorem faultsOf_append : faultsOf (bytes.map .ok ++ events) = faultsOf events := by
  induction bytes with
  | nil => rfl
  | cons b rest ih => rw [List.map_cons, List.cons_append, faultsOf, ih]

/-- A row is bytes alone, or bytes up to a first failure. -/
theorem splitFault_cases :
    (∃ bytes, events = bytes.map .ok ++ [] ∧ splitFault events = (bytes, [])) ∨
      ∃ bytes cause behind, events = bytes.map .ok ++ .error cause :: behind ∧
        splitFault events = (bytes, .error cause :: behind) := by
  induction events with
  | nil => exact .inl ⟨[], rfl, rfl⟩
  | cons event rest ih =>
    cases event with
    | error cause => exact .inr ⟨[], cause, rest, rfl, rfl⟩
    | ok b =>
      rcases ih with ⟨bytes, row, split⟩ | ⟨bytes, cause, behind, row, split⟩
      · refine .inl ⟨b :: bytes, by rw [row]; rfl, ?_⟩
        rw [splitFault, split]
      · refine .inr ⟨b :: bytes, cause, behind, by rw [row]; rfl, ?_⟩
        rw [splitFault, split]

/-- The bytes before the first failure are the first of all bytes. -/
theorem splitFault_isPrefix_bytesOf : (splitFault events).1 <+: bytesOf events := by
  rcases splitFault_cases events with ⟨bytes, row, split⟩ | ⟨bytes, cause, behind, row, split⟩ <;>
  · rw [split, row, bytesOf_append]
    exact List.prefix_append _ _

variable {events} {count : Nat}

/-- Bytes that come before the first failure can be taken away apart from it. -/
theorem drop_bytes (enough : count ≤ (splitFault events).1.length) :
    bytesOf (events.drop count) = (bytesOf events).drop count ∧
      faultsOf (events.drop count) = faultsOf events := by
  rcases splitFault_cases events with ⟨bytes, row, split⟩ | ⟨bytes, cause, behind, row, split⟩ <;>
  · rw [split] at enough
    have ahead : count ≤ (bytes.map (Except.ok (ε := Fault))).length := by rwa [List.length_map]
    rw [row, List.drop_append_of_le_length ahead, ← List.map_drop, bytesOf_append, bytesOf_append,
      faultsOf_append, faultsOf_append, List.drop_append_of_le_length enough]
    exact ⟨rfl, rfl⟩

end Rows

/-! ## 2. Scanning with and without failures -/

namespace Outlook

/-- The outlook without the failures. -/
def cleared (o : Outlook) : Outlook := ⟨o.scanned, (bytesOf o.upcoming).map .ok⟩

/-- What was answered was not that a read failed. -/
def Unfailed {α : Type} (answer : Except ReadError α) : Prop :=
  ∀ cause, answer ≠ .error (.fault cause)

theorem unfailed_ok {α : Type} (a : α) : Unfailed (.ok a) := by
  intro cause h
  cases h

/-- An error is no failing read if it is of another sort. -/
theorem unfailed_error_iff {α : Type} {e : ReadError} :
    Unfailed (.error e : Except ReadError α) ↔ ∀ cause, e ≠ .fault cause := by
  constructor
  · intro h cause same
    exact h cause (congrArg Except.error same)
  · intro h cause same
    exact h cause (Except.error.inj same)

/-- What is done with failures to come, against what is done without: the first
failure is reported and nothing else happens, or the answers are the same. Only
what succeeds changes the outlook. -/
inductive Clears {α : Type} (o : Outlook) : Except ReadError α × Outlook →
    Except ReadError α × Outlook → Prop
  | fault {cause : Fault} {o' : Outlook} {other : Except ReadError α × Outlook} :
      o'.cleared = o.cleared → faultsOf o.upcoming = cause :: faultsOf o'.upcoming →
      Clears o (.error (.fault cause), o') other
  | stays {answer : Except ReadError α} : Unfailed answer → Clears o (answer, o) (answer, o.cleared)
  | moves {a : α} {o' : Outlook} : faultsOf o'.upcoming = faultsOf o.upcoming →
      Clears o (.ok a, o') (.ok a, o'.cleared)

variable {o : Outlook} {need : Nat}

/-- Filling reports the first failure and takes it away, or it changes nothing
and answers what it answers without failures. -/
theorem fill_cases (o : Outlook) (need : Nat) :
    (∃ cause o', o.fill need = (.error (.fault cause), o') ∧ o'.cleared = o.cleared ∧
        faultsOf o.upcoming = cause :: faultsOf o'.upcoming) ∨
      ∃ answer, Unfailed answer ∧ o.fill need = (answer, o) ∧
        o.cleared.fill need = (answer, o.cleared) := by
  obtain ⟨scanned, events⟩ := o
  obtain ⟨bytes, behind, split⟩ : ∃ bytes behind, splitFault events = (bytes, behind) :=
    ⟨_, _, rfl⟩
  have split' := splitFault_bytes (bytesOf events)
  have long : bytes.length ≤ (bytesOf events).length := by
    have leading := (splitFault_isPrefix_bytesOf events).length_le
    rwa [split] at leading
  by_cases enough : need ≤ bytes.length ∧ Utf8.size scanned + need ≤ Window.capacity
  · exact .inr ⟨.ok true, unfailed_ok true,
      fill_of_enough split enough.1 enough.2, fill_of_enough split' (by omega) enough.2⟩
  by_cases full : Window.capacity ≤ Utf8.size scanned + bytes.length
  · -- more bytes do not help, for the room is less than what is needed
    have tight' : ¬ (need ≤ (bytesOf events).length ∧
        Utf8.size scanned + need ≤ Window.capacity) := by omega
    have full' : Window.capacity ≤ Utf8.size scanned + (bytesOf events).length := by omega
    exact .inr ⟨.error .tokenTooLong, unfailed_error_iff.2 fun _ => ReadError.noConfusion,
      fill_of_full split enough full, fill_of_full split' tight' full'⟩
  -- too few bytes come before a failure or the end, and there is room to find that out
  have room : Utf8.size scanned + bytes.length < Window.capacity := Nat.lt_of_not_le full
  have few : ¬ need ≤ bytes.length := by omega
  rcases splitFault_cases events with ⟨bytes, row, e⟩ | ⟨bytes, cause, behind, row, e⟩
  · cases split.symm.trans e
    have same : bytesOf events = bytes := by
      rw [row, bytesOf_append]
      exact List.append_nil _
    rw [same] at split'
    refine .inr ⟨.ok false, unfailed_ok false, fill_of_finished split few room, ?_⟩
    unfold cleared
    rw [same]
    exact fill_of_finished split' few room
  · cases split.symm.trans e
    refine .inl ⟨cause, _, fill_of_fault split few room, ?_, ?_⟩
    · unfold cleared
      rw [row, bytesOf_append, bytesOf_append]
      rfl
    · rw [row, faultsOf_append, faultsOf_append]
      rfl

/-- What filling answered with yes comes before the first failure. -/
theorem fill_true {o' : Outlook} (h : o.fill need = (.ok true, o')) :
    need ≤ (splitFault o.upcoming).1.length := by
  simp only [fill] at h
  split at h
  · rename_i enough
    exact enough.1
  split at h
  · cases h
  split at h <;> cases h

/-- **Scanning without failures** answers what scanning with them does, but for
their reports. -/
theorem scan_clears (o : Outlook) : Clears o o.scan o.cleared.scan := by
  have leading : (splitFault o.upcoming).1 <+: (splitFault o.cleared.upcoming).1 := by
    rw [cleared, splitFault_bytes]
    exact splitFault_isPrefix_bytesOf o.upcoming
  unfold scan
  rcases o.fill_cases 1 with ⟨cause, o₁, e, same, first⟩ | ⟨found, unfailed, e, e'⟩
  · rw [e]
    exact .fault same first
  rw [e, e']
  match found, unfailed, e with
  | .error cause, unfailed, _ =>
    exact .stays (unfailed_error_iff.2 (unfailed_error_iff.1 unfailed))
  | .ok false, _, _ => exact .stays (unfailed_ok none)
  | .ok true, _, e =>
    dsimp only
    rw [← head?_eq_of_isPrefix leading (fill_true e)]
    -- both outlooks show the same first byte, so the same width is announced
    cases (splitFault o.upcoming).1.head?.bind Utf8.width? with
    | none => exact .stays (unfailed_error_iff.2 fun _ => ReadError.noConfusion)
    | some width =>
      dsimp only
      rcases o.fill_cases width with ⟨cause, o₂, e₂, same, first⟩ | ⟨found, unfailed, e₂, e₂'⟩
      · rw [e₂]
        exact .fault same first
      rw [e₂, e₂']
      match found, unfailed, e₂ with
      | .error cause, unfailed, _ =>
        exact .stays (unfailed_error_iff.2 (unfailed_error_iff.1 unfailed))
      | .ok false, _, _ => exact .stays (unfailed_error_iff.2 fun _ => ReadError.noConfusion)
      | .ok true, _, e₂ =>
        have enough := fill_true e₂
        dsimp only
        -- and the same bytes of the character
        rw [← take_eq_of_isPrefix leading enough]
        cases Utf8.decode? ((splitFault o.upcoming).1.take width) with
        | none => exact .stays (unfailed_error_iff.2 fun _ => ReadError.noConfusion)
        | some c =>
          have dropped := drop_bytes enough
          have behind : (⟨c :: o.scanned, o.upcoming.drop width⟩ : Outlook).cleared =
              ⟨c :: o.scanned, o.cleared.upcoming.drop width⟩ := by
            unfold cleared
            rw [dropped.1, List.map_drop]
          dsimp only
          rw [show o.cleared.scanned = o.scanned from rfl, ← behind]
          exact .moves dropped.2

/-- A scan that fails without a failing read leaves the outlook as it is. -/
theorem scan_error {e : ReadError} (failed : o.scan.1 = .error e)
    (other : ∀ cause, e ≠ .fault cause) : o.scan.2 = o := by
  have clears := o.scan_clears
  generalize o.scan = result, o.cleared.scan = without at clears failed ⊢
  cases clears with
  | fault same first => exact absurd (Except.error.inj failed).symm (other _)
  | stays unfailed => rfl
  | moves faults => cases failed

/-- What is given back adds no failure, so it can be cleared before or after. -/
theorem back_cleared (o : Outlook) :
    o.cleared.back = (o.back.1, o.back.2.cleared) ∧
      faultsOf o.back.2.upcoming = faultsOf o.upcoming := by
  obtain ⟨scanned, events⟩ := o
  cases scanned with
  | nil => exact ⟨rfl, rfl⟩
  | cons c rest =>
    refine ⟨?_, faultsOf_append _ _⟩
    simp only [back, cleared, bytesOf_append, List.map_append]

/-- A step is a scan that reports the first failure, or it answers what it
answers without failures. -/
theorem perform_cases (o : Outlook) (step : Window.Step) :
    (∃ cause, step = .scan ∧ o.scan.1 = .error (.fault cause) ∧ o.scan.2.cleared = o.cleared ∧
        faultsOf o.upcoming = cause :: faultsOf o.scan.2.upcoming) ∨
      (∀ cause, (o.perform step).1 ≠ .scanned (.error (.fault cause))) ∧
        o.cleared.perform step = ((o.perform step).1, (o.perform step).2.cleared) ∧
        faultsOf (o.perform step).2.upcoming = faultsOf o.upcoming := by
  cases step with
  | scan =>
    have clears := o.scan_clears
    unfold perform
    generalize o.scan = result, o.cleared.scan = without at clears ⊢
    cases clears with
    | fault same first => exact .inl ⟨_, rfl, rfl, same, first⟩
    | stays unfailed =>
      refine .inr ⟨?_, rfl, rfl⟩
      intro cause h
      exact unfailed cause (Window.Answer.scanned.inj h)
    | moves faults =>
      refine .inr ⟨?_, rfl, faults⟩
      intro cause h
      cases h
  | back =>
    obtain ⟨same, faults⟩ := o.back_cleared
    refine .inr ⟨?_, ?_, faults⟩
    · intro cause h
      cases h
    · unfold perform
      rw [same]
  | pop =>
    refine .inr ⟨?_, rfl, rfl⟩
    intro cause h
    cases h

end Outlook

/-! ## 3. Steps that are repeated -/

namespace Window

variable {w w' : Window}

/-- The steps of one who repeats every scan that reports a failing read: what
was reported in this way, the other answers, and the window at the end. -/
inductive Retries : Window → List Step → List Fault → List Answer → Window → Prop
  | done {w : Window} : Retries w [] [] [] w
  | again {w last : Window} {cause : Fault} {steps : List Step} {reported : List Fault}
      {answers : List Answer} : w.scan.1 = .error (.fault cause) →
      Retries w.scan.2 (.scan :: steps) reported answers last →
      Retries w (.scan :: steps) (cause :: reported) answers last
  | go {w last : Window} {step : Step} {steps : List Step} {reported : List Fault}
      {answers : List Answer} : (∀ cause, (w.perform step).1 ≠ .scanned (.error (.fault cause))) →
      Retries (w.perform step).2 steps reported answers last →
      Retries w (step :: steps) reported ((w.perform step).1 :: answers) last

/-- A window stays sound whatever steps are taken. -/
theorem Sound.after (h : w.Sound) (steps : List Step) : (w.after steps).Sound := by
  induction steps generalizing w with
  | nil => exact h
  | cons step rest ih => exact ih (h.perform step)

/-- What a step does, by what it does to the outlook. -/
theorem Sound.perform_cases (h : w.Sound) (step : Step) :
    (∃ cause, step = .scan ∧ w.scan.1 = .error (.fault cause) ∧
        w.scan.2.outlook.cleared = w.outlook.cleared ∧
        faultsOf w.upcoming = cause :: faultsOf w.scan.2.upcoming) ∨
      (∀ cause, (w.perform step).1 ≠ .scanned (.error (.fault cause))) ∧
        w.outlook.cleared.perform step =
          ((w.perform step).1, (w.perform step).2.outlook.cleared) ∧
        faultsOf (w.perform step).2.upcoming = faultsOf w.upcoming := by
  have cases := w.outlook.perform_cases step
  rw [← h.perform_eq step, ← h.scan_eq] at cases
  exact cases

/-- To repeat what failed comes to an end: every time there is a failure less. -/
theorem Sound.exists_retries {w : Window} (h : w.Sound) (steps : List Step) :
    ∃ reported answers last, Retries w steps reported answers last := by
  cases steps with
  | nil => exact ⟨[], [], w, .done⟩
  | cons step rest =>
    rcases h.perform_cases step with ⟨cause, rfl, failed, -, first⟩ | ⟨unfailed, -, faults⟩
    · -- the failure was reported, and it is not to be met again
      obtain ⟨reported, answers, last, run⟩ := h.scan.exists_retries (.scan :: rest)
      exact ⟨cause :: reported, answers, last, .again failed run⟩
    · obtain ⟨reported, answers, last, run⟩ := (h.perform step).exists_retries rest
      exact ⟨reported, _, last, .go unfailed run⟩
termination_by (faultsOf w.upcoming).length + steps.length
decreasing_by
  · simp only [first, List.length_cons]
    omega
  · simp only [faults, List.length_cons]
    omega

/-- **Repeating gives what the source without failures gives**, and reports the
first failures, each once. -/
theorem Retries.answers_eq {steps : List Step} {reported : List Fault} {answers : List Answer}
    {last : Window} (run : Retries w steps reported answers last) (h : w.Sound) :
    answers = w.outlook.cleared.answers steps ∧
      faultsOf w.upcoming = reported ++ faultsOf last.upcoming := by
  induction run with
  | done => exact ⟨rfl, rfl⟩
  | @again w last cause steps reported answers failed run ih =>
    obtain ⟨same, behind⟩ := ih h.scan
    rcases h.perform_cases .scan with ⟨cause', -, failed', cleared, first⟩ | ⟨unfailed, -, -⟩
    · rw [failed] at failed'
      cases failed'
      refine ⟨by rw [same, cleared], ?_⟩
      rw [first, behind, List.cons_append]
    · exact absurd (congrArg Answer.scanned failed) (unfailed cause)
  | @go w last step steps reported answers unfailed run ih =>
    obtain ⟨same, behind⟩ := ih (h.perform step)
    rcases h.perform_cases step with ⟨cause, rfl, failed, -, -⟩ | ⟨-, cleared, faults⟩
    · exact absurd (congrArg Answer.scanned failed) (unfailed cause)
    · refine ⟨?_, faults.symm.trans behind⟩
      rw [Outlook.answers, cleared, same]

/-! ## 4. A scan that fails -/

/-- What giving back and taking out answer is told by the token alone. -/
theorem answers_of_scanned (same : w'.scanned = w.scanned) {steps : List Step}
    (unread : .scan ∉ steps) : w'.answers steps = w.answers steps := by
  induction steps generalizing w w' with
  | nil => rfl
  | cons step rest ih =>
    rw [List.mem_cons, not_or] at unread
    obtain ⟨first, others⟩ := unread
    have answer : (w'.perform step).1 = (w.perform step).1 ∧
        (w'.perform step).2.scanned = (w.perform step).2.scanned := by
      cases step with
      | scan => exact absurd rfl first
      | back =>
        unfold perform back
        rw [same]
        cases w.scanned with
        | nil => exact ⟨rfl, same⟩
        | cons c before => exact ⟨rfl, rfl⟩
      | pop =>
        unfold perform pop
        rw [same]
        exact ⟨rfl, rfl⟩
    rw [answers, answers, answer.1, ih answer.2 others]

/-- A scan that fails leaves the token, whatever the failure is. -/
theorem scanned_scan_error {e : ReadError} (failed : w.scan.1 = .error e) :
    w.scan.2.scanned = w.scanned := by
  rw [scanned_scan, failed]

/-- But for a failing read, a scan that fails leaves all answers as they are. -/
theorem Sound.answers_scan_error (h : w.Sound) {e : ReadError} (failed : w.scan.1 = .error e)
    (other : ∀ cause, e ≠ .fault cause) (steps : List Step) :
    w.scan.2.answers steps = w.answers steps := by
  have spec := h.scan_eq
  have failed' : w.outlook.scan.1 = .error e := (congrArg Prod.fst spec).symm.trans failed
  have stays : w.scan.2.outlook = w.outlook :=
    (congrArg Prod.snd spec).trans (Outlook.scan_error failed' other)
  rw [h.scan.answers_eq, stays, h.answers_eq]

/-- What is kept of a window `w` when scans fail, where `w'` stands before the
same source without its failures. -/
structure LosesNothing (w w' : Window) : Prop where
  /-- The token is what it was. -/
  token : ∀ before e, (w.after before).scan.1 = .error e →
    (w.after before).scan.2.scanned = (w.after before).scanned
  /-- Up to the next scan the answers are what they were. -/
  unread : ∀ before e later, (w.after before).scan.1 = .error e → .scan ∉ later →
    (w.after before).scan.2.answers later = (w.after before).answers later
  /-- If no read failed, all answers are. -/
  unfailed : ∀ before e later, (w.after before).scan.1 = .error e → (∀ cause, e ≠ .fault cause) →
    (w.after before).scan.2.answers later = (w.after before).answers later
  /-- To repeat what a failing read made fail comes to an end. -/
  ends : ∀ steps, ∃ reported answers last, Retries w steps reported answers last
  /-- It gives the answers without the failures, and every failure that is met
  is reported once. -/
  repeated : ∀ steps reported answers last, Retries w steps reported answers last →
    answers = w'.answers steps ∧ faultsOf w.upcoming = reported ++ faultsOf last.upcoming

/-- **A failing scan loses nothing.** -/
theorem failing_scans_lose_nothing {a b : Source} (flows : a.Flows) (flows' : b.Flows)
    (behind : ∀ cause rest, a.events ≠ .error cause :: rest)
    (clean : b.events = (bytesOf a.events).map .ok) :
    ∃ w w', ofSource a = .ok w ∧ ofSource b = .ok w' ∧ w.upcoming = a.events ∧
      w.LosesNothing w' := by
  have first : ∀ cause rest, b.events ≠ .error cause :: rest := by
    intro cause rest h
    rw [clean] at h
    cases e : bytesOf a.events <;> rw [e] at h <;> cases h
  obtain ⟨w, started, sound, told⟩ := ofSource_of_first flows behind
  obtain ⟨w', started', sound', told'⟩ := ofSource_of_first flows' first
  have cleared : w.outlook.cleared = w'.outlook := by
    rw [told, told', clean]
    rfl
  refine ⟨w, w', started, started', congrArg Outlook.upcoming told, ?_⟩
  constructor
  case token =>
    intro before e failed
    exact scanned_scan_error failed
  case unread =>
    intro before e later failed unread
    exact answers_of_scanned (scanned_scan_error failed) unread
  case unfailed =>
    intro before e later failed other
    exact (sound.after before).answers_scan_error failed other later
  case ends => exact sound.exists_retries
  case repeated =>
    intro steps reported answers last run
    obtain ⟨same, reports⟩ := run.answers_eq sound
    rw [cleared, ← sound'.answers_eq] at same
    exact ⟨same, reports⟩

/-- A delivery that fails twice within one character. -/
def troubledDelivery : Source :=
  ⟨[.bytes [0x61, 0xE2], .fault ⟨.other, "not now"⟩, .bytes [0x86],
    .fault ⟨.permissionDenied, "not you"⟩, .interruption, .bytes [0x92, 0x62]], none⟩

/-- The two failures fall within one character, and the scan of it is repeated twice. -/
theorem failing_scans_lose_nothing_troubled :
    troubledDelivery.Flows ∧ (Source.ofBytes [0x61, 0xE2, 0x86, 0x92, 0x62]).Flows ∧
      (∀ cause rest, troubledDelivery.events ≠ .error cause :: rest) ∧
      (Source.ofBytes [0x61, 0xE2, 0x86, 0x92, 0x62]).events =
        (bytesOf troubledDelivery.events).map .ok ∧
      ∃ w w', ofSource troubledDelivery = .ok w ∧
        ofSource (.ofBytes [0x61, 0xE2, 0x86, 0x92, 0x62]) = .ok w' ∧
        w.upcoming = troubledDelivery.events ∧ w.LosesNothing w' :=
  have flows : troubledDelivery.Flows := fun h => by cases h
  have flows' := Source.flows_ofBytes [0x61, 0xE2, 0x86, 0x92, 0x62]
  have behind : ∀ cause rest, troubledDelivery.events ≠ .error cause :: rest :=
    fun cause rest h => by cases h
  ⟨flows, flows', behind, rfl, failing_scans_lose_nothing flows flows' behind rfl⟩

end Window

end ChomskyForm
