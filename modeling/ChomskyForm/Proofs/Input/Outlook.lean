/-
What a window can tell of its source.

Two windows that have scanned the same characters may hold different bytes: one
source gave a whole block, the other a byte at a time, and one may have met the
end of its source already. What they answer depends on none of that. It depends
on the characters scanned and on the bytes and failures that are still to come:
the `Outlook` of a window.

The reason is that a window reads on only when it needs a byte that it does not
have. So the end is met, and a failing read is made, when everything before it
is in the window, and a window is full when the token and what is needed behind
it exceed its capacity. Where the end was met before, it would be met again, for
the read that met it had room. `Outlook.fill` says what filling answers in these
terms, and `Sound.fill_eq` that every window does so, however its bytes came.
-/
import ChomskyForm.Proofs.Input.Sound

set_option autoImplicit false

namespace ChomskyForm

/-! ## 1. The outlook of a window -/

/-- What a window can tell of its source: the characters of the current token,
and the bytes and failures that are to come. -/
structure Outlook where
  scanned : List Char
  upcoming : List (Except Fault UInt8)

/-- The bytes before the first failure, and what comes from there on. -/
def splitFault : List (Except Fault UInt8) → List UInt8 × List (Except Fault UInt8)
  | .ok b :: rest => (b :: (splitFault rest).1, (splitFault rest).2)
  | events => ([], events)

theorem splitFault_nil : splitFault [] = ([], []) := rfl

/-- A failure in front leaves no byte before it. -/
theorem splitFault_error (cause : Fault) (behind : List (Except Fault UInt8)) :
    splitFault (.error cause :: behind) = ([], .error cause :: behind) := rfl

/-- Bytes in front of a row come before its first failure. -/
theorem splitFault_append (bytes : List UInt8) (events : List (Except Fault UInt8)) :
    splitFault (bytes.map .ok ++ events) =
      (bytes ++ (splitFault events).1, (splitFault events).2) := by
  induction bytes with
  | nil => rfl
  | cons b rest ih => rw [List.map_cons, List.cons_append, splitFault, ih, List.cons_append]

theorem splitFault_bytes (bytes : List UInt8) : splitFault (bytes.map .ok) = (bytes, []) := by
  have all := splitFault_append bytes []
  rwa [List.append_nil, splitFault_nil, List.append_nil] at all

/-- What filling answers, and the outlook after it. -/
def Outlook.fill (need : Nat) (o : Outlook) : Except ReadError Bool × Outlook :=
  let bytes := (splitFault o.upcoming).1
  if need ≤ bytes.length ∧ Utf8.size o.scanned + need ≤ Window.capacity then (.ok true, o)
  else if Window.capacity ≤ Utf8.size o.scanned + bytes.length then (.error .tokenTooLong, o)
  else
    match (splitFault o.upcoming).2 with
    | .error cause :: behind =>
      (.error (.fault cause), ⟨o.scanned, bytes.map .ok ++ behind⟩)
    | _ => (.ok false, o)

namespace Outlook

variable {need : Nat} {scanned : List Char} {upcoming behind : List (Except Fault UInt8)}
  {bytes : List UInt8}

/-- Filling answers yes if the bytes are there before a failure and the window can hold
them. -/
theorem fill_of_enough (split : splitFault upcoming = (bytes, behind))
    (enough : need ≤ bytes.length) (room : Utf8.size scanned + need ≤ Window.capacity) :
    fill need ⟨scanned, upcoming⟩ = (.ok true, ⟨scanned, upcoming⟩) := by
  simp only [fill, split]
  exact if_pos ⟨enough, room⟩

/-- Filling fails for lack of room if the bytes before the failure fill the window up. -/
theorem fill_of_full (split : splitFault upcoming = (bytes, behind))
    (tight : ¬ (need ≤ bytes.length ∧ Utf8.size scanned + need ≤ Window.capacity))
    (full : Window.capacity ≤ Utf8.size scanned + bytes.length) :
    fill need ⟨scanned, upcoming⟩ = (.error .tokenTooLong, ⟨scanned, upcoming⟩) := by
  simp only [fill, split]
  rw [if_neg tight, if_pos full]

/-- Filling answers no if the source ends before the bytes are there. -/
theorem fill_of_finished (split : splitFault upcoming = (bytes, []))
    (few : ¬ need ≤ bytes.length) (room : Utf8.size scanned + bytes.length < Window.capacity) :
    fill need ⟨scanned, upcoming⟩ = (.ok false, ⟨scanned, upcoming⟩) := by
  simp only [fill, split]
  rw [if_neg fun h => few h.1, if_neg (Nat.not_le.2 room)]

/-- Filling fails as the read does that is met before the bytes are there; the failure
is then past. -/
theorem fill_of_fault {cause : Fault}
    (split : splitFault upcoming = (bytes, .error cause :: behind))
    (few : ¬ need ≤ bytes.length) (room : Utf8.size scanned + bytes.length < Window.capacity) :
    fill need ⟨scanned, upcoming⟩ =
      (.error (.fault cause), ⟨scanned, bytes.map .ok ++ behind⟩) := by
  simp only [fill, split]
  rw [if_neg fun h => few h.1, if_neg (Nat.not_le.2 room)]

/-- What scanning answers, and the outlook after it. -/
def scan (o : Outlook) : Except ReadError (Option Char) × Outlook :=
  match o.fill 1 with
  | (.error e, o) => (.error e, o)
  | (.ok false, o) => (.ok none, o)
  | (.ok true, o) =>
    match (splitFault o.upcoming).1.head?.bind Utf8.width? with
    | none => (.error .invalidEncoding, o)
    | some width =>
      match o.fill width with
      | (.error e, o) => (.error e, o)
      | (.ok false, o) => (.error .truncatedCharacter, o)
      | (.ok true, o) =>
        match Utf8.decode? ((splitFault o.upcoming).1.take width) with
        | none => (.error .invalidEncoding, o)
        | some c => (.ok (some c), ⟨c :: o.scanned, o.upcoming.drop width⟩)

/-- What giving back answers, and the outlook after it. -/
def back (o : Outlook) : Option Char × Outlook :=
  match o.scanned with
  | [] => (none, o)
  | c :: rest => (some c, ⟨rest, (Utf8.encode c).map .ok ++ o.upcoming⟩)

/-- What taking out answers, and the outlook after it. -/
def pop (o : Outlook) : String × Outlook :=
  (String.ofList o.scanned.reverse, ⟨[], o.upcoming⟩)

end Outlook

/-! ## 2. Windows go by their outlook -/

namespace Window

/-- The outlook of a window, in which it does not count what was read ahead. -/
def outlook (w : Window) : Outlook := ⟨w.scanned, w.upcoming⟩

/-- What a load does to the outlook, by the reasons for its answer. -/
inductive Loads (w : Window) : Except ReadError Bool → Window → Prop
  | full {w' : Window} : capacity ≤ w.held → w'.outlook = w.outlook →
      Loads w (.error .tokenTooLong) w'
  | bytes {w' : Window} : w'.outlook = w.outlook → Loads w (.ok true) w'
  | finished {w' : Window} : w.held < capacity → w.upcoming = w.ahead.map .ok →
      w'.outlook = w.outlook → Loads w (.ok false) w'
  | fault {w' : Window} {cause : Fault} {behind : List (Except Fault UInt8)} :
      w.held < capacity → w.upcoming = w.ahead.map .ok ++ .error cause :: behind →
      w'.outlook = ⟨w.scanned, w.ahead.map .ok ++ behind⟩ →
      Loads w (.error (.fault cause)) w'

/-- The answer of a load of a sound window, with its reason. -/
theorem Sound.loads {w : Window} (h : w.Sound) : Loads w w.load.1 w.load.2 := by
  unfold load
  by_cases ended : w.ended = true
  · rw [if_pos ended]
    exact .finished (h.fits.ended ended) (upcoming_of_ended ended) rfl
  by_cases full : capacity ≤ w.held
  · rw [if_neg ended, if_pos full]
    exact .full full rfl
  have room := Nat.lt_of_not_le full
  have row := upcoming_of_not_ended ended
  -- the read has room, so what it delivers is what comes next
  have spec := Source.continues_read h.flows (Nat.sub_pos_of_lt room)
  rw [if_neg ended, if_neg full]
  cases e : w.source.read (capacity - w.held) with
  | bytes content rest =>
    rw [e] at spec
    obtain ⟨-, events⟩ := spec
    refine .bytes (congrArg (Outlook.mk w.scanned) ?_)
    rw [row, events, ← List.append_assoc, ← List.map_append]
    exact upcoming_of_not_ended ended
  | finished rest =>
    rw [e] at spec
    obtain ⟨-, events⟩ := spec
    rw [events, List.append_nil] at row
    refine .finished room row (congrArg (Outlook.mk w.scanned) ?_)
    rw [row]
    exact upcoming_of_ended rfl
  | fault cause rest =>
    rw [e] at spec
    obtain ⟨-, events⟩ := spec
    rw [events] at row
    exact .fault room row (congrArg (Outlook.mk w.scanned) (upcoming_of_not_ended ended))

/-- What is ahead is not a failure, so it comes before the first one. -/
theorem splitFault_upcoming (w : Window) {behind : List (Except Fault UInt8)}
    (row : w.upcoming = w.ahead.map .ok ++ behind) :
    splitFault w.upcoming = (w.ahead ++ (splitFault behind).1, (splitFault behind).2) := by
  rw [row, splitFault_append]

/-- **Filling depends on the outlook alone.** -/
theorem Sound.fill_eq {w : Window} (h : w.Sound) (need : Nat) :
    ((w.fill need).1, (w.fill need).2.outlook) = w.outlook.fill need := by
  fun_induction Window.fill need w with
  | case1 w enough =>
    rw [hasAtLeast_iff] at enough
    -- what is ahead is enough, and more that would come cannot change that
    have held : Utf8.size w.scanned + w.ahead.length ≤ capacity := h.fits.held
    have long :
        need ≤ (w.ahead ++ (splitFault (if w.ended then [] else w.source.events)).1).length :=
      Nat.le_trans enough (List.prefix_append _ _).length_le
    have room : Utf8.size w.scanned + need ≤ capacity := by omega
    exact (Outlook.fill_of_enough (w.splitFault_upcoming rfl) long room).symm
  -- a load that delivered leaves the outlook as it was
  | case2 w few w₁ e ih =>
    have loaded := h.loads
    have flows₁ := flows_load h.flows
    have fits₁ := fits_load h.fits
    rw [e] at loaded flows₁ fits₁
    cases loaded with
    | bytes same =>
      rw [← same]
      exact ih ⟨fits₁, flows₁⟩
  | case3 w few w₁ e =>
    rw [hasAtLeast_iff] at few
    have loaded := h.loads
    rw [e] at loaded
    -- everything that is upcoming is ahead, and that is too little
    cases loaded with
    | finished room row same =>
      rw [← List.append_nil (w.ahead.map Except.ok)] at row
      have split := w.splitFault_upcoming row
      rw [splitFault_nil, List.append_nil] at split
      rw [same]
      exact (Outlook.fill_of_finished split few room).symm
  | case4 w few cause w₁ e =>
    rw [hasAtLeast_iff] at few
    have loaded := h.loads
    rw [e] at loaded
    cases loaded with
    | full full same =>
      have held : capacity ≤ Utf8.size w.scanned + w.ahead.length := full
      have split := w.splitFault_upcoming rfl
      generalize (splitFault (if w.ended then [] else w.source.events)).1 = more at split
      have long := (List.prefix_append w.ahead more).length_le
      -- what is needed is not ahead, and behind it there is no room
      have tight : ¬ (need ≤ (w.ahead ++ more).length ∧
          Utf8.size w.scanned + need ≤ capacity) := by omega
      rw [same]
      exact (Outlook.fill_of_full split tight (by omega)).symm
    | fault room row after =>
      have split := w.splitFault_upcoming row
      rw [splitFault_error, List.append_nil] at split
      rw [after]
      exact (Outlook.fill_of_fault split few room).symm

/-- The bytes ahead are the first of those that come before a failure. -/
theorem ahead_isPrefix_splitFault (w : Window) : w.ahead <+: (splitFault w.upcoming).1 := by
  rw [w.splitFault_upcoming rfl]
  exact List.prefix_append _ _

/-- **Scanning depends on the outlook alone.** -/
theorem Sound.scan_eq {w : Window} (h : w.Sound) :
    (w.scan.1, w.scan.2.outlook) = w.outlook.scan := by
  have first := h.fill_eq 1
  have sound₁ := h.fill 1
  unfold Window.scan Outlook.scan
  cases e₁ : w.fill 1 with
  | mk found w₁ =>
  rw [e₁] at first sound₁
  rw [← first]
  match found with
  | .error cause => rfl
  | .ok false => rfl
  | .ok true =>
    -- the first byte is ahead, and it announces a width
    have byte : w₁.ahead.head? = (splitFault w₁.outlook.upcoming).1.head? :=
      head?_eq_of_isPrefix w₁.ahead_isPrefix_splitFault (le_length_ahead_fill e₁)
    dsimp only
    rw [← byte]
    cases w₁.ahead.head?.bind Utf8.width? with
    | none => rfl
    | some width =>
      have second := sound₁.fill_eq width
      dsimp only
      cases e₂ : w₁.fill width with
      | mk found w₂ =>
      rw [e₂] at second
      rw [← second]
      match found with
      | .error cause => rfl
      | .ok false => rfl
      | .ok true =>
        have enough := le_length_ahead_fill e₂
        have taken : w₂.ahead.take width = (splitFault w₂.outlook.upcoming).1.take width :=
          take_eq_of_isPrefix w₂.ahead_isPrefix_splitFault enough
        dsimp only
        rw [← taken]
        cases Utf8.decode? (w₂.ahead.take width) with
        | none => rfl
        | some c =>
          have behind : _ = w₂.outlook.upcoming.drop width :=
            upcoming_drop enough (c :: w₂.scanned)
          rw [← behind]
          rfl

/-- Giving back depends on the outlook alone. -/
theorem back_eq_outlook_back (w : Window) : (w.back.1, w.back.2.outlook) = w.outlook.back := by
  unfold Window.back Outlook.back
  cases e : w.scanned with
  | nil =>
    have e' : w.outlook.scanned = [] := e
    rw [e']
  | cons c rest =>
    have e' : w.outlook.scanned = c :: rest := e
    rw [e']
    -- the bytes of the character go in front of those that are ahead
    refine Prod.ext rfl (congrArg (Outlook.mk rest) ?_)
    unfold upcoming
    rw [List.map_append, List.append_assoc]
    rfl

/-- Taking out depends on the outlook alone, by definition. -/
theorem pop_eq_outlook_pop (w : Window) : (w.pop.1, w.pop.2.outlook) = w.outlook.pop := rfl

/-! ## 3. Rows of steps -/

/-- What can be asked of a window. -/
inductive Step where
  | scan
  | back
  | pop
deriving DecidableEq

/-- What a window answers. -/
inductive Answer where
  | scanned (found : Except ReadError (Option Char))
  | gaveBack (c : Option Char)
  | popped (text : String)
deriving DecidableEq

/-- Takes a step. An error leaves a window that can be asked further. -/
def perform (w : Window) : Step → Answer × Window
  | .scan => (.scanned w.scan.1, w.scan.2)
  | .back => (.gaveBack w.back.1, w.back.2)
  | .pop => (.popped w.pop.1, w.pop.2)

/-- The answers to a row of steps. -/
def answers (w : Window) : List Step → List Answer
  | [] => []
  | step :: rest => (w.perform step).1 :: (w.perform step).2.answers rest

/-- The window after a row of steps. -/
def after (w : Window) : List Step → Window
  | [] => w
  | step :: rest => (w.perform step).2.after rest

end Window

namespace Outlook

/-- What a window of this outlook answers to a step, and the outlook after it. -/
def perform (o : Outlook) : Window.Step → Window.Answer × Outlook
  | .scan => (.scanned o.scan.1, o.scan.2)
  | .back => (.gaveBack o.back.1, o.back.2)
  | .pop => (.popped o.pop.1, o.pop.2)

/-- What a window of this outlook answers to a row of steps. -/
def answers (o : Outlook) : List Window.Step → List Window.Answer
  | [] => []
  | step :: rest => (o.perform step).1 :: (o.perform step).2.answers rest

end Outlook

namespace Window

/-- Whatever step is taken, a sound window stays sound. -/
theorem Sound.perform {w : Window} (h : w.Sound) (step : Step) : (w.perform step).2.Sound := by
  cases step with
  | scan => exact h.scan
  | back => exact h.back
  | pop => exact h.pop

/-- A step depends on the outlook alone. -/
theorem Sound.perform_eq {w : Window} (h : w.Sound) (step : Step) :
    ((w.perform step).1, (w.perform step).2.outlook) = w.outlook.perform step := by
  cases step with
  | scan => exact congrArg (Prod.map Answer.scanned id) h.scan_eq
  | back => exact congrArg (Prod.map Answer.gaveBack id) w.back_eq_outlook_back
  | pop => exact congrArg (Prod.map Answer.popped id) w.pop_eq_outlook_pop

/-- **What a window answers can be told from its outlook.** -/
theorem Sound.answers_eq {w : Window} (h : w.Sound) (steps : List Step) :
    w.answers steps = w.outlook.answers steps := by
  induction steps generalizing w with
  | nil => rfl
  | cons step rest ih =>
    rw [answers, Outlook.answers, ← h.perform_eq step, ih (h.perform step)]

/-! ## 4. The first read -/

/-- Where nothing is ahead, to need a byte is to load. -/
theorem fill_one_eq_load {w : Window} (h : w.ahead = []) : w.fill 1 = w.load := by
  have nothing : ¬ hasAtLeast 1 w.ahead = true := by
    rw [h]
    exact Bool.false_ne_true
  rw [Window.fill, if_neg nothing]
  split
  · rename_i w₁ e
    -- whatever was loaded has a byte
    have more : 1 ≤ w₁.ahead.length := Nat.lt_of_le_of_lt (Nat.zero_le _) (load_true e).1
    rw [e, Window.fill, if_pos ((hasAtLeast_iff 1 w₁.ahead).2 more)]
  · rename_i e
    exact e.symm
  · rename_i e
    exact e.symm

/-- Starting fails where the first read does, and else leaves the outlook after a
byte was asked for. -/
theorem ofSource_eq {source : Source} (flows : source.Flows) :
    match Outlook.fill 1 ⟨[], source.events⟩ with
    | (.ok _, o) => ∃ w, ofSource source = .ok w ∧ w.Sound ∧ w.outlook = o
    | (.error e, _) => ofSource source = .error e := by
  have sound := sound_of_unread flows
  have spec := sound.fill_eq 1
  have loaded := sound.fill 1
  have start : outlook ⟨[], [], false, source, []⟩ = ⟨[], source.events⟩ := rfl
  rw [start] at spec
  rw [← spec, fill_one_eq_load rfl]
  rw [fill_one_eq_load rfl] at loaded
  unfold ofSource
  cases e : load ⟨[], [], false, source, []⟩ with
  | mk found w =>
  rw [e] at loaded
  cases found with
  | error cause => rfl
  | ok some => exact ⟨w, rfl, loaded, rfl⟩

/-- Starting succeeds where the first read does not fail, and leaves everything
still to come. -/
theorem ofSource_of_first {source : Source} (flows : source.Flows)
    (first : ∀ cause behind, source.events ≠ .error cause :: behind) :
    ∃ w, ofSource source = .ok w ∧ w.Sound ∧ w.outlook = ⟨[], source.events⟩ := by
  have started := ofSource_eq flows
  cases e : source.events with
  | nil =>
    have nothing : splitFault source.events = ([], []) := by rw [e, splitFault_nil]
    rw [Outlook.fill_of_finished nothing (Nat.not_succ_le_zero 0) (by decide)] at started
    rwa [← e]
  | cons event rest =>
    cases event with
    | error cause => exact absurd e (first cause rest)
    | ok b =>
      have any : splitFault source.events =
          (b :: (splitFault rest).1, (splitFault rest).2) := by rw [e, splitFault]
      rw [Outlook.fill_of_enough any (Nat.succ_le_succ (Nat.zero_le _)) (by decide)] at started
      rwa [← e]

/-! ## 5. Two windows with one outlook -/

/-- Two windows with one outlook, whatever each of them has read ahead. -/
structure Alike (w w' : Window) : Prop where
  outlook : w.outlook = w'.outlook
  fits : w.Fits
  fits' : w'.Fits
  flows : w.source.Flows
  flows' : w'.source.Flows

/-- Two deliveries of one stream start alike, or fail to start alike. -/
theorem ofSource_alike {a b : Source} (flows : a.Flows) (flows' : b.Flows)
    (same : a.events = b.events) :
    (∃ w w', ofSource a = .ok w ∧ ofSource b = .ok w' ∧ Alike w w') ∨
      ∃ e, ofSource a = .error e ∧ ofSource b = .error e := by
  have here := ofSource_eq flows
  have there := ofSource_eq flows'
  rw [same] at here
  cases e : Outlook.fill 1 ⟨[], b.events⟩ with
  | mk found o =>
  rw [e] at here there
  cases found with
  | error cause => exact .inr ⟨cause, here, there⟩
  | ok some =>
    obtain ⟨w, started, sound, told⟩ := here
    obtain ⟨w', started', sound', told'⟩ := there
    exact .inl ⟨w, w', started, started', told.trans told'.symm, sound.fits, sound'.fits,
      sound.flows, sound'.flows⟩

/-- **Windows with one outlook answer the same** to every row of steps. -/
theorem Alike.answers_eq {w w' : Window} (h : Alike w w') (steps : List Step) :
    w.answers steps = w'.answers steps := by
  rw [Sound.answers_eq ⟨h.fits, h.flows⟩, Sound.answers_eq ⟨h.fits', h.flows'⟩, h.outlook]

end Window

/-! ## 6. Windows that cannot be told apart -/

/-- Two computations answer the same, and leave states that are related. -/
structure Agree {α σ τ : Type} (R : σ → τ → Prop) (x : α × σ) (y : α × τ) : Prop where
  answer : x.1 = y.1
  state : R x.2 y.2

/-- What the second computation does, if it is known what the first one does. -/
theorem Agree.exists_eq {α σ τ : Type} {R : σ → τ → Prop} {x : α × σ} {y : α × τ}
    (h : Agree R x y) {answer : α} {state : σ} (e : x = (answer, state)) :
    ∃ state', y = (answer, state') ∧ R state state' := by
  subst e
  exact ⟨y.2, Prod.ext h.answer.symm rfl, h.state⟩

namespace Window

/-- No row of steps tells two windows apart. -/
def Indistinct (w w' : Window) : Prop := ∀ steps, w.answers steps = w'.answers steps

variable {w w' : Window}

/-- After a step the windows cannot be told apart either. -/
theorem Indistinct.perform (h : Indistinct w w') (step : Step) :
    Agree Indistinct (w.perform step) (w'.perform step) where
  answer := (List.cons.inj (h [step])).1
  state := fun steps => (List.cons.inj (h (step :: steps))).2

/-- Windows that cannot be told apart scan the same, and still cannot be told apart
behind it. -/
theorem Indistinct.scan (h : Indistinct w w') : Agree Indistinct w.scan w'.scan :=
  ⟨Answer.scanned.inj (h.perform .scan).answer, (h.perform .scan).state⟩

theorem Indistinct.back (h : Indistinct w w') : Agree Indistinct w.back w'.back :=
  ⟨Answer.gaveBack.inj (h.perform .back).answer, (h.perform .back).state⟩

theorem Indistinct.pop (h : Indistinct w w') : Agree Indistinct w.pop w'.pop :=
  ⟨Answer.popped.inj (h.perform .pop).answer, (h.perform .pop).state⟩

end Window

end ChomskyForm
