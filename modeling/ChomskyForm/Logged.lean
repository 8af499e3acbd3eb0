/-
Computations that report what they do and may fail.

A logged computation is a value: the notices it gave, in order, and how it
ended. A failure keeps the notices that came before it, so what was reported up
to the failure is part of the result and can be reasoned about.
-/

set_option autoImplicit false

namespace ChomskyForm

/-- How much detail a notice is about. -/
inductive Level where
  | info
  | debug
  | trace
deriving DecidableEq

/-- Something that a computation reports on its way. -/
structure Notice where
  level : Level
  message : String
deriving DecidableEq

/-- The notices of a computation and its end: an error or a result. -/
structure Logged (ε α : Type) where
  notices : List Notice
  outcome : Except ε α

namespace Logged

variable {ε δ α β : Type}

/-- Ends with a result and reports nothing. -/
protected def pure (a : α) : Logged ε α := ⟨[], .ok a⟩

/-- Ends with an error and reports nothing. -/
def fail (e : ε) : Logged ε α := ⟨[], .error e⟩

/-- Gives notices ahead of those of a computation. -/
def after (earlier : List Notice) (x : Logged ε α) : Logged ε α :=
  ⟨earlier ++ x.notices, x.outcome⟩

/-- Goes on with the result of a computation; an error ends both. -/
protected def bind (x : Logged ε α) (f : α → Logged ε β) : Logged ε β :=
  match x.outcome with
  | .error e => ⟨x.notices, .error e⟩
  | .ok a => (f a).after x.notices

instance : Monad (Logged ε) where
  pure := Logged.pure
  bind := Logged.bind

/-- Gives one notice. -/
def note (level : Level) (message : String) : Logged ε Unit := ⟨[⟨level, message⟩], .ok ()⟩

/-- Says the error of a computation in other terms. -/
def mapError (f : ε → δ) (x : Logged ε α) : Logged δ α :=
  ⟨x.notices, x.outcome.mapError f⟩

/-! ## Notices and outcome of a composed computation -/

@[simp] theorem notices_pure (a : α) : (pure a : Logged ε α).notices = [] := rfl

@[simp] theorem outcome_pure (a : α) : (pure a : Logged ε α).outcome = .ok a := rfl

@[simp] theorem notices_fail (e : ε) : (fail e : Logged ε α).notices = [] := rfl

@[simp] theorem outcome_fail (e : ε) : (fail e : Logged ε α).outcome = .error e := rfl

@[simp] theorem notices_note (level : Level) (message : String) :
    (note level message : Logged ε Unit).notices = [⟨level, message⟩] := rfl

@[simp] theorem outcome_note (level : Level) (message : String) :
    (note level message : Logged ε Unit).outcome = .ok () := rfl

/-- Earlier notices go ahead of those of the computation. -/
@[simp] theorem notices_after (earlier : List Notice) (x : Logged ε α) :
    (x.after earlier).notices = earlier ++ x.notices := rfl

/-- Earlier notices do not change how a computation ends. -/
@[simp] theorem outcome_after (earlier : List Notice) (x : Logged ε α) :
    (x.after earlier).outcome = x.outcome := rfl

/-- Saying an error in other terms changes an error and nothing else. -/
@[simp] theorem outcome_mapError (f : ε → δ) (x : Logged ε α) :
    (x.mapError f).outcome = x.outcome.mapError f := rfl

/-- The notices are the same whatever the error is called. -/
@[simp] theorem notices_mapError (f : ε → δ) (x : Logged ε α) :
    (x.mapError f).notices = x.notices := rfl

/-- The outcome of a composition is the composition of the outcomes. -/
@[simp] theorem outcome_bind (x : Logged ε α) (f : α → Logged ε β) :
    (x >>= f).outcome = x.outcome.bind fun a => (f a).outcome := by
  show (Logged.bind x f).outcome = _
  unfold Logged.bind
  cases x.outcome <;> rfl

/-- A failed computation keeps its notices and adds none. -/
theorem notices_bind_error (x : Logged ε α) (f : α → Logged ε β) {e : ε}
    (h : x.outcome = .error e) : (x >>= f).notices = x.notices := by
  show (Logged.bind x f).notices = _
  unfold Logged.bind
  rw [h]

/-- After a success the notices of what follows are added at the end. -/
theorem notices_bind_ok (x : Logged ε α) (f : α → Logged ε β) {a : α}
    (h : x.outcome = .ok a) : (x >>= f).notices = x.notices ++ (f a).notices := by
  show (Logged.bind x f).notices = _
  unfold Logged.bind
  rw [h]
  rfl

/-- An outcome that tests as a success has a result. -/
theorem exists_eq_ok {x : Except ε α} (h : x.isOk = true) : ∃ a, x = .ok a := by
  cases x with
  | error e => cases h
  | ok a => exact ⟨a, rfl⟩

end Logged

end ChomskyForm
