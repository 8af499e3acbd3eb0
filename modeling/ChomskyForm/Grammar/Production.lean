/-
Productions: the alternatives of a rule.

A production is a nonempty row of symbols. That it is nonempty is part of the
type, so no operation further on has to think about an alternative that
derives the empty string.
-/
import ChomskyForm.Grammar.Symbol

set_option autoImplicit false

namespace ChomskyForm

/-- A nonempty row of symbols, in order. -/
structure Production where
  symbols : List Symbol
  symbols_ne_nil : symbols ≠ []
deriving DecidableEq

namespace Production

/-- The production of some symbols, unless there are none. -/
def ofList? (symbols : List Symbol) : Option Production :=
  if h : symbols = [] then none else some ⟨symbols, h⟩

/-- Why no production was built: it would have had no symbol. -/
def emptyMessage : String := "productions must contain at least one symbol"

/-- The production of a single symbol. -/
def unit (symbol : Symbol) : Production := ⟨[symbol], by simp⟩

/-- The production of two symbols. -/
def pair (first second : Symbol) : Production := ⟨[first, second], by simp⟩

/-- The number of symbols. -/
def length (p : Production) : Nat := p.symbols.length

/-- Replaces every symbol in place; the length stays. -/
def map (f : Symbol → Symbol) (p : Production) : Production :=
  ⟨p.symbols.map f, by simpa using p.symbols_ne_nil⟩

/-- The name that a unit production refers to: a production is a unit
production if it is one nonterminal and nothing else. -/
def unitTarget? (p : Production) : Option String :=
  match p.symbols with
  | [symbol] => symbol.name?
  | _ => none

/-- Whether a production is one terminal and nothing else. -/
def isTerminalUnit (p : Production) : Bool :=
  match p.symbols with
  | [symbol] => symbol.isTerminal
  | _ => false

/-- The symbols, separated by single spaces. -/
def text (p : Production) : String :=
  " ".intercalate (p.symbols.map Symbol.text)

/-! ## Small facts -/

/-- A production is its row of symbols: that the row is nonempty is a proof, and tells
no two productions apart. -/
@[ext] theorem ext {p q : Production} (h : p.symbols = q.symbols) : p = q := by
  cases p; cases q; cases h; rfl

@[simp] theorem symbols_unit (s : Symbol) : (unit s).symbols = [s] := rfl

@[simp] theorem symbols_pair (a b : Symbol) : (pair a b).symbols = [a, b] := rfl

@[simp] theorem symbols_map (f : Symbol → Symbol) (p : Production) :
    (p.map f).symbols = p.symbols.map f := rfl

@[simp] theorem length_map (f : Symbol → Symbol) (p : Production) :
    (p.map f).length = p.length := by
  simp [length]

theorem length_pos (p : Production) : 0 < p.length :=
  List.length_pos_iff.2 p.symbols_ne_nil

/-- The production of a row has just the symbols of the row. -/
theorem ofList?_eq_some_iff (symbols : List Symbol) (p : Production) :
    ofList? symbols = some p ↔ p.symbols = symbols := by
  unfold ofList?
  constructor
  · intro h
    split at h
    · simp at h
    · cases h; rfl
  · intro h
    subst h
    simp [p.symbols_ne_nil]

/-- Only the empty row is refused. -/
theorem ofList?_eq_none_iff (symbols : List Symbol) : ofList? symbols = none ↔ symbols = [] := by
  unfold ofList?
  split <;> simp_all

/-- The unit productions are the single nonterminals; each refers to the name of its
symbol. -/
theorem unitTarget?_eq_some_iff (p : Production) (n : String) :
    p.unitTarget? = some n ↔ p = unit (.nonterminal n) := by
  constructor
  · -- a row of another length refers to nothing, so the match leaves a single symbol
    intro h
    unfold unitTarget? at h
    split at h
    · rename_i s hs
      have : s = .nonterminal n := (Symbol.name?_eq_some_iff s n).1 h
      apply Production.ext
      simp [hs, this]
    · simp at h
  · rintro rfl
    rfl

/-- The test for a terminal alone passes on the single terminals and on nothing else. -/
theorem isTerminalUnit_iff (p : Production) :
    p.isTerminalUnit = true ↔ ∃ t, p = unit (.terminal t) := by
  constructor
  · intro h
    unfold isTerminalUnit at h
    split at h
    · rename_i s hs
      cases s with
      | terminal t => exact ⟨t, Production.ext hs⟩
      | nonterminal n => simp [Symbol.isTerminal] at h
    · simp at h
  · rintro ⟨t, rfl⟩
    rfl

end Production

end ChomskyForm
