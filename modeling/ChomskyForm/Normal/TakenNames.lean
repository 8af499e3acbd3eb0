/-
Names in use, and how a new one is claimed.

Every stage of the conversion that adds nonterminals starts from the names that
the grammar declares, refers to, or starts with. A wanted name that is taken is
primed until it is free, so a new name never meets an old one. Priming ends
because the set of taken names is finite while the name grows: each step leaves
fewer taken names that are at least as long.
-/
import ChomskyForm.Grammar.Basic

set_option autoImplicit false

namespace ChomskyForm

/-- The names that a new nonterminal must not have. -/
structure TakenNames where
  names : List String

/-- The nonterminals that the productions of a grammar refer to. -/
def Grammar.referencedNames (g : Grammar) : List String :=
  g.rules.flatMap fun rule => rule.alternatives.flatMap fun p => p.symbols.filterMap Symbol.name?

namespace TakenNames

/-- All names of a grammar: declared, referred to, or its start. -/
def ofGrammar (g : Grammar) : TakenNames :=
  ⟨g.names ++ g.referencedNames ++ g.start?.toList⟩

/-- How many taken names are at least as long as a given one. -/
def countFrom (taken : TakenNames) (name : String) : Nat :=
  (taken.names.filter fun other => name.length ≤ other.length).length

/-- A taken name counts for itself and no more for its primed form. -/
theorem countFrom_primed_lt (taken : TakenNames) {name : String} (h : name ∈ taken.names) :
    taken.countFrom (name ++ "'") < taken.countFrom name := by
  have hlen : (name ++ "'").length = name.length + 1 := String.length_append name "'"
  unfold countFrom
  rw [hlen, ← List.countP_eq_length_filter, ← List.countP_eq_length_filter]
  revert h
  induction taken.names with
  | nil => simp
  | cons other rest ih =>
    intro h
    have mono : List.countP (fun o : String => decide (name.length + 1 ≤ o.length)) rest ≤
        List.countP (fun o : String => decide (name.length ≤ o.length)) rest := by
      apply List.countP_mono_left
      intro o _ ho
      simp only [decide_eq_true_eq] at ho ⊢
      omega
    rcases List.mem_cons.1 h with rfl | hr
    · -- the name counts for itself, and is too short to count for its primed form
      rw [List.countP_cons_of_neg (by simp), List.countP_cons_of_pos (by simp)]
      omega
    · have lt := ih hr
      rw [List.countP_cons, List.countP_cons]
      by_cases long : name.length + 1 ≤ other.length
      · -- a name that counts for the primed form counts for the name as well
        rw [if_pos (decide_eq_true long), if_pos (decide_eq_true (by omega))]
        omega
      · rw [if_neg (by simpa using long)]
        omega

/-- A wanted name, followed by as few primes as make it free. -/
def free (taken : TakenNames) (wanted : String) : String :=
  if wanted ∈ taken.names then taken.free (wanted ++ "'") else wanted
termination_by taken.countFrom wanted
decreasing_by exact taken.countFrom_primed_lt (by assumption)

/-- Claims a name: the free form of the wanted one, which is taken from now
on. -/
def claim (taken : TakenNames) (wanted : String) : String × TakenNames :=
  let name := taken.free wanted
  (name, ⟨name :: taken.names⟩)

/-- Claims a name for each wanted one, in order. -/
def claimAll (taken : TakenNames) : List String → List String × TakenNames
  | [] => ([], taken)
  | wanted :: rest =>
    let (name, taken) := taken.claim wanted
    let (names, taken) := taken.claimAll rest
    (name :: names, taken)

/-- What is claimed was not taken. -/
theorem free_not_mem (taken : TakenNames) (wanted : String) :
    taken.free wanted ∉ taken.names := by
  fun_induction free taken wanted with
  | case1 _ _ ih => exact ih
  | case2 _ h => exact h

/-- There is one answer for each name that is wanted. -/
theorem length_claimAll (taken : TakenNames) (wanted : List String) :
    (taken.claimAll wanted).1.length = wanted.length := by
  induction wanted generalizing taken with
  | nil => rfl
  | cons w rest ih => simp [claimAll, ih]

end TakenNames

/-! ## The names that are wanted

Each says where the nonterminal comes from, so the result of a conversion
depends on the grammar alone. -/

namespace WantedName

/-- The name of the wrapper around the start symbol. -/
def start : String := "$start"

/-- Angle brackets delimit a written name, so inside one they are escaped. -/
def escape (text : String) : String :=
  String.join (text.toList.map fun c =>
    if c = '<' then "&lt;" else if c = '>' then "&gt;" else c.toString)

/-- The name of the nonterminal that stands in for a terminal. -/
def standIn (terminal : String) : String := "$term." ++ escape terminal

/-- The name of the tail that begins at a position of an alternative of a
rule. -/
def tail (origin : String) (alternative position : Nat) : String :=
  "$bin." ++ origin ++ "." ++ toString alternative ++ "." ++ toString position

end WantedName

end ChomskyForm
