/-
Unit cycles.

The search for a unit closure is a loop that ends when its stack is empty. The
stack may grow in a turn, and a name may come to lie on it again after it was
visited, so the length of the stack does not tell when the loop ends. An account of
the turns does (`UnitSearch.turns_account`): each takes one name off, and only the
first visit of a name puts names on. A closure repeats no name, so there is at most
one turn for each unit production of the grammar, and one for the first name.

A nonterminal is on a unit cycle if unit productions lead from it back to itself.
It suffices to look for the last of them among the members of the closure, since
the members are what unit productions lead to (`Grammar.onUnitCycle_iff`). So the
last stage reports the nonterminals on unit cycles, as far as it comes.
-/
import Mathlib.Algebra.Order.BigOperators.Group.Finset
import ChomskyForm.Proofs.Normal.Size
import ChomskyForm.Proofs.Normal.UnitTour

set_option autoImplicit false

namespace ChomskyForm

/-! ## 1. The turns of the search -/

/-- Where the search for a unit closure stands: the names to look at, the next one
first, and the names that were visited, the latest first. -/
structure UnitSearch where
  stack : List String
  visited : List String
deriving DecidableEq

namespace UnitSearch

/-- The search before its first turn. -/
def start (name : String) : UnitSearch := ⟨[name], []⟩

variable (g : Grammar)

/-- One turn takes a name off the stack. If the name is new it is visited, and its
unit targets come to lie on top. On an empty stack there is no turn left. -/
def turn? : UnitSearch → Option UnitSearch
  | ⟨[], _⟩ => none
  | ⟨name :: stack, visited⟩ =>
    if name ∈ visited then some ⟨stack, visited⟩
    else some ⟨g.unitTargets name ++ stack, name :: visited⟩

/-- Some turns, one after the other, if there are so many. -/
def turns : Nat → UnitSearch → Option UnitSearch
  | 0, s => some s
  | count + 1, s => (s.turn? g).bind (turns count)

variable {g}

/-- In one turn one name is taken, and what is put on the stack are the unit targets
of the name that is visited, if one is. -/
theorem turn?_account {s s' : UnitSearch} (h : s.turn? g = some s') :
    1 + s'.stack.length + (s.visited.flatMap g.unitTargets).length =
      s.stack.length + (s'.visited.flatMap g.unitTargets).length := by
  obtain ⟨stack, visited⟩ := s
  cases stack with
  | nil => cases h
  | cons name stack =>
    rw [turn?] at h
    split at h
    · cases h
      simp only [List.length_cons]
      omega
    · cases h
      simp only [List.length_cons, List.length_append, List.flatMap_cons]
      omega

/-- **The account of a search**: the turns taken and the names that are left on the
stack are the names that lay on it and those that visits put there. -/
theorem turns_account {count : Nat} {s s' : UnitSearch} (h : turns g count s = some s') :
    count + s'.stack.length + (s.visited.flatMap g.unitTargets).length =
      s.stack.length + (s'.visited.flatMap g.unitTargets).length := by
  induction count generalizing s with
  | zero =>
    cases h
    omega
  | succ count ih =>
    obtain ⟨next, first, rest⟩ := Option.bind_eq_some_iff.1 h
    have one := turn?_account first
    have others := ih rest
    omega

/-- **The search ends**, whatever lies on the stack and whatever was visited: after
some turns the stack is empty. -/
theorem exists_turns (g : Grammar) (stack visited : List String) :
    ∃ count, turns g count ⟨stack, visited⟩ = some ⟨[], g.visitUnits stack visited⟩ := by
  -- a call of the recursive search is a turn of the loop
  fun_induction Grammar.visitUnits g stack visited with
  | case1 visited => exact ⟨0, rfl⟩
  | case2 name stack visited seen ih =>
    obtain ⟨count, ends⟩ := ih
    refine ⟨count + 1, ?_⟩
    rw [turns, turn?, if_pos seen]
    exact ends
  | case3 name stack visited new ih =>
    obtain ⟨count, ends⟩ := ih
    refine ⟨count + 1, ?_⟩
    rw [turns, turn?, if_neg new]
    exact ends

end UnitSearch

namespace Grammar

variable (g : Grammar)

/-- The search for a closure takes one turn for the nonterminal itself and one for
each unit production of a member. -/
theorem turns_start (name : String) :
    UnitSearch.turns g (1 + ((g.unitClosure name).flatMap g.unitTargets).length) (.start name) =
      some ⟨[], (g.unitClosure name).reverse⟩ := by
  obtain ⟨count, ends⟩ := UnitSearch.exists_turns g [name] []
  have account := UnitSearch.turns_account ends
  have members : (g.unitClosure name).reverse = g.visitUnits [name] [] := List.reverse_reverse _
  have pushed : ((g.visitUnits [name] []).flatMap g.unitTargets).length =
      ((g.unitClosure name).flatMap g.unitTargets).length := by
    rw [← members]
    exact ((List.reverse_perm _).flatMap_right _).length_eq
  -- nothing is left on the stack, so the account tells how many turns there were
  have counted : count = 1 + ((g.unitClosure name).flatMap g.unitTargets).length := by
    simp only [List.flatMap_nil, List.length_nil, List.length_singleton] at account
    omega
  rw [← counted, members]
  exact ends

/-! ## 2. The number of turns -/

/-- The number of unit productions. -/
def unitCount : Nat := g.productions.countP fun p => p.unitTarget?.isSome

/-- The unit targets of all declared names are as many as the unit productions. -/
theorem length_flatMap_unitTargets_names : (g.names.flatMap g.unitTargets).length = g.unitCount := by
  have alternatives : ∀ rule ∈ g.rules, (g.unitTargets rule.name).length =
      rule.alternatives.countP fun p => p.unitTarget?.isSome := by
    intro rule hr
    rw [unitTargets, g.productionsOf_of_mem hr, List.length_filterMap_eq_countP]
  rw [unitCount, productions, List.countP_flatMap, List.length_flatMap, names, RuleTable.names,
    List.map_map]
  exact congrArg List.sum (List.map_congr_left alternatives)

/-- Names that are not repeated have no more unit targets than there are unit
productions: those that are not declared have none. -/
theorem length_flatMap_unitTargets_le {names : List String} (nodup : names.Nodup) :
    (names.flatMap g.unitTargets).length ≤ g.unitCount := by
  rw [← length_flatMap_unitTargets_names, List.length_flatMap, List.length_flatMap,
    ← List.sum_toFinset _ nodup, ← List.sum_toFinset _ g.names_nodup]
  apply Finset.sum_le_sum_of_ne_zero
  -- a name that adds to the sum is declared, so it is one of all names
  intro name _ some
  rw [List.mem_toFinset]
  by_contra undeclared
  exact some (by rw [g.unitTargets_eq_nil undeclared, List.length_nil])

/-! ## 3. Cycles -/

/-- Unit productions, one at least, lead from a nonterminal back to itself. -/
def UnitCyclic (name : String) : Prop := Relation.TransGen g.UnitEdge name name

/-- **The test for a unit cycle is exact.** It looks for a unit production that leads
back, and the closure holds all nonterminals that the way there can come through. -/
theorem onUnitCycle_iff (name : String) : g.onUnitCycle name = true ↔ g.UnitCyclic name := by
  unfold onUnitCycle UnitCyclic
  -- a way back is a way to some member, the name itself included, and one step more
  rw [List.any_eq_true, Relation.TransGen.tail'_iff]
  refine exists_congr fun member => ?_
  rw [mem_unitClosure_iff, List.contains_iff_mem, mem_unitTargets_iff]
  rfl

instance (name : String) : Decidable (g.UnitCyclic name) :=
  decidable_of_iff _ (g.onUnitCycle_iff name)

/-! ## 4. The report -/

/-- The notice that a nonterminal is on a unit cycle. -/
def cycleNotice (name : String) : Notice := ⟨.debug, "<" ++ name ++ "> is on a unit cycle"⟩

/-- What is to be reported of some names: those on unit cycles, in their order. -/
def cycleNotices (names : List String) : List Notice :=
  (names.filter fun name => g.UnitCyclic name).map cycleNotice

/-- The notices of two rows of names come one after the other. -/
theorem cycleNotices_append (names more : List String) :
    g.cycleNotices (names ++ more) = g.cycleNotices names ++ g.cycleNotices more := by
  unfold cycleNotices
  rw [List.filter_append, List.map_append]

/-- A name on a unit cycle is reported before it is asked what it resolves to. -/
theorem notices_inspectUnits_cons (name : String) (rest : List String) :
    (g.inspectUnits (name :: rest)).notices =
      g.cycleNotices [name] ++
        if g.resolvents name = [] then [] else (g.inspectUnits rest).notices := by
  have exact := g.onUnitCycle_iff name
  rw [inspectUnits]
  by_cases cyclic : g.onUnitCycle name = true
  · have noted : g.cycleNotices [name] = [cycleNotice name] := by
      simp [cycleNotices, exact.1 cyclic]
    rw [noted, if_pos cyclic, Logged.notices_bind_ok _ _ (Logged.outcome_note _ _)]
    by_cases dead : g.resolvents name = [] <;> simp [dead, cycleNotice]
  · have silent : g.cycleNotices [name] = [] := by
      simp [cycleNotices, ← exact, cyclic]
    rw [silent, if_neg cyclic]
    by_cases dead : g.resolvents name = [] <;> simp [dead]

/-- **The run of an inspection.** It reports on the names that it looks at. They are
all names, or they end with the one that it fails at. -/
theorem inspectUnits_reports (names : List String) :
    ∃ inspected rest, names = inspected ++ rest ∧
      (g.inspectUnits names).notices = g.cycleNotices inspected ∧
      ((rest = [] ∧ (g.inspectUnits names).outcome = .ok ()) ∨
        ∃ before failing, inspected = before ++ [failing] ∧
          (g.inspectUnits names).outcome = .error (.unresolvable failing)) := by
  induction names with
  | nil => exact ⟨[], [], rfl, rfl, .inl ⟨rfl, rfl⟩⟩
  | cons name names ih =>
    by_cases dead : g.resolvents name = []
    · -- the inspection fails here, and does not look at the others
      refine ⟨[name], names, rfl, ?_, .inr ⟨[], name, rfl, ?_⟩⟩
      · rw [notices_inspectUnits_cons, if_pos dead, List.append_nil]
      · rw [outcome_inspectUnits_cons, if_pos dead]
    · obtain ⟨inspected, rest, split, reported, ends⟩ := ih
      have notices : (g.inspectUnits (name :: names)).notices =
          g.cycleNotices (name :: inspected) := by
        rw [notices_inspectUnits_cons, if_neg dead, reported, ← cycleNotices_append,
          List.singleton_append]
      have outcome : (g.inspectUnits (name :: names)).outcome =
          (g.inspectUnits names).outcome := by
        rw [outcome_inspectUnits_cons, if_neg dead]
      refine ⟨name :: inspected, rest, congrArg (name :: ·) split, notices, ?_⟩
      rw [outcome]
      rcases ends with all | ⟨before, failing, last, failed⟩
      · exact .inl all
      · exact .inr ⟨name :: before, failing, congrArg (name :: ·) last, failed⟩

/-- The last stage reports what its inspection reports. -/
theorem notices_eliminateUnits : g.eliminateUnits.notices = (g.inspectUnits g.names).notices := by
  rw [eliminateUnits]
  cases h : (g.inspectUnits g.names).outcome with
  | error e => exact Logged.notices_bind_error _ _ h
  | ok _ => rw [Logged.notices_bind_ok _ _ h, Logged.notices_pure, List.append_nil]

/-- **Unit cycles are found and reported.** The search for a unit closure ends on
every grammar and for every name, after one turn for the name and one for each unit
production of a member of the closure, of which there are no more than in the whole
grammar. The test on the closure tells whether unit productions, one at least, lead
from the name back to itself. So what the last stage reports are the nonterminals on
unit cycles in the order of declaration: all of them if it succeeds, and else those up
to the nonterminal at which it fails, that one included. -/
theorem unit_cycles_reported (g : Grammar) :
    (∀ name, ∃ last,
      UnitSearch.turns g (1 + ((g.unitClosure name).flatMap g.unitTargets).length) (.start name) =
        some last ∧
      last.turn? g = none ∧ last.visited.reverse = g.unitClosure name ∧
      ((g.unitClosure name).flatMap g.unitTargets).length ≤ g.unitCount) ∧
    (∀ name, g.onUnitCycle name = true ↔ Relation.TransGen g.UnitEdge name name) ∧
    ∃ inspected rest, g.names = inspected ++ rest ∧
      g.eliminateUnits.notices =
        (inspected.filter fun name => g.UnitCyclic name).map cycleNotice ∧
      ((rest = [] ∧ ∃ g', g.eliminateUnits.outcome = .ok g') ∨
        ∃ before failing, inspected = before ++ [failing] ∧
          g.eliminateUnits.outcome = .error (.unresolvable failing)) := by
  refine ⟨fun name => ?_, g.onUnitCycle_iff, ?_⟩
  · exact ⟨_, g.turns_start name, rfl, List.reverse_reverse _,
      g.length_flatMap_unitTargets_le (g.nodup_unitClosure name)⟩
  obtain ⟨inspected, rest, split, reported, ends⟩ := g.inspectUnits_reports g.names
  refine ⟨inspected, rest, split, g.notices_eliminateUnits.trans reported, ?_⟩
  rw [eliminateUnits, Logged.outcome_bind]
  rcases ends with ⟨all, ok⟩ | ⟨before, failing, last, failed⟩
  · rw [ok]
    exact .inl ⟨all, _, rfl⟩
  · rw [failed]
    exact .inr ⟨before, failing, last, rfl⟩

/-- Two nonterminals on one cycle, one that only leads back to itself, and behind it
another one on a cycle. -/
def stranded : Grammar :=
  ⟨RuleTable.ofList
    [⟨"S", [.unit (.nonterminal "A"), .unit (.nonterminal "Gone")]⟩,
     ⟨"A", [.unit (.nonterminal "S"), .unit (.nonterminal "S"), .unit (.terminal "a")]⟩,
     ⟨"B", [.unit (.nonterminal "A")]⟩,
     ⟨"C", [.unit (.nonterminal "C")]⟩,
     ⟨"D", [.unit (.nonterminal "D"), .unit (.terminal "d")]⟩], none⟩

-- the report ends with the nonterminal that resolves to nothing
example : stranded.eliminateUnits.notices = ["S", "A", "C"].map cycleNotice := by decide +kernel

end Grammar

end ChomskyForm
