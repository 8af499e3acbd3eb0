/-
What the unit closure holds.

The search for a unit closure is a loop over an explicit stack. What comes out
of it has nothing to do with the stack: the closure of a nonterminal holds the
nonterminals that zero or more unit productions lead to, on cycles and through
undeclared names alike (`mem_unitClosure_iff`). The resolvents follow from
that, and with them the nonterminals that resolve to nothing.
-/
import Mathlib.Logic.Relation
import ChomskyForm.Normal.UnitClosure
import ChomskyForm.Proofs.Grammar.Lookup

set_option autoImplicit false

namespace ChomskyForm

namespace Grammar

variable (g : Grammar)

/-! ## 1. Unit productions as a relation -/

/-- A unit production leads from one nonterminal to another. -/
def UnitEdge (origin target : String) : Prop :=
  Production.unit (.nonterminal target) ∈ g.productionsOf origin

/-- Zero or more unit productions lead from one nonterminal to another. -/
def UnitReaches : String → String → Prop := Relation.ReflTransGen g.UnitEdge

/-- The unit targets of a nonterminal are where its unit productions lead. -/
theorem mem_unitTargets_iff (origin target : String) :
    target ∈ g.unitTargets origin ↔ g.UnitEdge origin target := by
  unfold unitTargets UnitEdge
  rw [List.mem_filterMap]
  constructor
  · rintro ⟨p, hp, ht⟩
    rwa [← (Production.unitTarget?_eq_some_iff p target).1 ht]
  · intro h
    exact ⟨_, h, rfl⟩

/-! ## 2. The search -/

/-- The search forgets no name that it has visited. -/
theorem mem_visitUnits_of_mem_visited {stack visited : List String} {name : String}
    (h : name ∈ visited) : name ∈ g.visitUnits stack visited := by
  fun_induction visitUnits g stack visited with
  | case1 visited => exact h
  | case2 first stack visited seen ih => exact ih h
  | case3 first stack visited new ih => exact ih (List.mem_cons_of_mem _ h)

/-- The search visits every name on its stack. -/
theorem mem_visitUnits_of_mem_stack {stack visited : List String} {name : String}
    (h : name ∈ stack) : name ∈ g.visitUnits stack visited := by
  fun_induction visitUnits g stack visited with
  | case1 visited => exact absurd h List.not_mem_nil
  | case2 first stack visited seen ih =>
    rcases List.mem_cons.1 h with rfl | h
    · exact g.mem_visitUnits_of_mem_visited seen
    · exact ih h
  -- the name in front is visited now, and the others stay below its unit targets
  | case3 first stack visited new ih =>
    rcases List.mem_cons.1 h with rfl | h
    · exact g.mem_visitUnits_of_mem_visited List.mem_cons_self
    · exact ih (List.mem_append_right _ h)

/-- Whatever the search adds to the visited names was reached from its stack. -/
theorem reached_of_mem_visitUnits {stack visited : List String} {name : String}
    (h : name ∈ g.visitUnits stack visited) :
    name ∈ visited ∨ ∃ origin ∈ stack, g.UnitReaches origin name := by
  fun_induction visitUnits g stack visited with
  | case1 visited => exact .inl h
  | case2 first stack visited seen ih =>
    rcases ih h with hv | ⟨origin, ho, hr⟩
    · exact .inl hv
    · exact .inr ⟨origin, List.mem_cons_of_mem _ ho, hr⟩
  | case3 first stack visited new ih =>
    rcases ih h with hv | ⟨origin, ho, hr⟩
    · rcases List.mem_cons.1 hv with rfl | hv
      · exact .inr ⟨name, List.mem_cons_self, .refl⟩
      · exact .inl hv
    · rcases List.mem_append.1 ho with target | ho
      · -- one more unit production in front, from the name that was visited
        have edge := (g.mem_unitTargets_iff first origin).1 target
        exact .inr ⟨first, List.mem_cons_self, .head edge hr⟩
      · exact .inr ⟨origin, List.mem_cons_of_mem _ ho, hr⟩

/-- A name that the search adds brings its unit targets with it. -/
theorem mem_visitUnits_of_edge {stack visited : List String} {origin target : String}
    (h : origin ∈ g.visitUnits stack visited) (new : origin ∉ visited)
    (edge : g.UnitEdge origin target) : target ∈ g.visitUnits stack visited := by
  fun_induction visitUnits g stack visited with
  | case1 visited => exact absurd h new
  | case2 first stack visited seen ih => exact ih h new
  | case3 first stack visited fresh ih =>
    by_cases same : origin = first
    · -- its unit targets were put on the stack when it was visited
      subst same
      apply g.mem_visitUnits_of_mem_stack
      exact List.mem_append_left _ ((g.mem_unitTargets_iff _ _).2 edge)
    · exact ih h (by simpa [same] using new)

/-- **The unit closure is reachability**: it holds the nonterminals that zero
or more unit productions lead to. -/
theorem mem_unitClosure_iff (origin name : String) :
    name ∈ g.unitClosure origin ↔ g.UnitReaches origin name := by
  unfold unitClosure
  rw [List.mem_reverse]
  constructor
  · intro h
    rcases g.reached_of_mem_visitUnits h with hv | ⟨_, ho, hr⟩
    · exact absurd hv List.not_mem_nil
    · rwa [← List.mem_singleton.1 ho]
  · intro h
    induction h with
    -- along the way to `name`; nothing counts as visited at the start
    | refl => exact g.mem_visitUnits_of_mem_stack List.mem_cons_self
    | tail _ edge ih => exact g.mem_visitUnits_of_edge ih List.not_mem_nil edge

/-! ## 3. Resolvents -/

/-- The resolvents of a nonterminal are the productions that are found where its unit
productions lead to, without the unit productions themselves. -/
theorem mem_resolvents_iff (name : String) (p : Production) :
    p ∈ g.resolvents name ↔
      p.unitTarget? = none ∧ ∃ m, g.UnitReaches name m ∧ p ∈ g.productionsOf m := by
  unfold resolvents
  rw [List.mem_eraseDups, List.mem_flatMap]
  constructor
  · rintro ⟨m, hm, hp⟩
    rw [List.mem_filter, Option.isNone_iff_eq_none] at hp
    exact ⟨hp.2, m, (g.mem_unitClosure_iff name m).1 hm, hp.1⟩
  · rintro ⟨resolved, m, hm, hp⟩
    refine ⟨m, (g.mem_unitClosure_iff name m).2 hm, ?_⟩
    rw [List.mem_filter, Option.isNone_iff_eq_none]
    exact ⟨hp, resolved⟩

/-- A resolvent is listed once, however many ways lead to it. -/
theorem nodup_resolvents (name : String) : (g.resolvents name).Nodup :=
  nodup_eraseDups _

/-! ## 4. Nonterminals that resolve to nothing -/

/-- A nonterminal is dead if no nonterminal that unit productions lead to from
it, itself included, has any other production. -/
def Dead (name : String) : Prop :=
  ∀ m, g.UnitReaches name m → ∀ p ∈ g.productionsOf m, p.unitTarget? ≠ none

/-- The nonterminals that resolve to nothing are the dead ones. -/
theorem resolvents_eq_nil_iff (name : String) : g.resolvents name = [] ↔ g.Dead name := by
  rw [List.eq_nil_iff_forall_not_mem]
  constructor
  · intro h m hm p hp resolved
    exact h p ((g.mem_resolvents_iff name p).2 ⟨resolved, m, hm, hp⟩)
  · intro h p hp
    obtain ⟨resolved, m, hm, hp⟩ := (g.mem_resolvents_iff name p).1 hp
    exact h m hm p hp resolved

end Grammar

end ChomskyForm
