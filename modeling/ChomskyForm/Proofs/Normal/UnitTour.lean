/-
The order of the unit closure.

The search for a unit closure keeps its own stack: it may hold a name more than
once, and a name counts as visited only when it is taken off. Here the same walk
is written without a stack. `Grammar.unitTour` is the recursive depth first walk
in preorder: a name comes before everything that its unit targets lead to, the
targets come in the order of the alternatives, and a name that was met before is
skipped. `visitUnits_append` holds the two together on every grammar, with its
self references, cycles, repeated alternatives and undeclared names. What the
last stage makes of a grammar, in order, is then read off from the walk.
-/
import Mathlib.Data.List.Nodup
import ChomskyForm.Proofs.Normal.StageResult
import ChomskyForm.Proofs.Normal.UnitReach

set_option autoImplicit false

namespace ChomskyForm

namespace Grammar

variable (g : Grammar)

/-! ## 1. The recursive walk -/

/-- To have seen more leaves no more work. -/
theorem unvisitedWork_append_le (seen more : List String) :
    g.unvisitedWork (seen ++ more) ≤ g.unvisitedWork seen :=
  g.workOf_le_of_subset (List.subset_append_left seen more) g.names

/-- What a name adds to the work when it is met for the first time is paid for by
its own share, and an undeclared name adds nothing. -/
theorem length_unitTargets_add_le {seen : List String} {name : String} (new : name ∉ seen) :
    (g.unitTargets name).length + g.unvisitedWork (seen ++ [name]) ≤ g.unvisitedWork seen := by
  by_cases declared : name ∈ g.names
  · have same : g.unvisitedWork (seen ++ [name]) ≤ g.unvisitedWork (name :: seen) :=
      g.workOf_le_of_subset (fun other h => by simpa [or_comm] using h) g.names
    have less := g.unvisitedWork_cons_lt declared new
    omega
  · have le := g.unvisitedWork_append_le seen [name]
    rw [g.unitTargets_eq_nil declared, List.length_nil]
    omega

/-- **The recursive walk along unit productions**, depth first and in preorder:
what it meets from `names` on, from the left to the right, except for what is
`seen` already. -/
def unitTour (seen : List String) : List String → List String
  | [] => []
  | name :: rest =>
    if name ∈ seen then unitTour seen rest
    else
      let branch := name :: unitTour (seen ++ [name]) (g.unitTargets name)
      branch ++ unitTour (seen ++ branch) rest
termination_by names => names.length + g.unvisitedWork seen
decreasing_by
  · simp only [List.length_cons]
    omega
  · rename_i new
    have := g.length_unitTargets_add_le new
    simp only [List.length_cons]
    omega
  · -- whatever the branch holds, it adds no work
    refine Nat.lt_of_le_of_lt (Nat.add_le_add_left (g.unvisitedWork_append_le seen _) _) ?_
    simp only [List.length_cons]
    omega

/-! ## 2. The walk and the search -/

/-- **A stack is the walk along its upper part, then its lower part.** Whatever
names are on top, the search visits what the recursive walk meets from them, in
the same order, before it goes on to what lies below. -/
theorem visitUnits_append (seen names stack : List String) :
    g.visitUnits (names ++ stack) seen.reverse =
      g.visitUnits stack (seen ++ g.unitTour seen names).reverse := by
  fun_induction unitTour g seen names generalizing stack with
  | case1 seen => rw [List.append_nil, List.nil_append]
  | case2 seen name rest old ih =>
    -- a name that was met is dropped from the stack
    rw [List.cons_append, visitUnits, if_pos (List.mem_reverse.2 old)]
    exact ih stack
  | case3 seen name rest new branch inner outer =>
    rw [List.cons_append, visitUnits, if_neg fun old => new (List.mem_reverse.1 old)]
    have visited : name :: seen.reverse = (seen ++ [name]).reverse := by simp
    have branched : seen ++ [name] ++ g.unitTour (seen ++ [name]) (g.unitTargets name) =
        seen ++ branch := by rw [List.append_assoc]; rfl
    -- its targets lie on the stack above the rest, so their walk comes first
    rw [visited, inner, branched, outer, List.append_assoc]

/-- The unit closure of a nonterminal is the recursive walk from it, in order. -/
theorem unitClosure_eq_unitTour (name : String) :
    g.unitClosure name = g.unitTour [] [name] := by
  have walked := g.visitUnits_append [] [name] []
  rw [List.append_nil, List.reverse_nil, List.nil_append] at walked
  rw [unitClosure, walked, visitUnits, List.reverse_reverse]

/-! ## 3. What the walk meets -/

/-- The search visits no name twice. -/
theorem nodup_visitUnits {stack visited : List String} (nodup : visited.Nodup) :
    (g.visitUnits stack visited).Nodup := by
  fun_induction visitUnits g stack visited with
  | case1 visited => exact nodup
  | case2 name stack visited seen ih => exact ih nodup
  | case3 name stack visited new ih => exact ih (List.nodup_cons.2 ⟨new, nodup⟩)

/-- The unit closure names each nonterminal once. -/
theorem nodup_unitClosure (name : String) : (g.unitClosure name).Nodup :=
  List.nodup_reverse.2 (g.nodup_visitUnits List.nodup_nil)

/-- Nonterminals that lead to each other resolve to the same productions. -/
theorem mem_resolvents_iff_of_cycle {a b : String} (there : g.UnitReaches a b)
    (back : g.UnitReaches b a) (p : Production) : p ∈ g.resolvents a ↔ p ∈ g.resolvents b := by
  rw [g.mem_resolvents_iff, g.mem_resolvents_iff]
  refine and_congr_right fun _ => ⟨?_, ?_⟩
  · rintro ⟨m, reach, hp⟩
    exact ⟨m, back.trans reach, hp⟩
  · rintro ⟨m, reach, hp⟩
    exact ⟨m, there.trans reach, hp⟩

/-- A nonterminal that unit productions lead back to is declared, unless they
never left it. -/
theorem mem_names_of_unitReaches {a b : String} (reach : g.UnitReaches a b) (ne : a ≠ b) :
    a ∈ g.names := by
  rcases Relation.ReflTransGen.cases_head reach with same | ⟨next, edge, -⟩
  · exact absurd same ne
  · exact g.mem_names_of_mem_productionsOf edge

/-! ## 4. Rules without unit productions -/

/-- **Unit productions are eliminated along the recursive walk.** The search for a
unit closure meets the names that the recursive walk meets, in its order: each
nonterminal that unit productions lead to, once. When the elimination succeeds,
the names, their order and the start setting stay, and the alternatives of a
nonterminal are the other productions of what the walk meets, in that order,
each where it comes first. Nonterminals on one unit cycle thus get the same
alternatives. -/
theorem elimination_follows_tour (g : Grammar) :
    (∀ name, g.unitClosure name = g.unitTour [] [name] ∧ (g.unitTour [] [name]).Nodup ∧
      ∀ m, m ∈ g.unitTour [] [name] ↔ g.UnitReaches name m) ∧
    ∀ g', g.eliminateUnits.outcome = .ok g' →
      g'.names = g.names ∧ g'.explicitStart = g.explicitStart ∧
      (∀ name ∈ g.names, g'.productions? name =
        some ((g.unitTour [] [name]).flatMap fun m =>
          (g.productionsOf m).filter fun p => p.unitTarget?.isNone).eraseDups) ∧
      ∀ a b, g.UnitReaches a b → g.UnitReaches b a →
        ∀ p, p ∈ g'.productionsOf a ↔ p ∈ g'.productionsOf b := by
  refine ⟨fun name => ?_, fun g' h => ?_⟩
  · rw [← g.unitClosure_eq_unitTour]
    exact ⟨rfl, g.nodup_unitClosure name, g.mem_unitClosure_iff name⟩
  have eliminates := eliminatesUnits_of_ok h
  refine ⟨eliminates.names, eliminates.explicitStart, ?_, ?_⟩
  · intro name declared
    obtain ⟨rule, hr, rfl⟩ := (g.mem_names_iff name).1 declared
    have listed : (⟨rule.name, g.resolvents rule.name⟩ : Rule) ∈ g'.rules := by
      rw [eliminates.rules]
      exact List.mem_map_of_mem hr
    rw [g'.productions?_of_mem listed, ← g.unitClosure_eq_unitTour]
    rfl
  · intro a b there back p
    by_cases same : a = b
    · rw [same]
    · rw [eliminates.mem_productionsOf_iff, eliminates.mem_productionsOf_iff,
        g.mem_resolvents_iff_of_cycle there back]
      have declared := g.mem_names_of_unitReaches there same
      have declared' := g.mem_names_of_unitReaches back (Ne.symm same)
      simp only [declared, declared', true_and]

/-- A diamond, a self reference, a cycle of two and an undeclared target. -/
def tangled : Grammar :=
  ⟨RuleTable.ofList
    [⟨"S", [.unit (.nonterminal "B"), .unit (.nonterminal "A"), .unit (.terminal "s")]⟩,
     ⟨"A", [.unit (.nonterminal "A"), .unit (.nonterminal "Gone"), .unit (.terminal "a")]⟩,
     ⟨"B", [.unit (.terminal "b"), .unit (.nonterminal "C"), .unit (.nonterminal "A")]⟩,
     ⟨"C", [.unit (.nonterminal "B"), .pair (.nonterminal "S") (.nonterminal "S"),
       .unit (.terminal "b")]⟩], none⟩

/-- The walk from `S` meets every name once, and `B` and `C` get the same alternatives. -/
theorem elimination_follows_tour_tangled :
    ∃ g', tangled.eliminateUnits.outcome = .ok g' ∧
      tangled.unitTour [] ["S"] = ["S", "B", "C", "A", "Gone"] ∧
      g'.productions? "S" = some [.unit (.terminal "s"), .unit (.terminal "b"),
        .pair (.nonterminal "S") (.nonterminal "S"), .unit (.terminal "a")] ∧
      ∀ p, p ∈ g'.productionsOf "B" ↔ p ∈ g'.productionsOf "C" := by
  have succeeds : tangled.eliminateUnits.outcome.isOk = true := by decide +kernel
  have tour : tangled.unitTour [] ["S"] = ["S", "B", "C", "A", "Gone"] := by decide +kernel
  obtain ⟨g', ok⟩ := Logged.exists_eq_ok succeeds
  obtain ⟨-, -, alternatives, cycle⟩ := (elimination_follows_tour tangled).2 g' ok
  refine ⟨g', ok, tour, ?_, cycle "B" "C" (.single ?_) (.single ?_)⟩
  · rw [alternatives "S" (by decide), tour]
    decide +kernel
  · rw [← mem_unitTargets_iff]
    decide +kernel
  · rw [← mem_unitTargets_iff]
    decide +kernel

end Grammar

end ChomskyForm
