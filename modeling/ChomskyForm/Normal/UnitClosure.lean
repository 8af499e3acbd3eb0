/-
Unit closures, and rules without unit productions.

The unit closure of a nonterminal holds the nonterminals that unit productions
lead to, the nonterminal itself first. It is found depth first with an explicit
stack: a nonterminal met for the first time puts its unit targets on top, in
the order of its alternatives. A nonterminal that is referred to but not
declared is a member too, one with no alternatives.

The search ends on every grammar. A step takes one name off the stack. Only a
declared nonterminal that is met for the first time puts names on it, as many
as it has unit targets, and each nonterminal does so once.
-/
import ChomskyForm.Normal.GeneratedRule

set_option autoImplicit false

namespace ChomskyForm.Grammar

/-- The nonterminals that the unit productions of a nonterminal refer to, in
the order of its alternatives. -/
def unitTargets (g : Grammar) (name : String) : List String :=
  (g.productionsOf name).filterMap Production.unitTarget?

/-- What some names, those that are not visited, can still put on the stack, and
one more for each of them. -/
def workOf (g : Grammar) (visited names : List String) : Nat :=
  (names.filter fun name => !visited.contains name).foldr
    (fun name rest => (g.unitTargets name).length + 1 + rest) 0

/-- What the names that are declared and not visited can still put on the
stack, and one more for each of them. -/
def unvisitedWork (g : Grammar) (visited : List String) : Nat := g.workOf visited g.names

theorem workOf_of_visited (g : Grammar) {visited : List String} {name : String}
    (seen : name ∈ visited) (names : List String) :
    g.workOf visited (name :: names) = g.workOf visited names := by
  unfold workOf
  rw [List.filter_cons_of_neg (by simp [seen])]

/-- A name that is not visited still has its unit targets to put on the stack, and is a
visit itself. -/
theorem workOf_of_new (g : Grammar) {visited : List String} {name : String}
    (new : name ∉ visited) (names : List String) :
    g.workOf visited (name :: names) =
      (g.unitTargets name).length + 1 + g.workOf visited names := by
  unfold workOf
  rw [List.filter_cons_of_pos (by simp [new]), List.foldr_cons]

/-- The more is visited, the less work is left. -/
theorem workOf_le_of_subset (g : Grammar) {visited visited' : List String}
    (sub : visited ⊆ visited') (names : List String) :
    g.workOf visited' names ≤ g.workOf visited names := by
  induction names with
  | nil => exact Nat.le_refl _
  | cons name rest ih =>
    by_cases seen' : name ∈ visited'
    · rw [g.workOf_of_visited seen']
      by_cases seen : name ∈ visited
      · rwa [g.workOf_of_visited seen]
      · rw [g.workOf_of_new seen]
        omega
    · rw [g.workOf_of_new seen', g.workOf_of_new fun seen => seen' (sub seen)]
      omega

/-- Visiting a declared nonterminal for the first time uses up more work than
it puts on the stack. -/
theorem unvisitedWork_cons_lt (g : Grammar) {visited : List String} {name : String}
    (declared : name ∈ g.names) (new : name ∉ visited) :
    (g.unitTargets name).length + g.unvisitedWork (name :: visited) < g.unvisitedWork visited := by
  unfold unvisitedWork
  revert declared
  induction g.names with
  | nil => exact fun declared => absurd declared List.not_mem_nil
  | cons other rest ih =>
    intro declared
    by_cases same : other = name
    · -- the visited name leaves the sum with its whole share
      subst same
      have mono := g.workOf_le_of_subset (List.subset_cons_self other visited) rest
      rw [g.workOf_of_visited List.mem_cons_self, g.workOf_of_new new]
      omega
    · have tail := ih (by simpa [Ne.symm same] using declared)
      by_cases seen : other ∈ visited
      · rw [g.workOf_of_visited seen, g.workOf_of_visited (List.mem_cons_of_mem _ seen)]
        exact tail
      · rw [g.workOf_of_new seen, g.workOf_of_new (by simp [same, seen])]
        omega

/-- Visiting a name adds no work. -/
theorem unvisitedWork_cons_le (g : Grammar) (visited : List String) (name : String) :
    g.unvisitedWork (name :: visited) ≤ g.unvisitedWork visited :=
  g.workOf_le_of_subset (List.subset_cons_self name visited) g.names

/-- A name that is not declared has no alternatives, and so no unit targets. -/
theorem unitTargets_eq_nil (g : Grammar) {name : String} (h : name ∉ g.names) :
    g.unitTargets name = [] := by
  have : g.table.rules.find? (fun rule => rule.name == name) = none := by
    rw [List.find?_eq_none]
    intro rule hr heq
    exact h (List.mem_map.2 ⟨rule, hr, by simpa using heq⟩)
  simp [unitTargets, productionsOf, productions?, RuleTable.find?, this]

/-- The search: `stack` holds the names to look at, the next one first, and
`visited` the names met so far, the latest first. -/
def visitUnits (g : Grammar) : (stack visited : List String) → List String
  | [], visited => visited
  | name :: stack, visited =>
    if name ∈ visited then g.visitUnits stack visited
    else g.visitUnits (g.unitTargets name ++ stack) (name :: visited)
termination_by stack visited => stack.length + g.unvisitedWork visited
decreasing_by
  · simp only [List.length_cons]
    omega
  · rename_i new
    simp only [List.length_append, List.length_cons]
    by_cases declared : name ∈ g.names
    · have := g.unvisitedWork_cons_lt declared new
      omega
    · have := g.unvisitedWork_cons_le visited name
      rw [g.unitTargets_eq_nil declared, List.length_nil]
      omega

/-- The nonterminals that unit productions lead to from `name`, itself first,
in the order in which they are met. -/
def unitClosure (g : Grammar) (name : String) : List String :=
  (g.visitUnits [name] []).reverse

/-- Whether unit productions lead from a nonterminal back to itself: some
member of its closure refers to it. -/
def onUnitCycle (g : Grammar) (name : String) : Bool :=
  (g.unitClosure name).any fun member => (g.unitTargets member).contains name

/-- The productions that resolve a nonterminal: those of its closure that are
not unit productions, each once, in the order of their first occurrence. -/
def resolvents (g : Grammar) (name : String) : List Production :=
  ((g.unitClosure name).flatMap fun member =>
    (g.productionsOf member).filter fun p => p.unitTarget?.isNone).eraseDups

/-- Reports the given nonterminals that are on a unit cycle, and stops at the
first one that resolves to nothing. -/
def inspectUnits (g : Grammar) : List String → Logged NormalizeError Unit
  | [] => pure ()
  | name :: rest => do
    if g.onUnitCycle name then
      Logged.note .debug ("<" ++ name ++ "> is on a unit cycle")
    if (g.resolvents name).isEmpty then
      Logged.fail (.unresolvable name)
    else
      g.inspectUnits rest

/-- Gives every nonterminal its resolvents in the place of its alternatives.
The resolvents are all taken from the grammar as it was. -/
def eliminateUnits (g : Grammar) : Logged NormalizeError Grammar := do
  g.inspectUnits g.names
  return g.replaceRules (g.table.mapRules fun name _ => g.resolvents name)

end ChomskyForm.Grammar
