/-
Tails: long productions cut into pairs.

A production `A -> X1 X2 X3 X4` becomes

    A  -> X1 T1
    T1 -> X2 T2
    T2 -> X3 X4

Every cut makes a tail with a name of its own, so no two productions share a
tail. Names are claimed in the order in which the tails stand: rule by rule,
alternative by alternative, from left to right.
-/
import ChomskyForm.Normal.GeneratedRule

set_option autoImplicit false

namespace ChomskyForm

/-- What remains of something that was cut, the rules of the tails that were
cut off, and the names that are taken now. -/
structure Cut (α : Type) where
  kept : α
  tails : List Rule
  taken : TakenNames

namespace Cut

/-- Cuts the row `first :: rest` of an alternative of `origin`. The tail that
begins with the first symbol of `rest` is the tail at `position`. -/
def row (origin : String) (alternative : Nat) :
    (position : Nat) → (first : Symbol) → (rest : List Symbol) → TakenNames → Cut Production
  | _, first, [], taken => ⟨Production.unit first, [], taken⟩
  | _, first, [last], taken => ⟨Production.pair first last, [], taken⟩
  | position, first, second :: third :: rest, taken =>
    let (name, taken) := taken.claim (WantedName.tail origin alternative position)
    let tail := row origin alternative (position + 1) second (third :: rest) taken
    ⟨Production.pair first (.nonterminal name), ⟨name, [tail.kept]⟩ :: tail.tails, tail.taken⟩

/-- Cuts one alternative of `origin`. -/
def production (origin : String) (alternative : Nat) (p : Production) (taken : TakenNames) :
    Cut Production :=
  match p with
  | ⟨first :: rest, _⟩ => row origin alternative 1 first rest taken

/-- Cuts the alternatives of `origin` from the one at `index` on. -/
def alternatives (origin : String) :
    (index : Nat) → List Production → TakenNames → Cut (List Production)
  | _, [], taken => ⟨[], [], taken⟩
  | index, p :: rest, taken =>
    let head := production origin index p taken
    let others := alternatives origin (index + 1) rest head.taken
    ⟨head.kept :: others.kept, head.tails ++ others.tails, others.taken⟩

/-- Cuts the alternatives of all rules. -/
def rules : List Rule → TakenNames → Cut (List Rule)
  | [], taken => ⟨[], [], taken⟩
  | rule :: rest, taken =>
    let head := alternatives rule.name 0 rule.alternatives taken
    let others := rules rest head.taken
    ⟨⟨rule.name, head.kept⟩ :: others.kept, head.tails ++ others.tails, others.taken⟩

/-- Cutting keeps the rules under their names. -/
theorem map_name_rules (rs : List Rule) (taken : TakenNames) :
    (rules rs taken).kept.map Rule.name = rs.map Rule.name := by
  induction rs generalizing taken with
  | nil => rfl
  | cons rule rest ih => simp [rules, ih]

end Cut

namespace Grammar

/-- Cuts the rules of a grammar, whose names are the names taken at first. -/
def cutRules (g : Grammar) : Cut (List Rule) := Cut.rules g.rules (TakenNames.ofGrammar g)

/-- The rules that are left of a grammar's rules when their tails are cut
off. -/
def cutTable (g : Grammar) : RuleTable :=
  ⟨g.cutRules.kept, by
    show (g.cutRules.kept.map Rule.name).Nodup
    rw [cutRules, Cut.map_name_rules]
    exact g.table.nodup⟩

/-- Cuts every production of more than two symbols into pairs. -/
def binarize (g : Grammar) : Logged NormalizeError Grammar := do
  let tails := g.cutRules.tails
  Logged.note .debug ("split off " ++ toString tails.length ++ " tail productions")
  (g.replaceRules g.cutTable).defineAll tails

end Grammar

end ChomskyForm
