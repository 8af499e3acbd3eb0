/-
Converting a normal form again.

Stand-ins are made for terminals beside other symbols, tails for productions of
more than two symbols, and alternatives are moved along unit productions. A
normal form has none of these, so the last three stages leave it as it is, down
to the order of its rules and alternatives. What a second conversion does is the
work of the first stage alone: one more wrapper. The one unit production that
the wrapper brings is resolved in a single step, since the start symbol has none.
-/
import ChomskyForm.Proofs.Normal.GeneratedNames
import ChomskyForm.Proofs.Normal.Shape

set_option autoImplicit false

namespace ChomskyForm

/-! ## 1. Nothing to isolate -/

theorem StandIn.substitute_nil (s : Symbol) : substitute [] s = s := by
  cases s <;> rfl

/-- Without stand-ins every production stays. -/
theorem Production.standInTerminals_nil (p : Production) : p.standInTerminals [] = p := by
  unfold standInTerminals
  split
  · rfl
  · apply Production.ext
    rw [symbols_map, funext StandIn.substitute_nil]
    exact List.map_id _

/-- Where terminals stand alone none has to be replaced. -/
theorem Production.Separated.mixedTerminals_eq_nil {p : Production} (h : p.Separated) :
    p.mixedTerminals = [] := by
  unfold mixedTerminals
  split
  · rfl
  · rename_i long
    rw [List.filterMap_eq_nil_iff]
    intro s hs
    obtain ⟨name, rfl⟩ := (Symbol.isTerminal_eq_false_iff s).1 (h (by omega) s hs)
    rfl

theorem Cut.Chain.eq_nil_of_length_le {row : List Symbol} {kept : Production}
    {tails : List Rule} (h : Chain row kept tails) (le : row.length ≤ 2) : tails = [] := by
  apply List.eq_nil_of_length_eq_zero
  rw [h.length_tails, tailRows_of_length_le le, List.length_nil]

namespace Grammar

/-- A grammar in which every terminal stands alone is left as it is. -/
theorem IsolatesTerminals.eq_of_separated {g g' : Grammar} (h : g.IsolatesTerminals g')
    (separated : ∀ rule ∈ g.rules, ∀ p ∈ rule.alternatives, p.Separated) : g' = g := by
  have none : g.mixedTerminals = [] := by
    have all : (g.rules.flatMap fun rule =>
        rule.alternatives.flatMap Production.mixedTerminals) = [] := by
      rw [List.flatMap_eq_nil_iff]
      intro rule hr
      rw [List.flatMap_eq_nil_iff]
      exact fun p hp => (separated rule hr p hp).mixedTerminals_eq_nil
    rw [mixedTerminals, all, List.eraseDups_nil]
  have standIns : g.standIns = [] := by
    rw [Grammar.standIns, none]
    rfl
  refine Grammar.ext ?_ h.explicitStart
  rw [h.rules, standIns, List.map_nil, List.append_nil,
    funext Production.standInTerminals_nil]
  simp

/-! ## 2. Nothing to cut -/

/-- A grammar without productions of more than two symbols is left as it is. -/
theorem Binarizes.eq_of_short {g g' : Grammar} (h : g.Binarizes g')
    (short : ∀ rule ∈ g.rules, ∀ p ∈ rule.alternatives, p.length ≤ 2) : g' = g := by
  have short' : ∀ x ∈ g.trims, ∀ t ∈ x.trims, t.whole.symbols.length ≤ 2 := fun x hx t ht =>
    short x.rule (rule_mem_of_mem_trims hx) t.whole (whole_mem_of_mem_trims hx ht)
  have tails : g.cutRules.tails = [] := by
    rw [tails_eq_flatMap_trims, List.flatMap_eq_nil_iff]
    intro x hx
    rw [List.flatMap_eq_nil_iff]
    exact fun t ht => (chain_of_mem_trims hx ht).eq_nil_of_length_le (short' x hx t ht)
  refine Grammar.ext ?_ h.explicitStart
  rw [h.rules, tails, List.append_nil, kept_eq_map_trims, rules_eq_map_trims]
  apply List.map_congr_left
  intro x hx
  -- each alternative is kept whole, and the rule with it
  have kept : (x.trims.map fun t => t.cut.kept) = x.rule.alternatives := by
    rw [← map_whole_of_mem_trims hx]
    apply List.map_congr_left
    intro t ht
    exact Production.ext ((chain_of_mem_trims hx ht).symbols_kept_of_length_le (short' x hx t ht))
  rw [kept]

/-! ## 3. Nothing to resolve -/

variable {g : Grammar}

/-- Alternatives without repetitions, and none of them a unit production. -/
structure Resolved (g : Grammar) (name : String) : Prop where
  nodup : (g.productionsOf name).Nodup
  unitTarget? : ∀ p ∈ g.productionsOf name, p.unitTarget? = none

/-- A resolved nonterminal leads nowhere. -/
theorem Resolved.unitTargets_eq_nil {name : String} (h : g.Resolved name) :
    g.unitTargets name = [] := by
  rw [unitTargets, List.filterMap_eq_nil_iff]
  exact h.unitTarget?

/-- All alternatives of a resolved nonterminal are resolvents. -/
theorem Resolved.filter_eq {name : String} (h : g.Resolved name) :
    ((g.productionsOf name).filter fun p => p.unitTarget?.isNone) = g.productionsOf name := by
  rw [List.filter_eq_self]
  intro p hp
  rw [h.unitTarget? p hp, Option.isNone_none]

/-- A resolved nonterminal resolves to what it has. -/
theorem Resolved.resolvents_eq {name : String} (h : g.Resolved name) :
    g.resolvents name = g.productionsOf name := by
  have alone : g.unitClosure name = [name] := by
    rw [unitClosure, visitUnits, if_neg List.not_mem_nil, h.unitTargets_eq_nil]
    simp [visitUnits]
  rw [resolvents, alone, List.flatMap_singleton, h.filter_eq, eraseDups_of_nodup h.nodup]

/-- A nonterminal that only refers to a resolved one resolves to what that one
has. -/
theorem Resolved.resolvents_eq_of_unit {name target : String} (h : g.Resolved target)
    (only : g.productionsOf name = [.unit (.nonterminal target)]) (ne : target ≠ name) :
    g.resolvents name = g.productionsOf target := by
  have targets : g.unitTargets name = [target] := by
    rw [unitTargets, only]
    rfl
  have two : g.unitClosure name = [name, target] := by
    rw [unitClosure, visitUnits, if_neg List.not_mem_nil, targets, List.append_nil, visitUnits,
      if_neg (by simpa using ne), h.unitTargets_eq_nil]
    simp [visitUnits]
  -- the unit production itself is no resolvent
  have own : ((g.productionsOf name).filter fun p => p.unitTarget?.isNone) = [] := by
    rw [only]
    rfl
  rw [resolvents, two, List.flatMap_cons, own, List.nil_append, List.flatMap_singleton,
    h.filter_eq, eraseDups_of_nodup h.nodup]

end Grammar

/-! ## 4. A second conversion -/

/-- A production of one symbol is short, and its symbol stands alone. -/
theorem Production.short_and_separated_unit (s : Symbol) :
    (unit s).length ≤ 2 ∧ (unit s).Separated :=
  ⟨Nat.le_succ 1, fun long => absurd long (Nat.lt_irrefl 1)⟩

/-- A normal production has the shapes of all three stages. -/
theorem Production.IsNormal.shapes {p : Production} (h : p.IsNormal) :
    p.unitTarget? = none ∧ p.length ≤ 2 ∧ p.Separated := by
  rcases h with ⟨text, rfl⟩ | ⟨first, second, rfl⟩
  · exact ⟨rfl, short_and_separated_unit _⟩
  · refine ⟨rfl, Nat.le_refl 2, fun _ s hs => ?_⟩
    rw [symbols_pair, List.mem_cons, List.mem_singleton] at hs
    rcases hs with rfl | rfl <;> rfl

namespace Grammar

variable {g : Grammar}

/-- **A grammar in normal form gets a wrapper and nothing else**, if its start
symbol is declared, every nonterminal has an alternative and no rule repeats
one. -/
theorem toNormalForm_of_normal {start : Rule} (hs : start ∈ g.rules)
    (starts : g.start? = some start.name)
    (normal : ∀ rule ∈ g.rules, rule.alternatives ≠ [] ∧ rule.alternatives.Nodup ∧
      ∀ p ∈ rule.alternatives, p.IsNormal) :
    ∃ g', g.toNormalForm.outcome = .ok g' ∧
      g'.rules = ⟨g.wrapperName, start.alternatives⟩ :: g.rules ∧
      g'.explicitStart = some g.wrapperName := by
  have declared : start.name ∈ g.names := g.name_mem_names hs
  obtain ⟨inner, g₁, g₂, g₃, wraps, isolates, binarizes, e⟩ :=
    exists_stages (List.ne_nil_of_mem declared)
  obtain rfl : inner = start.name := Option.some.inj (wraps.start?.symm.trans starts)
  -- the wrapped grammar has only short productions in which terminals stand alone
  have small : ∀ rule ∈ g₁.rules, ∀ p ∈ rule.alternatives, p.length ≤ 2 ∧ p.Separated := by
    intro rule hr p hp
    rw [wraps.rules, List.mem_cons] at hr
    rcases hr with rfl | hr
    · rw [List.mem_singleton.1 hp]
      exact Production.short_and_separated_unit _
    · exact ((normal rule hr).2.2 p hp).shapes.2
  obtain rfl := isolates.eq_of_separated fun rule hr p hp => (small rule hr p hp).2
  obtain rfl := binarizes.eq_of_short fun rule hr p hp => (small rule hr p hp).1
  -- so the last stage sees the wrapper in front of resolved rules
  have resolved : ∀ rule ∈ g.rules, g₃.Resolved rule.name := by
    intro rule hr
    have ⟨_, nodup, shapes⟩ := normal rule hr
    refine ⟨?_, fun p hp => ?_⟩
    · rwa [wraps.productionsOf_of_mem hr]
    · rw [wraps.productionsOf_of_mem hr] at hp
      exact (shapes p hp).shapes.1
  have kept : ∀ rule ∈ g.rules, g₃.resolvents rule.name = rule.alternatives := by
    intro rule hr
    rw [(resolved rule hr).resolvents_eq, wraps.productionsOf_of_mem hr]
  have wrapper : g₃.resolvents g.wrapperName = start.alternatives := by
    have other : start.name ≠ g.wrapperName := fun same =>
      g.wrapperName_notMem (mem_taken_of_mem_names (same ▸ declared))
    rw [(resolved start hs).resolvents_eq_of_unit wraps.productionsOf_wrapperName other,
      wraps.productionsOf_of_mem hs]
  obtain ⟨g', ok, eliminates⟩ := outcome_eliminateUnits_of_forall (g := g₃) (by
    intro name hn
    rw [wraps.names, List.mem_cons] at hn
    rcases hn with rfl | hn
    · rw [wrapper]
      exact (normal start hs).1
    · obtain ⟨rule, hr, rfl⟩ := (g.mem_names_iff name).1 hn
      rw [kept rule hr]
      exact (normal rule hr).1)
  refine ⟨g', e.trans ok, ?_, eliminates.explicitStart.trans wraps.explicitStart⟩
  rw [eliminates.rules, wraps.rules, List.map_cons, wrapper]
  congr 1
  conv_rhs => rw [← List.map_id g.rules]
  apply List.map_congr_left
  intro rule hr
  rw [kept rule hr]
  rfl

/-- **A second conversion only adds a wrapper.** The normal form of a grammar has a
normal form itself, and that consists of one new rule, which starts it and has
the alternatives of the first one's start symbol, and of all rules of the first
one as they are. -/
theorem toNormalForm_twice {g g' : Grammar} (h : g.toNormalForm.outcome = .ok g') :
    ∃ start ∈ g'.rules, g'.start? = some start.name ∧
      ∃ g'', g'.toNormalForm.outcome = .ok g'' ∧
        ∃ name, g'.Fresh name ∧ g''.start? = some name ∧
          g''.rules = ⟨name, start.alternatives⟩ :: g'.rules := by
  obtain ⟨inner, g₁, g₂, g₃, wraps, isolates, binarizes, eliminates⟩ := stages_of_ok h
  have starts := start?_of_stages wraps isolates binarizes eliminates
  have declared : g.wrapperName ∈ g'.names := by
    rw [names_of_stages wraps isolates binarizes eliminates]
    exact List.mem_cons_self
  obtain ⟨start, hs, same⟩ := (g'.mem_names_iff _).1 declared
  rw [← same] at starts
  obtain ⟨g'', ok, rules, explicit⟩ :=
    toNormalForm_of_normal hs starts fun rule hr => rule_of_ok h hr
  have fresh : g'.Fresh g'.wrapperName :=
    fresh_of_claims g'.claims_wrapperName (List.mem_singleton.2 rfl)
  exact ⟨start, hs, starts, g'', ok, g'.wrapperName, fresh, start?_eq_some explicit, rules⟩

/-- A long production, terminals beside other symbols, and a chain of unit
productions. -/
def chained : Grammar :=
  ⟨RuleTable.ofList
    [⟨"S", [.unit (.nonterminal "A"),
      ⟨[.terminal "[", .nonterminal "S", .terminal "]"], by simp⟩]⟩,
     ⟨"A", [.unit (.nonterminal "S"), .unit (.terminal "a")]⟩], none⟩

/-- The second conversion adds one rule to what the first one made. -/
theorem toNormalForm_twice_chained :
    ∃ g' g'' name alternatives, chained.toNormalForm.outcome = .ok g' ∧
      g'.toNormalForm.outcome = .ok g'' ∧ g'.Fresh name ∧ g''.start? = some name ∧
      g''.rules = ⟨name, alternatives⟩ :: g'.rules := by
  have succeeds : chained.toNormalForm.outcome.isOk = true := by decide +kernel
  obtain ⟨g', ok⟩ := Logged.exists_eq_ok succeeds
  obtain ⟨start, -, -, g'', ok', name, fresh, starts, rules⟩ := toNormalForm_twice ok
  exact ⟨g', g'', name, start.alternatives, ok, ok', fresh, starts, rules⟩

end Grammar

end ChomskyForm
