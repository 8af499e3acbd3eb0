/-
The size of a normal form.

Every stage is reported with the size of its result, and what is reported can be
said of the grammar that is converted. The wrapper is one rule with one
production. Behind it there is a rule with one production for each distinct
terminal that stands beside another symbol, and one for each symbol by which a
production is longer than two. No rule is added to another one, since generated
names are new, and replacing terminals changes no length. Unit elimination keeps
the rules; of their alternatives there are no more than distinct productions that
are not unit.
-/
import Mathlib.Algebra.Ring.Nat
import Mathlib.Data.Finset.Card
import ChomskyForm.Proofs.Normal.Isolation

set_option autoImplicit false

namespace ChomskyForm

/-! ## 1. Counting productions -/

namespace Grammar

/-- All productions, by rule and alternative. -/
def productions (g : Grammar) : List Production := g.rules.flatMap Rule.alternatives

/-- By how many symbols the productions are longer than two, all together. -/
def excess (g : Grammar) : Nat :=
  ((g.productions.filter fun p => 2 < p.length).map fun p => p.length - 2).sum

/-- The number of distinct terminals in productions of two symbols or more. -/
def longTerminalCount (g : Grammar) : Nat := g.longTerminals.toFinset.card

/-- The number of distinct productions that are not unit productions. -/
def resolvedCount (g : Grammar) : Nat :=
  (g.productions.filter fun p => p.unitTarget?.isNone).toFinset.card

variable {g g' : Grammar} {inner : String}

/-- The count is the number of all productions. -/
theorem productionCount_eq (g : Grammar) : g.productionCount = g.productions.length := by
  unfold productionCount RuleTable.productionCount productions rules
  induction g.table.rules with
  | nil => rfl
  | cons rule rest ih => rw [List.foldr_cons, ih, List.flatMap_cons, List.length_append]

/-- A production of at most two symbols adds nothing to the excess. -/
theorem excess_eq (g : Grammar) : g.excess = (g.productions.map fun p => p.length - 2).sum := by
  unfold excess
  induction g.productions with
  | nil => rfl
  | cons p rest ih =>
    rw [List.map_cons, List.sum_cons, ← ih]
    by_cases long : 2 < p.length
    · rw [List.filter_cons, if_pos (decide_eq_true long), List.map_cons, List.sum_cons]
    · rw [List.filter_cons, if_neg (by simpa using long)]
      omega

/-- Distinct terminals are listed once. -/
theorem length_mixedTerminals (g : Grammar) : g.mixedTerminals.length = g.longTerminalCount := by
  have nodup : g.mixedTerminals.Nodup := nodup_eraseDups _
  rw [longTerminalCount, ← List.toFinset_card_of_nodup nodup]
  congr 1
  ext text
  rw [List.mem_toFinset, List.mem_toFinset, g.firstsOf_mixedTerminals.mem_iff]

/-- There is one stand-in for each terminal that is listed. -/
theorem length_standIns (g : Grammar) : g.standIns.length = g.longTerminalCount := by
  rw [← length_mixedTerminals, ← List.length_map (f := StandIn.terminal), standIns,
    StandIn.map_terminal_claimAll]

/-! ## 2. What each stage adds -/

/-- The wrapper is one more rule. -/
theorem WrapsStart.size (h : g.WrapsStart inner g') : g'.size = g.size + 1 :=
  congrArg List.length h.rules

/-- The one production of the wrapper comes first. It is not long and holds no terminal,
so it changes none of the other counts. -/
theorem WrapsStart.productions (h : g.WrapsStart inner g') :
    g'.productions = .unit (.nonterminal inner) :: g.productions := by
  rw [Grammar.productions, h.rules]
  rfl

theorem WrapsStart.productionCount (h : g.WrapsStart inner g') :
    g'.productionCount = g.productionCount + 1 := by
  rw [productionCount_eq, productionCount_eq, h.productions, List.length_cons]

theorem WrapsStart.excess (h : g.WrapsStart inner g') : g'.excess = g.excess := by
  rw [excess_eq, excess_eq, h.productions, List.map_cons, List.sum_cons]
  exact Nat.zero_add _

theorem WrapsStart.longTerminalCount (h : g.WrapsStart inner g') :
    g'.longTerminalCount = g.longTerminalCount := by
  rw [← length_mixedTerminals, h.mixedTerminals_eq, length_mixedTerminals]

/-- There is one more rule for each distinct terminal that is isolated. -/
theorem IsolatesTerminals.size (h : g.IsolatesTerminals g') :
    g'.size = g.size + g.longTerminalCount := by
  show g'.rules.length = g.rules.length + _
  rw [h.rules, List.length_append, List.length_map, List.length_map, length_standIns]

/-- The productions are those of before, with stand-ins, and one for each stand-in. -/
theorem IsolatesTerminals.productions (h : g.IsolatesTerminals g') :
    g'.productions = g.productions.map (Production.standInTerminals g.standIns) ++
      g.standIns.map fun x => .unit (.terminal x.terminal) := by
  rw [Grammar.productions, h.rules, List.flatMap_append, List.flatMap_map, List.flatMap_map,
    Grammar.productions, List.map_flatMap, List.map_eq_flatMap]
  rfl

/-- There are as many more productions as stand-ins. -/
theorem IsolatesTerminals.productionCount (h : g.IsolatesTerminals g') :
    g'.productionCount = g.productionCount + g.longTerminalCount := by
  rw [productionCount_eq, productionCount_eq, h.productions, List.length_append, List.length_map,
    List.length_map, length_standIns]

/-- No production is longer than it was, and those of the stand-ins are short. -/
theorem IsolatesTerminals.excess (h : g.IsolatesTerminals g') : g'.excess = g.excess := by
  have own : ((g.standIns.map fun x => Production.unit (.terminal x.terminal)).map
      fun p => p.length - 2).sum = 0 := by
    simp [Function.comp_def, Production.length]
  rw [excess_eq, excess_eq, h.productions, List.map_append, List.sum_append, own, List.map_map]
  -- stand-ins change no length
  simp only [Function.comp_def, length_standInTerminals, Nat.add_zero]

/-- The productions are what the cuts are about. -/
theorem productions_eq_map_cuts (g : Grammar) : g.productions = g.cuts.map Trim.whole := by
  rw [Grammar.productions, rules_eq_map_trims, List.flatMap_map, cuts, List.map_flatMap]
  exact List.flatMap_congr fun x hx => (map_whole_of_mem_trims hx).symm

/-- There are as many tails as symbols beyond the second ones. -/
theorem length_tails (g : Grammar) : g.cutRules.tails.length = g.excess := by
  rw [tails_eq_flatMap_cuts, List.length_flatMap, excess_eq, productions_eq_map_cuts,
    List.map_map]
  congr 1
  apply List.map_congr_left
  intro t ht
  rw [(chain_of_mem_cuts ht).length_tails, Cut.length_tailRows]
  rfl

/-- There is one more rule for each symbol of the excess. -/
theorem Binarizes.size (h : g.Binarizes g') : g'.size = g.size + g.excess := by
  show g'.rules.length = g.rules.length + _
  rw [h.rules, List.length_append, length_tails, kept_eq_map_trims, rules_eq_map_trims,
    List.length_map, List.length_map]

/-- Cutting leaves a piece of every production in its place, and every tail has one more. -/
theorem Binarizes.productionCount (h : g.Binarizes g') :
    g'.productionCount = g.productionCount + g.excess := by
  have kept : (g.cutRules.kept.flatMap Rule.alternatives).length = g.productions.length := by
    rw [kept_eq_map_trims, List.flatMap_map, productions_eq_map_cuts, cuts, List.map_flatMap,
      List.length_flatMap, List.length_flatMap]
    simp only [List.length_map]
  -- a tail has one alternative, which the targets of its alternatives show
  have single : ∀ tail ∈ g.cutRules.tails, tail.alternatives.length = 1 := by
    intro tail ht
    rw [tails_eq_flatMap_cuts] at ht
    obtain ⟨t, hc, ht⟩ := List.mem_flatMap.1 ht
    have one := congrArg List.length ((chain_of_mem_cuts hc).unitTarget?_tails ht)
    rwa [List.length_map] at one
  rw [productionCount_eq, productionCount_eq, Grammar.productions, h.rules, List.flatMap_append,
    List.length_append, kept, List.length_flatMap, List.map_congr_left single, ← length_tails]
  simp

/-- Resolvents are distinct, and each is a production that was there. -/
theorem EliminatesUnits.length_alternatives (h : g.EliminatesUnits g') {rule : Rule}
    (hr : rule ∈ g'.rules) :
    1 ≤ rule.alternatives.length ∧ rule.alternatives.length ≤ g.resolvedCount := by
  rw [h.rules] at hr
  obtain ⟨origin, ho, rfl⟩ := List.mem_map.1 hr
  refine ⟨List.length_pos_of_ne_nil (h.resolved _ (g.name_mem_names ho)), ?_⟩
  rw [← List.toFinset_card_of_nodup (g.nodup_resolvents origin.name), resolvedCount]
  apply Finset.card_le_card
  intro p hp
  obtain ⟨resolved, m, -, declared⟩ := (g.mem_resolvents_iff _ _).1 (List.mem_toFinset.1 hp)
  obtain ⟨rule, hr, -, hp⟩ := (g.mem_productionsOf_iff m p).1 declared
  rw [List.mem_toFinset, List.mem_filter, resolved]
  exact ⟨List.mem_flatMap.2 ⟨rule, hr, hp⟩, rfl⟩

/-- The rules are as many as they were. -/
theorem EliminatesUnits.size (h : g.EliminatesUnits g') : g'.size = g.size := by
  show g'.rules.length = g.rules.length
  rw [h.rules, List.length_map]

end Grammar

/-! ## 3. Reports -/

/-- The notice that tells the size of what a stage has made. -/
def Stage.sizeNotice (stage : Stage) (nonterminals productions : Nat) : Notice :=
  ⟨.debug, stage.label ++ ": " ++ toString nonterminals ++ " nonterminals, "
    ++ toString productions ++ " productions"⟩

/-- A run that succeeds has run its first stage, then reported the size of what came
of it, and then run the others. -/
theorem Stage.runAll_cons_of_ok {stage : Stage} {rest : List Stage} {g g' : Grammar}
    (ok : (runAll (stage :: rest) g).outcome = .ok g') :
    ∃ g₁, (stage.run g).outcome = .ok g₁ ∧ (runAll rest g₁).outcome = .ok g' ∧
      (runAll (stage :: rest) g).notices = (stage.run g).notices ++
        [stage.sizeNotice g₁.size g₁.productionCount] ++ (runAll rest g₁).notices := by
  rw [runAll, Logged.outcome_bind, Grammar.outcome_runReported] at ok
  cases first : (stage.run g).outcome with
  | error e =>
    rw [first] at ok
    cases ok
  | ok g₁ =>
    rw [first] at ok
    have reported : (stage.runReported g).notices =
        (stage.run g).notices ++ [stage.sizeNotice g₁.size g₁.productionCount] := by
      rw [runReported, Logged.notices_bind_ok _ _ first]
      rfl
    refine ⟨g₁, rfl, ok, ?_⟩
    rw [runAll, Logged.notices_bind_ok _ _ ((Grammar.outcome_runReported stage g).trans first),
      reported]

namespace Grammar

variable {g g' : Grammar}

/-- **The reported sizes follow from the grammar.** With `n` nonterminals and `p`
productions, `k` distinct terminals that stand beside another symbol, and `m` symbols
beyond the second ones of their productions, a conversion that succeeds reports `n + 1`
and `p + 1` behind the first stage, `k` more of both behind the second, and `m` more of
both behind the third. The last stage keeps the nonterminals. Each then has an
alternative, and no more of them than there are distinct productions behind the third
stage that are not unit productions. -/
theorem sizes_of_toNormalForm (ok : g.toNormalForm.outcome = .ok g') :
    ∃ g₁ g₂ g₃,
      g.wrapStart.outcome = .ok g₁ ∧ g₁.isolateTerminals.outcome = .ok g₂ ∧
      g₂.binarize.outcome = .ok g₃ ∧ g₃.eliminateUnits.outcome = .ok g' ∧
      g.toNormalForm.notices =
        g.wrapStart.notices ++
        [Stage.wrapStart.sizeNotice (g.size + 1) (g.productionCount + 1)] ++
        g₁.isolateTerminals.notices ++
        [Stage.isolateTerminals.sizeNotice (g.size + 1 + g.longTerminalCount)
          (g.productionCount + 1 + g.longTerminalCount)] ++
        g₂.binarize.notices ++
        [Stage.binarize.sizeNotice (g.size + 1 + g.longTerminalCount + g.excess)
          (g.productionCount + 1 + g.longTerminalCount + g.excess)] ++
        g₃.eliminateUnits.notices ++
        [Stage.eliminateUnits.sizeNotice (g.size + 1 + g.longTerminalCount + g.excess)
          g'.productionCount] ∧
      g'.size = g.size + 1 + g.longTerminalCount + g.excess ∧
      ∀ rule ∈ g'.rules,
        1 ≤ rule.alternatives.length ∧ rule.alternatives.length ≤ g₃.resolvedCount := by
  obtain ⟨g₁, ok₁, later, notices₁⟩ := Stage.runAll_cons_of_ok ok
  obtain ⟨g₂, ok₂, later, notices₂⟩ := Stage.runAll_cons_of_ok later
  obtain ⟨g₃, ok₃, later, notices₃⟩ := Stage.runAll_cons_of_ok later
  obtain ⟨g₄, ok₄, last, notices₄⟩ := Stage.runAll_cons_of_ok later
  cases last
  obtain ⟨inner, wraps⟩ := wrapsStart_of_ok ok₁
  have isolates := isolatesTerminals_of_ok ok₂
  have binarizes := binarizes_of_ok ok₃
  have eliminates := eliminatesUnits_of_ok ok₄
  have size₁ : g₁.size = g.size + 1 := wraps.size
  have size₂ : g₂.size = g.size + 1 + g.longTerminalCount := by
    rw [isolates.size, wraps.longTerminalCount, size₁]
  have size₃ : g₃.size = g.size + 1 + g.longTerminalCount + g.excess := by
    rw [binarizes.size, isolates.excess, wraps.excess, size₂]
  have count₁ : g₁.productionCount = g.productionCount + 1 := wraps.productionCount
  have count₂ : g₂.productionCount = g.productionCount + 1 + g.longTerminalCount := by
    rw [isolates.productionCount, wraps.longTerminalCount, count₁]
  have count₃ : g₃.productionCount = g.productionCount + 1 + g.longTerminalCount + g.excess := by
    rw [binarizes.productionCount, isolates.excess, wraps.excess, count₂]
  have size₄ : g'.size = g.size + 1 + g.longTerminalCount + g.excess := by
    rw [eliminates.size, size₃]
  refine ⟨g₁, g₂, g₃, ok₁, ok₂, ok₃, ok₄, ?_, size₄, fun rule hr =>
    eliminates.length_alternatives hr⟩
  rw [toNormalForm, Stage.all, notices₁, notices₂, notices₃, notices₄, size₁, size₂, size₃, size₄,
    count₁, count₂, count₃]
  simp only [List.append_assoc, Stage.run]
  rfl

/-- One terminal in productions of two rules, a repeated alternative, productions of
three and of four symbols, and a unit production. -/
def varied : Grammar :=
  ⟨RuleTable.ofList
    [⟨"S", [⟨[.terminal "(", .nonterminal "A", .nonterminal "S", .terminal ")"], by simp⟩,
      .unit (.nonterminal "A")]⟩,
     ⟨"A", [⟨[.terminal "(", .terminal "a", .terminal ")"], by simp⟩, .unit (.terminal "a"),
      .unit (.terminal "a")]⟩], none⟩

/-- With two rules, five productions, three terminals to isolate and an excess of three
there are nine nonterminals in the end. -/
theorem sizes_of_toNormalForm_varied :
    ∃ g', varied.toNormalForm.outcome = .ok g' ∧ g'.size = 9 ∧
      Stage.wrapStart.sizeNotice 3 6 ∈ varied.toNormalForm.notices ∧
      Stage.isolateTerminals.sizeNotice 6 9 ∈ varied.toNormalForm.notices ∧
      Stage.binarize.sizeNotice 9 12 ∈ varied.toNormalForm.notices := by
  have succeeds : varied.toNormalForm.outcome.isOk = true := by decide +kernel
  obtain ⟨g', ok⟩ := Logged.exists_eq_ok succeeds
  obtain ⟨g₁, g₂, g₃, -, -, -, -, notices, size, -⟩ := sizes_of_toNormalForm ok
  have declared : varied.size = 2 := by decide +kernel
  have counted : varied.productionCount = 5 := by decide +kernel
  have terminals : varied.longTerminalCount = 3 := by decide +kernel
  have beyond : varied.excess = 3 := by decide +kernel
  rw [declared, terminals, beyond] at size
  rw [declared, counted, terminals, beyond] at notices
  refine ⟨g', ok, size, ?_⟩
  rw [notices]
  simp

end Grammar

end ChomskyForm
