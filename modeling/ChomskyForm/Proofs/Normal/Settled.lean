/-
Stages that have nothing left to do.

Each of the last three stages is there to bring about one shape of the rules,
`Stage.Reached`. It gets there from every grammar, not only from those that the
stages before it leave, and the rules that it adds have the shape as well. Where
the shape is there already the stage changes nothing: no rule, no order, and no
start setting. So running a stage again gives the grammar that it was given.
-/
import ChomskyForm.Proofs.Normal.Reconversion

set_option autoImplicit false

namespace ChomskyForm

/-- The rules have the shape that a stage is there to bring about. The first stage
brings about none: every time it is run there is one more wrapper. -/
def Stage.Reached : Stage → Grammar → Prop
  | .wrapStart, _ => False
  | .isolateTerminals, g =>
    ∀ rule ∈ g.rules, ∀ p ∈ rule.alternatives, 2 ≤ p.length → ∀ text, .terminal text ∉ p.symbols
  | .binarize, g => ∀ rule ∈ g.rules, ∀ p ∈ rule.alternatives, p.length ≤ 2
  | .eliminateUnits, g =>
    ∀ rule ∈ g.rules, rule.alternatives ≠ [] ∧ rule.alternatives.Nodup ∧
      ∀ name, .unit (.nonterminal name) ∉ rule.alternatives

namespace Grammar

variable {g g' : Grammar}

/-! ## 1. A shape that is reached -/

/-- Each stage brings the shape about that it is for. -/
theorem IsolatesTerminals.reached (h : g.IsolatesTerminals g') :
    Stage.isolateTerminals.Reached g' := by
  intro rule hr p hp long text hs
  have separated := h.separated (g'.mem_productionsOf_of_mem hr hp) long _ hs
  cases separated

theorem Binarizes.reached (h : g.Binarizes g') : Stage.binarize.Reached g' := by
  intro rule hr p hp
  obtain ⟨x, hx, t, ht, piece⟩ := h.exists_piece (g'.mem_productionsOf_of_mem hr hp)
  exact ((chain_of_mem_trims hx ht).of_mem_pieces piece).1

theorem EliminatesUnits.reached (h : g.EliminatesUnits g') : Stage.eliminateUnits.Reached g' := by
  intro rule hr
  rw [h.rules] at hr
  obtain ⟨origin, ho, rfl⟩ := List.mem_map.1 hr
  refine ⟨h.resolved _ (g.name_mem_names ho), g.nodup_resolvents _, ?_⟩
  intro name unit
  have resolved := ((g.mem_resolvents_iff _ _).1 unit).1
  cases resolved

/-! ## 2. A shape that is there -/

/-- Where no terminal stands beside another symbol, the second stage changes nothing. -/
theorem outcome_isolateTerminals_of_reached (h : Stage.isolateTerminals.Reached g) :
    g.isolateTerminals.outcome = .ok g := by
  have separated : ∀ rule ∈ g.rules, ∀ p ∈ rule.alternatives, p.Separated := by
    intro rule hr p hp long s hs
    cases s with
    | nonterminal name => rfl
    | terminal text => exact absurd hs (h rule hr p hp long text)
  obtain ⟨g', ok, isolates⟩ := g.outcome_isolateTerminals
  rwa [isolates.eq_of_separated separated] at ok

/-- Where no production is longer than two, the third one changes nothing. -/
theorem outcome_binarize_of_reached (h : Stage.binarize.Reached g) :
    g.binarize.outcome = .ok g := by
  obtain ⟨g', ok, binarizes⟩ := g.outcome_binarize
  rwa [binarizes.eq_of_short h] at ok

/-- Without unit productions and repetitions a rule resolves to what it has. -/
theorem resolvents_of_reached (h : Stage.eliminateUnits.Reached g) {rule : Rule}
    (hr : rule ∈ g.rules) : g.resolvents rule.name = rule.alternatives := by
  have own := g.productionsOf_of_mem hr
  obtain ⟨-, nodup, unitFree⟩ := h rule hr
  have resolved : g.Resolved rule.name := by
    refine ⟨by rwa [own], ?_⟩
    intro p hp
    rw [own] at hp
    -- a target would make the production a unit production
    by_contra target
    obtain ⟨name, e⟩ := Option.ne_none_iff_exists'.1 target
    rw [Production.unitTarget?_eq_some_iff] at e
    exact unitFree name (e ▸ hp)
  rw [resolved.resolvents_eq, own]

/-- Where neither unit productions nor repetitions are left, the last stage changes
nothing. -/
theorem outcome_eliminateUnits_of_reached (h : Stage.eliminateUnits.Reached g) :
    g.eliminateUnits.outcome = .ok g := by
  have alive : ∀ name ∈ g.names, g.resolvents name ≠ [] := by
    intro name hn
    obtain ⟨rule, hr, rfl⟩ := (g.mem_names_iff name).1 hn
    rw [resolvents_of_reached h hr]
    exact (h rule hr).1
  obtain ⟨g', ok, eliminates⟩ := outcome_eliminateUnits_of_forall alive
  -- rule by rule: the alternatives are the resolvents, and the resolvents the alternatives
  have same : g' = g := by
    refine Grammar.ext ?_ eliminates.explicitStart
    rw [eliminates.rules]
    refine (List.map_congr_left fun rule hr => ?_).trans (List.map_id _)
    rw [resolvents_of_reached h hr]
    rfl
  rwa [same] at ok

/-! ## 3. One stage run twice -/

/-- **A stage reaches its shape**, unless it is the first one. -/
theorem reached_of_ok {stage : Stage} (later : stage ≠ .wrapStart)
    (ok : (stage.run g).outcome = .ok g') : stage.Reached g' := by
  cases stage with
  | wrapStart => exact absurd rfl later
  | isolateTerminals => exact (isolatesTerminals_of_ok ok).reached
  | binarize => exact (binarizes_of_ok ok).reached
  | eliminateUnits => exact (eliminatesUnits_of_ok ok).reached

/-- **A stage leaves its shape as it is.** -/
theorem outcome_run_of_reached {stage : Stage} (h : stage.Reached g) :
    (stage.run g).outcome = .ok g := by
  cases stage with
  | wrapStart => exact h.elim
  | isolateTerminals => exact outcome_isolateTerminals_of_reached h
  | binarize => exact outcome_binarize_of_reached h
  | eliminateUnits => exact outcome_eliminateUnits_of_reached h

/-- **A stage settles a grammar.** What one of the last three stages gives has the
shape of the stage and is given again when the stage is run on it, with the same
rules, alternatives and start setting in the same order. A grammar that has the
shape of a stage is left as it is: by the second stage if no terminal stands in a
production of two symbols or more, by the third one if no production is longer
than two, and by the last one if there is no unit production, no rule without
alternatives, and no repeated alternative in a rule. -/
theorem stage_settles :
    (∀ (stage : Stage) (g g' : Grammar), stage ≠ .wrapStart → (stage.run g).outcome = .ok g' →
      stage.Reached g' ∧ (stage.run g').outcome = .ok g') ∧
    ∀ (stage : Stage) (g : Grammar), stage.Reached g → (stage.run g).outcome = .ok g := by
  refine ⟨?_, fun stage g reached => outcome_run_of_reached reached⟩
  intro stage g g' later ok
  have reached := reached_of_ok later ok
  exact ⟨reached, outcome_run_of_reached reached⟩

/-- A grammar that every stage has to change: two brackets stand in a long
production, two nonterminals are on a unit cycle, and an alternative is repeated. -/
def unsettled : Grammar :=
  ⟨RuleTable.ofList
    [⟨"S", [⟨[.terminal "(", .nonterminal "S", .nonterminal "A", .terminal ")"], by simp⟩,
      .unit (.nonterminal "A"), .unit (.terminal "a"), .unit (.terminal "a")]⟩,
     ⟨"A", [.unit (.nonterminal "S"), .unit (.nonterminal "B")]⟩], some "A"⟩

/-- The rule of a grammar that has the shapes of the last three stages at once. -/
def settledRule : Rule :=
  ⟨"S", [⟨[.nonterminal "S", .nonterminal "S"], by simp⟩, .unit (.terminal "a")]⟩

/-- The grammar of that rule. -/
def settled : Grammar := ⟨RuleTable.ofList [settledRule], none⟩

/-- Each stage settles the one grammar and leaves the other. -/
theorem stage_settles_unsettled :
    (∀ stage : Stage, stage ≠ .wrapStart → ∃ g', (stage.run unsettled).outcome = .ok g' ∧
      stage.Reached g' ∧ (stage.run g').outcome = .ok g') ∧
    ∀ stage : Stage, stage ≠ .wrapStart →
      stage.Reached settled ∧ (stage.run settled).outcome = .ok settled := by
  constructor
  · intro stage later
    have succeeds : (stage.run unsettled).outcome.isOk = true := by
      cases stage with
      | wrapStart => exact absurd rfl later
      | _ => decide +kernel
    obtain ⟨g', ok⟩ := Logged.exists_eq_ok succeeds
    exact ⟨g', ok, stage_settles.1 stage unsettled g' later ok⟩
  · intro stage later
    have rules : settled.rules = [settledRule] := by decide +kernel
    have reached : stage.Reached settled := by
      cases stage with
      | wrapStart => exact absurd rfl later
      | isolateTerminals => simp [Stage.Reached, rules, settledRule, Production.length]
      | binarize => simp [Stage.Reached, rules, settledRule, Production.length]
      | eliminateUnits => simp [Stage.Reached, rules, settledRule, Production.unit]
    exact ⟨reached, stage_settles.2 stage settled reached⟩

end Grammar

end ChomskyForm
