/-
What each stage makes of a grammar.

A stage is a computation that reports and may fail. Here its outcome is said
without either: when it succeeds, and which rules and which start setting its
result has. None of the stages ever refuses a generated name, since the names
come fresh from `TakenNames`; so the only failures left are the two that the
input can cause, a grammar without rules and a nonterminal that resolves to
nothing.
-/
import ChomskyForm.Normal.Form
import ChomskyForm.Proofs.Normal.Cuts

set_option autoImplicit false

namespace ChomskyForm

namespace Grammar

/-! ## 1. Names and the start symbol -/

/-- The names of a grammar can be read off its rules. -/
theorem names_eq_of_rules_eq {g : Grammar} {rules : List Rule} (h : g.rules = rules) :
    g.names = rules.map Rule.name := by
  rw [← h]
  rfl

/-- Names that are added behind the others move no implicit start. -/
theorem start?_of_added {g g' : Grammar} {added : List String}
    (names : g'.names = g.names ++ added) (empty : g.names = [] → added = [])
    (start : g'.explicitStart = g.explicitStart) : g'.start? = g.start? := by
  unfold start?
  rw [start, names]
  cases hn : g.names with
  | nil => rw [empty hn, List.append_nil]
  | cons first rest => rfl

theorem rules_eq_nil {g : Grammar} (h : g.names = []) : g.rules = [] := List.map_eq_nil_iff.1 h

/-! ## 2. Generated rules -/

theorem outcome_define {g : Grammar} {name : String} (alternatives : List Production)
    (h : name ∉ g.names) :
    (g.define name alternatives).outcome = .ok (g.extend name alternatives) := by
  unfold define
  rw [if_neg (by simpa using h)]
  rfl

/-- Rules whose names are new and distinct are all declared, behind the others. -/
theorem outcome_defineAll (g : Grammar) (added : List Rule)
    (nodup : (added.map Rule.name).Nodup) (fresh : ∀ name ∈ added.map Rule.name, name ∉ g.names) :
    ∃ g', (g.defineAll added).outcome = .ok g' ∧ g'.rules = g.rules ++ added ∧
      g'.explicitStart = g.explicitStart := by
  induction added generalizing g with
  | nil => exact ⟨g, rfl, (List.append_nil _).symm, rfl⟩
  | cons rule rest ih =>
    rw [List.map_cons, List.nodup_cons] at nodup
    have new : rule.name ∉ g.names := fresh _ List.mem_cons_self
    -- the first rule goes behind the others, so the next names are still new
    have rules : (g.extend rule.name rule.alternatives).rules = g.rules ++ [rule] :=
      RuleTable.rules_extend_of_notMem g.table rule.alternatives new
    have names : (g.extend rule.name rule.alternatives).names = g.names ++ [rule.name] := by
      show (g.extend rule.name rule.alternatives).rules.map Rule.name = _
      rw [rules, List.map_append]
      rfl
    obtain ⟨g', hg', hr, hs⟩ := ih (g.extend rule.name rule.alternatives) nodup.2 (by
      intro name hn
      rw [names, List.mem_append, List.mem_singleton, not_or]
      refine ⟨fresh name (List.mem_cons_of_mem _ hn), ?_⟩
      rintro rfl
      exact nodup.1 hn)
    refine ⟨g', ?_, ?_, hs⟩
    · rw [defineAll, Logged.outcome_bind, outcome_define _ new]
      exact hg'
    · rw [hr, rules, List.append_assoc]
      rfl

/-! ## 3. The wrapper around the start symbol -/

/-- The name that is claimed for the wrapper. -/
def wrapperName (g : Grammar) : String := (TakenNames.ofGrammar g).free WantedName.start

/-- The name of the wrapper is new. -/
theorem wrapperName_notMem (g : Grammar) : g.wrapperName ∉ (TakenNames.ofGrammar g).names :=
  TakenNames.free_not_mem _ _

/-- The wrapper makes a single claim. -/
theorem claims_wrapperName (g : Grammar) :
    (TakenNames.ofGrammar g).Claims [g.wrapperName]
      ((TakenNames.ofGrammar g).claim WantedName.start).2 :=
  TakenNames.Claims.claim _ _

/-- `g'` is `g` with a wrapper around its start symbol `inner`. -/
structure WrapsStart (g : Grammar) (inner : String) (g' : Grammar) : Prop where
  start? : g.start? = some inner
  rules : g'.rules = ⟨g.wrapperName, [.unit (.nonterminal inner)]⟩ :: g.rules
  explicitStart : g'.explicitStart = some g.wrapperName

/-- Without rules there is nothing to wrap. -/
theorem outcome_wrapStart_of_eq_nil {g : Grammar} (h : g.names = []) :
    g.wrapStart.outcome = .error .emptyGrammar := by
  unfold wrapStart
  rw [h]
  rfl

/-- A grammar with rules has a start symbol, be it only the first that is declared. -/
theorem exists_start?_of_ne_nil {g : Grammar} (h : g.names ≠ []) :
    ∃ inner, g.start? = some inner := by
  cases hs : g.explicitStart with
  | some start => exact ⟨start, start?_eq_some hs⟩
  | none =>
    obtain ⟨first, rest, hn⟩ := List.exists_cons_of_ne_nil h
    refine ⟨first, ?_⟩
    rw [start?_eq_head? hs, hn]
    rfl

/-- A grammar that has rules gets its wrapper. -/
theorem outcome_wrapStart_of_ne_nil {g : Grammar} (h : g.names ≠ []) :
    ∃ inner g', g.wrapStart.outcome = .ok g' ∧ g.WrapsStart inner g' := by
  obtain ⟨inner, hs⟩ := exists_start?_of_ne_nil h
  obtain ⟨first, rest, hn⟩ := List.exists_cons_of_ne_nil h
  have new : g.wrapperName ∉ g.names := fun old => g.wrapperName_notMem (mem_taken_of_mem_names old)
  have claimed : ((TakenNames.ofGrammar g).claim WantedName.start).1 = g.wrapperName := rfl
  refine ⟨inner, (g.prepend g.wrapperName [.unit (.nonterminal inner)]).setStart g.wrapperName,
    ?_, hs, RuleTable.rules_prepend_of_notMem g.table _ new, rfl⟩
  unfold wrapStart
  rw [hn, hs]
  dsimp only
  rw [claimed, if_neg (by simpa using new)]
  rfl

/-- If the stage succeeds, its result has the wrapper. -/
theorem wrapsStart_of_ok {g g' : Grammar} (h : g.wrapStart.outcome = .ok g') :
    ∃ inner, g.WrapsStart inner g' := by
  by_cases empty : g.names = []
  · rw [outcome_wrapStart_of_eq_nil empty] at h
    cases h
  · obtain ⟨inner, g'', h'', w⟩ := outcome_wrapStart_of_ne_nil empty
    rw [h''] at h
    cases h
    exact ⟨inner, w⟩

/-- The wrapper is declared ahead of the others. -/
theorem WrapsStart.names {g g' : Grammar} {inner : String} (h : g.WrapsStart inner g') :
    g'.names = g.wrapperName :: g.names :=
  names_eq_of_rules_eq h.rules

/-- The wrapper has one production, and all other productions are those of before. -/
theorem WrapsStart.mem_productionsOf_iff {g g' : Grammar} {inner : String}
    (h : g.WrapsStart inner g') (name : String) (p : Production) :
    p ∈ g'.productionsOf name ↔
      (name = g.wrapperName ∧ p = .unit (.nonterminal inner)) ∨ p ∈ g.productionsOf name := by
  rw [Grammar.mem_productionsOf_iff, Grammar.mem_productionsOf_iff, h.rules]
  constructor
  · rintro ⟨rule, hr, rfl, hp⟩
    rcases List.mem_cons.1 hr with rfl | hr
    · exact .inl ⟨rfl, List.mem_singleton.1 hp⟩
    · exact .inr ⟨rule, hr, rfl, hp⟩
  · rintro (⟨rfl, rfl⟩ | ⟨rule, hr, rfl, hp⟩)
    · exact ⟨_, List.mem_cons_self, rfl, List.mem_singleton.2 rfl⟩
    · exact ⟨rule, List.mem_cons_of_mem _ hr, rfl, hp⟩

theorem WrapsStart.productionsOf_wrapperName {g g' : Grammar} {inner : String}
    (h : g.WrapsStart inner g') :
    g'.productionsOf g.wrapperName = [.unit (.nonterminal inner)] := by
  have first : ⟨g.wrapperName, [.unit (.nonterminal inner)]⟩ ∈ g'.rules := by
    rw [h.rules]
    exact List.mem_cons_self
  exact g'.productionsOf_of_mem first

/-- The old rules keep their alternatives. -/
theorem WrapsStart.productionsOf_of_mem {g g' : Grammar} {inner : String}
    (h : g.WrapsStart inner g') {rule : Rule} (hr : rule ∈ g.rules) :
    g'.productionsOf rule.name = rule.alternatives := by
  apply g'.productionsOf_of_mem
  rw [h.rules]
  exact List.mem_cons_of_mem _ hr

/-! ## 4. Stand-ins for terminals -/

/-- `g'` is `g` with its mixed terminals moved into rules of their own. -/
structure IsolatesTerminals (g g' : Grammar) : Prop where
  rules : g'.rules =
    (g.rules.map fun rule =>
      ⟨rule.name, rule.alternatives.map (Production.standInTerminals g.standIns)⟩) ++
    g.standIns.map StandIn.rule
  explicitStart : g'.explicitStart = g.explicitStart

/-- The stage succeeds on every grammar. -/
theorem outcome_isolateTerminals (g : Grammar) :
    ∃ g', g.isolateTerminals.outcome = .ok g' ∧ g.IsolatesTerminals g' := by
  have claims := StandIn.claims_standIns g
  have names : (g.standIns.map StandIn.rule).map Rule.name = g.standIns.map StandIn.name := by
    rw [List.map_map]
    rfl
  -- the rewriting comes first and keeps the names, then the stand-ins are added
  let replaced := g.replaceRules (g.table.mapRules fun _ alternatives =>
    alternatives.map (Production.standInTerminals g.standIns))
  have same : replaced.names = g.names := RuleTable.names_mapRules _ _
  obtain ⟨g', hg', hr, hs⟩ := replaced.outcome_defineAll (g.standIns.map StandIn.rule)
    (by rw [names]; exact claims.nodup)
    (by
      intro name hn
      rw [names] at hn
      rw [same]
      exact fun old => claims.fresh name hn (mem_taken_of_mem_names old))
  exact ⟨g', hg', hr, hs⟩

/-- Its result is the grammar with its terminals isolated. -/
theorem isolatesTerminals_of_ok {g g' : Grammar} (h : g.isolateTerminals.outcome = .ok g') :
    g.IsolatesTerminals g' := by
  obtain ⟨g'', h'', w⟩ := g.outcome_isolateTerminals
  rw [h''] at h
  cases h
  exact w

/-- The stand-ins are declared behind the others. -/
theorem IsolatesTerminals.names {g g' : Grammar} (h : g.IsolatesTerminals g') :
    g'.names = g.names ++ g.standIns.map StandIn.name := by
  rw [names_eq_of_rules_eq h.rules, List.map_append, List.map_map, List.map_map]
  rfl

/-- Without rules no terminal needs a stand-in. -/
theorem standIns_eq_nil {g : Grammar} (h : g.names = []) : g.standIns = [] := by
  unfold standIns mixedTerminals
  rw [rules_eq_nil h]
  rfl

theorem IsolatesTerminals.start?_eq {g g' : Grammar} (h : g.IsolatesTerminals g') :
    g'.start? = g.start? := by
  apply start?_of_added h.names _ h.explicitStart
  intro empty
  rw [standIns_eq_nil empty]
  rfl

/-- The productions afterwards: those of before with their terminals replaced, and the
terminal of each stand-in. -/
theorem IsolatesTerminals.mem_productionsOf_iff {g g' : Grammar}
    (h : g.IsolatesTerminals g') (name : String) (p : Production) :
    p ∈ g'.productionsOf name ↔
      (∃ q ∈ g.productionsOf name, p = q.standInTerminals g.standIns) ∨
      ∃ x ∈ g.standIns, x.name = name ∧ p = .unit (.terminal x.terminal) := by
  rw [Grammar.mem_productionsOf_iff, h.rules]
  constructor
  · rintro ⟨rule, hr, rfl, hp⟩
    -- a rule that was rewritten, or the rule of a stand-in
    rcases List.mem_append.1 hr with hr | hr
    · obtain ⟨origin, ho, rfl⟩ := List.mem_map.1 hr
      obtain ⟨q, hq, rfl⟩ := List.mem_map.1 hp
      exact .inl ⟨q, g.mem_productionsOf_of_mem ho hq, rfl⟩
    · obtain ⟨x, hx, rfl⟩ := List.mem_map.1 hr
      exact .inr ⟨x, hx, rfl, List.mem_singleton.1 hp⟩
  · rintro (⟨q, hq, rfl⟩ | ⟨x, hx, rfl, rfl⟩)
    · obtain ⟨rule, hr, rfl, ha⟩ := (g.mem_productionsOf_iff name q).1 hq
      exact ⟨_, List.mem_append_left _ (List.mem_map_of_mem hr), rfl, List.mem_map_of_mem ha⟩
    · exact ⟨x.rule, List.mem_append_right _ (List.mem_map_of_mem hx), rfl,
        List.mem_singleton.2 rfl⟩

/-! ## 5. Tails -/

/-- `g'` is `g` with its long productions cut into pairs. -/
structure Binarizes (g g' : Grammar) : Prop where
  rules : g'.rules = g.cutRules.kept ++ g.cutRules.tails
  explicitStart : g'.explicitStart = g.explicitStart

/-- The stage succeeds on every grammar. -/
theorem outcome_binarize (g : Grammar) :
    ∃ g', g.binarize.outcome = .ok g' ∧ g.Binarizes g' := by
  have claims := Cut.claims_rules g.rules (TakenNames.ofGrammar g)
  have same : (g.replaceRules g.cutTable).names = g.names := Cut.map_name_rules _ _
  obtain ⟨g', hg', hr, hs⟩ := (g.replaceRules g.cutTable).outcome_defineAll g.cutRules.tails
    claims.nodup (by
      intro name hn
      rw [same]
      exact fun old => claims.fresh name hn (mem_taken_of_mem_names old))
  exact ⟨g', hg', hr, hs⟩

/-- Its result is the grammar with its productions cut. -/
theorem binarizes_of_ok {g g' : Grammar} (h : g.binarize.outcome = .ok g') : g.Binarizes g' := by
  obtain ⟨g'', h'', w⟩ := g.outcome_binarize
  rw [h''] at h
  cases h
  exact w

/-- The tails are declared behind the others. -/
theorem Binarizes.names {g g' : Grammar} (h : g.Binarizes g') :
    g'.names = g.names ++ g.cutRules.tails.map Rule.name := by
  have kept : g.cutRules.kept.map Rule.name = g.names := Cut.map_name_rules _ _
  rw [names_eq_of_rules_eq h.rules, List.map_append, kept]

theorem Binarizes.start?_eq {g g' : Grammar} (h : g.Binarizes g') : g'.start? = g.start? := by
  apply start?_of_added h.names _ h.explicitStart
  intro empty
  unfold cutRules
  rw [rules_eq_nil empty]
  rfl

/-- The productions after the cuts are the pieces of the productions before. -/
theorem Binarizes.mem_productionsOf_iff {g g' : Grammar} (h : g.Binarizes g')
    (name : String) (p : Production) :
    p ∈ g'.productionsOf name ↔
      ∃ x ∈ g.trims, ∃ t ∈ x.trims, (x.rule.name = name ∧ p = t.cut.kept) ∨
        ∃ rule ∈ t.cut.tails, rule.name = name ∧ p ∈ rule.alternatives := by
  rw [Grammar.mem_productionsOf_iff, h.rules, kept_eq_map_trims, tails_eq_flatMap_trims]
  constructor
  · rintro ⟨rule, hr, rfl, hp⟩
    rcases List.mem_append.1 hr with hr | hr
    · obtain ⟨x, hx, rfl⟩ := List.mem_map.1 hr
      obtain ⟨t, ht, rfl⟩ := List.mem_map.1 hp
      exact ⟨x, hx, t, ht, .inl ⟨rfl, rfl⟩⟩
    · obtain ⟨x, hx, hr⟩ := List.mem_flatMap.1 hr
      obtain ⟨t, ht, hr⟩ := List.mem_flatMap.1 hr
      exact ⟨x, hx, t, ht, .inr ⟨rule, hr, rfl, hp⟩⟩
  · rintro ⟨x, hx, t, ht, ⟨rfl, rfl⟩ | ⟨rule, hr, rfl, hp⟩⟩
    · exact ⟨_, List.mem_append_left _ (List.mem_map_of_mem hx), rfl, List.mem_map_of_mem ht⟩
    · refine ⟨rule, List.mem_append_right _ ?_, rfl, hp⟩
      exact List.mem_flatMap.2 ⟨x, hx, List.mem_flatMap.2 ⟨t, ht, hr⟩⟩

/-- Every production after the cuts is a piece of one before. -/
theorem Binarizes.exists_piece {g g' : Grammar} (h : g.Binarizes g') {name : String}
    {p : Production} (hp : p ∈ g'.productionsOf name) :
    ∃ x ∈ g.trims, ∃ t ∈ x.trims, p ∈ Cut.pieces t.cut.kept t.cut.tails := by
  obtain ⟨x, hx, t, ht, ⟨-, rfl⟩ | ⟨rule, hr, -, ha⟩⟩ := (h.mem_productionsOf_iff name p).1 hp
  · exact ⟨x, hx, t, ht, List.mem_cons_self⟩
  · exact ⟨x, hx, t, ht, List.mem_cons_of_mem _ (List.mem_flatMap.2 ⟨rule, hr, ha⟩)⟩

/-! ## 6. Unit productions -/

/-- `g'` is `g` with every nonterminal's alternatives replaced by its
resolvents. -/
structure EliminatesUnits (g g' : Grammar) : Prop where
  rules : g'.rules = g.rules.map fun rule => ⟨rule.name, g.resolvents rule.name⟩
  explicitStart : g'.explicitStart = g.explicitStart
  resolved : ∀ name ∈ g.names, g.resolvents name ≠ []

/-- The inspection goes on past a nonterminal that resolves to something. -/
theorem outcome_inspectUnits_cons (g : Grammar) (name : String) (rest : List String) :
    (g.inspectUnits (name :: rest)).outcome =
      if g.resolvents name = [] then .error (.unresolvable name)
      else (g.inspectUnits rest).outcome := by
  rw [inspectUnits]
  -- a unit cycle is reported and does not change the outcome
  by_cases dead : g.resolvents name = []
  · by_cases cyclic : g.onUnitCycle name <;> simp [cyclic, dead, Except.bind]
  · by_cases cyclic : g.onUnitCycle name <;> simp [cyclic, dead, Except.bind]

/-- The inspection passes if every nonterminal resolves to something. -/
theorem outcome_inspectUnits_of_forall (g : Grammar) (names : List String)
    (h : ∀ name ∈ names, g.resolvents name ≠ []) : (g.inspectUnits names).outcome = .ok () := by
  induction names with
  | nil => rfl
  | cons name rest ih =>
    rw [outcome_inspectUnits_cons, if_neg (h name List.mem_cons_self)]
    exact ih fun other ho => h other (List.mem_cons_of_mem _ ho)

/-- The inspection ends at the first nonterminal that resolves to nothing. -/
theorem outcome_inspectUnits_of_split (g : Grammar) (before : List String) (name : String)
    (behind : List String) (h : ∀ other ∈ before, g.resolvents other ≠ [])
    (dead : g.resolvents name = []) :
    (g.inspectUnits (before ++ name :: behind)).outcome = .error (.unresolvable name) := by
  induction before with
  | nil => rw [List.nil_append, outcome_inspectUnits_cons, if_pos dead]
  | cons first rest ih =>
    rw [List.cons_append, outcome_inspectUnits_cons, if_neg (h first List.mem_cons_self)]
    exact ih fun other ho => h other (List.mem_cons_of_mem _ ho)

/-- The stage succeeds if every nonterminal resolves to something. -/
theorem outcome_eliminateUnits_of_forall {g : Grammar}
    (h : ∀ name ∈ g.names, g.resolvents name ≠ []) :
    ∃ g', g.eliminateUnits.outcome = .ok g' ∧ g.EliminatesUnits g' := by
  refine ⟨g.replaceRules (g.table.mapRules fun name _ => g.resolvents name), ?_, rfl, rfl, h⟩
  rw [eliminateUnits, Logged.outcome_bind, outcome_inspectUnits_of_forall _ _ h]
  rfl

/-- The stage fails at the first nonterminal that resolves to nothing. -/
theorem outcome_eliminateUnits_of_split {g : Grammar} {before behind : List String}
    {name : String} (names : g.names = before ++ name :: behind)
    (h : ∀ other ∈ before, g.resolvents other ≠ []) (dead : g.resolvents name = []) :
    g.eliminateUnits.outcome = .error (.unresolvable name) := by
  rw [eliminateUnits, Logged.outcome_bind, names, outcome_inspectUnits_of_split _ _ _ _ h dead]
  rfl

/-- In a list either all elements have a property, or there is a first one that has it not. -/
theorem forall_or_first_not {α : Type} (P : α → Prop) (xs : List α) :
    (∀ x ∈ xs, P x) ∨
      ∃ before x behind, xs = before ++ x :: behind ∧ (∀ y ∈ before, P y) ∧ ¬ P x := by
  induction xs with
  | nil => exact .inl fun x hx => absurd hx List.not_mem_nil
  | cons x rest ih =>
    by_cases hx : P x
    · rcases ih with all | ⟨before, y, behind, rfl, hb, hy⟩
      · exact .inl (List.forall_mem_cons.2 ⟨hx, all⟩)
      · exact .inr ⟨x :: before, y, behind, rfl, List.forall_mem_cons.2 ⟨hx, hb⟩, hy⟩
    · exact .inr ⟨[], x, rest, rfl, fun y hy => absurd hy List.not_mem_nil, hx⟩

/-- Where the stage succeeds, every nonterminal resolves to something, and the
resolvents are its new alternatives. -/
theorem eliminatesUnits_of_ok {g g' : Grammar} (h : g.eliminateUnits.outcome = .ok g') :
    g.EliminatesUnits g' := by
  rcases forall_or_first_not (fun name => g.resolvents name ≠ []) g.names with
    all | ⟨before, name, behind, names, hb, dead⟩
  · obtain ⟨g'', h'', w⟩ := outcome_eliminateUnits_of_forall all
    rw [h''] at h
    cases h
    exact w
  · rw [outcome_eliminateUnits_of_split names hb (Classical.not_not.1 dead)] at h
    cases h

/-- The names and their order stay. -/
theorem EliminatesUnits.names {g g' : Grammar} (h : g.EliminatesUnits g') :
    g'.names = g.names := by
  rw [names_eq_of_rules_eq h.rules, List.map_map]
  rfl

theorem EliminatesUnits.start?_eq {g g' : Grammar} (h : g.EliminatesUnits g') :
    g'.start? = g.start? := by
  unfold start?
  rw [h.names, h.explicitStart]

/-- The productions afterwards are the resolvents of the declared names. -/
theorem EliminatesUnits.mem_productionsOf_iff {g g' : Grammar} (h : g.EliminatesUnits g')
    (name : String) (p : Production) :
    p ∈ g'.productionsOf name ↔ name ∈ g.names ∧ p ∈ g.resolvents name := by
  rw [Grammar.mem_productionsOf_iff, h.rules, mem_names_iff]
  constructor
  · rintro ⟨rule, hr, rfl, hp⟩
    obtain ⟨origin, ho, rfl⟩ := List.mem_map.1 hr
    exact ⟨⟨origin, ho, rfl⟩, hp⟩
  · rintro ⟨⟨rule, hr, rfl⟩, hp⟩
    exact ⟨_, List.mem_map_of_mem hr, rfl, hp⟩

/-! ## 7. All stages -/

/-- To report the size of a result does not change it. -/
theorem outcome_runReported (stage : Stage) (g : Grammar) :
    (stage.runReported g).outcome = (stage.run g).outcome := by
  rw [Stage.runReported, Logged.outcome_bind]
  cases (stage.run g).outcome <;> rfl

/-- What stages make of a grammar, one after the other; the first error ends
the sequence. -/
def afterStages (stages : List Stage) (g : Grammar) : Except NormalizeError Grammar :=
  stages.foldlM (fun g stage => (stage.run g).outcome) g

/-- A sequence of stages goes on with the result of the first one. -/
theorem afterStages_cons (stage : Stage) (rest : List Stage) (g : Grammar) :
    afterStages (stage :: rest) g = (stage.run g).outcome.bind (afterStages rest) :=
  List.foldlM_cons

/-- A run of stages with its reports has the same outcome. -/
theorem outcome_runAll (stages : List Stage) (g : Grammar) :
    (Stage.runAll stages g).outcome = afterStages stages g := by
  induction stages generalizing g with
  | nil => rfl
  | cons stage rest ih =>
    rw [Stage.runAll, Logged.outcome_bind, outcome_runReported, afterStages_cons]
    exact congrArg _ (funext ih)

/-- The conversion of a grammar that has rules: the first three stages succeed,
and the last one decides. -/
theorem exists_stages {g : Grammar} (h : g.names ≠ []) :
    ∃ inner g₁ g₂ g₃, g.WrapsStart inner g₁ ∧ g₁.IsolatesTerminals g₂ ∧ g₂.Binarizes g₃ ∧
      g.toNormalForm.outcome = g₃.eliminateUnits.outcome := by
  obtain ⟨inner, g₁, h₁, wraps⟩ := outcome_wrapStart_of_ne_nil h
  obtain ⟨g₂, h₂, isolates⟩ := g₁.outcome_isolateTerminals
  obtain ⟨g₃, h₃, binarizes⟩ := g₂.outcome_binarize
  refine ⟨inner, g₁, g₂, g₃, wraps, isolates, binarizes, ?_⟩
  have run₁ : (Stage.wrapStart.run g).outcome = .ok g₁ := h₁
  have run₂ : (Stage.isolateTerminals.run g₁).outcome = .ok g₂ := h₂
  have run₃ : (Stage.binarize.run g₂).outcome = .ok g₃ := h₃
  -- three of the four steps of the fold succeed
  rw [toNormalForm, outcome_runAll, Stage.all, afterStages_cons, run₁, Except.bind,
    afterStages_cons, run₂, Except.bind, afterStages_cons, run₃, Except.bind, afterStages_cons]
  show (g₃.eliminateUnits.outcome).bind _ = _
  cases g₃.eliminateUnits.outcome <;> rfl

/-- Without rules the first stage fails, and with it the conversion. -/
theorem outcome_toNormalForm_of_eq_nil {g : Grammar} (h : g.names = []) :
    g.toNormalForm.outcome = .error .emptyGrammar := by
  have run : (Stage.wrapStart.run g).outcome = .error .emptyGrammar :=
    outcome_wrapStart_of_eq_nil h
  rw [toNormalForm, outcome_runAll, Stage.all, afterStages_cons, run]
  rfl

/-- A normal form comes about through all four stages. -/
theorem stages_of_ok {g g' : Grammar} (h : g.toNormalForm.outcome = .ok g') :
    ∃ inner g₁ g₂ g₃, g.WrapsStart inner g₁ ∧ g₁.IsolatesTerminals g₂ ∧ g₂.Binarizes g₃ ∧
      g₃.EliminatesUnits g' := by
  by_cases empty : g.names = []
  · rw [outcome_toNormalForm_of_eq_nil empty] at h
    cases h
  · obtain ⟨inner, g₁, g₂, g₃, wraps, isolates, binarizes, e⟩ := exists_stages empty
    rw [e] at h
    exact ⟨inner, g₁, g₂, g₃, wraps, isolates, binarizes, eliminatesUnits_of_ok h⟩

end Grammar

end ChomskyForm
