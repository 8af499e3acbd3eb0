/-
When a conversion fails.

The only stage that can fail on a grammar with rules is the last one, and it
sees a grammar that three stages have rewritten. None of the three makes a unit
production or a nonterminal that resolves to nothing, loses one, or moves the
declared names out of their order: the stages agree with their input on what the
productions of every old nonterminal lead to (`dead_iff_of_agree`). So the
failure can be told from the grammar as it was given: by the dead nonterminals
among its start and its declared names.
-/
import ChomskyForm.Proofs.Grammar.Language
import ChomskyForm.Proofs.Normal.StageResult
import ChomskyForm.Proofs.Normal.UnitReach

set_option autoImplicit false

namespace ChomskyForm

namespace Grammar

/-! ## 1. Dead nonterminals -/

/-- Some production of a nonterminal is a unit production to `target`, or for
`none` no unit production. -/
def Offers (g : Grammar) (name : String) (target : Option String) : Prop :=
  ∃ p ∈ g.productionsOf name, p.unitTarget? = target

/-- What leads to a nonterminal is an offer of it. -/
theorem unitEdge_iff_offers (g : Grammar) (origin target : String) :
    g.UnitEdge origin target ↔ g.Offers origin (some target) := by
  constructor
  · intro edge
    exact ⟨_, edge, rfl⟩
  · rintro ⟨p, hp, ht⟩
    rwa [(Production.unitTarget?_eq_some_iff p target).1 ht] at hp

/-- Dead is what leads to no offer of anything but unit productions. -/
theorem dead_iff_offers (g : Grammar) (name : String) :
    g.Dead name ↔ ∀ m, g.UnitReaches name m → ¬ g.Offers m none := by
  constructor
  · rintro dead m reach ⟨p, hp, resolved⟩
    exact dead m reach p hp resolved
  · intro h m reach p hp resolved
    exact h m reach ⟨p, hp, resolved⟩

/-- A nonterminal with a production of its own is not dead. -/
theorem not_dead_of_offers {g : Grammar} {name : String} (h : g.Offers name none) :
    ¬ g.Dead name := fun dead => (g.dead_iff_offers name).1 dead name .refl h

/-- **A dead nonterminal derives nothing.** -/
theorem language_eq_zero_of_dead {g : Grammar} {name : String} (dead : g.Dead name) :
    g.language name = 0 := by
  -- the least languages are within those that leave dead nonterminals empty
  let I : String → Language String := fun n => {_texts | ¬ g.Dead n}
  have closed : ∀ n, ∀ p ∈ g.productionsOf n, rowLanguage I p.symbols ≤ I n := by
    intro n p hp texts ht deadN
    cases target : p.unitTarget? with
    | none => exact deadN n .refl p hp target
    | some m =>
      have e := (Production.unitTarget?_eq_some_iff p m).1 target
      subst e
      rw [Production.symbols_unit, rowLanguage_singleton] at ht
      have alive : ¬ g.Dead m := ht
      exact alive fun k reach => deadN k (.head hp reach)
  apply le_antisymm
  · intro texts ht
    exact absurd dead (language_le_of_closed closed name ht)
  · intro texts ht
    exact absurd ht (Language.notMem_zero texts)

/-! ## 2. Grammars that agree on old nonterminals -/

section Agree

variable {g g' : Grammar} {added : List String}

/-- Unit productions lead from old nonterminals to old nonterminals. -/
theorem notMem_added_of_unitEdge
    (fresh : ∀ name ∈ added, name ∉ (TakenNames.ofGrammar g).names) {origin target : String}
    (edge : g.UnitEdge origin target) : target ∉ added := fun new =>
  fresh target new (mem_taken_of_mem_productionsOf edge (List.mem_singleton.2 rfl))

/-- Reachability from old nonterminals is the same before and after a stage that changes
no offer of theirs. -/
theorem unitReaches_iff_of_agree
    (fresh : ∀ name ∈ added, name ∉ (TakenNames.ofGrammar g).names)
    (agree : ∀ name, name ∉ added → ∀ target, g'.Offers name target ↔ g.Offers name target)
    {origin : String} (old : origin ∉ added) (name : String) :
    g'.UnitReaches origin name ↔ g.UnitReaches origin name := by
  constructor
  · intro reach
    -- on the way no new nonterminal is met
    have : g.UnitReaches origin name ∧ name ∉ added := by
      induction reach with
      | refl => exact ⟨.refl, old⟩
      | tail _ edge ih =>
        obtain ⟨reach, oldB⟩ := ih
        rw [unitEdge_iff_offers, agree _ oldB, ← unitEdge_iff_offers] at edge
        exact ⟨.tail reach edge, notMem_added_of_unitEdge fresh edge⟩
    exact this.1
  · intro reach
    have : g'.UnitReaches origin name ∧ name ∉ added := by
      induction reach with
      | refl => exact ⟨.refl, old⟩
      | tail _ edge ih =>
        obtain ⟨reach, oldB⟩ := ih
        have oldC := notMem_added_of_unitEdge fresh edge
        rw [unitEdge_iff_offers, ← agree _ oldB, ← unitEdge_iff_offers] at edge
        exact ⟨.tail reach edge, oldC⟩
    exact this.1

/-- What is reached from an old nonterminal is old. -/
theorem notMem_added_of_unitReaches
    (fresh : ∀ name ∈ added, name ∉ (TakenNames.ofGrammar g).names) {origin name : String}
    (old : origin ∉ added) (reach : g.UnitReaches origin name) : name ∉ added := by
  cases reach with
  | refl => exact old
  | tail _ edge => exact notMem_added_of_unitEdge fresh edge

/-- An old nonterminal is dead after a stage if and only if it was before. -/
theorem dead_iff_of_agree
    (fresh : ∀ name ∈ added, name ∉ (TakenNames.ofGrammar g).names)
    (agree : ∀ name, name ∉ added → ∀ target, g'.Offers name target ↔ g.Offers name target)
    {name : String} (old : name ∉ added) : g'.Dead name ↔ g.Dead name := by
  rw [dead_iff_offers, dead_iff_offers]
  refine forall_congr' fun m => ?_
  rw [unitReaches_iff_of_agree fresh agree old]
  refine forall_congr' fun reach => not_congr ?_
  exact agree m (notMem_added_of_unitReaches fresh old reach) none

end Agree

/-! ## 3. The stages agree with their input -/

/-- The wrapper changes no offer of an old nonterminal. -/
theorem WrapsStart.offers_iff {g g' : Grammar} {inner : String} (h : g.WrapsStart inner g')
    {name : String} (old : name ∉ [g.wrapperName]) (target : Option String) :
    g'.Offers name target ↔ g.Offers name target := by
  rw [List.mem_singleton] at old
  constructor
  · rintro ⟨p, hp, ht⟩
    rcases (h.mem_productionsOf_iff name p).1 hp with ⟨wrapper, -⟩ | hp
    · exact absurd wrapper old
    · exact ⟨p, hp, ht⟩
  · rintro ⟨p, hp, ht⟩
    exact ⟨p, (h.mem_productionsOf_iff name p).2 (.inr hp), ht⟩

/-- The wrapper leads to the old start symbol and to nothing else. -/
theorem WrapsStart.dead_wrapperName_iff {g g' : Grammar} {inner : String}
    (h : g.WrapsStart inner g') : g'.Dead g.wrapperName ↔ g.Dead inner := by
  have other : inner ∉ [g.wrapperName] := by
    rw [List.mem_singleton]
    rintro rfl
    exact g.wrapperName_notMem (mem_taken_of_start? h.start?)
  rw [← dead_iff_of_agree g.claims_wrapperName.fresh (fun _ old => h.offers_iff old) other]
  have only : ∀ p ∈ g'.productionsOf g.wrapperName, p = .unit (.nonterminal inner) := by
    intro p hp
    rcases (h.mem_productionsOf_iff _ p).1 hp with ⟨-, e⟩ | old
    · exact e
    · exact absurd (mem_taken_of_mem_names (g.mem_names_of_mem_productionsOf old))
        g.wrapperName_notMem
  have edge : g'.UnitEdge g.wrapperName inner :=
    (h.mem_productionsOf_iff _ _).2 (.inl ⟨rfl, rfl⟩)
  constructor
  · intro dead m reach
    exact dead m (.head edge reach)
  · -- every way from the wrapper is the wrapper itself or begins with that edge
    intro dead m reach p hp resolved
    rcases Relation.ReflTransGen.cases_head reach with rfl | ⟨next, first, rest⟩
    · rw [only p hp] at resolved
      cases resolved
    · have e := only _ first
      cases e
      exact dead m rest p hp resolved

/-- Only longer productions are rewritten, so a unit production stays one and none is
made. -/
theorem unitTarget?_standInTerminals (standIns : List StandIn) (p : Production) :
    (p.standInTerminals standIns).unitTarget? = p.unitTarget? := by
  unfold Production.standInTerminals
  split
  · rfl
  · rename_i long
    unfold Production.unitTarget?
    rw [Production.symbols_map]
    unfold Production.length at long
    match h : p.symbols with
    | [] => rfl
    | [_] => simp [h] at long
    | _ :: _ :: _ => rfl

/-- Isolating terminals changes no offer of an old nonterminal. -/
theorem IsolatesTerminals.offers_iff {g g' : Grammar} (h : g.IsolatesTerminals g')
    {name : String} (old : name ∉ g.standIns.map StandIn.name) (target : Option String) :
    g'.Offers name target ↔ g.Offers name target := by
  constructor
  · rintro ⟨p, hp, ht⟩
    rcases (h.mem_productionsOf_iff name p).1 hp with ⟨q, hq, rfl⟩ | ⟨x, hx, rfl, -⟩
    · rw [unitTarget?_standInTerminals] at ht
      exact ⟨q, hq, ht⟩
    · exact absurd (List.mem_map_of_mem hx) old
  · rintro ⟨p, hp, ht⟩
    refine ⟨_, (h.mem_productionsOf_iff name _).2 (.inl ⟨p, hp, rfl⟩), ?_⟩
    rwa [unitTarget?_standInTerminals]

/-- A stand-in has a terminal to offer. -/
theorem IsolatesTerminals.offers_none {g g' : Grammar} (h : g.IsolatesTerminals g')
    {name : String} (new : name ∈ g.standIns.map StandIn.name) : g'.Offers name none := by
  obtain ⟨x, hx, rfl⟩ := List.mem_map.1 new
  exact ⟨_, (h.mem_productionsOf_iff _ _).2 (.inr ⟨x, hx, rfl, rfl⟩), rfl⟩

/-- Cutting changes no offer of an old nonterminal. -/
theorem Binarizes.offers_iff {g g' : Grammar} (h : g.Binarizes g') {name : String}
    (old : name ∉ g.cutRules.tails.map Rule.name) (target : Option String) :
    g'.Offers name target ↔ g.Offers name target := by
  constructor
  · rintro ⟨p, hp, ht⟩
    obtain ⟨x, hx, t, htr, hp⟩ := (h.mem_productionsOf_iff name p).1 hp
    rcases hp with ⟨rfl, rfl⟩ | ⟨rule, hr, rfl, -⟩
    · rw [(chain_of_mem_trims hx htr).unitTarget?_kept rfl] at ht
      exact ⟨t.whole, whole_mem_productionsOf hx htr, ht⟩
    · exact absurd (List.mem_map_of_mem (mem_tails hx htr hr)) old
  · rintro ⟨p, hp, ht⟩
    obtain ⟨x, hx, rfl, t, htr, rfl⟩ := exists_trim_of_mem_productionsOf hp
    refine ⟨_, (h.mem_productionsOf_iff _ _).2 ⟨x, hx, t, htr, .inl ⟨rfl, rfl⟩⟩, ?_⟩
    rwa [(chain_of_mem_trims hx htr).unitTarget?_kept rfl]

/-- A tail has a pair to offer. -/
theorem Binarizes.offers_none {g g' : Grammar} (h : g.Binarizes g') {name : String}
    (new : name ∈ g.cutRules.tails.map Rule.name) : g'.Offers name none := by
  obtain ⟨rule, hr, rfl⟩ := List.mem_map.1 new
  rw [tails_eq_flatMap_trims] at hr
  obtain ⟨x, hx, hr⟩ := List.mem_flatMap.1 hr
  obtain ⟨t, ht, hr⟩ := List.mem_flatMap.1 hr
  have targets := (chain_of_mem_trims hx ht).unitTarget?_tails hr
  have some : none ∈ rule.alternatives.map Production.unitTarget? := by
    rw [targets]
    exact List.mem_singleton.2 rfl
  obtain ⟨p, hp, resolved⟩ := List.mem_map.1 some
  exact ⟨p, (h.mem_productionsOf_iff _ p).2 ⟨x, hx, t, ht, .inr ⟨rule, hr, rfl, hp⟩⟩, resolved⟩

/-! ## 4. The outcome of a conversion -/

/-- What the last stage of a conversion finds: the wrapper first, then the
declared names in their order, then nonterminals that are never dead. The
wrapper is dead if the start symbol is, and a declared name if it was. -/
theorem exists_last_stage {g : Grammar} (h : g.names ≠ []) :
    ∃ (start : String) (g' : Grammar), g.start? = some start ∧
      g.toNormalForm.outcome = g'.eliminateUnits.outcome ∧
      (∃ added, g'.names = g.wrapperName :: g.names ++ added ∧ ∀ name ∈ added, ¬ g'.Dead name) ∧
      (g'.Dead g.wrapperName ↔ g.Dead start) ∧
      ∀ name ∈ g.names, g'.Dead name ↔ g.Dead name := by
  obtain ⟨inner, g₁, g₂, g₃, wraps, isolates, binarizes, e⟩ := exists_stages h
  have standIns := StandIn.claims_standIns g₁
  have tails := g₂.claims_tails
  -- backwards through the stages: a name that a stage found stays as it was
  have second : ∀ name ∈ g₂.names, g₃.Dead name ↔ g₂.Dead name := fun name hn =>
    dead_iff_of_agree tails.fresh (fun _ old => binarizes.offers_iff old)
      fun new => tails.fresh name new (mem_taken_of_mem_names hn)
  have first : ∀ name ∈ g₁.names, g₃.Dead name ↔ g₁.Dead name := by
    intro name hn
    have old : name ∉ g₁.standIns.map StandIn.name :=
      fun new => standIns.fresh name new (mem_taken_of_mem_names hn)
    rw [second name (by rw [isolates.names]; exact List.mem_append_left _ hn)]
    exact dead_iff_of_agree standIns.fresh (fun _ old => isolates.offers_iff old) old
  refine ⟨inner, g₃, wraps.start?, e, ⟨g₁.standIns.map StandIn.name ++
    g₂.cutRules.tails.map Rule.name, ?_, ?_⟩, ?_, ?_⟩
  · rw [binarizes.names, isolates.names, wraps.names, List.append_assoc]
  · intro name hn
    rcases List.mem_append.1 hn with new | new
    · rw [second name (by rw [isolates.names]; exact List.mem_append_right _ new)]
      exact not_dead_of_offers (isolates.offers_none new)
    · exact not_dead_of_offers (binarizes.offers_none new)
  · rw [first _ (by rw [wraps.names]; exact List.mem_cons_self)]
    exact wraps.dead_wrapperName_iff
  · intro name hn
    rw [first name (by rw [wraps.names]; exact List.mem_cons_of_mem _ hn)]
    apply dead_iff_of_agree g.claims_wrapperName.fresh (fun _ old => wraps.offers_iff old)
    exact fun new => g.claims_wrapperName.fresh name new (mem_taken_of_mem_names hn)

/-- A dead start symbol makes the wrapper dead, and the wrapper is inspected first. -/
theorem outcome_of_dead_start {g : Grammar} {start : String} (h : g.names ≠ [])
    (hs : g.start? = some start) (dead : g.Dead start) :
    g.toNormalForm.outcome = .error (.unresolvable g.wrapperName) := by
  obtain ⟨_, g', hs', e, ⟨added, names, -⟩, wrapper, -⟩ := exists_last_stage h
  rw [hs] at hs'
  cases hs'
  have split : g'.names = [] ++ g.wrapperName :: (g.names ++ added) := names
  rw [e]
  refine outcome_eliminateUnits_of_split split ?_ ?_
  · exact fun _ ho => absurd ho List.not_mem_nil
  · rw [resolvents_eq_nil_iff, wrapper]
    exact dead

/-- The first dead nonterminal is the one that is named, if the start symbol is not
dead. -/
theorem outcome_of_first_dead {g : Grammar} {start name : String} {before behind : List String}
    (hs : g.start? = some start) (alive : ¬ g.Dead start)
    (names : g.names = before ++ name :: behind) (first : ∀ other ∈ before, ¬ g.Dead other)
    (dead : g.Dead name) : g.toNormalForm.outcome = .error (.unresolvable name) := by
  have declared : ∀ other ∈ before ++ [name], other ∈ g.names := by
    intro other ho
    rw [names, ← List.singleton_append, ← List.append_assoc]
    exact List.mem_append_left _ ho
  obtain ⟨_, g', hs', e, ⟨added, names', -⟩, wrapper, old⟩ :=
    exists_last_stage (List.ne_nil_of_mem (declared name (by simp)))
  rw [hs] at hs'
  cases hs'
  rw [e]
  -- the wrapper and the names before it are inspected first, and none of them is dead
  have split : g'.names = (g.wrapperName :: before) ++ name :: (behind ++ added) := by
    rw [names', names]
    simp
  refine outcome_eliminateUnits_of_split split ?_ ?_
  · rw [List.forall_mem_cons, ne_eq, resolvents_eq_nil_iff, wrapper]
    refine ⟨alive, ?_⟩
    intro other ho
    rw [ne_eq, resolvents_eq_nil_iff, old other (declared other (List.mem_append_left _ ho))]
    exact first other ho
  · rw [resolvents_eq_nil_iff, old name (declared name (by simp))]
    exact dead

/-- If neither the start symbol nor a declared nonterminal is dead, nothing fails. -/
theorem outcome_of_alive {g : Grammar} {start : String} (h : g.names ≠ [])
    (hs : g.start? = some start) (alive : ¬ g.Dead start)
    (all : ∀ name ∈ g.names, ¬ g.Dead name) : ∃ g', g.toNormalForm.outcome = .ok g' := by
  obtain ⟨_, g₃, hs', e, ⟨added, names, new⟩, wrapper, old⟩ := exists_last_stage h
  rw [hs] at hs'
  cases hs'
  have resolved : ∀ name ∈ g₃.names, g₃.resolvents name ≠ [] := by
    intro name hn
    rw [ne_eq, resolvents_eq_nil_iff]
    rw [names, List.mem_append, List.mem_cons] at hn
    -- the wrapper, a name that was declared, or one that a stage added
    rcases hn with (rfl | hn) | hn
    · rwa [wrapper]
    · rw [old name hn]
      exact all name hn
    · exact new name hn
  obtain ⟨g', h', -⟩ := outcome_eliminateUnits_of_forall resolved
  exact ⟨g', e.trans h'⟩

/-- The outcome of a conversion, by cases on the grammar. -/
theorem outcome_cases (g : Grammar) :
    (g.names = [] ∧ g.toNormalForm.outcome = .error .emptyGrammar) ∨
    (∃ start, g.start? = some start ∧ g.Dead start ∧
      g.toNormalForm.outcome = .error (.unresolvable g.wrapperName)) ∨
    (∃ name ∈ g.names, g.Dead name ∧
      g.toNormalForm.outcome = .error (.unresolvable name)) ∨
    ∃ g', g.toNormalForm.outcome = .ok g' := by
  by_cases empty : g.names = []
  · exact .inl ⟨empty, outcome_toNormalForm_of_eq_nil empty⟩
  refine .inr ?_
  obtain ⟨start, -, hs, -⟩ := exists_last_stage empty
  by_cases dead : g.Dead start
  · exact .inl ⟨start, hs, dead, outcome_of_dead_start empty hs dead⟩
  refine .inr ?_
  rcases forall_or_first_not (fun name => ¬ g.Dead name) g.names with
    all | ⟨before, name, behind, names, first, dead'⟩
  · exact .inr (outcome_of_alive empty hs dead all)
  · rw [not_not] at dead'
    refine .inl ⟨name, ?_, dead', outcome_of_first_dead hs dead names first dead'⟩
    rw [names]
    exact List.mem_append_right _ List.mem_cons_self

/-- **When a conversion fails**, told from the grammar as it was given. Without
rules it fails as empty. Otherwise, if the start symbol is dead, it names the
wrapper; else, if some declared nonterminal is dead, it names the first of them;
else it succeeds. A generated name is never refused, and a nonterminal that a
failure names, or the start symbol where it names the wrapper, derives nothing. -/
theorem outcome_toNormalForm (g : Grammar) :
    (g.toNormalForm.outcome = .error .emptyGrammar ↔ g.names = []) ∧
    (g.names ≠ [] → ∃ start, g.start? = some start ∧
      (g.Dead start → g.toNormalForm.outcome = .error (.unresolvable g.wrapperName)) ∧
      (¬ g.Dead start →
        (∀ before name behind, g.names = before ++ name :: behind →
          (∀ other ∈ before, ¬ g.Dead other) → g.Dead name →
          g.toNormalForm.outcome = .error (.unresolvable name)) ∧
        ((∀ name ∈ g.names, ¬ g.Dead name) → ∃ g', g.toNormalForm.outcome = .ok g'))) ∧
    (∀ name, g.toNormalForm.outcome ≠ .error (.nameCollision name)) ∧
    ∀ name, g.toNormalForm.outcome = .error (.unresolvable name) →
      (name = g.wrapperName ∧ ∃ start, g.start? = some start ∧ g.language start = 0) ∨
      (name ∈ g.names ∧ g.language name = 0) := by
  refine ⟨⟨?_, outcome_toNormalForm_of_eq_nil⟩, ?_, ?_, ?_⟩
  · intro failed
    rcases g.outcome_cases with ⟨empty, -⟩ | ⟨_, _, _, e⟩ | ⟨_, _, _, e⟩ | ⟨_, e⟩
    · exact empty
    all_goals
      rw [e] at failed
      cases failed
  · intro some
    obtain ⟨start, -, hs, -⟩ := exists_last_stage some
    refine ⟨start, hs, outcome_of_dead_start some hs, fun alive => ⟨?_, ?_⟩⟩
    · intro before name behind names first dead
      exact outcome_of_first_dead hs alive names first dead
    · exact outcome_of_alive some hs alive
  · intro name failed
    rcases g.outcome_cases with ⟨_, e⟩ | ⟨_, _, _, e⟩ | ⟨_, _, _, e⟩ | ⟨_, e⟩ <;>
    · rw [e] at failed
      cases failed
  · intro name failed
    rcases g.outcome_cases with ⟨_, e⟩ | ⟨start, hs, dead, e⟩ | ⟨other, ho, dead, e⟩ | ⟨_, e⟩
    all_goals
      rw [e] at failed
      cases failed
    · exact .inl ⟨rfl, start, hs, language_eq_zero_of_dead dead⟩
    · exact .inr ⟨ho, language_eq_zero_of_dead dead⟩

/-- The start symbol resolves, and `A` only leads back to itself. -/
def looped : Grammar :=
  ⟨RuleTable.ofList
    [⟨"S", [.unit (.nonterminal "A"), .unit (.terminal "a")]⟩,
     ⟨"A", [.unit (.nonterminal "A")]⟩], none⟩

/-- The conversion fails at `A`, which derives nothing; that `S` leads to `A` does no
harm. -/
theorem outcome_toNormalForm_looped :
    looped.toNormalForm.outcome = .error (.unresolvable "A") ∧ looped.language "A" = 0 := by
  have alive : ¬ looped.Dead "S" := by
    rw [← resolvents_eq_nil_iff]
    decide +kernel
  have dead : looped.Dead "A" := by
    rw [← resolvents_eq_nil_iff]
    decide +kernel
  obtain ⟨-, declared, -, underivable⟩ := outcome_toNormalForm looped
  obtain ⟨start, hs, -, resolves⟩ := declared (by decide)
  cases hs
  have failed := (resolves alive).1 ["S"] "A" [] rfl
    (fun other ho => List.mem_singleton.1 ho ▸ alive) dead
  refine ⟨failed, ?_⟩
  rcases underivable "A" failed with ⟨wrapper, -⟩ | ⟨-, empty⟩
  · exact absurd wrapper (by decide +kernel)
  · exact empty

end Grammar

end ChomskyForm
