/-
The order of the declarations does not matter.

Two grammars that are equal as maps, from names to lists of alternatives, hold the
same rules in some order. When no name begins with the mark of the generated names
and escaping keeps the terminals apart, no generated name needs a prime, and each
stage does to a rule what it would do to it in any order: the rules of the two
results are again the same up to order. Alternatives never change their order, so
the unit closures agree as well, and one conversion succeeds if the other does.
-/
import Mathlib.Data.List.Perm.Basic
import Mathlib.Data.List.Nodup
import ChomskyForm.Proofs.Normal.UnprimedNames

set_option autoImplicit false

namespace ChomskyForm

/-! ## 1. The same rules in another order -/

/-- Rows with the same entries in another order have the same distinct entries. -/
theorem perm_eraseDups {α : Type} [BEq α] [LawfulBEq α] {xs ys : List α} (perm : xs.Perm ys) :
    xs.eraseDups.Perm ys.eraseDups := by
  rw [List.perm_ext_iff_of_nodup (nodup_eraseDups xs) (nodup_eraseDups ys)]
  intro x
  rw [List.mem_eraseDups, List.mem_eraseDups, perm.mem_iff]

namespace Grammar

/-- Two grammars have the same rules, in any order, and the same start setting. -/
structure Reordered (g h : Grammar) : Prop where
  rules : g.rules.Perm h.rules
  explicitStart : g.explicitStart = h.explicitStart

theorem nodup_rules (g : Grammar) : g.rules.Nodup := g.table.nodup.of_map _

/-- **Grammars that are equal as maps have the same rules up to order.** -/
theorem perm_rules {g h : Grammar} (same : ∀ name, g.productions? name = h.productions? name) :
    g.rules.Perm h.rules := by
  rw [List.perm_ext_iff_of_nodup g.nodup_rules h.nodup_rules]
  intro rule
  rw [mem_rules_iff, mem_rules_iff, same]

section Perm

variable {g h : Grammar}

theorem names_perm (perm : g.rules.Perm h.rules) : g.names.Perm h.names := perm.map Rule.name

/-- Looking a name up does not depend on the order of the rules. -/
theorem productions?_eq (perm : g.rules.Perm h.rules) (name : String) :
    g.productions? name = h.productions? name := by
  by_cases declared : name ∈ g.names
  · obtain ⟨rule, hr, rfl⟩ := (g.mem_names_iff name).1 declared
    rw [g.productions?_of_mem hr, h.productions?_of_mem (perm.subset hr)]
  · rw [g.productions?_of_notMem declared,
      h.productions?_of_notMem fun old => declared ((names_perm perm).symm.subset old)]

/-- The productions of a nonterminal do not depend on the order of the rules either. -/
theorem productionsOf_eq (perm : g.rules.Perm h.rules) (name : String) :
    g.productionsOf name = h.productionsOf name := by
  rw [productionsOf, productionsOf, productions?_eq perm]

/-- Grammars in another order are the same grammar to the comparison of grammars. -/
theorem Reordered.sameGrammar (r : g.Reordered h) : g.sameGrammar h = true := by
  have size : g.table.size = h.table.size := r.rules.length_eq
  have all : ∀ rule ∈ g.table.rules, h.table.find? rule.name = some rule.alternatives :=
    fun rule hr => h.productions?_of_mem (r.rules.subset hr)
  simp only [Grammar.sameGrammar, RuleTable.sameRules, Bool.and_eq_true, List.all_eq_true,
    beq_iff_eq]
  exact ⟨⟨size, all⟩, r.explicitStart⟩

/-- The same terminals stand beside other symbols; which comes first may differ. -/
theorem perm_mixedTerminals (perm : g.rules.Perm h.rules) :
    g.mixedTerminals.Perm h.mixedTerminals :=
  perm_eraseDups (perm.flatMap_right _)

end Perm

end Grammar

/-! ## 2. Marks of generated names -/

/-- A name begins with the mark of the generated names, and `c` tells the stage. -/
def Marked (c : Char) (name : String) : Prop := ∃ rest, name.toList = '$' :: c :: rest

/-- A marked name begins with the mark. -/
theorem Marked.head? {c : Char} {name : String} (h : Marked c name) :
    name.toList.head? = some '$' := by
  obtain ⟨rest, e⟩ := h
  rw [e, List.head?_cons]

/-- A name is of one stage only. -/
theorem Marked.unique {c c' : Char} {name : String} (h : Marked c name) (h' : Marked c' name) :
    c = c' := by
  obtain ⟨rest, e⟩ := h
  obtain ⟨rest', e'⟩ := h'
  rw [e] at e'
  cases e'
  rfl

/-- The name that the wrapper wants begins with the mark of its stage, and so do those
of the stand-ins and of the tails. -/
theorem marked_start : Marked 's' WantedName.start := ⟨"tart".toList, by decide⟩

theorem marked_standIn (terminal : String) : Marked 't' (WantedName.standIn terminal) :=
  ⟨"erm.".toList ++ (WantedName.escape terminal).toList, by
    rw [WantedName.standIn, String.toList_append]; rfl⟩

theorem marked_tail (place : TailPlace) : Marked 'b' place.wanted :=
  ⟨_, by rw [TailPlace.wanted, toList_tail]; rfl⟩

namespace Grammar

/-- The marked names among those that a grammar declares, refers to or starts with
are of these stages. -/
def OnlyMarks (g : Grammar) (marks : List Char) : Prop :=
  ∀ name ∈ (TakenNames.ofGrammar g).names,
    name.toList.head? = some '$' → ∃ c ∈ marks, Marked c name

/-- A marked name of another stage is not taken. -/
theorem OnlyMarks.notMem_taken {g : Grammar} {marks : List Char} (h : g.OnlyMarks marks)
    {c : Char} (other : c ∉ marks) {name : String} (marked : Marked c name) :
    name ∉ (TakenNames.ofGrammar g).names := by
  intro taken
  obtain ⟨c', hc, marked'⟩ := h name taken marked.head?
  exact other (marked.unique marked' ▸ hc)

/-- The wrapper adds its own name to those that are taken. -/
theorem WrapsStart.taken {g g' : Grammar} {inner : String} (h : g.WrapsStart inner g')
    {name : String} (taken : name ∈ (TakenNames.ofGrammar g').names) :
    name = g.wrapperName ∨ name ∈ (TakenNames.ofGrammar g).names := by
  rcases (g'.mem_taken_iff name).1 taken with declared | occurs | starts
  · rw [h.names, List.mem_cons] at declared
    exact declared.imp id mem_taken_of_mem_names
  · rcases h.occurs occurs with e | old
    · cases e
      exact .inr (mem_taken_of_start? h.start?)
    · exact .inr (mem_taken_of_occurs old)
  · rw [start?_eq_some h.explicitStart] at starts
    exact .inl (Option.some.inj starts).symm

theorem IsolatesTerminals.taken {g g' : Grammar} (h : g.IsolatesTerminals g') {name : String}
    (taken : name ∈ (TakenNames.ofGrammar g').names) :
    name ∈ (TakenNames.ofGrammar g).names ∨ ∃ x ∈ g.standIns, name = x.name := by
  rcases (g'.mem_taken_iff name).1 taken with declared | occurs | starts
  · rw [h.names, List.mem_append] at declared
    rcases declared with old | new
    · exact .inl (mem_taken_of_mem_names old)
    · obtain ⟨x, hx, rfl⟩ := List.mem_map.1 new
      exact .inr ⟨x, hx, rfl⟩
  · rcases h.occurs occurs with old | ⟨x, hx, e⟩
    · exact .inl (mem_taken_of_occurs old)
    · exact .inr ⟨x, hx, Symbol.nonterminal.inj e⟩
  · rw [h.start?_eq] at starts
    exact .inl (mem_taken_of_start? starts)

/-! ## 3. Names without primes -/

/-- The generated names of a conversion need no primes: no name of the grammar
begins with their mark, and isolated terminals differ in their escaped forms. -/
structure PlainlyNamed (g : Grammar) : Prop where
  unmarked : ∀ name, name ∈ g.names ∨ g.Occurs (.nonterminal name) ∨ g.start? = some name →
    name.toList.head? ≠ some '$'
  escape_inj : ∀ a ∈ g.mixedTerminals, ∀ b ∈ g.mixedTerminals,
    WantedName.escape a = WantedName.escape b → a = b

/-- At first no marked name is taken. -/
theorem PlainlyNamed.onlyMarks {g : Grammar} (plain : g.PlainlyNamed) : g.OnlyMarks [] :=
  fun name taken marked => absurd marked (plain.unmarked name ((g.mem_taken_iff name).1 taken))

/-- The wrapper of a plainly named grammar has the name that it wants. -/
theorem PlainlyNamed.wrapperName_eq {g : Grammar} (plain : g.PlainlyNamed) :
    g.wrapperName = WantedName.start :=
  TakenNames.free_of_notMem (plain.onlyMarks.notMem_taken List.not_mem_nil marked_start)

/-- Behind the first stage the wrapper is the one marked name. -/
theorem WrapsStart.onlyMarks {g g' : Grammar} {inner : String} (h : g.WrapsStart inner g')
    (plain : g.PlainlyNamed) : g'.OnlyMarks ['s'] := by
  intro name taken marked
  rcases h.taken taken with rfl | old
  · rw [plain.wrapperName_eq]
    exact ⟨'s', List.mem_singleton.2 rfl, marked_start⟩
  · obtain ⟨c, hc, -⟩ := plain.onlyMarks name old marked
    exact absurd hc List.not_mem_nil

/-- Terminals that escaping keeps apart want different names. -/
theorem standIn_injOn {terminals : List String}
    (inj : ∀ a ∈ terminals, ∀ b ∈ terminals,
      WantedName.escape a = WantedName.escape b → a = b) :
    ∀ a ∈ terminals, ∀ b ∈ terminals, WantedName.standIn a = WantedName.standIn b → a = b := by
  intro a ha b hb e
  have chars := congrArg String.toList e
  rw [WantedName.standIn, WantedName.standIn, String.toList_append, String.toList_append] at chars
  exact inj a ha b hb (String.toList_inj.1 (List.append_cancel_left chars))

/-- The stand-ins of a wrapped grammar have the names that they want. -/
theorem WrapsStart.standIns_eq {g g' : Grammar} {inner : String} (h : g.WrapsStart inner g')
    (plain : g.PlainlyNamed) : g'.standIns = g'.mixedTerminals.map StandIn.own := by
  refine StandIn.claimAll_of_spares ⟨?_, ?_⟩
  · rw [h.mixedTerminals_eq]
    exact (nodup_eraseDups _).map_on (standIn_injOn plain.escape_inj)
  · intro name hn
    obtain ⟨terminal, -, rfl⟩ := List.mem_map.1 hn
    exact (h.onlyMarks plain).notMem_taken (by decide) (marked_standIn terminal)

/-- Behind the second stage the stand-ins have been added to it. -/
theorem IsolatesTerminals.onlyMarks {g g' : Grammar} (h : g.IsolatesTerminals g')
    {marks : List Char} (only : g.OnlyMarks marks)
    (own : g.standIns = g.mixedTerminals.map StandIn.own) : g'.OnlyMarks ('t' :: marks) := by
  intro name taken marked
  rcases h.taken taken with old | ⟨x, hx, rfl⟩
  · obtain ⟨c, hc, marked⟩ := only name old marked
    exact ⟨c, List.mem_cons_of_mem _ hc, marked⟩
  · rw [own] at hx
    obtain ⟨terminal, -, rfl⟩ := List.mem_map.1 hx
    exact ⟨'t', List.mem_cons_self, marked_standIn terminal⟩

/-- The tails have the names that they want, so each rule is cut as if it stood
alone. -/
theorem cutRules_of_onlyMarks {g : Grammar} {marks : List Char} (only : g.OnlyMarks marks)
    (other : 'b' ∉ marks) :
    g.cutRules.kept = g.rules.map (fun rule => ⟨rule.name, rule.cut.kept⟩) ∧
      g.cutRules.tails = g.rules.flatMap fun rule => rule.cut.tails := by
  have wanted : g.rules.flatMap Rule.wanted =
      (g.rules.flatMap Rule.tailPlaces).map TailPlace.wanted := by
    rw [List.map_flatMap]
    exact List.flatMap_congr fun rule _ => rule.wanted_eq
  apply Cut.rules_of_spares
  rw [wanted]
  refine ⟨(nodup_tailPlaces g.table.nodup).map TailPlace.wanted_injective, fun name hn => ?_⟩
  obtain ⟨place, -, rfl⟩ := List.mem_map.1 hn
  exact only.notMem_taken other (marked_tail place)

/-! ## 4. The stages, rule by rule -/

section Stages

variable {g h g' h' : Grammar}

/-- The same symbols occur in any order of the rules. -/
theorem occurs_iff_of_perm (perm : g.rules.Perm h.rules) (s : Symbol) :
    g.Occurs s ↔ h.Occurs s := by
  unfold Occurs
  simp only [productionsOf_eq perm]

/-- Whether the generated names need primes does not depend on the order. -/
theorem PlainlyNamed.of_perm (plain : g.PlainlyNamed) (perm : g.rules.Perm h.rules)
    (starts : g.start? = h.start?) : h.PlainlyNamed := by
  refine ⟨fun name hn => plain.unmarked name ?_, fun a ha b hb => plain.escape_inj a ?_ b ?_⟩
  · rwa [(names_perm perm).mem_iff, occurs_iff_of_perm perm, starts]
  · exact (perm_mixedTerminals perm).mem_iff.2 ha
  · exact (perm_mixedTerminals perm).mem_iff.2 hb

/-- The wrapper goes in front of the rules in whatever order they are. -/
theorem reordered_wrapStart {inner inner' : String} (wraps : g.WrapsStart inner g')
    (wraps' : h.WrapsStart inner' h') (perm : g.rules.Perm h.rules)
    (starts : g.start? = h.start?) (plain : g.PlainlyNamed) : g'.Reordered h' := by
  have same : g.wrapperName = h.wrapperName :=
    plain.wrapperName_eq.trans (plain.of_perm perm starts).wrapperName_eq.symm
  obtain rfl : inner = inner' := by
    have := starts
    rw [wraps.start?, wraps'.start?] at this
    exact Option.some.inj this
  refine ⟨?_, ?_⟩
  · rw [wraps.rules, wraps'.rules, same]
    exact perm.cons _
  · rw [wraps.explicitStart, wraps'.explicitStart, same]

/-- Stand-ins with the names that they want replace the same terminals alike. -/
theorem substitute_own_of_perm {terminals terminals' : List String}
    (perm : terminals.Perm terminals') :
    StandIn.substitute (terminals.map StandIn.own) =
      StandIn.substitute (terminals'.map StandIn.own) := by
  funext s
  cases s with
  | nonterminal name => rfl
  | terminal text => simp only [StandIn.substitute_own, perm.mem_iff]

/-- The terminals of a rule give way to the same stand-ins in any order; the rules of
the stand-ins may come in another one. -/
theorem reordered_isolateTerminals (isolates : g.IsolatesTerminals g')
    (isolates' : h.IsolatesTerminals h') (r : g.Reordered h)
    (own : g.standIns = g.mixedTerminals.map StandIn.own)
    (own' : h.standIns = h.mixedTerminals.map StandIn.own) : g'.Reordered h' := by
  have terminals := perm_mixedTerminals r.rules
  have replace : Production.standInTerminals g.standIns =
      Production.standInTerminals h.standIns := by
    funext p
    unfold Production.standInTerminals
    rw [own, own', substitute_own_of_perm terminals]
  refine ⟨?_, ?_⟩
  · rw [isolates.rules, isolates'.rules, replace, own, own']
    exact (r.rules.map _).append ((terminals.map _).map _)
  · rw [isolates.explicitStart, isolates'.explicitStart, r.explicitStart]

/-- A rule is cut as if it stood alone, so the order of the rules passes on to the
tails. -/
theorem reordered_binarize (binarizes : g.Binarizes g') (binarizes' : h.Binarizes h')
    (r : g.Reordered h) {marks : List Char} (only : g.OnlyMarks marks)
    (only' : h.OnlyMarks marks) (other : 'b' ∉ marks) : g'.Reordered h' := by
  obtain ⟨kept, tails⟩ := cutRules_of_onlyMarks only other
  obtain ⟨kept', tails'⟩ := cutRules_of_onlyMarks only' other
  refine ⟨?_, ?_⟩
  · rw [binarizes.rules, binarizes'.rules, kept, tails, kept', tails']
    exact (r.rules.map _).append (r.rules.flatMap_right _)
  · rw [binarizes.explicitStart, binarizes'.explicitStart, r.explicitStart]

/-! ## 5. Unit closures in any order of the rules -/

/-- The search looks names up and follows the order of their alternatives, so it visits
the same. -/
theorem visitUnits_eq (perm : g.rules.Perm h.rules) (stack visited : List String) :
    g.visitUnits stack visited = h.visitUnits stack visited := by
  have targets : ∀ name, g.unitTargets name = h.unitTargets name := by
    intro name
    rw [unitTargets, unitTargets, productionsOf_eq perm]
  fun_induction visitUnits g stack visited with
  | case1 visited => rw [visitUnits]
  | case2 name stack visited seen ih => rw [ih, visitUnits, if_pos seen]
  | case3 name stack visited new ih =>
    rw [ih, targets]
    conv_rhs => rw [visitUnits, if_neg new]

/-- What the search finds is in the same order for both grammars. -/
theorem resolvents_eq (perm : g.rules.Perm h.rules) (name : String) :
    g.resolvents name = h.resolvents name := by
  unfold resolvents unitClosure
  simp only [visitUnits_eq perm, productionsOf_eq perm]

/-- The resolvents go where their rule is. -/
theorem reordered_eliminateUnits (eliminates : g.EliminatesUnits g')
    (eliminates' : h.EliminatesUnits h') (r : g.Reordered h) : g'.Reordered h' := by
  refine ⟨?_, ?_⟩
  · rw [eliminates.rules, eliminates'.rules]
    simp only [resolvents_eq r.rules]
    exact r.rules.map _
  · rw [eliminates.explicitStart, eliminates'.explicitStart, r.explicitStart]

/-- The last stage succeeds in one order of the rules if it does in another. -/
theorem eliminateUnits_ok_of_reordered (r : g.Reordered h)
    (ok : ∃ g', g.eliminateUnits.outcome = .ok g') : ∃ h', h.eliminateUnits.outcome = .ok h' := by
  obtain ⟨g', ok⟩ := ok
  have resolved := (eliminatesUnits_of_ok ok).resolved
  obtain ⟨h', ok', -⟩ := outcome_eliminateUnits_of_forall (g := h) (by
    intro name declared
    rw [← resolvents_eq r.rules]
    exact resolved name ((names_perm r.rules).mem_iff.2 declared))
  exact ⟨h', ok'⟩

theorem Reordered.symm (r : g.Reordered h) : h.Reordered g :=
  ⟨r.rules.symm, r.explicitStart.symm⟩

end Stages

/-! ## 6. The conversion -/

/-- The first three stages take grammars that differ in their order to such
grammars, and leave the outcome to the last stage. -/
theorem exists_reordered_stages {g h : Grammar} (perm : g.rules.Perm h.rules)
    (starts : g.start? = h.start?) (plain : g.PlainlyNamed) (some : g.names ≠ []) :
    ∃ g₃ h₃ : Grammar, g₃.Reordered h₃ ∧ g.toNormalForm.outcome = g₃.eliminateUnits.outcome ∧
      h.toNormalForm.outcome = h₃.eliminateUnits.outcome := by
  have plain' := plain.of_perm perm starts
  have some' : h.names ≠ [] := fun none => some ((names_perm perm).trans (none ▸ .refl _)).eq_nil
  obtain ⟨inner, g₁, g₂, g₃, wraps, isolates, binarizes, e⟩ := exists_stages some
  obtain ⟨inner', h₁, h₂, h₃, wraps', isolates', binarizes', e'⟩ := exists_stages some'
  have own := wraps.standIns_eq plain
  have own' := wraps'.standIns_eq plain'
  -- stage by stage; what a stage leaves marked is what the next one has to keep clear of
  have wrapped := reordered_wrapStart wraps wraps' perm starts plain
  have isolated := reordered_isolateTerminals isolates isolates' wrapped own own'
  have cut := reordered_binarize binarizes binarizes' isolated
    (isolates.onlyMarks (wraps.onlyMarks plain) own)
    (isolates'.onlyMarks (wraps'.onlyMarks plain') own') (by decide)
  exact ⟨g₃, h₃, cut, e, e'⟩

/-- **The order of the declarations does not matter** beyond the start symbol. Let
two grammars be equal as maps from names to alternatives, with one start symbol,
let no name in them begin with `$`, and let escaping keep the terminals apart that
stand beside other symbols. Then both have a normal form or none has, and the
normal forms are equal as grammars. -/
theorem order_immaterial {g h : Grammar}
    (same : ∀ name, g.productions? name = h.productions? name)
    (starts : g.start? = h.start?)
    (unmarked : ∀ name, name ∈ g.names ∨ g.Occurs (.nonterminal name) ∨ g.start? = some name →
      name.toList.head? ≠ some '$')
    (escape_inj : ∀ a ∈ g.mixedTerminals, ∀ b ∈ g.mixedTerminals,
      WantedName.escape a = WantedName.escape b → a = b) :
    ((∃ g', g.toNormalForm.outcome = .ok g') ↔ ∃ h', h.toNormalForm.outcome = .ok h') ∧
    ∀ g' h', g.toNormalForm.outcome = .ok g' → h.toNormalForm.outcome = .ok h' →
      g'.sameGrammar h' = true := by
  have perm := perm_rules same
  by_cases none : g.names = []
  · -- without rules both fail
    have none' : h.names = [] := (none ▸ (names_perm perm).symm).eq_nil
    rw [outcome_toNormalForm_of_eq_nil none, outcome_toNormalForm_of_eq_nil none']
    exact ⟨Iff.rfl, fun g' h' failed => by cases failed⟩
  obtain ⟨g₃, h₃, r, e, e'⟩ := exists_reordered_stages perm starts ⟨unmarked, escape_inj⟩ none
  rw [e, e']
  refine ⟨⟨eliminateUnits_ok_of_reordered r, eliminateUnits_ok_of_reordered r.symm⟩, ?_⟩
  intro g' h' ok ok'
  exact (reordered_eliminateUnits (eliminatesUnits_of_ok ok) (eliminatesUnits_of_ok ok')
    r).sameGrammar

/-- A grammar with a long alternative, a unit cycle and an undeclared reference, and
its rules in another order. -/
def forwards : Grammar :=
  ⟨RuleTable.ofList
    [⟨"S", [⟨[.nonterminal "A", .terminal "x", .nonterminal "S", .terminal "<"], by simp⟩,
      .unit (.nonterminal "B")]⟩,
     ⟨"A.0", [.unit (.nonterminal "B"), .pair (.terminal "x") (.nonterminal "Gone")]⟩,
     ⟨"B", [.unit (.terminal "b"), .unit (.nonterminal "A.0")]⟩], some "S"⟩

/-- The same rules from the last to the first, with the same start. -/
def backwards : Grammar :=
  ⟨RuleTable.ofList forwards.rules.reverse, some "S"⟩

/-- The stand-ins and tails of the two come in different orders, and the normal forms
are equal. -/
theorem order_immaterial_backwards :
    ∃ g' h', forwards.toNormalForm.outcome = .ok g' ∧ backwards.toNormalForm.outcome = .ok h' ∧
      g'.sameGrammar h' = true := by
  have perm : forwards.rules.Perm backwards.rules := by decide
  have unmarked : ∀ name ∈ (TakenNames.ofGrammar forwards).names,
      name.toList.head? ≠ some '$' := by decide
  have escape_inj : ∀ a ∈ forwards.mixedTerminals, ∀ b ∈ forwards.mixedTerminals,
      WantedName.escape a = WantedName.escape b → a = b := by decide +kernel
  obtain ⟨both, equal⟩ := order_immaterial (productions?_eq perm) rfl
    (fun name hn => unmarked name ((forwards.mem_taken_iff name).2 hn)) escape_inj
  have succeeds : forwards.toNormalForm.outcome.isOk = true := by decide +kernel
  obtain ⟨g', ok⟩ := Logged.exists_eq_ok succeeds
  obtain ⟨h', ok'⟩ := both.1 ⟨g', ok⟩
  exact ⟨g', h', ok, ok', equal g' h' ok ok'⟩

end Grammar

end ChomskyForm
