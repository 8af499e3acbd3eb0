/-
The normal form is reached.

Each stage gives productions a shape and keeps the shapes that the stages before
it gave. After the second one a terminal stands alone wherever it stands, after
the third one no production has more than two symbols, and the last one leaves
only productions that are there already and are no unit productions. Together
the three shapes are the normal form. The check finds no violation in it, so a
conversion never fails at its check.
-/
import ChomskyForm.Conversion
import ChomskyForm.Proofs.Normal.StageResult
import ChomskyForm.Proofs.Normal.UnitReach

set_option autoImplicit false

namespace ChomskyForm

/-! ## 1. Shapes of productions -/

namespace Production

/-- A production in Chomsky normal form: one terminal, or two nonterminals. -/
def IsNormal (p : Production) : Prop :=
  (∃ text, p = unit (.terminal text)) ∨
    ∃ first second, p = pair (.nonterminal first) (.nonterminal second)

/-- No terminal stands beside another symbol. -/
def Separated (p : Production) : Prop :=
  1 < p.length → ∀ s ∈ p.symbols, s.isTerminal = false

/-- The three shapes of the stages make up the normal form. -/
theorem isNormal_of_shapes {p : Production} (resolved : p.unitTarget? = none)
    (short : p.length ≤ 2) (separated : p.Separated) : p.IsNormal := by
  have positive := p.length_pos
  match h : p.symbols with
  | [] => exact absurd h p.symbols_ne_nil
  | [.terminal text] => exact .inl ⟨text, Production.ext h⟩
  | [.nonterminal name] =>
    rw [(unitTarget?_eq_some_iff p name).2 (Production.ext h)] at resolved
    cases resolved
  | [first, second] =>
    have two : 1 < p.length := by simp [length, h]
    obtain ⟨a, ha⟩ := (Symbol.isTerminal_eq_false_iff first).1 (separated two _ (by simp [h]))
    obtain ⟨b, hb⟩ := (Symbol.isTerminal_eq_false_iff second).1 (separated two _ (by simp [h]))
    subst ha hb
    exact .inr ⟨a, b, Production.ext h⟩
  | _ :: _ :: _ :: _ =>
    simp only [length, h, List.length_cons] at short
    omega

/-- The check of a production passes exactly on the normal form. -/
theorem violation?_eq_none_iff (nonterminal : String) (p : Production) :
    p.violation? nonterminal = none ↔ p.IsNormal := by
  constructor
  · intro passed
    unfold violation? at passed
    by_cases single : p.isTerminalUnit = true
    · exact .inl ((isTerminalUnit_iff p).1 single)
    rw [if_neg single] at passed
    cases resolved : p.unitTarget? with
    | some target =>
      rw [resolved] at passed
      cases passed
    | none =>
      rw [resolved] at passed
      dsimp only at passed
      -- only one answer is left that reports nothing: a pair without a terminal
      split at passed
      case isFalse => cases passed
      case isTrue two =>
        split at passed
        case isTrue => cases passed
        case isFalse apart =>
          refine isNormal_of_shapes resolved (Nat.le_of_eq two) fun _ s hs => ?_
          exact Bool.eq_false_iff.2 fun terminal => apart (List.any_eq_true.2 ⟨s, hs, terminal⟩)
  · rintro (⟨text, rfl⟩ | ⟨first, second, rfl⟩)
    · rfl
    · rfl

end Production

/-! ## 2. The shapes that the stages leave -/

namespace Grammar

/-- A terminal that stands beside another symbol has a stand-in. -/
theorem exists_standIn {g : Grammar} {name text : String} {p : Production}
    (hp : p ∈ g.productionsOf name) (long : 1 < p.length) (h : .terminal text ∈ p.symbols) :
    ∃ x ∈ g.standIns, x.terminal = text := by
  obtain ⟨rule, hr, -, hp⟩ := (g.mem_productionsOf_iff name p).1 hp
  have mixed : text ∈ g.mixedTerminals := by
    unfold mixedTerminals
    rw [List.mem_eraseDups]
    refine List.mem_flatMap.2 ⟨rule, hr, List.mem_flatMap.2 ⟨p, hp, ?_⟩⟩
    unfold Production.mixedTerminals
    rw [if_neg (by omega)]
    exact List.mem_filterMap.2 ⟨_, h, rfl⟩
  have terminals : g.standIns.map StandIn.terminal = g.mixedTerminals :=
    StandIn.map_terminal_claimAll _ _
  rw [← terminals] at mixed
  exact List.mem_map.1 mixed

/-- Where terminals are isolated, each of them stands alone. -/
theorem IsolatesTerminals.separated {g g' : Grammar} (h : g.IsolatesTerminals g')
    {name : String} {p : Production} (hp : p ∈ g'.productionsOf name) : p.Separated := by
  rcases (h.mem_productionsOf_iff name p).1 hp with ⟨q, hq, rfl⟩ | ⟨x, hx, rfl, rfl⟩
  · intro long s hs
    unfold Production.standInTerminals at long hs
    by_cases short : q.length ≤ 1
    · rw [if_pos short] at long
      omega
    · -- every symbol of a longer production was replaced or is a nonterminal
      rw [if_neg short, Production.symbols_map] at hs
      obtain ⟨old, ho, rfl⟩ := List.mem_map.1 hs
      cases old with
      | nonterminal n => rfl
      | terminal text =>
        obtain ⟨x, hx, e⟩ := exists_standIn hq (by omega) ho
        have found : (g.standIns.find? fun x => x.terminal == text).isSome := by
          rw [List.find?_isSome]
          exact ⟨x, hx, by simpa using e⟩
        obtain ⟨y, hy⟩ := Option.isSome_iff_exists.1 found
        simp [StandIn.substitute, hy, Symbol.isTerminal]
  · intro long
    exact absurd long (Nat.lt_irrefl 1)

/-- Cutting leaves at most pairs, and keeps terminals apart. -/
theorem Binarizes.short_and_separated {g g' : Grammar} (h : g.Binarizes g')
    (separated : ∀ name, ∀ p ∈ g.productionsOf name, p.Separated) {name : String}
    {p : Production} (hp : p ∈ g'.productionsOf name) : p.length ≤ 2 ∧ p.Separated := by
  obtain ⟨x, hx, t, ht, piece⟩ := h.exists_piece hp
  obtain ⟨two, le, terminals⟩ := (chain_of_mem_trims hx ht).of_mem_pieces piece
  refine ⟨two, ?_⟩
  intro long s hs
  cases terminal : s.isTerminal with
  | false => rfl
  | true =>
    -- it would be a terminal of the production that was cut
    have apart := separated x.rule.name t.whole (whole_mem_productionsOf hx ht)
      (Nat.lt_of_lt_of_le long le) s (terminals s hs terminal)
    rwa [terminal] at apart

/-! ## 3. The normal form of a grammar -/

/-- What every rule of a normal form is like. -/
theorem rule_of_ok {g g' : Grammar} (h : g.toNormalForm.outcome = .ok g') {rule : Rule}
    (hr : rule ∈ g'.rules) :
    rule.alternatives ≠ [] ∧ rule.alternatives.Nodup ∧ ∀ p ∈ rule.alternatives, p.IsNormal := by
  obtain ⟨inner, g₁, g₂, g₃, -, isolates, binarizes, eliminates⟩ := stages_of_ok h
  rw [eliminates.rules] at hr
  obtain ⟨origin, ho, rfl⟩ := List.mem_map.1 hr
  refine ⟨eliminates.resolved _ (g₃.name_mem_names ho), g₃.nodup_resolvents _, ?_⟩
  intro p hp
  obtain ⟨resolved, m, -, hp⟩ := (g₃.mem_resolvents_iff _ p).1 hp
  obtain ⟨short, separated⟩ :=
    binarizes.short_and_separated (fun _ _ hq => isolates.separated hq) hp
  exact Production.isNormal_of_shapes resolved short separated

/-- A rule passes the check exactly if all its productions do. -/
theorem findSome?_violation?_eq_none_iff (rule : Rule) :
    rule.alternatives.findSome? (Production.violation? rule.name) = none ↔
      ∀ p ∈ rule.alternatives, p.IsNormal := by
  rw [List.findSome?_eq_none_iff]
  exact forall₂_congr fun p _ => p.violation?_eq_none_iff rule.name

/-- A grammar passes the check exactly if all its productions do. -/
theorem violation?_eq_none_iff (g : Grammar) :
    g.violation? = none ↔ ∀ rule ∈ g.rules, ∀ p ∈ rule.alternatives, p.IsNormal := by
  unfold violation?
  rw [List.findSome?_eq_none_iff]
  exact forall₂_congr fun rule _ => findSome?_violation?_eq_none_iff rule

end Grammar

/-- A conversion reads a grammar and gives its normal form, which always passes
the check. -/
theorem outcome_convert_eq (source : Source) : (convert source).outcome =
    ((Bnf.readGrammar source).outcome.mapError ConversionError.parse).bind fun g =>
      g.toNormalForm.outcome.mapError ConversionError.normalize := by
  unfold convert
  rw [Logged.outcome_bind, Logged.outcome_mapError]
  congr 1
  funext g
  -- what is reported in between has no part in the outcome
  show ((g.toNormalForm.mapError ConversionError.normalize >>= _).outcome) = _
  rw [Logged.outcome_bind, Logged.outcome_mapError]
  cases normal : g.toNormalForm.outcome with
  | error e => rfl
  | ok g' =>
    have passed : g'.violation? = none := by
      rw [Grammar.violation?_eq_none_iff]
      exact fun rule hr => (Grammar.rule_of_ok normal hr).2.2
    dsimp only [Except.mapError, Except.bind]
    rw [passed]
    rfl

/-- A conversion that comes to its check passes it. -/
theorem outcome_convert_ne_notNormal (source : Source) (violation : Violation) :
    (convert source).outcome ≠ .error (.notNormal violation) := by
  rw [outcome_convert_eq]
  cases (Bnf.readGrammar source).outcome with
  | error e => exact fun h => by cases h
  | ok g =>
    show g.toNormalForm.outcome.mapError ConversionError.normalize ≠ _
    cases g.toNormalForm.outcome <;> exact fun h => by cases h

/-- A conversion gives the normal form of the grammar that it reads. -/
theorem toNormalForm_of_convert {source : Source} {g' : Grammar}
    (h : (convert source).outcome = .ok g') :
    ∃ g, (Bnf.readGrammar source).outcome = .ok g ∧ g.toNormalForm.outcome = .ok g' := by
  rw [outcome_convert_eq] at h
  cases read : (Bnf.readGrammar source).outcome with
  | error e =>
    rw [read] at h
    cases h
  | ok g =>
    rw [read] at h
    change g.toNormalForm.outcome.mapError ConversionError.normalize = _ at h
    cases normal : g.toNormalForm.outcome with
    | error e =>
      rw [normal] at h
      cases h
    | ok g'' =>
      rw [normal] at h
      cases h
      exact ⟨g, rfl, normal⟩

/-- **The normal form is reached from every grammar**: in the result of a
conversion every production is one terminal or two nonterminals, every declared
nonterminal has an alternative, no rule repeats one, and the check finds
nothing. A conversion of a text hence never fails at its check. -/
theorem normalForm_reached :
    (∀ g g' : Grammar, g.toNormalForm.outcome = .ok g' →
      (∀ rule ∈ g'.rules, rule.alternatives ≠ [] ∧ rule.alternatives.Nodup ∧
        ∀ p ∈ rule.alternatives, p.IsNormal) ∧
      g'.violation? = none) ∧
    ∀ (source : Source) (violation : Violation),
      (convert source).outcome ≠ .error (.notNormal violation) := by
  refine ⟨?_, outcome_convert_ne_notNormal⟩
  intro g g' h
  refine ⟨fun rule hr => Grammar.rule_of_ok h hr, ?_⟩
  rw [Grammar.violation?_eq_none_iff]
  exact fun rule hr => (Grammar.rule_of_ok h hr).2.2

/-- A long production with terminals, a unit production and a repeated
alternative. -/
def nested : Grammar :=
  ⟨RuleTable.ofList
    [⟨"S", [⟨[.terminal "(", .nonterminal "S", .terminal ")"], by simp⟩,
      .unit (.nonterminal "A"), .unit (.terminal "a")]⟩,
     ⟨"A", [.unit (.terminal "a"), .unit (.terminal "a")]⟩], none⟩

/-- The normal form of such a grammar passes its check. -/
theorem normalForm_reached_nested :
    ∃ g', nested.toNormalForm.outcome = .ok g' ∧ g'.violation? = none ∧
      ∀ rule ∈ g'.rules, rule.alternatives ≠ [] ∧ rule.alternatives.Nodup ∧
        ∀ p ∈ rule.alternatives, p.IsNormal := by
  have succeeds : nested.toNormalForm.outcome.isOk = true := by decide +kernel
  cases h : nested.toNormalForm.outcome with
  | error e =>
    rw [h] at succeeds
    cases succeeds
  | ok g' =>
    obtain ⟨shapes, passed⟩ := normalForm_reached.1 nested g' h
    exact ⟨g', rfl, passed, shapes⟩

end ChomskyForm
