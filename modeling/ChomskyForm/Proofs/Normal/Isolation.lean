/-
Terminals put back into their places.

Isolating is undone by writing the stand-ins out, just as cutting is undone by
writing the tails out, and here a single round is enough: what a stand-in holds
is a terminal. That this gives the grammar back rests on two facts. A terminal
has one stand-in wherever it stands, and no name of a stand-in was there before,
so nothing else is written out with them.
-/
import Mathlib.Data.List.Induction
import ChomskyForm.Proofs.Normal.Expansion
import ChomskyForm.Proofs.Normal.Shape

set_option autoImplicit false

namespace ChomskyForm

/-! ## 1. The order of first occurrence -/

/-- The distinct entries of a row, in the order in which they first stand in it. -/
structure FirstsOf {α : Type} [BEq α] (row firsts : List α) : Prop where
  mem_iff : ∀ x, x ∈ firsts ↔ x ∈ row
  ordered : firsts.Pairwise fun x y => row.idxOf x < row.idxOf y

/-- Erasing repetitions keeps every entry at the place where it comes first. -/
theorem firstsOf_eraseDups {α : Type} [BEq α] [LawfulBEq α] (row : List α) :
    FirstsOf row row.eraseDups := by
  refine ⟨fun x => List.mem_eraseDups, ?_⟩
  induction row using List.reverseRecOn with
  | nil => exact .nil
  | append_singleton row x ih =>
    -- what stands in a row stands at the same place of a longer one
    have earlier : row.eraseDups.Pairwise fun y z =>
        (row ++ [x]).idxOf y < (row ++ [x]).idxOf z := by
      refine ih.imp_of_mem fun {y z} hy hz lt => ?_
      rwa [List.idxOf_append_of_mem (List.mem_eraseDups.1 hy),
        List.idxOf_append_of_mem (List.mem_eraseDups.1 hz)]
    rw [List.eraseDups_append]
    -- the last entry is dropped, or comes behind all others
    by_cases known : x ∈ row
    · have repeated : [x].removeAll row = [] := by simpa [List.removeAll] using known
      rw [repeated, List.eraseDups_nil, List.append_nil]
      exact earlier
    · have new : [x].removeAll row = [x] := by simpa [List.removeAll] using known
      rw [new, eraseDups_of_nodup (List.nodup_singleton x), List.pairwise_append]
      refine ⟨earlier, List.pairwise_singleton _ _, fun y hy z hz => ?_⟩
      rw [List.mem_eraseDups] at hy
      rw [List.mem_singleton.1 hz, List.idxOf_append_of_mem hy, List.idxOf_append_of_notMem known]
      exact Nat.lt_of_lt_of_le (List.idxOf_lt_length_of_mem hy) (Nat.le_add_right _ _)

/-- The terminals of a production, in order. -/
def Production.terminals (p : Production) : List String :=
  p.symbols.filterMap fun
    | .terminal text => some text
    | .nonterminal _ => none

/-- The terminals that stand beside other symbols are those of the longer productions. -/
theorem flatMap_mixedTerminals (ps : List Production) :
    ps.flatMap Production.mixedTerminals =
      (ps.filter fun p => 2 ≤ p.length).flatMap Production.terminals := by
  induction ps with
  | nil => rfl
  | cons p rest ih =>
    rw [List.flatMap_cons, ih]
    by_cases long : 2 ≤ p.length
    · rw [List.filter_cons, if_pos (decide_eq_true long), List.flatMap_cons,
        Production.mixedTerminals, if_neg (by omega)]
      rfl
    · rw [List.filter_cons, if_neg (by simpa using long), Production.mixedTerminals,
        if_pos (by omega), List.nil_append]

namespace Grammar

/-- The terminals in productions of two symbols or more, as often as they stand
there, by rule, alternative and place. -/
def longTerminals (g : Grammar) : List String :=
  g.rules.flatMap fun rule =>
    (rule.alternatives.filter fun p => 2 ≤ p.length).flatMap Production.terminals

/-- The terminals that are replaced come in the order of their first occurrence. -/
theorem firstsOf_mixedTerminals (g : Grammar) : FirstsOf g.longTerminals g.mixedTerminals := by
  have each : ∀ rule ∈ g.rules, rule.alternatives.flatMap Production.mixedTerminals =
      (rule.alternatives.filter fun p => 2 ≤ p.length).flatMap Production.terminals :=
    fun rule _ => flatMap_mixedTerminals rule.alternatives
  rw [mixedTerminals, List.flatMap_congr each]
  exact firstsOf_eraseDups _

/-! ## 2. Stand-ins written out -/

/-- The rules that isolating adds. -/
def standInRules (g : Grammar) : List Rule := g.standIns.map StandIn.rule

theorem map_name_standInRules (g : Grammar) :
    g.standInRules.map Rule.name = g.standIns.map StandIn.name := by
  rw [standInRules, List.map_map]
  rfl

/-- No two of the stand-ins have one name. -/
theorem nodup_standInRules (g : Grammar) : (g.standInRules.map Rule.name).Nodup := by
  rw [map_name_standInRules]
  exact (StandIn.claims_standIns g).nodup

/-- What is isolated refers to no stand-in. -/
theorem refersToNone_standInRules (g : Grammar) : g.RefersToNone g.standInRules := by
  intro added hr occurs
  obtain ⟨x, hx, rfl⟩ := List.mem_map.1 hr
  exact (StandIn.claims_standIns g).fresh x.name (List.mem_map_of_mem hx)
    (mem_taken_of_occurs occurs)

/-- A symbol comes back, whether it gave way or stayed. -/
theorem expand_substitute {g : Grammar} {s : Symbol} (occurs : g.Occurs s) :
    (StandIn.substitute g.standIns s).expand g.standInRules = [s] := by
  rcases StandIn.substitute_cases g.standIns s with same | ⟨x, hx, rfl, away⟩
  · rw [same]
    exact Symbol.expand_of_old fun added hr e => g.refersToNone_standInRules added hr (e ▸ occurs)
  · have own : x.rule ∈ g.standInRules := List.mem_map_of_mem hx
    rw [away, Symbol.expand_tail g.nodup_standInRules own]
    rfl

/-- Writing the stand-ins out gives every production back that was there. -/
theorem expand_standInTerminals {g : Grammar} {rule : Rule} (hr : rule ∈ g.rules)
    {p : Production} (hp : p ∈ rule.alternatives) :
    (p.standInTerminals g.standIns).expand g.standInRules = p := by
  have occurs : ∀ s ∈ p.symbols, g.Occurs s := fun s hs => occurs_of_mem hr hp hs
  apply Production.ext
  show expandRow g.standInRules (p.standInTerminals g.standIns).symbols = p.symbols
  unfold Production.standInTerminals
  split
  · -- a production of one symbol was not touched, and names no stand-in
    exact expandRow_of_old fun added hr hs =>
      g.refersToNone_standInRules added hr (occurs _ hs)
  · rw [Production.symbols_map, expandRow, List.flatMap_map,
      List.flatMap_congr fun s hs => expand_substitute (occurs s hs), List.flatMap_singleton']

theorem expand_standIns_rule {g : Grammar} {rule : Rule} (hr : rule ∈ g.rules) :
    Rule.expand g.standInRules
      ⟨rule.name, rule.alternatives.map (Production.standInTerminals g.standIns)⟩ = rule := by
  have alternatives : (rule.alternatives.map (Production.standInTerminals g.standIns)).map
      (Production.expand g.standInRules) = rule.alternatives := by
    rw [List.map_map]
    exact (List.map_congr_left fun p hp => expand_standInTerminals hr hp).trans (List.map_id _)
  rw [Rule.expand, alternatives]

/-- Writing the stand-ins out gives every rule back that was there. -/
theorem IsolatesTerminals.rules_expand {g g' : Grammar} (h : g.IsolatesTerminals g') :
    (g'.expand g.standInRules).rules =
      g.rules ++ g.standInRules.map (Rule.expand g.standInRules) := by
  show g'.rules.map (Rule.expand g.standInRules) = _
  rw [h.rules, List.map_append, List.map_map]
  congr 1
  exact (List.map_congr_left fun rule hr => expand_standIns_rule hr).trans (List.map_id _)

/-- Without the rules of the stand-ins, what is left is what was isolated. -/
theorem IsolatesTerminals.without_expand {g g' : Grammar} (h : g.IsolatesTerminals g') :
    (g'.expand g.standInRules).without (g.standIns.map StandIn.name) = g := by
  have names : (g.standInRules.map (Rule.expand g.standInRules)).map Rule.name =
      g.standIns.map StandIn.name := by
    rw [List.map_map]
    exact g.map_name_standInRules
  rw [← names]
  refine without_added h.rules_expand (fun name hn declared => ?_) h.explicitStart
  rw [names] at hn
  exact (StandIn.claims_standIns g).fresh name hn (mem_taken_of_mem_names declared)

/-! ## 3. Isolating and writing out -/

/-- A production of one symbol is kept at its place. -/
theorem forall₂_standInTerminals (g : Grammar) :
    List.Forall₂ (fun old new : Rule => new.name = old.name ∧
      List.Forall₂ (fun p q => p.length = 1 → q = p) old.alternatives new.alternatives)
      g.rules (g.rules.map fun rule =>
        ⟨rule.name, rule.alternatives.map (Production.standInTerminals g.standIns)⟩) := by
  rw [List.forall₂_map_right_iff, List.forall₂_same]
  intro rule _
  refine ⟨rfl, ?_⟩
  rw [List.forall₂_map_right_iff, List.forall₂_same]
  intro p _ single
  rw [Production.standInTerminals, if_pos (Nat.le_of_eq single)]

/-- **Isolating is undone by writing the stand-ins out.** Isolating always succeeds.
It keeps the rules under their names, in their order, with every production of one
symbol at its place, and puts the rules of the stand-ins behind them. No terminal
stands beside another symbol then. The stand-ins are as many as the terminals that
did, in the order in which these come first, under different names that the grammar
does not know, even where two terminals want one name. Writing the stand-ins out
once and dropping their rules gives back the grammar that was isolated. -/
theorem isolateTerminals_undone (g : Grammar) :
    ∃ (g' : Grammar) (kept : List Rule) (standIns : List StandIn),
      g.isolateTerminals.outcome = .ok g' ∧
      g'.rules = kept ++ standIns.map StandIn.rule ∧
      FirstsOf g.longTerminals (standIns.map StandIn.terminal) ∧
      (standIns.map StandIn.name).Nodup ∧ (∀ x ∈ standIns, x.name ∉ g.names) ∧
      List.Forall₂ (fun old new => new.name = old.name ∧
        List.Forall₂ (fun p q => p.length = 1 → q = p) old.alternatives new.alternatives)
        g.rules kept ∧
      (∀ rule ∈ g'.rules, ∀ p ∈ rule.alternatives, 2 ≤ p.length →
        ∀ text, .terminal text ∉ p.symbols) ∧
      (g'.expand (standIns.map StandIn.rule)).without (standIns.map StandIn.name) = g ∧
      g'.start? = g.start? := by
  obtain ⟨g', ok, isolates⟩ := g.outcome_isolateTerminals
  have claims := StandIn.claims_standIns g
  have terminals : g.standIns.map StandIn.terminal = g.mixedTerminals :=
    StandIn.map_terminal_claimAll _ _
  refine ⟨g', _, g.standIns, ok, isolates.rules, terminals ▸ g.firstsOf_mixedTerminals,
    claims.nodup, ?_, g.forall₂_standInTerminals, ?_, isolates.without_expand,
    isolates.start?_eq⟩
  · intro x hx declared
    exact claims.fresh x.name (List.mem_map_of_mem hx) (mem_taken_of_mem_names declared)
  · intro rule hr p hp long text hs
    have separated := isolates.separated (g'.mem_productionsOf_of_mem hr hp) long _ hs
    cases separated

/-- Two terminals that want one name, which a rule has already, on both sides of a
production of one symbol. -/
def disguised : Grammar :=
  ⟨RuleTable.ofList
    [⟨"S", [.pair (.terminal "<") (.nonterminal "$term.&lt;"), .unit (.terminal "<"),
      ⟨[.terminal "&lt;", .terminal "<", .nonterminal "S"], by simp⟩]⟩,
     ⟨"$term.&lt;", [.unit (.terminal "&lt;")]⟩], none⟩

example : disguised.standIns = [⟨"<", "$term.&lt;'"⟩, ⟨"&lt;", "$term.&lt;''"⟩] := by
  decide +kernel

end Grammar

end ChomskyForm
