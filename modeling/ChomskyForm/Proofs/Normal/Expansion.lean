/-
Tails expanded again.

Cutting is undone by writing every tail out: wherever its name stands, what the
tail holds is put in its place, and that is repeated until no name of a tail is
left. Then the rules of the tails go, and the grammar is the one that was cut.

Two facts about a single cut carry this. What its pieces are written out to is
the row that was cut (`Chain.expandRow_kept`), and its pieces hold the symbols
of that row and, beside them, the name of each tail once (`Chain.perm_pieces`).
-/
import Mathlib.Data.List.Forall2
import Mathlib.Data.List.Perm.Basic
import Mathlib.Logic.Function.Iterate
import ChomskyForm.Proofs.Normal.GeneratedNames

set_option autoImplicit false

namespace ChomskyForm

/-! ## 1. Writing rules out -/

/-- What a symbol gives way to when some rules are written out: the name of a rule
with a single alternative to that alternative, anything else to itself. -/
def Symbol.expand (tails : List Rule) : Symbol → List Symbol
  | .terminal text => [.terminal text]
  | .nonterminal name =>
    match tails.find? fun rule => rule.name == name with
    | some ⟨_, [p]⟩ => p.symbols
    | _ => [.nonterminal name]

/-- A symbol gives way to one symbol or more. -/
theorem Symbol.expand_ne_nil (tails : List Rule) (s : Symbol) : s.expand tails ≠ [] := by
  unfold expand
  split
  · exact List.cons_ne_nil _ _
  · split
    · exact Production.symbols_ne_nil _
    · exact List.cons_ne_nil _ _

/-- Writes rules out in every place of a row at once. -/
def expandRow (tails : List Rule) (row : List Symbol) : List Symbol :=
  row.flatMap (Symbol.expand tails)

/-- Writes rules out in a production. -/
def Production.expand (tails : List Rule) (p : Production) : Production :=
  ⟨expandRow tails p.symbols, by
    obtain ⟨s, rest, e⟩ := List.exists_cons_of_ne_nil p.symbols_ne_nil
    rw [expandRow, e, List.flatMap_cons]
    exact List.append_ne_nil_of_left_ne_nil (s.expand_ne_nil tails) _⟩

/-- Writes rules out in the alternatives of a rule. -/
def Rule.expand (tails : List Rule) (rule : Rule) : Rule :=
  ⟨rule.name, rule.alternatives.map (Production.expand tails)⟩

namespace Grammar

/-- Writes rules out in all productions, one round of it. -/
def expand (tails : List Rule) (g : Grammar) : Grammar :=
  g.replaceRules (g.table.mapRules fun _ alternatives =>
    alternatives.map (Production.expand tails))

/-- A grammar without the rules of some names. -/
def without (names : List String) (g : Grammar) : Grammar :=
  g.replaceRules ⟨g.rules.filter fun rule => rule.name ∉ names,
    (List.filter_sublist.map Rule.name).nodup g.table.nodup⟩

/-- Dropping the rules that were added behind a grammar's own leaves the grammar. -/
theorem without_added {g g' : Grammar} {added : List Rule} (rules : g'.rules = g.rules ++ added)
    (fresh : ∀ name ∈ added.map Rule.name, name ∉ g.names)
    (start : g'.explicitStart = g.explicitStart) : g'.without (added.map Rule.name) = g := by
  have old : g.rules.filter (fun rule => rule.name ∉ added.map Rule.name) = g.rules := by
    rw [List.filter_eq_self]
    intro rule hr
    exact decide_eq_true fun new => fresh rule.name new (g.name_mem_names hr)
  have gone : added.filter (fun rule => rule.name ∉ added.map Rule.name) = [] := by
    rw [List.filter_eq_nil_iff]
    intro rule hr
    rw [decide_eq_true_eq, not_not]
    exact List.mem_map_of_mem hr
  refine Grammar.ext ?_ start
  show g'.rules.filter _ = g.rules
  rw [rules, List.filter_append, old, gone, List.append_nil]

/-- All symbols of all productions of a grammar. -/
def bodySymbols (g : Grammar) : List Symbol :=
  g.rules.flatMap fun rule => rule.alternatives.flatMap Production.symbols

/-- No production refers to one of these rules. -/
def RefersToNone (g : Grammar) (tails : List Rule) : Prop :=
  ∀ tail ∈ tails, ¬ g.Occurs (.nonterminal tail.name)

end Grammar

/-! ## 2. Rounds of writing out -/

section Rounds

variable {tails : List Rule}

/-- The two parts of a row are written out apart. -/
theorem expandRow_append (row row' : List Symbol) :
    expandRow tails (row ++ row') = expandRow tails row ++ expandRow tails row' :=
  List.flatMap_append

/-- In every number of rounds the two parts of a row are written out apart. -/
theorem iterate_expandRow_append (n : Nat) (row row' : List Symbol) :
    (expandRow tails)^[n] (row ++ row') =
      (expandRow tails)^[n] row ++ (expandRow tails)^[n] row' := by
  induction n generalizing row row' with
  | zero => rfl
  | succ n ih =>
    rw [Function.iterate_succ_apply, expandRow_append, ih, ← Function.iterate_succ_apply,
      ← Function.iterate_succ_apply]

/-- A symbol that names no tail stays. -/
theorem Symbol.expand_of_old {s : Symbol} (old : ∀ tail ∈ tails, s ≠ .nonterminal tail.name) :
    s.expand tails = [s] := by
  cases s with
  | terminal text => rfl
  | nonterminal name =>
    have unnamed : tails.find? (fun rule => rule.name == name) = none := by
      rw [List.find?_eq_none]
      intro tail ht e
      exact old tail ht (by rw [eq_of_beq e])
    rw [expand, unnamed]

theorem expandRow_of_old {row : List Symbol}
    (old : ∀ tail ∈ tails, .nonterminal tail.name ∉ row) : expandRow tails row = row := by
  have each : ∀ s ∈ row, s.expand tails = [s] := fun s hs =>
    Symbol.expand_of_old fun tail ht e => old tail ht (e ▸ hs)
  rw [expandRow, List.flatMap_congr each, List.flatMap_singleton']

/-- The name of a tail gives way to what the tail holds. -/
theorem Symbol.expand_tail (nodup : (tails.map Rule.name).Nodup) {name : String}
    {p : Production} (h : ⟨name, [p]⟩ ∈ tails) :
    (Symbol.nonterminal name).expand tails = p.symbols := by
  have found := RuleTable.find?_eq_some_of_mem nodup h
  dsimp only at found
  rw [expand, found]

/-- The rounds for a production are those for its row. -/
theorem Production.symbols_iterate_expand (n : Nat) (p : Production) :
    ((Production.expand tails)^[n] p).symbols = (expandRow tails)^[n] p.symbols := by
  induction n generalizing p with
  | zero => rfl
  | succ n ih => rw [Function.iterate_succ_apply, ih, Function.iterate_succ_apply]; rfl

/-- The rounds for a rule are those for its alternatives; the name stays. -/
theorem Rule.iterate_expand (n : Nat) (rule : Rule) :
    (Rule.expand tails)^[n] rule =
      ⟨rule.name, rule.alternatives.map (Production.expand tails)^[n]⟩ := by
  induction n with
  | zero => rw [Function.iterate_zero, Function.iterate_zero, List.map_id]; rfl
  | succ n ih =>
    rw [Function.iterate_succ_apply', ih, expand, List.map_map, ← Function.iterate_succ']

end Rounds

/-! ## 3. A single cut -/

namespace Cut.Chain

/-- **A row that was cut is written out to what it was**, in as many rounds as there
are tails, or more: each round puts one more symbol in its place. -/
theorem expandRow_kept {all : List Rule} (nodup : (all.map Rule.name).Nodup)
    {row : List Symbol} {kept : Production} {tails : List Rule} (h : Chain row kept tails)
    (sub : tails ⊆ all) (old : ∀ tail ∈ all, .nonterminal tail.name ∉ row) {n : Nat}
    (le : tails.length ≤ n) : (expandRow all)^[n] kept.symbols = row := by
  induction h generalizing n with
  | short _ hk => rw [hk, Function.iterate_fixed (expandRow_of_old old)]
  | @long first second third rest name kept tails chain ih =>
    rw [List.cons_subset] at sub
    rw [List.length_cons] at le
    obtain ⟨m, rfl⟩ : ∃ m, n = m + 1 := ⟨n - 1, by omega⟩
    have oldFirst : ∀ tail ∈ all, Symbol.nonterminal tail.name ∉ [first] := by
      intro tail ht hs
      rw [List.mem_singleton] at hs
      exact old tail ht (hs ▸ List.mem_cons_self)
    have oldRest : ∀ tail ∈ all, Symbol.nonterminal tail.name ∉ second :: third :: rest :=
      fun tail ht hs => old tail ht (List.mem_cons_of_mem _ hs)
    -- the first round leaves the first symbol and opens the tail
    have opened : expandRow all [first, .nonterminal name] = [first] ++ kept.symbols := by
      rw [← List.singleton_append, expandRow_append, expandRow_of_old oldFirst]
      congr 1
      rw [expandRow, List.flatMap_singleton, Symbol.expand_tail nodup sub.1]
    rw [Function.iterate_succ_apply, Production.symbols_pair, opened, iterate_expandRow_append,
      Function.iterate_fixed (expandRow_of_old oldFirst), ih sub.2 oldRest (by omega)]
    rfl

/-- Whatever piece of a row is written out, only symbols of the row are left. -/
theorem mem_row_of_mem_expandRow {all : List Rule} (nodup : (all.map Rule.name).Nodup)
    {row : List Symbol} {kept : Production} {tails : List Rule} (h : Chain row kept tails)
    (sub : tails ⊆ all) (old : ∀ tail ∈ all, .nonterminal tail.name ∉ row) {n : Nat}
    (le : tails.length ≤ n) {p : Production} (hp : p ∈ pieces kept tails) {s : Symbol}
    (hs : s ∈ (expandRow all)^[n] p.symbols) : s ∈ row := by
  induction h with
  | short hl hk =>
    rw [pieces, List.flatMap_nil, List.mem_singleton] at hp
    rwa [hp, (Chain.short hl hk).expandRow_kept nodup sub old le] at hs
  | long chain ih =>
    rw [pieces_long] at hp
    rcases List.mem_cons.1 hp with rfl | hp
    · rwa [(Chain.long chain).expandRow_kept nodup sub old le] at hs
    · rw [List.cons_subset] at sub
      rw [List.length_cons] at le
      exact List.mem_cons_of_mem _ (ih sub.2
        (fun tail ht hr => old tail ht (List.mem_cons_of_mem _ hr)) (by omega) hp)

/-- **A cut adds the names of its tails and nothing else**: its pieces hold the
symbols of the row and the name of each tail once. -/
theorem perm_pieces {row : List Symbol} {kept : Production} {tails : List Rule}
    (h : Chain row kept tails) :
    ((pieces kept tails).flatMap Production.symbols).Perm
      (row ++ tails.map fun tail => .nonterminal tail.name) := by
  induction h with
  | short _ hk => simp [pieces, hk]
  | @long first second third rest name kept tails _ ih =>
    -- the first pair holds the first symbol and the name of the first tail
    rw [pieces_long, List.flatMap_cons, Production.symbols_pair, List.map_cons]
    have behind := (ih.cons (.nonterminal name)).trans List.perm_middle.symm
    exact behind.cons first

/-- A tail has one alternative, and that is a pair. -/
theorem exists_pair {row : List Symbol} {kept : Production} {tails : List Rule}
    (h : Chain row kept tails) {rule : Rule} (hr : rule ∈ tails) :
    ∃ first second, rule.alternatives = [.pair first second] := by
  induction h with
  | short _ _ => exact absurd hr List.not_mem_nil
  | @long first second third rest name kept tails chain ih =>
    rcases List.mem_cons.1 hr with rfl | hr
    · cases chain with
      | short hl hk =>
        -- what is left of the row are its last two symbols
        obtain rfl : rest = [] := List.eq_nil_of_length_eq_zero (by
          simp only [List.length_cons] at hl
          omega)
        have whole : kept = .pair second third := Production.ext hk
        exact ⟨second, third, by rw [whole]⟩
      | long _ => exact ⟨second, _, rfl⟩
    · exact ih hr

end Cut.Chain

namespace Grammar

/-! ## 4. The pieces of a grammar -/

/-- The cuts of all productions of a grammar, in order. -/
def cuts (g : Grammar) : List Trim := g.trims.flatMap TrimmedRule.trims

/-- The tails that are cut off are those of the cuts, in order. -/
theorem tails_eq_flatMap_cuts (g : Grammar) :
    g.cutRules.tails = g.cuts.flatMap fun t => t.cut.tails := by
  rw [tails_eq_flatMap_trims, cuts, List.flatMap_assoc]

theorem chain_of_mem_cuts {g : Grammar} {t : Trim} (h : t ∈ g.cuts) :
    Cut.Chain t.whole.symbols t.cut.kept t.cut.tails := by
  obtain ⟨x, hx, ht⟩ := List.mem_flatMap.1 h
  exact chain_of_mem_trims hx ht

/-- The tails of one cut are among the tails of all. -/
theorem tails_sublist_of_mem_cuts {g : Grammar} {t : Trim} (h : t ∈ g.cuts) :
    t.cut.tails.Sublist g.cutRules.tails := by
  rw [tails_eq_flatMap_cuts]
  exact List.sublist_flatten_of_mem (List.mem_map_of_mem h)

/-- The symbols of a grammar are those of the productions that were cut. -/
theorem bodySymbols_eq_flatMap_cuts (g : Grammar) :
    g.bodySymbols = g.cuts.flatMap fun t => t.whole.symbols := by
  rw [bodySymbols, rules_eq_map_trims, List.flatMap_map, cuts, List.flatMap_assoc]
  apply List.flatMap_congr
  intro x hx
  rw [← map_whole_of_mem_trims hx, List.flatMap_map]

/-- **Cutting adds each tail's name once** to the symbols of a grammar. -/
theorem Binarizes.perm_bodySymbols {g g' : Grammar} (h : g.Binarizes g') :
    g'.bodySymbols.Perm
      (g.bodySymbols ++ g.cutRules.tails.map fun tail => .nonterminal tail.name) := by
  have kept : (g.cutRules.kept.flatMap fun rule =>
      rule.alternatives.flatMap Production.symbols) =
      g.cuts.flatMap fun t => t.cut.kept.symbols := by
    rw [kept_eq_map_trims, List.flatMap_map, cuts, List.flatMap_assoc]
    apply List.flatMap_congr
    intro x _
    rw [List.flatMap_map]
  rw [bodySymbols, h.rules, List.flatMap_append, kept, bodySymbols_eq_flatMap_cuts,
    tails_eq_flatMap_cuts, List.flatMap_assoc, List.map_flatMap]
  refine (List.flatMap_append_perm _ _ _).trans ?_
  refine List.Perm.trans ?_ (List.flatMap_append_perm _ _ _).symm
  -- cut by cut: the piece that is kept and those of the tails
  refine List.Perm.flatMap_left _ fun t ht => ?_
  have pieces := (chain_of_mem_cuts ht).perm_pieces
  rwa [Cut.pieces, List.flatMap_cons, List.flatMap_assoc] at pieces

/-- To stand among all symbols is to occur. -/
theorem occurs_of_mem_bodySymbols {g : Grammar} {s : Symbol} (h : s ∈ g.bodySymbols) :
    g.Occurs s := by
  obtain ⟨rule, hr, h⟩ := List.mem_flatMap.1 h
  obtain ⟨p, hp, hs⟩ := List.mem_flatMap.1 h
  exact occurs_of_mem hr hp hs

/-- What is cut refers to no tail. -/
theorem refersToNone_tails (g : Grammar) : g.RefersToNone g.cutRules.tails := fun tail ht hs =>
  g.claims_tails.fresh tail.name (List.mem_map_of_mem ht) (mem_taken_of_occurs hs)

/-- No production that was cut refers to a tail. -/
theorem notMem_whole_of_mem_cuts {g : Grammar} {t : Trim} (hc : t ∈ g.cuts) {tail : Rule}
    (ht : tail ∈ g.cutRules.tails) : .nonterminal tail.name ∉ t.whole.symbols := by
  obtain ⟨x, hx, hxt⟩ := List.mem_flatMap.1 hc
  exact fun hs => g.refersToNone_tails tail ht ⟨_, _, whole_mem_productionsOf hx hxt, hs⟩

/-- A tail is referred to in one place. -/
theorem Binarizes.count_tail {g g' : Grammar} (h : g.Binarizes g') {tail : Rule}
    (ht : tail ∈ g.cutRules.tails) : g'.bodySymbols.count (.nonterminal tail.name) = 1 := by
  have nodup : (g.cutRules.tails.map fun tail => Symbol.nonterminal tail.name).Nodup := by
    have := g.claims_tails.nodup.map (f := Symbol.nonterminal) fun _ _ => Symbol.nonterminal.inj
    rwa [List.map_map] at this
  rw [h.perm_bodySymbols.count_eq, List.count_append,
    List.count_eq_zero_of_not_mem fun hs =>
      g.refersToNone_tails tail ht (occurs_of_mem_bodySymbols hs),
    List.count_eq_one_of_mem nodup (List.mem_map_of_mem ht)]

/-- Every tail of a grammar has one alternative, and that is a pair. -/
theorem exists_pair_of_mem_tails {g : Grammar} {tail : Rule} (ht : tail ∈ g.cutRules.tails) :
    ∃ first second, tail.alternatives = [.pair first second] := by
  rw [tails_eq_flatMap_cuts] at ht
  obtain ⟨t, hc, ht⟩ := List.mem_flatMap.1 ht
  exact (chain_of_mem_cuts hc).exists_pair ht

/-! ## 5. Writing the tails of a grammar out -/

/-- The rounds for a grammar are those for its rules. -/
theorem rules_iterate_expand (tails : List Rule) (n : Nat) (g : Grammar) :
    ((expand tails)^[n] g).rules = g.rules.map (Rule.expand tails)^[n] := by
  induction n with
  | zero => exact (List.map_id _).symm
  | succ n ih =>
    rw [Function.iterate_succ_apply', Function.iterate_succ', ← List.map_map, ← ih]
    rfl

theorem explicitStart_iterate_expand (tails : List Rule) (n : Nat) (g : Grammar) :
    ((expand tails)^[n] g).explicitStart = g.explicitStart := by
  induction n with
  | zero => rfl
  | succ n ih => rw [Function.iterate_succ_apply', expand, explicitStart_replaceRules, ih]

/-- Where nothing is left to write out, another round changes nothing. -/
theorem expand_of_refersToNone {g : Grammar} {tails : List Rule} (h : g.RefersToNone tails) :
    g.expand tails = g := by
  have production : ∀ rule ∈ g.rules, ∀ p ∈ rule.alternatives, p.expand tails = p := by
    intro rule hr p hp
    apply Production.ext
    exact expandRow_of_old fun tail ht hs => h tail ht (occurs_of_mem hr hp hs)
  have rule : ∀ rule ∈ g.rules, rule.expand tails = rule := by
    intro rule hr
    rw [Rule.expand, List.map_congr_left (production rule hr), List.map_id']
  refine Grammar.ext ?_ rfl
  show g.rules.map (Rule.expand tails) = g.rules
  rw [List.map_congr_left rule, List.map_id']

section Rounds

variable {g g' : Grammar} {n : Nat}

/-- Enough rounds leave no reference to a tail. -/
theorem Binarizes.refersToNone_iterate_expand (h : g.Binarizes g')
    (le : g.cutRules.tails.length ≤ n) :
    ((expand g.cutRules.tails)^[n] g').RefersToNone g.cutRules.tails := by
  rintro tail ht ⟨_, _, hp', hs⟩
  rw [Grammar.mem_productionsOf_iff, rules_iterate_expand] at hp'
  obtain ⟨_, hr', -, hp'⟩ := hp'
  obtain ⟨rule, hr, rfl⟩ := List.mem_map.1 hr'
  rw [Rule.iterate_expand] at hp'
  obtain ⟨p, hp, rfl⟩ := List.mem_map.1 hp'
  rw [Production.symbols_iterate_expand] at hs
  obtain ⟨x, hx, t, hxt, piece⟩ := h.exists_piece (g'.mem_productionsOf_of_mem hr hp)
  -- a symbol that is left was a symbol before the cuts, and those name no tail
  have hc : t ∈ g.cuts := List.mem_flatMap.2 ⟨x, hx, hxt⟩
  have sub := tails_sublist_of_mem_cuts hc
  have left := (chain_of_mem_cuts hc).mem_row_of_mem_expandRow g.claims_tails.nodup sub.subset
    (fun _ ht => notMem_whole_of_mem_cuts hc ht) (Nat.le_trans sub.length_le le) piece hs
  exact notMem_whole_of_mem_cuts hc ht left

/-- Enough rounds turn what is kept of a rule into the rule. -/
theorem iterate_expand_kept (le : g.cutRules.tails.length ≤ n) :
    g.cutRules.kept.map (Rule.expand g.cutRules.tails)^[n] = g.rules := by
  rw [kept_eq_map_trims, rules_eq_map_trims, List.map_map]
  apply List.map_congr_left
  intro x hx
  have production : ∀ t ∈ x.trims,
      (Production.expand g.cutRules.tails)^[n] t.cut.kept = t.whole := by
    intro t ht
    have hc : t ∈ g.cuts := List.mem_flatMap.2 ⟨x, hx, ht⟩
    have sub := tails_sublist_of_mem_cuts hc
    apply Production.ext
    rw [Production.symbols_iterate_expand]
    exact (chain_of_mem_cuts hc).expandRow_kept g.claims_tails.nodup sub.subset
      (fun _ ht => notMem_whole_of_mem_cuts hc ht) (Nat.le_trans sub.length_le le)
  have alternatives : (x.trims.map fun t => t.cut.kept).map
      (Production.expand g.cutRules.tails)^[n] = x.rule.alternatives := by
    rw [← map_whole_of_mem_trims hx, List.map_map]
    exact List.map_congr_left production
  rw [Function.comp_apply, Rule.iterate_expand, alternatives]

/-- Enough rounds, and what is left without the tails is what was cut. -/
theorem Binarizes.without_iterate_expand (h : g.Binarizes g')
    (le : g.cutRules.tails.length ≤ n) :
    ((expand g.cutRules.tails)^[n] g').without (g.cutRules.tails.map Rule.name) = g := by
  have names : (g.cutRules.tails.map (Rule.expand g.cutRules.tails)^[n]).map Rule.name =
      g.cutRules.tails.map Rule.name := by
    rw [List.map_map]
    refine List.map_congr_left fun tail _ => ?_
    rw [Function.comp_apply, Rule.iterate_expand]
  rw [← names]
  refine without_added ?_ ?_ ((explicitStart_iterate_expand _ n g').trans h.explicitStart)
  · rw [rules_iterate_expand, h.rules, List.map_append, iterate_expand_kept le]
  · intro name hn declared
    rw [names] at hn
    exact g.claims_tails.fresh name hn (mem_taken_of_mem_names declared)

/-- Whenever no reference to a tail is left, the rounds are over. -/
theorem Binarizes.without_of_refersToNone (h : g.Binarizes g')
    (done : ((expand g.cutRules.tails)^[n] g').RefersToNone g.cutRules.tails) :
    ((expand g.cutRules.tails)^[n] g').without (g.cutRules.tails.map Rule.name) = g := by
  have more := h.without_iterate_expand (Nat.le_add_right g.cutRules.tails.length n)
  rwa [Function.iterate_add_apply, Function.iterate_fixed (expand_of_refersToNone done)] at more

end Rounds

/-! ## 6. Cutting and writing out -/

/-- Short alternatives are kept at their place. -/
theorem forall₂_kept (g : Grammar) :
    List.Forall₂ (fun old new => new.name = old.name ∧
      List.Forall₂ (fun p q => p.length ≤ 2 → q = p) old.alternatives new.alternatives)
      g.rules g.cutRules.kept := by
  rw [kept_eq_map_trims, rules_eq_map_trims, List.forall₂_map_left_iff,
    List.forall₂_map_right_iff, List.forall₂_same]
  intro x hx
  refine ⟨rfl, ?_⟩
  rw [← map_whole_of_mem_trims hx, List.forall₂_map_left_iff, List.forall₂_map_right_iff,
    List.forall₂_same]
  intro t ht short
  exact Production.ext ((chain_of_mem_trims hx ht).symbols_kept_of_length_le short)

/-- **Cutting is undone by writing the tails out.** Cutting always succeeds. It keeps
the rules under their names, in their order, with every short alternative at its
place, and puts the rules of the tails behind them. No production is longer than
a pair then. A tail has one alternative, a pair, and its name stands in one place
of all productions. Writing the tails out comes to an end, and when no reference
to a tail is left, dropping their rules gives back the grammar that was cut. -/
theorem binarize_undone (g : Grammar) :
    ∃ g' kept tails, g.binarize.outcome = .ok g' ∧ g'.rules = kept ++ tails ∧
      (∀ tail ∈ tails, tail.name ∉ g.names) ∧
      List.Forall₂ (fun old new => new.name = old.name ∧
        List.Forall₂ (fun p q => p.length ≤ 2 → q = p) old.alternatives new.alternatives)
        g.rules kept ∧
      (∀ rule ∈ g'.rules, ∀ p ∈ rule.alternatives, p.length ≤ 2) ∧
      (∀ tail ∈ tails, (∃ first second, tail.alternatives = [.pair first second]) ∧
        g'.bodySymbols.count (.nonterminal tail.name) = 1) ∧
      (∃ n, ((expand tails)^[n] g').RefersToNone tails) ∧
      ∀ n, ((expand tails)^[n] g').RefersToNone tails →
        ((expand tails)^[n] g').without (tails.map Rule.name) = g := by
  obtain ⟨g', ok, binarizes⟩ := g.outcome_binarize
  refine ⟨g', g.cutRules.kept, g.cutRules.tails, ok, binarizes.rules, ?_, g.forall₂_kept, ?_,
    fun tail ht => ⟨exists_pair_of_mem_tails ht, binarizes.count_tail ht⟩,
    ⟨_, binarizes.refersToNone_iterate_expand (Nat.le_refl _)⟩,
    fun n done => binarizes.without_of_refersToNone done⟩
  · intro tail ht declared
    exact g.claims_tails.fresh tail.name (List.mem_map_of_mem ht)
      (mem_taken_of_mem_names declared)
  · intro rule hr p hp
    obtain ⟨x, hx, t, ht, piece⟩ := binarizes.exists_piece (g'.mem_productionsOf_of_mem hr hp)
    exact ((chain_of_mem_trims hx ht).of_mem_pieces piece).1

/-- Two long alternatives that agree, a short one between them, and a rule that has
the name that the first tail wants. -/
def crossed : Grammar :=
  ⟨RuleTable.ofList
    [⟨"S", [⟨[.nonterminal "A", .terminal "x", .nonterminal "S", .nonterminal "A"], by simp⟩,
      .pair (.nonterminal "A") (.terminal "x"),
      ⟨[.nonterminal "A", .terminal "x", .nonterminal "S", .nonterminal "A"], by simp⟩]⟩,
     ⟨"$bin.S.0.1", [.unit (.nonterminal "A")]⟩], none⟩

/-- The first tail gets a prime, for a rule has its name, and writing out gives that
rule back. -/
theorem binarize_undone_crossed :
    ∃ g' tails n, crossed.binarize.outcome = .ok g' ∧
      tails.map Rule.name = ["$bin.S.0.1'", "$bin.S.0.2", "$bin.S.2.1", "$bin.S.2.2"] ∧
      ((expand tails)^[n] g').RefersToNone tails ∧
      ((expand tails)^[n] g').without (tails.map Rule.name) = crossed := by
  obtain ⟨g', kept, tails, ok, rules, -, same, -, -, ⟨n, done⟩, undone⟩ :=
    binarize_undone crossed
  refine ⟨g', tails, n, ok, ?_, done, undone n done⟩
  have names : g'.names = ["S", "$bin.S.0.1", "$bin.S.0.1'", "$bin.S.0.2", "$bin.S.2.1",
      "$bin.S.2.2"] := by
    have evaluated : crossed.binarize.outcome.toOption.map Grammar.names = some ["S",
        "$bin.S.0.1", "$bin.S.0.1'", "$bin.S.0.2", "$bin.S.2.1", "$bin.S.2.2"] := by
      decide +kernel
    rw [ok] at evaluated
    exact Option.some.inj evaluated
  -- the rules that are kept are as many as there were
  have two : (kept.map Rule.name).length = 2 := (List.length_map _).trans same.length_eq.symm
  have split : g'.names = kept.map Rule.name ++ tails.map Rule.name := by
    rw [names_eq_of_rules_eq rules, List.map_append]
  have behind : g'.names.drop 2 = tails.map Rule.name := by
    rw [split]
    exact List.drop_left' two
  rw [← behind, names]
  rfl

end Grammar

end ChomskyForm
