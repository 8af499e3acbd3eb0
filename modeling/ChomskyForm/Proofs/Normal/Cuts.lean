/-
Cut rules, production by production.

Cutting the rules of a grammar threads the taken names through every rule and
every alternative. Seen from outside it is a table: each production of the
grammar with its cut. `Grammar.trims` is that table, and what is kept and which
tails are cut off are read off from it (`kept_eq_map_trims`,
`tails_eq_flatMap_trims`). What a single cut does to a row of symbols is an
induction along the row, and nothing but the table carries it to the grammar.
-/
import ChomskyForm.Proofs.Normal.FreshNames

set_option autoImplicit false

namespace ChomskyForm

/-- A production and its cut. -/
structure Trim where
  whole : Production
  cut : Cut Production

/-- A rule and the cuts of its alternatives. -/
structure TrimmedRule where
  rule : Rule
  trims : List Trim

namespace Cut

/-! ## 1. The table -/

/-- The table of the alternatives of `origin` from the one at `index` on; each cut
begins with the names that the cuts before it left taken. -/
def trimAlternatives (origin : String) : (index : Nat) → List Production → TakenNames → List Trim
  | _, [], _ => []
  | index, p :: rest, taken =>
    ⟨p, production origin index p taken⟩ ::
      trimAlternatives origin (index + 1) rest (production origin index p taken).taken

/-- The table of rules, which goes through the names in the same way. -/
def trimRules : List Rule → TakenNames → List TrimmedRule
  | [], _ => []
  | rule :: rest, taken =>
    ⟨rule, trimAlternatives rule.name 0 rule.alternatives taken⟩ ::
      trimRules rest (alternatives rule.name 0 rule.alternatives taken).taken

/-- The productions of the table are the alternatives, in order. -/
theorem map_whole_trimAlternatives (origin : String) (index : Nat) (ps : List Production)
    (taken : TakenNames) : (trimAlternatives origin index ps taken).map Trim.whole = ps := by
  induction ps generalizing index taken with
  | nil => rfl
  | cons p rest ih => rw [trimAlternatives, List.map_cons, ih]

/-- What is kept of the alternatives stands in the table. -/
theorem kept_alternatives (origin : String) (index : Nat) (ps : List Production)
    (taken : TakenNames) :
    (alternatives origin index ps taken).kept =
      (trimAlternatives origin index ps taken).map fun t => t.cut.kept := by
  induction ps generalizing index taken with
  | nil => rfl
  | cons p rest ih => rw [trimAlternatives, List.map_cons, ← ih]; rfl

/-- The tails of the alternatives stand in the table, cut by cut. -/
theorem tails_alternatives (origin : String) (index : Nat) (ps : List Production)
    (taken : TakenNames) :
    (alternatives origin index ps taken).tails =
      (trimAlternatives origin index ps taken).flatMap fun t => t.cut.tails := by
  induction ps generalizing index taken with
  | nil => rfl
  | cons p rest ih => rw [trimAlternatives, List.flatMap_cons, ← ih]; rfl

/-- Each cut of the table is that of its production, with some index and some names
taken. -/
theorem exists_eq_production {origin : String} {index : Nat} {ps : List Production}
    {taken : TakenNames} {t : Trim} (h : t ∈ trimAlternatives origin index ps taken) :
    ∃ alternative taken, t.cut = production origin alternative t.whole taken := by
  induction ps generalizing index taken with
  | nil => exact absurd h List.not_mem_nil
  | cons p rest ih =>
    rcases List.mem_cons.1 h with rfl | h
    · exact ⟨index, taken, rfl⟩
    · exact ih h

/-- The rules of the table are the rules, in order. -/
theorem map_rule_trimRules (rs : List Rule) (taken : TakenNames) :
    (trimRules rs taken).map TrimmedRule.rule = rs := by
  induction rs generalizing taken with
  | nil => rfl
  | cons rule rest ih => rw [trimRules, List.map_cons, ih]

/-- What is kept of the rules stands in the table, under their names. -/
theorem kept_rules (rs : List Rule) (taken : TakenNames) :
    (rules rs taken).kept =
      (trimRules rs taken).map fun x => ⟨x.rule.name, x.trims.map fun t => t.cut.kept⟩ := by
  induction rs generalizing taken with
  | nil => rfl
  | cons rule rest ih =>
    rw [trimRules, List.map_cons, ← ih, ← kept_alternatives]
    rfl

/-- The tails of the rules stand in the table, rule by rule. -/
theorem tails_rules (rs : List Rule) (taken : TakenNames) :
    (rules rs taken).tails =
      (trimRules rs taken).flatMap fun x => x.trims.flatMap fun t => t.cut.tails := by
  induction rs generalizing taken with
  | nil => rfl
  | cons rule rest ih =>
    rw [trimRules, List.flatMap_cons, ← ih, ← tails_alternatives]
    rfl

/-- What an entry of the table says of its rule. -/
theorem trims_of_mem_trimRules {rs : List Rule} {taken : TakenNames} {x : TrimmedRule}
    (h : x ∈ trimRules rs taken) :
    x.trims.map Trim.whole = x.rule.alternatives ∧
      ∀ t ∈ x.trims, ∃ alternative taken,
        t.cut = production x.rule.name alternative t.whole taken := by
  induction rs generalizing taken with
  | nil => exact absurd h List.not_mem_nil
  | cons rule rest ih =>
    rcases List.mem_cons.1 h with rfl | h
    · exact ⟨map_whole_trimAlternatives _ _ _ _, fun t ht => exists_eq_production ht⟩
    · exact ih h

/-! ## 2. A single cut -/

/-- A row that has at most two symbols is kept as it is. Of a longer one the
first symbol is kept, beside the name of a tail that holds what the rest of the
row is cut into. -/
inductive Chain : List Symbol → Production → List Rule → Prop
  | short {row : List Symbol} {kept : Production} :
      row.length ≤ 2 → kept.symbols = row → Chain row kept []
  | long {first second third : Symbol} {rest : List Symbol} {name : String} {kept : Production}
      {tails : List Rule} :
      Chain (second :: third :: rest) kept tails →
      Chain (first :: second :: third :: rest) (.pair first (.nonterminal name))
        (⟨name, [kept]⟩ :: tails)

theorem chain_row (origin : String) (alternative position : Nat) (first : Symbol)
    (rest : List Symbol) (taken : TakenNames) :
    Chain (first :: rest) (row origin alternative position first rest taken).kept
      (row origin alternative position first rest taken).tails := by
  -- the step cuts off one symbol, so the induction is on what is behind it
  induction rest generalizing position first taken with
  | nil => exact .short (by simp) rfl
  | cons second rest ih =>
    cases rest with
    | nil => exact .short (by simp) rfl
    | cons third rest =>
      rw [row_long]
      exact .long (ih _ _ _)

/-- Cutting a row makes a chain, and a production is cut as its row. -/
theorem chain_production (origin : String) (alternative : Nat) (p : Production)
    (taken : TakenNames) :
    Chain p.symbols (production origin alternative p taken).kept
      (production origin alternative p taken).tails := by
  obtain ⟨symbols, ne⟩ := p
  cases symbols with
  | nil => exact absurd rfl ne
  | cons first rest => exact chain_row _ _ _ _ _ _

/-- The rows that the tails of a row stand for: what is left of it from the
second symbol on, from the third on, and so on while there are two symbols. -/
def tailRows : List Symbol → List (List Symbol)
  | _ :: second :: third :: rest =>
    (second :: third :: rest) :: tailRows (second :: third :: rest)
  | _ => []

theorem tailRows_of_length_le {row : List Symbol} (h : row.length ≤ 2) : tailRows row = [] := by
  match row, h with
  | [], _ => rfl
  | [_], _ => rfl
  | [_, _], _ => rfl

/-- The rows of the tails are parts of the row. -/
theorem mem_of_mem_tailRows {whole row : List Symbol} {s : Symbol} (hr : row ∈ tailRows whole)
    (hs : s ∈ row) : s ∈ whole := by
  fun_induction tailRows whole with
  | case1 first second third rest ih =>
    apply List.mem_cons_of_mem
    rcases List.mem_cons.1 hr with rfl | hr
    · exact hs
    · exact ih hr
  | case2 => exact absurd hr List.not_mem_nil

/-- There is a tail for every symbol but two. -/
theorem length_tailRows (row : List Symbol) : (tailRows row).length = row.length - 2 := by
  fun_induction tailRows row with
  | case1 first second third rest ih =>
    rw [List.length_cons, ih]
    simp only [List.length_cons]
    omega
  -- the rows that are not cut have no more than two symbols
  | case2 row short =>
    rcases row with _ | ⟨first, _ | ⟨second, _ | ⟨third, rest⟩⟩⟩
    · rfl
    · rfl
    · rfl
    · exact absurd rfl (short first second third rest)

/-- All productions that a row was cut into. -/
def pieces (kept : Production) (tails : List Rule) : List Production :=
  kept :: tails.flatMap Rule.alternatives

namespace Chain

/-- A chain has as many tails as the row has rows of tails. -/
theorem length_tails {row : List Symbol} {kept : Production} {tails : List Rule}
    (h : Chain row kept tails) : tails.length = (tailRows row).length := by
  induction h with
  | short hl _ => rw [tailRows_of_length_le hl]; rfl
  | long _ ih => rw [tailRows, List.length_cons, List.length_cons, ih]

/-- The pieces of a long row are its first pair and the pieces of its tail. -/
theorem pieces_long (first : Symbol) (name : String) (kept : Production) (tails : List Rule) :
    pieces (.pair first (.nonterminal name)) (⟨name, [kept]⟩ :: tails) =
      .pair first (.nonterminal name) :: pieces kept tails := by
  simp [pieces]

/-- The pieces of a row are at most pairs, none is longer than the row, and
their terminals are terminals of the row. -/
theorem of_mem_pieces {row : List Symbol} {kept : Production} {tails : List Rule}
    (h : Chain row kept tails) {p : Production} (hp : p ∈ pieces kept tails) :
    p.length ≤ 2 ∧ p.length ≤ row.length ∧
      ∀ s ∈ p.symbols, s.isTerminal = true → s ∈ row := by
  -- along the chain: the pair in front is new, and the other pieces are those of the tail
  induction h with
  | short hl hk =>
    rw [pieces, List.flatMap_nil, List.mem_singleton] at hp
    subst hp
    rw [Production.length, hk]
    exact ⟨hl, Nat.le_refl _, fun s hs _ => hs⟩
  | long _ ih =>
    rw [pieces_long] at hp
    rcases List.mem_cons.1 hp with rfl | hp
    · refine ⟨Nat.le_refl 2, ?_, ?_⟩
      · simp [Production.length]
      · intro s hs terminal
        rcases List.mem_cons.1 hs with rfl | hs
        · exact List.mem_cons_self
        · -- the other symbol of the pair is the tail's name
          rw [List.mem_singleton.1 hs] at terminal
          cases terminal
    · obtain ⟨two, le, terminals⟩ := ih hp
      refine ⟨two, Nat.le_succ_of_le le, ?_⟩
      intro s hs terminal
      exact List.mem_cons_of_mem _ (terminals s hs terminal)

/-- Cutting neither makes a unit production nor loses one. -/
theorem unitTarget?_kept {row : List Symbol} {kept p : Production} {tails : List Rule}
    (h : Chain row kept tails) (hp : p.symbols = row) : kept.unitTarget? = p.unitTarget? := by
  cases h with
  | short _ hk => rw [Production.ext (hk.trans hp.symm)]
  | long _ =>
    -- a pair and a row of three symbols: neither is a unit production
    unfold Production.unitTarget?
    rw [hp]
    rfl

/-- The tails of a row are no unit productions. -/
theorem unitTarget?_tails {row : List Symbol} {kept : Production} {tails : List Rule}
    (h : Chain row kept tails) {rule : Rule} (hr : rule ∈ tails) :
    rule.alternatives.map Production.unitTarget? = [none] := by
  induction h with
  | short _ _ => exact absurd hr List.not_mem_nil
  | long chain ih =>
    rcases List.mem_cons.1 hr with rfl | hr
    · -- the production of a tail has two symbols
      cases chain with
      | short hl hk => simp [Production.unitTarget?, hk]
      | long _ => rfl
    · exact ih hr

end Chain

end Cut

namespace Grammar

/-! ## 3. The cuts of a grammar -/

/-- The rules of a grammar with the cuts of their alternatives. -/
def trims (g : Grammar) : List TrimmedRule := Cut.trimRules g.rules (TakenNames.ofGrammar g)

/-- The rules of a grammar are those of its table. -/
theorem rules_eq_map_trims (g : Grammar) : g.rules = g.trims.map TrimmedRule.rule :=
  (Cut.map_rule_trimRules _ _).symm

theorem kept_eq_map_trims (g : Grammar) :
    g.cutRules.kept =
      g.trims.map fun x => ⟨x.rule.name, x.trims.map fun t => t.cut.kept⟩ :=
  Cut.kept_rules _ _

/-- The tails that are cut off stand in the table. -/
theorem tails_eq_flatMap_trims (g : Grammar) :
    g.cutRules.tails = g.trims.flatMap fun x => x.trims.flatMap fun t => t.cut.tails :=
  Cut.tails_rules _ _

theorem mem_tails {g : Grammar} {x : TrimmedRule} (hx : x ∈ g.trims) {t : Trim}
    (ht : t ∈ x.trims) {rule : Rule} (h : rule ∈ t.cut.tails) : rule ∈ g.cutRules.tails := by
  rw [tails_eq_flatMap_trims]
  exact List.mem_flatMap.2 ⟨x, hx, List.mem_flatMap.2 ⟨t, ht, h⟩⟩

/-- An entry of the table is about a rule of the grammar. -/
theorem rule_mem_of_mem_trims {g : Grammar} {x : TrimmedRule} (h : x ∈ g.trims) :
    x.rule ∈ g.rules := by
  rw [rules_eq_map_trims]
  exact List.mem_map_of_mem h

/-- Its cuts are those of the alternatives of the rule. -/
theorem map_whole_of_mem_trims {g : Grammar} {x : TrimmedRule} (h : x ∈ g.trims) :
    x.trims.map Trim.whole = x.rule.alternatives :=
  (Cut.trims_of_mem_trimRules h).1

/-- Each cut in an entry of the table is a chain. -/
theorem chain_of_mem_trims {g : Grammar} {x : TrimmedRule} (h : x ∈ g.trims) {t : Trim}
    (ht : t ∈ x.trims) : Cut.Chain t.whole.symbols t.cut.kept t.cut.tails := by
  obtain ⟨alternative, taken, e⟩ := (Cut.trims_of_mem_trimRules h).2 t ht
  rw [e]
  exact Cut.chain_production _ _ _ _

/-- What was cut is an alternative of the rule. -/
theorem whole_mem_of_mem_trims {g : Grammar} {x : TrimmedRule} (h : x ∈ g.trims) {t : Trim}
    (ht : t ∈ x.trims) : t.whole ∈ x.rule.alternatives := by
  rw [← map_whole_of_mem_trims h]
  exact List.mem_map_of_mem ht

/-- What was cut is a production of the name of the rule. -/
theorem whole_mem_productionsOf {g : Grammar} {x : TrimmedRule} (h : x ∈ g.trims) {t : Trim}
    (ht : t ∈ x.trims) : t.whole ∈ g.productionsOf x.rule.name :=
  g.mem_productionsOf_of_mem (rule_mem_of_mem_trims h) (whole_mem_of_mem_trims h ht)

/-- Every production of a grammar has its cut. -/
theorem exists_trim_of_mem_productionsOf {g : Grammar} {name : String} {p : Production}
    (h : p ∈ g.productionsOf name) :
    ∃ x ∈ g.trims, x.rule.name = name ∧ ∃ t ∈ x.trims, t.whole = p := by
  obtain ⟨rule, hr, rfl, hp⟩ := (g.mem_productionsOf_iff name p).1 h
  rw [rules_eq_map_trims] at hr
  obtain ⟨x, hx, rfl⟩ := List.mem_map.1 hr
  rw [← map_whole_of_mem_trims hx] at hp
  exact ⟨x, hx, rfl, List.mem_map.1 hp⟩

/-- The names of the tails of a grammar are one stretch of claims. -/
theorem claims_tails (g : Grammar) :
    (TakenNames.ofGrammar g).Claims (g.cutRules.tails.map Rule.name) g.cutRules.taken :=
  Cut.claims_rules _ _

end Grammar

end ChomskyForm
