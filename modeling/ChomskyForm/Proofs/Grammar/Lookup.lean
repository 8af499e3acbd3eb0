/-
Looking rules up.

A table is searched from the front, but no name occurs in it twice, so what is
found does not depend on the order: a production belongs to a nonterminal
exactly if some rule of that name lists it. That form, `mem_productionsOf_iff`,
is the one that everything about grammars with added or rewritten rules uses.
-/
import ChomskyForm.Grammar.Basic

set_option autoImplicit false

namespace ChomskyForm

/-- Nothing is left twice where repetitions are erased. -/
theorem nodup_eraseDups {α : Type} [BEq α] [LawfulBEq α] (xs : List α) : xs.eraseDups.Nodup := by
  induction h : xs.length using Nat.strongRecOn generalizing xs with
  | _ n ih =>
    cases xs with
    | nil => exact List.nodup_nil
    | cons x rest =>
      -- the tail is searched without the copies of the first element
      have shorter : (rest.filter fun y => !y == x).length < n := by
        rw [← h, List.length_cons]
        exact Nat.lt_succ_of_le (List.length_filter_le _ _)
      rw [List.eraseDups_cons, List.nodup_cons]
      refine ⟨?_, ih _ shorter _ rfl⟩
      rw [List.mem_eraseDups, List.mem_filter]
      simp

/-- Where nothing is repeated nothing is erased. -/
theorem eraseDups_of_nodup {α : Type} [BEq α] [LawfulBEq α] {xs : List α} (h : xs.Nodup) :
    xs.eraseDups = xs := by
  induction xs with
  | nil => rfl
  | cons x rest ih =>
    rw [List.nodup_cons] at h
    -- the first element has no copy that could be dropped from the rest
    have others : (rest.filter fun y => !y == x) = rest := by
      rw [List.filter_eq_self]
      intro y hy
      have other : y ≠ x := by
        rintro rfl
        exact h.1 hy
      simpa using other
    rw [List.eraseDups_cons, others, ih h.2]

namespace RuleTable

/-! ## Finding a rule by its name -/

/-- A search by name finds the rule that is listed under the name, as there is only one. -/
theorem find?_eq_some_of_mem {rules : List Rule} (nodup : (rules.map Rule.name).Nodup)
    {rule : Rule} (h : rule ∈ rules) :
    (rules.find? fun other => other.name == rule.name) = some rule := by
  induction rules with
  | nil => simp at h
  | cons first rest ih =>
    rw [List.map_cons, List.nodup_cons] at nodup
    rcases List.mem_cons.1 h with rfl | hr
    · rw [List.find?_cons_of_pos (by simp)]
    · -- no rule further on has the name of the first
      have other : first.name ≠ rule.name := by
        intro e
        exact nodup.1 (e ▸ List.mem_map_of_mem hr)
      rw [List.find?_cons_of_neg (by simpa using other)]
      exact ih nodup.2 hr

/-! ## What the updates do to the rules -/

/-- A name that is not declared is declared behind all others. -/
theorem alter_of_notMem (name : String) (change : Option (List Production) → List Production)
    {rules : List Rule} (h : name ∉ rules.map Rule.name) :
    Rule.alter name change rules = rules ++ [⟨name, change none⟩] := by
  induction rules with
  | nil => rfl
  | cons first rest ih =>
    rw [List.map_cons, List.mem_cons, not_or] at h
    rw [Rule.alter, if_neg (fun e => h.1 e.symm), ih h.2, List.cons_append]

/-- A declared name keeps its place, and no other rule changes. -/
theorem alter_of_mem (name : String) (change : Option (List Production) → List Production)
    {rules : List Rule} (nodup : (rules.map Rule.name).Nodup)
    (h : name ∈ rules.map Rule.name) :
    Rule.alter name change rules = rules.map fun rule =>
      if rule.name = name then ⟨name, change (some rule.alternatives)⟩ else rule := by
  induction rules with
  | nil => exact absurd h List.not_mem_nil
  | cons first rest ih =>
    rw [List.map_cons, List.nodup_cons] at nodup
    rw [Rule.alter, List.map_cons]
    by_cases e : first.name = name
    · rw [if_pos e, if_pos e]
      congr 1
      -- the rules behind have other names
      refine (List.map_id rest).symm.trans (List.map_congr_left fun rule hr => ?_)
      rw [if_neg]
      · rfl
      · intro e'
        exact nodup.1 (List.mem_map.2 ⟨rule, hr, e'.trans e.symm⟩)
    · rw [if_neg e, if_neg e, ih nodup.2]
      exact (List.mem_cons.1 h).resolve_left fun e' => e e'.symm

/-- A new name gets its rule behind all others. -/
theorem rules_extend_of_notMem (table : RuleTable) {name : String}
    (alternatives : List Production) (h : name ∉ table.names) :
    (table.extend name alternatives).rules = table.rules ++ [⟨name, alternatives⟩] := by
  show Rule.alter name _ table.rules = _
  rw [alter_of_notMem name _ h]
  rfl

/-- A new name gets its rule ahead of all others. -/
theorem rules_prepend_of_notMem (table : RuleTable) {name : String}
    (alternatives : List Production) (h : name ∉ table.names) :
    (table.prepend name alternatives).rules = ⟨name, alternatives⟩ :: table.rules := by
  show _ :: table.rules.filter _ = _
  congr 1
  -- nothing is filtered out where the name is new
  rw [List.filter_eq_self]
  intro rule hr
  have other : rule.name ≠ name := by
    rintro rfl
    exact h (List.mem_map_of_mem hr)
  simpa using other

end RuleTable

namespace Grammar

variable (g : Grammar)

/-- A grammar is its rules and its start setting: that the names are distinct is a
proof. -/
@[ext] theorem ext {g h : Grammar} (rules : g.rules = h.rules)
    (start : g.explicitStart = h.explicitStart) : g = h := by
  obtain ⟨⟨_, _⟩, _⟩ := g
  obtain ⟨⟨_, _⟩, _⟩ := h
  cases rules
  cases start
  rfl

/-! ## Productions -/

/-- A name is declared by some rule. -/
theorem mem_names_iff (name : String) :
    name ∈ g.names ↔ ∃ rule ∈ g.rules, rule.name = name :=
  List.mem_map

theorem name_mem_names {rule : Rule} (h : rule ∈ g.rules) : rule.name ∈ g.names :=
  (g.mem_names_iff _).2 ⟨rule, h, rfl⟩

/-- A declared name has the alternatives of its rule. -/
theorem productions?_of_mem {rule : Rule} (h : rule ∈ g.rules) :
    g.productions? rule.name = some rule.alternatives := by
  unfold productions? RuleTable.find?
  rw [RuleTable.find?_eq_some_of_mem g.table.nodup h]
  rfl

/-- The productions of a declared name are the alternatives of its rule. -/
theorem productionsOf_of_mem {rule : Rule} (h : rule ∈ g.rules) :
    g.productionsOf rule.name = rule.alternatives := by
  rw [productionsOf, g.productions?_of_mem h, Option.getD_some]

theorem productions?_of_notMem {name : String} (h : name ∉ g.names) :
    g.productions? name = none := by
  unfold productions? RuleTable.find?
  rw [List.find?_eq_none.2]
  · rfl
  · intro rule hr e
    exact h ((g.mem_names_iff name).2 ⟨rule, hr, by simpa using e⟩)

/-- A name that no rule declares has no productions. -/
theorem productionsOf_of_notMem {name : String} (h : name ∉ g.names) :
    g.productionsOf name = [] := by
  rw [productionsOf, g.productions?_of_notMem h, Option.getD_none]

/-- A rule is listed exactly if looking its name up finds its alternatives. -/
theorem mem_rules_iff (rule : Rule) :
    rule ∈ g.rules ↔ g.productions? rule.name = some rule.alternatives := by
  constructor
  · exact g.productions?_of_mem
  · intro found
    by_cases declared : rule.name ∈ g.names
    · obtain ⟨listed, hl, same⟩ := (g.mem_names_iff _).1 declared
      -- the rule that is listed under the name has the name and the alternatives
      rw [← same, g.productions?_of_mem hl, Option.some.injEq] at found
      obtain ⟨name, alternatives⟩ := rule
      cases same
      cases found
      exact hl
    · rw [g.productions?_of_notMem declared] at found
      cases found

/-- An alternative of a rule is a production of the name of the rule. -/
theorem mem_productionsOf_of_mem {rule : Rule} (hr : rule ∈ g.rules) {p : Production}
    (hp : p ∈ rule.alternatives) : p ∈ g.productionsOf rule.name := by
  rwa [g.productionsOf_of_mem hr]

/-- The productions of a nonterminal are those that a rule of its name lists. -/
theorem mem_productionsOf_iff (name : String) (p : Production) :
    p ∈ g.productionsOf name ↔ ∃ rule ∈ g.rules, rule.name = name ∧ p ∈ rule.alternatives := by
  constructor
  · intro h
    by_cases declared : name ∈ g.names
    · obtain ⟨rule, hr, rfl⟩ := (g.mem_names_iff name).1 declared
      rw [g.productionsOf_of_mem hr] at h
      exact ⟨rule, hr, rfl, h⟩
    · rw [g.productionsOf_of_notMem declared] at h
      simp at h
  · rintro ⟨rule, hr, rfl, hp⟩
    exact g.mem_productionsOf_of_mem hr hp

/-- Only declared names have productions. -/
theorem mem_names_of_mem_productionsOf {name : String} {p : Production}
    (h : p ∈ g.productionsOf name) : name ∈ g.names := by
  obtain ⟨rule, hr, rfl, -⟩ := (g.mem_productionsOf_iff name p).1 h
  exact g.name_mem_names hr

/-- Without a start setting the first declared nonterminal starts the grammar. -/
theorem start?_eq_head? {g : Grammar} (h : g.explicitStart = none) :
    g.start? = g.names.head? := by
  unfold start?
  rw [h]

/-- A start setting goes ahead of the order of the rules. -/
theorem start?_eq_some {g : Grammar} {start : String} (h : g.explicitStart = some start) :
    g.start? = some start := by
  unfold start?
  rw [h]

end Grammar

end ChomskyForm
