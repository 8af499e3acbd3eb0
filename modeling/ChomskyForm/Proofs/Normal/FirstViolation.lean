/-
The first violation of the normal form.

The check looks at one production after the other and stops at the first one that
is not in normal form. Its branches rely on their order: a single symbol is told
from a pair, and a pair from a longer row, before the terminals of a pair are looked
at. There are no other shapes, and no two of them overlap
(`Production.not_isNormal_iff`). So what is reported says exactly what is wrong with
the production (`Violation.Describes`), and nothing is reported where nothing is.
-/
import ChomskyForm.Proofs.Normal.Reconversion

set_option autoImplicit false

namespace ChomskyForm

/-! ## 1. What is wrong with a production -/

/-- A violation describes a production of a nonterminal. It is of the one kind that
the shape of the production calls for, and names the nonterminal. A unit production
is reported with its target and another production as it is; if it is too long the
message tells its length. -/
structure Violation.Describes (v : Violation) (nonterminal : String) (p : Production) : Prop where
  unit : ∀ name target, v = .unitProduction name target ↔
    name = nonterminal ∧ p = .unit (.nonterminal target)
  pair : ∀ name q, v = .terminalInPair name q ↔
    (name = nonterminal ∧ q = p) ∧ p.length = 2 ∧ ∃ text, .terminal text ∈ p.symbols
  long : ∀ name q, v = .tooLong name q ↔ (name = nonterminal ∧ q = p) ∧ 2 < p.length
  words : 2 < p.length → v.message =
    "<" ++ nonterminal ++ "> has a production of length " ++ toString p.length ++ ": " ++ p.text

namespace Production

variable {p : Production}

/-- **The shapes that break the normal form**: a single nonterminal, a pair with a
terminal in either place, and a row of more than two symbols. -/
theorem not_isNormal_iff : ¬ p.IsNormal ↔
    (∃ target, p = unit (.nonterminal target)) ∨
      (p.length = 2 ∧ ∃ text, .terminal text ∈ p.symbols) ∨ 2 < p.length := by
  constructor
  · intro broken
    by_contra other
    rw [not_or, not_or] at other
    obtain ⟨notUnit, notMixed, notLong⟩ := other
    -- what is none of the three has the shapes that make up the normal form
    refine broken (isNormal_of_shapes ?_ (Nat.le_of_not_lt notLong) ?_)
    · by_contra some
      obtain ⟨target, ht⟩ := Option.ne_none_iff_exists'.1 some
      exact notUnit ⟨target, (unitTarget?_eq_some_iff p target).1 ht⟩
    · intro more s hs
      cases s with
      | nonterminal name => rfl
      | terminal text => exact absurd ⟨by omega, text, hs⟩ notMixed
  · intro shape normal
    obtain ⟨resolved, short, separated⟩ := normal.shapes
    rcases shape with ⟨target, rfl⟩ | ⟨two, text, mixed⟩ | long
    · cases resolved
    · cases separated (by omega) _ mixed
    · omega

/-- A row of two symbols or more is not a single symbol. -/
theorem ne_unit (more : 2 ≤ p.length) (s : Symbol) : p ≠ unit s := by
  rintro rfl
  exact Nat.not_succ_le_self 1 more

/-- Neither branch for a single symbol takes a longer row, so what is said of one
depends on its length and on its terminals. -/
theorem violation?_of_two_le (nonterminal : String) (more : 2 ≤ p.length) :
    p.violation? nonterminal =
      if p.length = 2 then
        if p.symbols.any Symbol.isTerminal then some (.terminalInPair nonterminal p) else none
      else some (.tooLong nonterminal p) := by
  have terminal : ¬ p.isTerminalUnit = true := by
    rw [isTerminalUnit_iff]
    rintro ⟨text, single⟩
    exact ne_unit more _ single
  have resolved : p.unitTarget? = none := by
    rw [Option.eq_none_iff_forall_ne_some]
    intro target single
    exact ne_unit more _ ((unitTarget?_eq_some_iff p target).1 single)
  unfold violation?
  rw [if_neg terminal, resolved]

/-- A terminal in either place of a pair is reported. -/
theorem violation?_of_pair (nonterminal : String) (two : p.length = 2) {text : String}
    (mixed : .terminal text ∈ p.symbols) :
    p.violation? nonterminal = some (.terminalInPair nonterminal p) := by
  have terminal : p.symbols.any Symbol.isTerminal = true :=
    List.any_eq_true.2 ⟨_, mixed, rfl⟩
  rw [violation?_of_two_le nonterminal (Nat.le_of_eq two.symm), if_pos two, if_pos terminal]

/-- Of a long row the length is reported, whatever its symbols are. -/
theorem violation?_of_long (nonterminal : String) (long : 2 < p.length) :
    p.violation? nonterminal = some (.tooLong nonterminal p) := by
  rw [violation?_of_two_le nonterminal (Nat.le_of_lt long), if_neg (Nat.ne_of_gt long)]

end Production

namespace Violation

open Production

variable {p : Production} (nonterminal : String)

/-- A report of a unit production describes the production, which has no other fault. -/
theorem describes_unit (target : String) :
    (unitProduction nonterminal target).Describes nonterminal (.unit (.nonterminal target)) where
  unit name other := by
    constructor
    · rintro ⟨⟩
      exact ⟨rfl, rfl⟩
    · rintro ⟨rfl, ⟨⟩⟩
      rfl
  pair name q := by
    constructor
    · rintro ⟨⟩
    · rintro ⟨-, ⟨⟩, -⟩
  long name q := by
    constructor
    · rintro ⟨⟩
    · rintro ⟨-, long⟩
      exact absurd rfl (ne_unit (Nat.le_of_lt long) _)
  words long := absurd rfl (ne_unit (Nat.le_of_lt long) _)

/-- A report of a terminal in a pair describes the pair. -/
theorem describes_pair (two : p.length = 2) {text : String} (mixed : .terminal text ∈ p.symbols) :
    (terminalInPair nonterminal p).Describes nonterminal p where
  unit name target := by
    constructor
    · rintro ⟨⟩
    · rintro ⟨-, single⟩
      exact absurd single (ne_unit (Nat.le_of_eq two.symm) _)
  pair name q := by
    constructor
    · rintro ⟨⟩
      exact ⟨⟨rfl, rfl⟩, two, text, mixed⟩
    · rintro ⟨⟨rfl, rfl⟩, -⟩
      rfl
  long name q := by
    constructor
    · rintro ⟨⟩
    · rintro ⟨-, long⟩
      omega
  words long := by omega

/-- A report of a long production describes it, and its message tells the length. -/
theorem describes_long (long : 2 < p.length) :
    (tooLong nonterminal p).Describes nonterminal p where
  unit name target := by
    constructor
    · rintro ⟨⟩
    · rintro ⟨-, single⟩
      exact absurd single (ne_unit (Nat.le_of_lt long) _)
  pair name q := by
    constructor
    · rintro ⟨⟩
    · rintro ⟨-, two, -⟩
      omega
  long name q := by
    constructor
    · rintro ⟨⟩
      exact ⟨⟨rfl, rfl⟩, long⟩
    · rintro ⟨⟨rfl, rfl⟩, -⟩
      rfl
  words _ := rfl

end Violation

/-- **What is reported of a production** describes it, and whatever describes it is
reported. -/
theorem Production.violation?_eq_some_iff (p : Production) (nonterminal : String) (v : Violation) :
    p.violation? nonterminal = some v ↔ v.Describes nonterminal p := by
  constructor
  · intro reported
    have broken : ¬ p.IsNormal := by
      rw [← violation?_eq_none_iff nonterminal, reported]
      exact Option.some_ne_none v
    rcases not_isNormal_iff.1 broken with ⟨target, rfl⟩ | ⟨two, text, mixed⟩ | long
    · cases reported
      exact Violation.describes_unit nonterminal target
    · rw [violation?_of_pair nonterminal two mixed] at reported
      cases reported
      exact Violation.describes_pair nonterminal two mixed
    · rw [violation?_of_long nonterminal long] at reported
      cases reported
      exact Violation.describes_long nonterminal long
  · intro describes
    cases v with
    | unitProduction name target =>
      obtain ⟨rfl, rfl⟩ := (describes.unit name target).1 rfl
      rfl
    | terminalInPair name q =>
      obtain ⟨⟨rfl, rfl⟩, two, text, mixed⟩ := (describes.pair name q).1 rfl
      exact violation?_of_pair name two mixed
    | tooLong name q =>
      obtain ⟨⟨rfl, rfl⟩, long⟩ := (describes.long name q).1 rfl
      exact violation?_of_long name long

/-! ## 2. The first one in a grammar -/

namespace Grammar

variable (g : Grammar)

/-- A production of a rule is the first one that is not in normal form: those of the
rules before it are, and so are those ahead of it in its rule. -/
structure FirstOffence (rule : Rule) (p : Production) : Prop where
  rule_first : ∃ before behind, g.rules = before ++ rule :: behind ∧
    ∀ other ∈ before, ∀ q ∈ other.alternatives, q.IsNormal
  alternative_first : ∃ before behind, rule.alternatives = before ++ p :: behind ∧
    ∀ q ∈ before, q.IsNormal
  offends : ¬ p.IsNormal

/-- **The check is sound and complete, and exact in what it reports.** It passes just
the grammars whose productions are all one terminal or two nonterminals. Of another
one it reports the first production, by rule and alternative, that is neither: as a
unit production, with its target, if it is a single nonterminal, as a terminal in a
pair if it has two symbols and one of them is a terminal, and as too long, with its
length, if it has more than two. -/
theorem check_reports_first_violation (g : Grammar) :
    (g.violation? = none ↔ ∀ rule ∈ g.rules, ∀ p ∈ rule.alternatives, p.IsNormal) ∧
    ∀ v, g.violation? = some v ↔
      ∃ rule p, g.FirstOffence rule p ∧ v.Describes rule.name p := by
  refine ⟨g.violation?_eq_none_iff, fun v => ?_⟩
  -- the outer loop stops at a rule, and the inner one at a production of that rule
  unfold violation?
  rw [List.findSome?_eq_some_iff]
  constructor
  · rintro ⟨before, rule, behind, rules, reported, passed⟩
    obtain ⟨ahead, p, others, alternatives, found, normal⟩ := List.findSome?_eq_some_iff.1 reported
    refine ⟨rule, p, ⟨⟨before, behind, rules, fun other ho => ?_⟩,
      ⟨ahead, others, alternatives, fun q hq => ?_⟩, ?_⟩, ?_⟩
    · exact (findSome?_violation?_eq_none_iff other).1 (passed other ho)
    · exact (q.violation?_eq_none_iff rule.name).1 (normal q hq)
    · rw [← p.violation?_eq_none_iff rule.name, found]
      exact Option.some_ne_none v
    · exact (p.violation?_eq_some_iff rule.name v).1 found
  · rintro ⟨rule, p, ⟨⟨before, behind, rules, passed⟩,
      ⟨ahead, others, alternatives, normal⟩, -⟩, describes⟩
    refine ⟨before, rule, behind, rules, List.findSome?_eq_some_iff.2
      ⟨ahead, p, others, alternatives, ?_, fun q hq => ?_⟩, fun other ho => ?_⟩
    · exact (p.violation?_eq_some_iff rule.name v).2 describes
    · exact (q.violation?_eq_none_iff rule.name).2 (normal q hq)
    · exact (findSome?_violation?_eq_none_iff other).2 (passed other ho)

/-- A rule without alternatives, and behind it a rule that breaks the normal form
twice, after a production that is in it. -/
def crooked : Grammar :=
  ⟨RuleTable.ofList
    [⟨"S", []⟩,
     ⟨"A", [.unit (.terminal "a"), .pair (.nonterminal "Gone") (.terminal "b"),
       .unit (.nonterminal "S")]⟩], none⟩

example : crooked.violation? =
    some (.terminalInPair "A" (.pair (.nonterminal "Gone") (.terminal "b"))) := by
  decide +kernel

end Grammar

end ChomskyForm
