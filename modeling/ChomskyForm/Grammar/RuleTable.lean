/-
Rule tables: names with their alternatives, in the order of declaration.

A table is an association list in which no name occurs twice. All updates go
through one function, `Rule.alter`, which changes the rule of a name at its
place or adds the rule at the end if the name is new. What it does to the names
is said once (`Rule.map_name_alter`), and from that every update keeps the
table free of repeated names.
-/
import ChomskyForm.Grammar.Production

set_option autoImplicit false

namespace ChomskyForm

/-- A name with its alternatives, in order. -/
structure Rule where
  name : String
  alternatives : List Production
deriving DecidableEq

namespace Rule

/-- The line that shows a rule: its name in brackets, an arrow, and the
alternatives separated by bars. -/
def text (rule : Rule) : String :=
  "<" ++ rule.name ++ "> -> " ++ " | ".intercalate (rule.alternatives.map Production.text) ++ "\n"

/-- Gives the rule of `name` new alternatives, computed from its present ones.
A rule that is not there yet is added at the end. -/
def alter (name : String) (change : Option (List Production) → List Production) :
    List Rule → List Rule
  | [] => [⟨name, change none⟩]
  | rule :: rest =>
    if rule.name = name then ⟨name, change (some rule.alternatives)⟩ :: rest
    else rule :: alter name change rest

/-- An update leaves the names as they are, or adds the one name at the end. -/
theorem map_name_alter (name : String) (change : Option (List Production) → List Production)
    (rules : List Rule) :
    (alter name change rules).map Rule.name =
      if name ∈ rules.map Rule.name then rules.map Rule.name
      else rules.map Rule.name ++ [name] := by
  induction rules with
  | nil => simp [alter]
  | cons rule rest ih =>
    by_cases h : rule.name = name
    · simp [alter, h]
    · have h' : ¬ name = rule.name := fun e => h e.symm
      -- the rule at the front has another name, so the update goes on behind it
      by_cases hm : name ∈ rest.map Rule.name
      · simp only [alter, h, if_false, List.map_cons, ih, hm, if_true, List.mem_cons, or_true]
      · simp only [alter, h, if_false, List.map_cons, ih, hm, List.mem_cons, h', or_self,
          List.cons_append]

/-- An update repeats no name. -/
theorem nodup_alter (name : String) (change : Option (List Production) → List Production)
    {rules : List Rule} (h : (rules.map Rule.name).Nodup) :
    ((alter name change rules).map Rule.name).Nodup := by
  rw [map_name_alter]
  split
  · exact h
  · -- a name that is not there yet may go to the end
    rename_i hm
    rw [List.nodup_append]
    refine ⟨h, by simp, ?_⟩
    intro a ha b hb
    have : b = name := by simpa using hb
    subst this
    rintro rfl
    exact hm ha

end Rule

/-- Rules in the order of declaration, one for each declared name. -/
structure RuleTable where
  rules : List Rule
  nodup : (rules.map Rule.name).Nodup
deriving DecidableEq

namespace RuleTable

/-- The table without rules. -/
def empty : RuleTable := ⟨[], by simp⟩

/-- The declared names in order. -/
def names (table : RuleTable) : List String := table.rules.map Rule.name

/-- The number of declared names. -/
def size (table : RuleTable) : Nat := table.rules.length

/-- The alternatives of a name, if it is declared. -/
def find? (table : RuleTable) (name : String) : Option (List Production) :=
  (table.rules.find? fun rule => rule.name == name).map Rule.alternatives

/-- Whether a name is declared. -/
def contains (table : RuleTable) (name : String) : Bool := table.names.contains name

/-- The number of alternatives of all rules together. -/
def productionCount (table : RuleTable) : Nat :=
  table.rules.foldr (fun rule rest => rule.alternatives.length + rest) 0

/-- All rules, a line each. -/
def text (table : RuleTable) : String := String.join (table.rules.map Rule.text)

/-! ## Updates -/

/-- Gives a name these alternatives. A declared name keeps its place and loses
what it had. -/
def insert (table : RuleTable) (name : String) (alternatives : List Production) : RuleTable :=
  ⟨Rule.alter name (fun _ => alternatives) table.rules, Rule.nodup_alter _ _ table.nodup⟩

/-- Adds alternatives behind those that a name has, and declares the name at
the end if it is new. -/
def extend (table : RuleTable) (name : String) (alternatives : List Production) : RuleTable :=
  ⟨Rule.alter name (fun old => old.getD [] ++ alternatives) table.rules,
    Rule.nodup_alter _ _ table.nodup⟩

/-- Declares a name ahead of all others. If the name was declared already, its
earlier rule goes. -/
def prepend (table : RuleTable) (name : String) (alternatives : List Production) : RuleTable :=
  ⟨⟨name, alternatives⟩ :: table.rules.filter (fun rule => rule.name != name), by
    rw [List.map_cons, List.nodup_cons]
    constructor
    · simp
    · exact (List.filter_sublist.map Rule.name).nodup table.nodup⟩

/-- Rewrites the alternatives of every rule; names and order stay. -/
def mapRules (change : String → List Production → List Production) (table : RuleTable) :
    RuleTable :=
  ⟨table.rules.map fun rule => ⟨rule.name, change rule.name rule.alternatives⟩, by
    simpa [List.map_map, Function.comp_def] using table.nodup⟩

/-- The table of a list of rules, inserted one after the other. -/
def ofList (rules : List Rule) : RuleTable :=
  rules.foldl (fun table rule => table.insert rule.name rule.alternatives) empty

/-- Whether two tables declare the same names with the same alternatives, in
whatever order the names come. -/
def sameRules (a b : RuleTable) : Bool :=
  a.size == b.size && a.rules.all fun rule => b.find? rule.name == some rule.alternatives

/-! ## What the updates do to the names -/

theorem names_nodup (table : RuleTable) : table.names.Nodup := table.nodup

@[simp] theorem names_empty : empty.names = [] := rfl

@[simp] theorem contains_iff (table : RuleTable) (name : String) :
    table.contains name = true ↔ name ∈ table.names := by
  simp [contains]

@[simp] theorem length_names (table : RuleTable) : table.names.length = table.size := by
  simp [names, size]

/-- Inserting keeps the names in place; a new one goes to the end. -/
theorem names_insert (table : RuleTable) (name : String) (alternatives : List Production) :
    (table.insert name alternatives).names =
      if name ∈ table.names then table.names else table.names ++ [name] :=
  Rule.map_name_alter _ _ _

/-- Extending moves the names no differently from inserting. -/
theorem names_extend (table : RuleTable) (name : String) (alternatives : List Production) :
    (table.extend name alternatives).names =
      if name ∈ table.names then table.names else table.names ++ [name] :=
  Rule.map_name_alter _ _ _

/-- Rewriting alternatives leaves the names alone. -/
@[simp] theorem names_mapRules (change : String → List Production → List Production)
    (table : RuleTable) : (table.mapRules change).names = table.names := by
  simp [names, mapRules, List.map_map, Function.comp_def]

/-- A name that is put ahead of the others loses the place it may have had. -/
theorem names_prepend (table : RuleTable) (name : String) (alternatives : List Production) :
    (table.prepend name alternatives).names =
      name :: table.names.filter (fun other => other != name) := by
  simp [names, prepend, List.filter_map, Function.comp_def]

end RuleTable

end ChomskyForm
