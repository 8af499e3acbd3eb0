/-
Claimed names are new.

A stage claims its names one after the other, in whatever nesting of rules,
alternatives and positions it goes through. `TakenNames.Claims` says of such a
stretch of claims what is needed of it: the names are added to the taken ones
in order, no two of them agree, and none was taken before. Stretches compose
(`Claims.append`), so each traversal needs one case for each of its equations.
-/
import ChomskyForm.Normal.StandIn
import ChomskyForm.Normal.Tail
import ChomskyForm.Proofs.Grammar.Lookup

set_option autoImplicit false

namespace ChomskyForm

/-! ## 1. The names of a grammar -/

namespace Grammar

/-- A name is referred to where its nonterminal stands in some alternative. -/
theorem mem_referencedNames_iff (g : Grammar) (name : String) :
    name ∈ g.referencedNames ↔
      ∃ rule ∈ g.rules, ∃ p ∈ rule.alternatives, .nonterminal name ∈ p.symbols := by
  unfold referencedNames
  rw [List.mem_flatMap]
  refine exists_congr fun rule => and_congr_right fun _ => ?_
  rw [List.mem_flatMap]
  refine exists_congr fun p => and_congr_right fun _ => ?_
  rw [List.mem_filterMap]
  constructor
  · rintro ⟨s, hs, hn⟩
    rwa [← (Symbol.name?_eq_some_iff s name).1 hn]
  · intro h
    exact ⟨_, h, rfl⟩

theorem mem_taken_of_mem_names {g : Grammar} {name : String} (h : name ∈ g.names) :
    name ∈ (TakenNames.ofGrammar g).names :=
  List.mem_append_left _ (List.mem_append_left _ h)

/-- The names that an alternative refers to are taken, declared or not. -/
theorem mem_taken_of_mem_symbols {g : Grammar} {rule : Rule} {p : Production} {name : String}
    (hr : rule ∈ g.rules) (hp : p ∈ rule.alternatives) (h : .nonterminal name ∈ p.symbols) :
    name ∈ (TakenNames.ofGrammar g).names := by
  apply List.mem_append_left
  apply List.mem_append_right
  exact (g.mem_referencedNames_iff name).2 ⟨rule, hr, p, hp, h⟩

theorem mem_taken_of_mem_productionsOf {g : Grammar} {origin name : String} {p : Production}
    (hp : p ∈ g.productionsOf origin) (h : .nonterminal name ∈ p.symbols) :
    name ∈ (TakenNames.ofGrammar g).names := by
  obtain ⟨rule, hr, -, hp⟩ := (g.mem_productionsOf_iff origin p).1 hp
  exact mem_taken_of_mem_symbols hr hp h

/-- The name of the start symbol is taken, even if nothing else mentions it. -/
theorem mem_taken_of_start? {g : Grammar} {name : String} (h : g.start? = some name) :
    name ∈ (TakenNames.ofGrammar g).names := by
  apply List.mem_append_right
  rw [h]
  exact List.mem_singleton.2 rfl

end Grammar

/-! ## 2. Stretches of claims -/

namespace TakenNames

/-- The names `names` were claimed, in this order, when the names of `before`
were taken; `after` holds the names taken then. -/
structure Claims (before : TakenNames) (names : List String) (after : TakenNames) : Prop where
  taken : after.names = names.reverse ++ before.names
  nodup : names.Nodup
  fresh : ∀ name ∈ names, name ∉ before.names

namespace Claims

/-- Where no name is claimed nothing changes. -/
theorem nil (taken : TakenNames) : Claims taken [] taken :=
  ⟨rfl, List.nodup_nil, fun _ h => absurd h List.not_mem_nil⟩

/-- A stretch of claims may be followed by another. -/
theorem append {a b c : TakenNames} {names names' : List String} (h : Claims a names b)
    (h' : Claims b names' c) : Claims a (names ++ names') c := by
  refine ⟨?_, ?_, ?_⟩
  · rw [h'.taken, h.taken, List.reverse_append, List.append_assoc]
  · rw [List.nodup_append]
    refine ⟨h.nodup, h'.nodup, ?_⟩
    -- a name of the first stretch is taken before the second begins
    rintro name hn _ hn' rfl
    apply h'.fresh name hn'
    rw [h.taken]
    exact List.mem_append_left _ (List.mem_reverse.2 hn)
  · intro name hn
    rcases List.mem_append.1 hn with hn | hn
    · exact h.fresh name hn
    · intro old
      apply h'.fresh name hn
      rw [h.taken]
      exact List.mem_append_right _ old

/-- A single claim takes the name that it answers. -/
theorem claim (taken : TakenNames) (wanted : String) :
    Claims taken [(taken.claim wanted).1] (taken.claim wanted).2 := by
  refine ⟨rfl, List.pairwise_singleton _ _, ?_⟩
  intro name hn
  rw [List.mem_singleton.1 hn]
  exact taken.free_not_mem wanted

end Claims

/-- A row of claims is a stretch. -/
theorem claims_claimAll (taken : TakenNames) (wanted : List String) :
    Claims taken (taken.claimAll wanted).1 (taken.claimAll wanted).2 := by
  induction wanted generalizing taken with
  | nil => exact Claims.nil taken
  | cons first rest ih => exact (Claims.claim taken first).append (ih _)

end TakenNames

/-! ## 3. The names of stand-ins -/

namespace StandIn

/-- The stand-ins are the terminals, each with the name that was claimed for it. -/
theorem claimAll_eq_map_zip (taken : TakenNames) (terminals : List String) :
    claimAll taken terminals =
      (terminals.zip (taken.claimAll (terminals.map WantedName.standIn)).1).map
        fun pair => ⟨pair.1, pair.2⟩ := by
  rw [claimAll, List.map_zip_eq_zipWith]
  rfl

/-- The names of the stand-ins are the names claimed for the terminals. -/
theorem map_name_claimAll (taken : TakenNames) (terminals : List String) :
    (claimAll taken terminals).map StandIn.name =
      (taken.claimAll (terminals.map WantedName.standIn)).1 := by
  rw [claimAll_eq_map_zip, List.map_map]
  apply List.map_snd_zip
  exact Nat.le_of_eq (by rw [TakenNames.length_claimAll, List.length_map])

/-- The terminals of the stand-ins are those that were asked for. -/
theorem map_terminal_claimAll (taken : TakenNames) (terminals : List String) :
    (claimAll taken terminals).map StandIn.terminal = terminals := by
  rw [claimAll_eq_map_zip, List.map_map]
  apply List.map_fst_zip
  exact Nat.le_of_eq (by rw [TakenNames.length_claimAll, List.length_map])

/-- The names of the stand-ins of a grammar are one stretch of claims. -/
theorem claims_standIns (g : Grammar) :
    TakenNames.Claims (TakenNames.ofGrammar g) (g.standIns.map StandIn.name)
      ((TakenNames.ofGrammar g).claimAll (g.mixedTerminals.map WantedName.standIn)).2 := by
  rw [Grammar.standIns, map_name_claimAll]
  exact TakenNames.claims_claimAll _ _

/-- A symbol stays, or it is a terminal and gives way to its stand-in. -/
theorem substitute_cases (standIns : List StandIn) (s : Symbol) :
    substitute standIns s = s ∨
      ∃ x ∈ standIns, s = .terminal x.terminal ∧ substitute standIns s = .nonterminal x.name := by
  cases s with
  | nonterminal name => exact .inl rfl
  | terminal text =>
    cases h : standIns.find? fun s => s.terminal == text with
    | none => exact .inl (by simp [substitute, h])
    | some x =>
      have same : x.terminal = text := by simpa using List.find?_some h
      exact .inr ⟨x, List.mem_of_find?_eq_some h, by rw [same], by simp [substitute, h]⟩

end StandIn

/-! ## 4. The names of tails

The traversal of a grammar's rules is nested three deep; at each depth the
names of the tails are one stretch of claims. -/

namespace Cut

/-- What the cut of a long row is, in one step; the definition says it with names that
are bound on the way. -/
theorem row_long (origin : String) (alternative position : Nat) (first second third : Symbol)
    (rest : List Symbol) (taken : TakenNames) :
    row origin alternative position first (second :: third :: rest) taken =
      let claimed := taken.claim (WantedName.tail origin alternative position)
      let tail := row origin alternative (position + 1) second (third :: rest) claimed.2
      ⟨Production.pair first (.nonterminal claimed.1),
        ⟨claimed.1, [tail.kept]⟩ :: tail.tails, tail.taken⟩ := rfl

/-- The tails of a row are named from left to right, in one stretch. -/
theorem claims_row (origin : String) (alternative position : Nat) (first : Symbol)
    (rest : List Symbol) (taken : TakenNames) :
    taken.Claims ((row origin alternative position first rest taken).tails.map Rule.name)
      (row origin alternative position first rest taken).taken := by
  -- every cut leaves a row that is shorter by one symbol
  induction rest generalizing position first taken with
  | nil => exact TakenNames.Claims.nil taken
  | cons second rest ih =>
    -- a row of two symbols claims no name
    cases rest with
    | nil => exact TakenNames.Claims.nil taken
    | cons third rest =>
      rw [row_long]
      exact (TakenNames.Claims.claim taken _).append (ih _ _ _)

theorem claims_production (origin : String) (alternative : Nat) (p : Production)
    (taken : TakenNames) :
    taken.Claims ((production origin alternative p taken).tails.map Rule.name)
      (production origin alternative p taken).taken := by
  obtain ⟨symbols, ne⟩ := p
  cases symbols with
  | nil => exact absurd rfl ne
  | cons first rest => exact claims_row _ _ _ _ _ _

/-- The alternatives of a rule claim their stretches one after the other. -/
theorem claims_alternatives (origin : String) (index : Nat) (ps : List Production)
    (taken : TakenNames) :
    taken.Claims ((alternatives origin index ps taken).tails.map Rule.name)
      (alternatives origin index ps taken).taken := by
  induction ps generalizing index taken with
  | nil => exact TakenNames.Claims.nil taken
  | cons p rest ih =>
    rw [alternatives, List.map_append]
    exact (claims_production _ _ _ _).append (ih _ _)

theorem claims_rules (rs : List Rule) (taken : TakenNames) :
    taken.Claims ((rules rs taken).tails.map Rule.name) (rules rs taken).taken := by
  induction rs generalizing taken with
  | nil => exact TakenNames.Claims.nil taken
  | cons rule rest ih =>
    rw [rules, List.map_append]
    exact (claims_alternatives _ _ _ _).append (ih _)

end Cut

end ChomskyForm
