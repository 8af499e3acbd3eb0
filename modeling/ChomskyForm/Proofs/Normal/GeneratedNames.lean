/-
The names that the stages generate.

A generated name is a wanted name with as few primes behind it as make it new.
What "new" means is said by the names that a stage starts from: those that the
grammar declares, refers to, or starts with. So a generated rule captures no
reference, not even one to a nonterminal that is not declared.

Which names a conversion generates, and in which order, can be told from the
grammar as it was given. The wrapper adds a unit production, and the stand-ins
change no length, so the stages see the terminals and the long alternatives that
were there at first: `mixedTerminals_eq` and the two lemmas `tailPlaces_eq`.
-/
import Mathlib.Data.List.Forall2
import Mathlib.Data.List.Nodup
import ChomskyForm.Proofs.Normal.StageResult
import ChomskyForm.Proofs.Normal.UnitReach

set_option autoImplicit false

namespace ChomskyForm

/-! ## 1. Primed names -/

/-- A name is a wanted name with any number of primes behind it. -/
inductive Primed (wanted : String) : String → Prop
  | bare : Primed wanted wanted
  | prime {name : String} : Primed wanted name → Primed wanted (name ++ "'")

/-- A primed form of a primed name is a primed form of the name. -/
theorem Primed.of_prime {wanted name : String} (h : Primed (wanted ++ "'") name) :
    Primed wanted name := by
  induction h with
  | bare => exact .prime .bare
  | prime _ ih => exact .prime ih

/-- A free name is a primed form of the wanted one. -/
theorem TakenNames.primed_free (taken : TakenNames) (wanted : String) :
    Primed wanted (taken.free wanted) := by
  fun_induction free taken wanted with
  | case1 _ _ ih => exact ih.of_prime
  | case2 _ _ => exact .bare

/-- There is a stand-in for each terminal, in order. -/
theorem StandIn.forall₂_claimAll (taken : TakenNames) (terminals : List String) :
    List.Forall₂
      (fun terminal x => x.terminal = terminal ∧ Primed (WantedName.standIn terminal) x.name)
      terminals (StandIn.claimAll taken terminals) := by
  induction terminals generalizing taken with
  | nil => exact .nil
  | cons terminal rest ih =>
    have claimed : StandIn.claimAll taken (terminal :: rest) =
        ⟨terminal, taken.free (WantedName.standIn terminal)⟩ ::
          StandIn.claimAll (taken.claim (WantedName.standIn terminal)).2 rest := rfl
    rw [claimed]
    exact .cons ⟨rfl, taken.primed_free _⟩ (ih _)

/-! ## 2. The places of tails -/

/-- Where a tail begins: at a position of an alternative of a rule. -/
structure TailPlace where
  origin : String
  alternative : Nat
  position : Nat
deriving DecidableEq

/-- The name that is wanted for the tail at a place. -/
def TailPlace.wanted (place : TailPlace) : String :=
  WantedName.tail place.origin place.alternative place.position

/-- The places at which an alternative is cut: behind every symbol but the last
two. -/
def Production.tailPlaces (origin : String) (alternative : Nat) (p : Production) :
    List TailPlace :=
  (List.range' 1 (p.length - 2)).map (TailPlace.mk origin alternative)

/-- The places at which the alternatives of a rule are cut, in order. -/
def Rule.tailPlaces (rule : Rule) : List TailPlace :=
  rule.alternatives.zipIdx.flatMap fun x => x.1.tailPlaces rule.name x.2

/-- The places at which a grammar is cut: by rule, alternative and position. -/
def Grammar.tailPlaces (g : Grammar) : List TailPlace := g.rules.flatMap Rule.tailPlaces

/-- A tail has the name of its place. -/
def NamedFor (place : TailPlace) (tail : Rule) : Prop := Primed place.wanted tail.name

namespace Cut

/-- The tails of a row are named for the positions behind its symbols, all but the last
two. -/
theorem forall₂_row (origin : String) (alternative position : Nat) (first : Symbol)
    (rest : List Symbol) (taken : TakenNames) :
    List.Forall₂ NamedFor
      ((List.range' position (rest.length - 1)).map (TailPlace.mk origin alternative))
      (row origin alternative position first rest taken).tails := by
  induction rest generalizing position first taken with
  | nil => exact .nil
  | cons second rest ih =>
    cases rest with
    | nil => exact .nil
    | cons third rest =>
      -- the cut takes one position, and the places behind it are those of the tail
      have later := ih (position + 1) second
        (taken.claim (WantedName.tail origin alternative position)).2
      rw [row_long, List.length_cons, Nat.add_sub_cancel, List.length_cons, List.range'_succ,
        List.map_cons]
      rw [List.length_cons, Nat.add_sub_cancel] at later
      exact .cons (taken.primed_free _) later

/-- The tails of an alternative are named for its places, which begin behind the first
symbol. -/
theorem forall₂_production (origin : String) (alternative : Nat) (p : Production)
    (taken : TakenNames) :
    List.Forall₂ NamedFor (p.tailPlaces origin alternative)
      (production origin alternative p taken).tails := by
  obtain ⟨symbols, ne⟩ := p
  cases symbols with
  | nil => exact absurd rfl ne
  | cons first rest => exact forall₂_row origin alternative 1 first rest taken

/-- The tails of the alternatives are named for their places, alternative by
alternative. -/
theorem forall₂_alternatives (origin : String) (index : Nat) (ps : List Production)
    (taken : TakenNames) :
    List.Forall₂ NamedFor ((ps.zipIdx index).flatMap fun x => x.1.tailPlaces origin x.2)
      (alternatives origin index ps taken).tails := by
  induction ps generalizing index taken with
  | nil => exact .nil
  | cons p rest ih =>
    rw [List.zipIdx_cons, List.flatMap_cons]
    exact List.rel_append (forall₂_production _ _ _ _) (ih _ _)

/-- The tails of all rules are named for their places, rule by rule. -/
theorem forall₂_rules (rs : List Rule) (taken : TakenNames) :
    List.Forall₂ NamedFor (rs.flatMap Rule.tailPlaces) (rules rs taken).tails := by
  induction rs generalizing taken with
  | nil => exact .nil
  | cons rule rest ih =>
    rw [List.flatMap_cons]
    exact List.rel_append (forall₂_alternatives _ _ _ _) (ih _)

end Cut

/-! ## 3. Symbols that occur -/

namespace Grammar

/-- A symbol stands in some production. -/
def Occurs (g : Grammar) (s : Symbol) : Prop :=
  ∃ name, ∃ p ∈ g.productionsOf name, s ∈ p.symbols

theorem occurs_of_mem {g : Grammar} {rule : Rule} (hr : rule ∈ g.rules) {p : Production}
    (hp : p ∈ rule.alternatives) {s : Symbol} (hs : s ∈ p.symbols) : g.Occurs s :=
  ⟨rule.name, p, g.mem_productionsOf_of_mem hr hp, hs⟩

/-- A nonterminal that occurs has its name taken. -/
theorem mem_taken_of_occurs {g : Grammar} {name : String} (h : g.Occurs (.nonterminal name)) :
    name ∈ (TakenNames.ofGrammar g).names := by
  obtain ⟨_, _, hp, hs⟩ := h
  exact mem_taken_of_mem_productionsOf hp hs

/-- The names that are taken at first are those that a grammar knows. -/
theorem mem_taken_iff (g : Grammar) (name : String) :
    name ∈ (TakenNames.ofGrammar g).names ↔
      name ∈ g.names ∨ g.Occurs (.nonterminal name) ∨ g.start? = some name := by
  constructor
  · intro h
    rw [TakenNames.ofGrammar, List.mem_append, List.mem_append, mem_referencedNames_iff,
      Option.mem_toList] at h
    rcases h with (declared | ⟨rule, hr, p, hp, hs⟩) | starts
    · exact .inl declared
    · exact .inr (.inl (occurs_of_mem hr hp hs))
    · exact .inr (.inr starts)
  · rintro (declared | occurs | starts)
    · exact mem_taken_of_mem_names declared
    · exact mem_taken_of_occurs occurs
    · exact mem_taken_of_start? starts

/-- A terminal that gets a stand-in occurs. -/
theorem occurs_of_mem_mixedTerminals {g : Grammar} {text : String} (h : text ∈ g.mixedTerminals) :
    g.Occurs (.terminal text) := by
  unfold mixedTerminals at h
  rw [List.mem_eraseDups, List.mem_flatMap] at h
  obtain ⟨rule, hr, h⟩ := h
  obtain ⟨p, hp, h⟩ := List.mem_flatMap.1 h
  refine occurs_of_mem hr hp ?_
  unfold Production.mixedTerminals at h
  split at h
  · exact absurd h List.not_mem_nil
  · obtain ⟨s, hs, e⟩ := List.mem_filterMap.1 h
    cases s with
    | terminal text' => cases e; exact hs
    | nonterminal name => cases e

/-- The wrapper brings the old start symbol into a production. -/
theorem WrapsStart.occurs {g g' : Grammar} {inner : String} (h : g.WrapsStart inner g')
    {s : Symbol} (hs : g'.Occurs s) : s = .nonterminal inner ∨ g.Occurs s := by
  obtain ⟨name, p, hp, hs⟩ := hs
  rcases (h.mem_productionsOf_iff name p).1 hp with ⟨-, rfl⟩ | old
  · exact .inl (List.mem_singleton.1 hs)
  · exact .inr ⟨name, p, old, hs⟩

/-- Isolating terminals brings in the names of the stand-ins and no other symbol. -/
theorem IsolatesTerminals.occurs {g g' : Grammar} (h : g.IsolatesTerminals g') {s : Symbol}
    (hs : g'.Occurs s) : g.Occurs s ∨ ∃ x ∈ g.standIns, s = .nonterminal x.name := by
  obtain ⟨name, p, hp, hs⟩ := hs
  rcases (h.mem_productionsOf_iff name p).1 hp with ⟨q, hq, rfl⟩ | ⟨x, hx, -, rfl⟩
  · unfold Production.standInTerminals at hs
    split at hs
    · exact .inl ⟨name, q, hq, hs⟩
    · rw [Production.symbols_map, List.mem_map] at hs
      obtain ⟨old, ho, rfl⟩ := hs
      rcases StandIn.substitute_cases g.standIns old with e | ⟨x, hx, -, e⟩
      · rw [e]
        exact .inl ⟨name, q, hq, ho⟩
      · exact .inr ⟨x, hx, e⟩
  · -- the terminal of a stand-in comes from the production that needs it
    have terminals : g.standIns.map StandIn.terminal = g.mixedTerminals :=
      StandIn.map_terminal_claimAll _ _
    rw [Production.symbols_unit, List.mem_singleton] at hs
    rw [hs]
    refine .inl (occurs_of_mem_mixedTerminals ?_)
    rw [← terminals]
    exact List.mem_map_of_mem hx

end Grammar

/-- A piece of a row is made of symbols of the row and of names of tails. -/
theorem Cut.Chain.mem_of_mem_pieces {row : List Symbol} {kept p : Production} {tails : List Rule}
    (h : Chain row kept tails) (hp : p ∈ pieces kept tails) {s : Symbol} (hs : s ∈ p.symbols) :
    s ∈ row ∨ ∃ rule ∈ tails, s = .nonterminal rule.name := by
  induction h with
  | short _ hk =>
    rw [pieces, List.flatMap_nil, List.mem_singleton] at hp
    rw [hp, hk] at hs
    exact .inl hs
  | long _ ih =>
    rw [pieces_long] at hp
    rcases List.mem_cons.1 hp with rfl | hp
    · rw [Production.symbols_pair, List.mem_cons, List.mem_singleton] at hs
      rcases hs with rfl | rfl
      · exact .inl List.mem_cons_self
      · exact .inr ⟨_, List.mem_cons_self, rfl⟩
    · rcases ih hp with old | ⟨rule, hr, e⟩
      · exact .inl (List.mem_cons_of_mem _ old)
      · exact .inr ⟨rule, List.mem_cons_of_mem _ hr, e⟩

/-- A row that is not long is kept whole. -/
theorem Cut.Chain.symbols_kept_of_length_le {row : List Symbol} {kept : Production}
    {tails : List Rule} (h : Chain row kept tails) (le : row.length ≤ 2) : kept.symbols = row := by
  cases h with
  | short _ hk => exact hk
  | long _ =>
    simp only [List.length_cons] at le
    omega

namespace Grammar

/-- Cutting brings in the names of the tails and no other symbol. -/
theorem Binarizes.occurs {g g' : Grammar} (h : g.Binarizes g') {s : Symbol} (hs : g'.Occurs s) :
    g.Occurs s ∨ ∃ rule ∈ g.cutRules.tails, s = .nonterminal rule.name := by
  obtain ⟨name, p, hp, hs⟩ := hs
  obtain ⟨x, hx, t, ht, piece⟩ := h.exists_piece hp
  rcases (chain_of_mem_trims hx ht).mem_of_mem_pieces piece hs with old | ⟨rule, hr, e⟩
  · exact .inl ⟨_, _, whole_mem_productionsOf hx ht, old⟩
  · exact .inr ⟨rule, mem_tails hx ht hr, e⟩

/-- Eliminating unit productions brings no symbol in: resolvents are productions of
before. -/
theorem EliminatesUnits.occurs {g g' : Grammar} (h : g.EliminatesUnits g') {s : Symbol}
    (hs : g'.Occurs s) : g.Occurs s := by
  obtain ⟨name, p, hp, hs⟩ := hs
  have resolvent := ((h.mem_productionsOf_iff name p).1 hp).2
  obtain ⟨-, m, -, hp⟩ := (g.mem_resolvents_iff name p).1 resolvent
  exact ⟨m, p, hp, hs⟩

/-- The wrapper of a grammar is no symbol of its normal form's productions. -/
theorem not_occurs_wrapperName {g g₁ g₂ g₃ g' : Grammar} {inner : String}
    (wraps : g.WrapsStart inner g₁) (isolates : g₁.IsolatesTerminals g₂)
    (binarizes : g₂.Binarizes g₃) (eliminates : g₃.EliminatesUnits g') :
    ¬ g'.Occurs (.nonterminal g.wrapperName) := by
  have declared₁ : g.wrapperName ∈ g₁.names := by
    rw [wraps.names]
    exact List.mem_cons_self
  have declared₂ : g.wrapperName ∈ g₂.names := by
    rw [isolates.names]
    exact List.mem_append_left _ declared₁
  intro h
  -- backwards through the stages: none of them puts the wrapper into a production
  rcases binarizes.occurs (eliminates.occurs h) with h | ⟨rule, hr, e⟩
  · rcases isolates.occurs h with h | ⟨x, hx, e⟩
    · rcases wraps.occurs h with e | h
      · cases e
        exact g.wrapperName_notMem (mem_taken_of_start? wraps.start?)
      · exact g.wrapperName_notMem (mem_taken_of_occurs h)
    · have new := (StandIn.claims_standIns g₁).fresh x.name (List.mem_map_of_mem hx)
      rw [← Symbol.nonterminal.inj e] at new
      exact new (mem_taken_of_mem_names declared₁)
  · have new := g₂.claims_tails.fresh rule.name (List.mem_map_of_mem hr)
    rw [← Symbol.nonterminal.inj e] at new
    exact new (mem_taken_of_mem_names declared₂)

/-! ## 4. What the stages see of the given grammar -/

/-- The wrapper needs no stand-in. -/
theorem WrapsStart.mixedTerminals_eq {g g' : Grammar} {inner : String}
    (h : g.WrapsStart inner g') : g'.mixedTerminals = g.mixedTerminals := by
  unfold mixedTerminals
  rw [h.rules, List.flatMap_cons]
  rfl

/-- The wrapper is not cut. -/
theorem WrapsStart.tailPlaces_eq {g g' : Grammar} {inner : String}
    (h : g.WrapsStart inner g') : g'.tailPlaces = g.tailPlaces := by
  unfold tailPlaces
  rw [h.rules, List.flatMap_cons]
  rfl

/-- A production with stand-ins is as long as it was. -/
theorem length_standInTerminals (standIns : List StandIn) (p : Production) :
    (p.standInTerminals standIns).length = p.length := by
  unfold Production.standInTerminals
  split
  · rfl
  · exact Production.length_map _ _

/-- Stand-ins change no length, and their own rules are not cut. -/
theorem IsolatesTerminals.tailPlaces_eq {g g' : Grammar} (h : g.IsolatesTerminals g') :
    g'.tailPlaces = g.tailPlaces := by
  have own : (g.standIns.map StandIn.rule).flatMap Rule.tailPlaces = [] := by
    rw [List.flatMap_map, List.flatMap_eq_nil_iff]
    intro x _
    rfl
  unfold tailPlaces
  rw [h.rules, List.flatMap_append, own, List.append_nil, List.flatMap_map]
  apply List.flatMap_congr
  intro rule _
  unfold Rule.tailPlaces
  dsimp only
  rw [List.zipIdx_map, List.flatMap_map]
  apply List.flatMap_congr
  intro x _
  unfold Production.tailPlaces
  dsimp only [Prod.map_fst, Prod.map_snd, id_eq]
  rw [length_standInTerminals]

/-! ## 5. The rules of stand-ins -/

/-- A stand-in has the production of its terminal, and no other. -/
theorem IsolatesTerminals.mem_productionsOf_standIn {g g' : Grammar} (h : g.IsolatesTerminals g')
    {x : StandIn} (hx : x ∈ g.standIns) (p : Production) :
    p ∈ g'.productionsOf x.name ↔ p = .unit (.terminal x.terminal) := by
  have claims := StandIn.claims_standIns g
  rw [h.mem_productionsOf_iff]
  constructor
  · rintro (⟨q, hq, -⟩ | ⟨y, hy, same, rfl⟩)
    · have old := mem_taken_of_mem_names (g.mem_names_of_mem_productionsOf hq)
      exact absurd old (claims.fresh _ (List.mem_map_of_mem hx))
    · rw [List.inj_on_of_nodup_map claims.nodup hy hx same]
  · rintro rfl
    exact .inr ⟨x, hx, rfl, rfl⟩

/-- Alternatives that are short stay as they are. -/
theorem Binarizes.mem_productionsOf_iff_of_short {g g' : Grammar} (h : g.Binarizes g')
    {name : String} (declared : name ∈ g.names)
    (short : ∀ p ∈ g.productionsOf name, p.length ≤ 2) (p : Production) :
    p ∈ g'.productionsOf name ↔ p ∈ g.productionsOf name := by
  have kept : ∀ x ∈ g.trims, ∀ t ∈ x.trims, x.rule.name = name → t.cut.kept = t.whole := by
    rintro x hx t ht rfl
    have le := short _ (whole_mem_productionsOf hx ht)
    exact Production.ext ((chain_of_mem_trims hx ht).symbols_kept_of_length_le le)
  rw [h.mem_productionsOf_iff]
  constructor
  · rintro ⟨x, hx, t, ht, ⟨rfl, rfl⟩ | ⟨rule, hr, rfl, -⟩⟩
    · rw [kept x hx t ht rfl]
      exact whole_mem_productionsOf hx ht
    · have new := g.claims_tails.fresh rule.name (List.mem_map_of_mem (mem_tails hx ht hr))
      exact absurd (mem_taken_of_mem_names declared) new
  · intro hp
    obtain ⟨x, hx, rfl, t, ht, rfl⟩ := exists_trim_of_mem_productionsOf hp
    exact ⟨x, hx, t, ht, .inl ⟨rfl, (kept x hx t ht rfl).symm⟩⟩

/-- A nonterminal without unit productions resolves to its own alternatives. -/
theorem EliminatesUnits.mem_productionsOf_iff_of_resolved {g g' : Grammar}
    (h : g.EliminatesUnits g') {name : String} (declared : name ∈ g.names)
    (resolved : ∀ p ∈ g.productionsOf name, p.unitTarget? = none) (p : Production) :
    p ∈ g'.productionsOf name ↔ p ∈ g.productionsOf name := by
  rw [h.mem_productionsOf_iff, g.mem_resolvents_iff]
  constructor
  · rintro ⟨-, -, m, reach, hp⟩
    -- no unit production leads away
    rcases Relation.ReflTransGen.cases_head reach with rfl | ⟨next, edge, -⟩
    · exact hp
    · have := resolved _ edge
      cases this
  · intro hp
    exact ⟨declared, resolved p hp, name, .refl, hp⟩

/-- No alternative is listed twice after the last stage. -/
theorem EliminatesUnits.nodup_productionsOf {g g' : Grammar} (h : g.EliminatesUnits g')
    (name : String) : (g'.productionsOf name).Nodup := by
  by_cases declared : name ∈ g'.names
  · obtain ⟨rule, hr, rfl⟩ := (g'.mem_names_iff name).1 declared
    rw [g'.productionsOf_of_mem hr]
    rw [h.rules] at hr
    obtain ⟨origin, -, rfl⟩ := List.mem_map.1 hr
    exact g.nodup_resolvents origin.name
  · rw [g'.productionsOf_of_notMem declared]
    exact List.nodup_nil

/-- In the normal form a stand-in still derives its terminal and nothing else. -/
theorem productionsOf_standIn {g₁ g₂ g₃ g' : Grammar} (isolates : g₁.IsolatesTerminals g₂)
    (binarizes : g₂.Binarizes g₃) (eliminates : g₃.EliminatesUnits g') {x : StandIn}
    (hx : x ∈ g₁.standIns) : g'.productionsOf x.name = [.unit (.terminal x.terminal)] := by
  have only₂ := isolates.mem_productionsOf_standIn hx
  have declared₂ : x.name ∈ g₂.names := by
    rw [isolates.names]
    exact List.mem_append_right _ (List.mem_map_of_mem hx)
  have declared₃ : x.name ∈ g₃.names := by
    rw [binarizes.names]
    exact List.mem_append_left _ declared₂
  have only₃ : ∀ p, p ∈ g₃.productionsOf x.name ↔ p = .unit (.terminal x.terminal) := by
    intro p
    rw [← only₂ p]
    refine binarizes.mem_productionsOf_iff_of_short declared₂ (fun q hq => ?_) p
    rw [(only₂ q).1 hq]
    exact Nat.le_succ 1
  have only : ∀ p, p ∈ g'.productionsOf x.name ↔ p = .unit (.terminal x.terminal) := by
    intro p
    rw [← only₃ p]
    refine eliminates.mem_productionsOf_iff_of_resolved declared₃ (fun q hq => ?_) p
    rw [(only₃ q).1 hq]
    rfl
  -- without repetitions, a list with one element is a singleton
  apply List.perm_singleton.1
  rw [List.perm_ext_iff_of_nodup (eliminates.nodup_productionsOf _) (List.nodup_singleton _)]
  intro p
  rw [only, List.mem_singleton]

/-! ## 6. One stage -/

/-- A grammar does not know a name: it neither declares it, nor refers to it, nor
starts with it. -/
def Fresh (g : Grammar) (name : String) : Prop :=
  name ∉ g.names ∧ ¬ g.Occurs (.nonterminal name) ∧ g.start? ≠ some name

/-- A name that was claimed is not known to the grammar whose names were taken. -/
theorem fresh_of_claims {g : Grammar} {added : List String} {after : TakenNames}
    (claims : (TakenNames.ofGrammar g).Claims added after) {name : String} (h : name ∈ added) :
    g.Fresh name := by
  have new := claims.fresh name h
  refine ⟨?_, ?_, ?_⟩
  · exact fun declared => new (mem_taken_of_mem_names declared)
  · exact fun occurs => new (mem_taken_of_occurs occurs)
  · exact fun start => new (mem_taken_of_start? start)

/-- `g'` declares the names of `g` in their order, and names around them that `g`
does not know. -/
structure AddsNames (g g' : Grammar) (before behind : List String) : Prop where
  names : g'.names = before ++ g.names ++ behind
  nodup : (before ++ behind).Nodup
  fresh : ∀ name ∈ before ++ behind, g.Fresh name

/-- A stage whose added names were claimed adds names. -/
theorem addsNames_of_claims {g g' : Grammar} {before behind : List String} {after : TakenNames}
    (names : g'.names = before ++ g.names ++ behind)
    (claims : (TakenNames.ofGrammar g).Claims (before ++ behind) after) :
    g.AddsNames g' before behind :=
  ⟨names, claims.nodup, fun _ h => fresh_of_claims claims h⟩

/-- **A stage adds names that its input does not know.** -/
theorem exists_addsNames {stage : Stage} {g g' : Grammar} (h : (stage.run g).outcome = .ok g') :
    ∃ before behind, g.AddsNames g' before behind := by
  cases stage with
  | wrapStart =>
    obtain ⟨inner, w⟩ := wrapsStart_of_ok h
    refine ⟨[g.wrapperName], [], addsNames_of_claims ?_ g.claims_wrapperName⟩
    rw [w.names, List.append_nil]
    rfl
  | isolateTerminals =>
    have w := isolatesTerminals_of_ok h
    exact ⟨[], _, addsNames_of_claims w.names (StandIn.claims_standIns g)⟩
  | binarize =>
    have w := binarizes_of_ok h
    exact ⟨[], _, addsNames_of_claims w.names g.claims_tails⟩
  | eliminateUnits =>
    have w := eliminatesUnits_of_ok h
    refine ⟨[], [], addsNames_of_claims ?_ (.nil _)⟩
    rw [w.names, List.append_nil]
    rfl

/-- A nonterminal that is referred to and not declared stays undeclared. -/
theorem AddsNames.notMem_names {g g' : Grammar} {before behind : List String}
    (h : g.AddsNames g' before behind) {name : String} (occurs : g.Occurs (.nonterminal name))
    (undeclared : name ∉ g.names) : name ∉ g'.names := by
  have old : name ∉ before ++ behind := fun new => (h.fresh name new).2.1 occurs
  rw [List.mem_append, not_or] at old
  rw [h.names, List.mem_append, List.mem_append, not_or, not_or]
  exact ⟨⟨old.1, undeclared⟩, old.2⟩

/-- No stage refuses a generated name. -/
theorem outcome_run_ne_nameCollision (stage : Stage) (g : Grammar) (name : String) :
    (stage.run g).outcome ≠ .error (.nameCollision name) := by
  intro failed
  cases stage with
  | wrapStart =>
    change g.wrapStart.outcome = _ at failed
    by_cases empty : g.names = []
    · rw [outcome_wrapStart_of_eq_nil empty] at failed
      cases failed
    · obtain ⟨inner, g', ok, -⟩ := outcome_wrapStart_of_ne_nil empty
      rw [ok] at failed
      cases failed
  | isolateTerminals =>
    change g.isolateTerminals.outcome = _ at failed
    obtain ⟨g', ok, -⟩ := g.outcome_isolateTerminals
    rw [ok] at failed
    cases failed
  | binarize =>
    change g.binarize.outcome = _ at failed
    obtain ⟨g', ok, -⟩ := g.outcome_binarize
    rw [ok] at failed
    cases failed
  | eliminateUnits =>
    change g.eliminateUnits.outcome = _ at failed
    -- the last stage fails in one way only, and that is another
    rcases forall_or_first_not (fun name => g.resolvents name ≠ []) g.names with
      all | ⟨before, dead, behind, names, resolved, empty⟩
    · obtain ⟨g', ok, -⟩ := outcome_eliminateUnits_of_forall all
      rw [ok] at failed
      cases failed
    · have other := outcome_eliminateUnits_of_split names resolved (Classical.not_not.1 empty)
      rw [other] at failed
      cases failed

/-! ## 7. The names of a normal form -/

/-- The names of a normal form, in order. -/
theorem names_of_stages {g g₁ g₂ g₃ g' : Grammar} {inner : String}
    (wraps : g.WrapsStart inner g₁) (isolates : g₁.IsolatesTerminals g₂)
    (binarizes : g₂.Binarizes g₃) (eliminates : g₃.EliminatesUnits g') :
    g'.names = g.wrapperName :: g.names ++ g₁.standIns.map StandIn.name ++
      g₂.cutRules.tails.map Rule.name := by
  rw [eliminates.names, binarizes.names, isolates.names, wraps.names]

/-- The wrapper starts the normal form. -/
theorem start?_of_stages {g g₁ g₂ g₃ g' : Grammar} {inner : String}
    (wraps : g.WrapsStart inner g₁) (isolates : g₁.IsolatesTerminals g₂)
    (binarizes : g₂.Binarizes g₃) (eliminates : g₃.EliminatesUnits g') :
    g'.start? = some g.wrapperName := by
  rw [eliminates.start?_eq, binarizes.start?_eq, isolates.start?_eq,
    start?_eq_some wraps.explicitStart]

/-- **Generated names capture nothing.** Every stage keeps the declared names in
their order and adds distinct names that its input does not know, so none is
refused, and no nonterminal that is merely referred to becomes declared. The
names of a normal form are the wrapper, the declared names, a stand-in for each
distinct terminal that stands beside another symbol, in the order in which they
come first, and the tails by rule, alternative and position. The wrapper starts
the normal form and stands in none of its productions. -/
theorem generated_names_capture_nothing :
    (∀ (stage : Stage) (g g' : Grammar), (stage.run g).outcome = .ok g' →
      (∃ before behind, g'.names = before ++ g.names ++ behind ∧ (before ++ behind).Nodup ∧
        ∀ name ∈ before ++ behind,
          name ∉ g.names ∧ ¬ g.Occurs (.nonterminal name) ∧ g.start? ≠ some name) ∧
      ∀ name, g.Occurs (.nonterminal name) → name ∉ g.names → name ∉ g'.names) ∧
    (∀ (stage : Stage) (g : Grammar) (name : String),
      (stage.run g).outcome ≠ .error (.nameCollision name)) ∧
    ∀ g g' : Grammar, g.toNormalForm.outcome = .ok g' →
      ∃ standIns tails,
        g'.names = g.wrapperName :: g.names ++ standIns ++ tails ∧
        Primed WantedName.start g.wrapperName ∧
        List.Forall₂ (fun terminal name => Primed (WantedName.standIn terminal) name ∧
          g'.productionsOf name = [.unit (.terminal terminal)]) g.mixedTerminals standIns ∧
        List.Forall₂ (fun place name => Primed place.wanted name) g.tailPlaces tails ∧
        g'.start? = some g.wrapperName ∧ ¬ g'.Occurs (.nonterminal g.wrapperName) := by
  refine ⟨?_, outcome_run_ne_nameCollision, ?_⟩
  · intro stage g g' h
    obtain ⟨before, behind, adds⟩ := exists_addsNames h
    exact ⟨⟨before, behind, adds.names, adds.nodup, adds.fresh⟩,
      fun name occurs undeclared => adds.notMem_names occurs undeclared⟩
  · intro g g' h
    obtain ⟨inner, g₁, g₂, g₃, wraps, isolates, binarizes, eliminates⟩ := stages_of_ok h
    refine ⟨g₁.standIns.map StandIn.name, g₂.cutRules.tails.map Rule.name,
      names_of_stages wraps isolates binarizes eliminates, TakenNames.primed_free _ _, ?_, ?_,
      start?_of_stages wraps isolates binarizes eliminates,
      not_occurs_wrapperName wraps isolates binarizes eliminates⟩
    · -- a stand-in that is there has the rule of its terminal
      have claimed := StandIn.forall₂_claimAll (TakenNames.ofGrammar g₁) g₁.mixedTerminals
      rw [← wraps.mixedTerminals_eq, List.forall₂_map_right_iff]
      refine (List.forall₂_iff_zip.2 ⟨claimed.length_eq, fun {terminal x} hz => ?_⟩)
      obtain ⟨rfl, primed⟩ := List.forall₂_zip claimed hz
      exact ⟨primed, productionsOf_standIn isolates binarizes eliminates (List.of_mem_zip hz).2⟩
    · rw [← wraps.tailPlaces_eq, ← isolates.tailPlaces_eq, List.forall₂_map_right_iff]
      exact Cut.forall₂_rules _ _

/-- A grammar that declares and refers to names which look generated, with two
terminals that want the same stand-in. -/
def lookalike : Grammar :=
  ⟨RuleTable.ofList
    [⟨"S", [⟨[.terminal "<", .nonterminal "$start", .terminal "&lt;", .nonterminal "S"], by simp⟩,
      .unit (.terminal "a")]⟩,
     ⟨"$term.&lt;", [.pair (.nonterminal "$bin.S.0.1") (.terminal "<")]⟩], none⟩

/-- The wrapper gets a prime, for its name is referred to; neither stand-in gets the
name that both want. -/
theorem generated_names_capture_nothing_lookalike :
    ∃ g' standIns tails, lookalike.toNormalForm.outcome = .ok g' ∧
      g'.names = "$start'" :: ["S", "$term.&lt;"] ++ standIns ++ tails ∧
      standIns.length = 2 ∧ tails.length = 2 ∧ g'.start? = some "$start'" ∧
      ¬ g'.Occurs (.nonterminal "$start'") := by
  have succeeds : lookalike.toNormalForm.outcome.isOk = true := by decide +kernel
  have wrapper : lookalike.wrapperName = "$start'" := by decide +kernel
  have declared : lookalike.names = ["S", "$term.&lt;"] := by decide +kernel
  cases h : lookalike.toNormalForm.outcome with
  | error e =>
    rw [h] at succeeds
    cases succeeds
  | ok g' =>
    obtain ⟨standIns, tails, names, -, terminals, places, start, unused⟩ :=
      generated_names_capture_nothing.2.2 lookalike g' h
    rw [wrapper] at names start unused
    rw [declared] at names
    refine ⟨g', standIns, tails, rfl, names, ?_, ?_, start, unused⟩
    · rw [← terminals.length_eq]
      decide +kernel
    · rw [← places.length_eq]
      decide +kernel

end Grammar

end ChomskyForm
