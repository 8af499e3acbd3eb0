/-
Names that need no prime.

A wanted name that is not taken is claimed as it is. If that holds of all names
that a stage wants, the names that it claims, and with them the rules that it
makes, depend on where they stand and not on what was claimed before. So a rule
is cut as if it stood alone (`Rule.cut`), and a stand-in is told from its
terminal alone.

Different places want different names: the two numbers at the end of a tail's
name hold no dot, so the origin can be told from it whatever dots and digits it
holds itself.
-/
import Mathlib.Data.List.Nodup
import ChomskyForm.Proofs.Normal.GeneratedNames

set_option autoImplicit false

namespace ChomskyForm

/-! ## 1. Claims without primes -/

namespace TakenNames

/-- A name that is not taken is free as it is. -/
theorem free_of_notMem {taken : TakenNames} {wanted : String} (h : wanted ∉ taken.names) :
    taken.free wanted = wanted := by
  rw [free, if_neg h]

/-- To claim it adds it to the taken names, and that is all. -/
theorem claim_of_notMem {taken : TakenNames} {wanted : String} (h : wanted ∉ taken.names) :
    taken.claim wanted = (wanted, ⟨wanted :: taken.names⟩) := by
  rw [claim, free_of_notMem h]

/-- The wanted names are distinct, and none of them is taken. -/
structure Spares (taken : TakenNames) (wanted : List String) : Prop where
  nodup : wanted.Nodup
  fresh : ∀ name ∈ wanted, name ∉ taken.names

/-- Once the first of some spared names is claimed, the others are still spared. -/
theorem Spares.of_cons {taken : TakenNames} {first : String} {rest : List String}
    (h : taken.Spares (first :: rest)) :
    first ∉ taken.names ∧ (taken.claim first).2.Spares rest := by
  have new := h.fresh first List.mem_cons_self
  have ⟨notLater, nodup⟩ := List.nodup_cons.1 h.nodup
  refine ⟨new, nodup, fun name hn => ?_⟩
  -- the name that was claimed in between is none of the later ones
  rw [claim_of_notMem new, List.mem_cons, not_or]
  refine ⟨?_, h.fresh name (List.mem_cons_of_mem _ hn)⟩
  rintro rfl
  exact notLater hn

/-- Claims in a row leave taken what the first and then the others take. -/
theorem claimAll_append_snd (taken : TakenNames) (first rest : List String) :
    (taken.claimAll (first ++ rest)).2 = ((taken.claimAll first).2.claimAll rest).2 := by
  induction first generalizing taken with
  | nil => rfl
  | cons wanted first ih => exact ih _

/-- Spared names can be claimed in two parts. -/
theorem Spares.of_append {taken : TakenNames} {first rest : List String}
    (h : taken.Spares (first ++ rest)) :
    taken.Spares first ∧ (taken.claimAll first).2.Spares rest := by
  refine ⟨⟨h.nodup.of_append_left, fun name hn => h.fresh name (List.mem_append_left _ hn)⟩, ?_⟩
  induction first generalizing taken with
  | nil => exact h
  | cons wanted first ih => exact ih h.of_cons.2

/-- Names that are spared are claimed as they are. -/
theorem Spares.claimAll_eq {taken : TakenNames} {wanted : List String} (h : taken.Spares wanted) :
    (taken.claimAll wanted).1 = wanted := by
  induction wanted generalizing taken with
  | nil => rfl
  | cons first rest ih =>
    have ⟨new, later⟩ := h.of_cons
    have claimed : (taken.claim first).1 = first := congrArg Prod.fst (claim_of_notMem new)
    show (taken.claim first).1 :: ((taken.claim first).2.claimAll rest).1 = first :: rest
    rw [claimed, ih later]

end TakenNames

/-! ## 2. Different places want different names -/

theorem toList_toString_nat (n : Nat) : (toString n).toList = Nat.toDigits 10 n := by
  rw [Nat.toString_eq_repr, Nat.toList_repr]

theorem toDigits_inj {n m : Nat} (h : Nat.toDigits 10 n = Nat.toDigits 10 m) : n = m := by
  rw [← Nat.ofDigitChars_ten_toDigits (n := n), h, Nat.ofDigitChars_ten_toDigits]

theorem dot_notMem_toDigits (n : Nat) : '.' ∉ Nat.toDigits 10 n := fun h =>
  absurd (Nat.isDigit_of_mem_toDigits (by decide) (by decide) h) (by decide)

/-- The last dot of a text divides it in one way. -/
theorem append_dot_inj {a b x y : List Char} (hx : '.' ∉ x) (hy : '.' ∉ y)
    (h : a ++ '.' :: x = b ++ '.' :: y) : a = b ∧ x = y := by
  rcases List.append_eq_append_iff.1 h with ⟨m, rfl, hm⟩ | ⟨m, rfl, hm⟩
  · cases m with
    | nil => exact ⟨(List.append_nil a).symm, (List.cons.inj hm).2⟩
    | cons c m =>
      -- the dot of the other division would stand behind this one
      have ⟨_, rest⟩ := List.cons.inj hm
      exact absurd (rest ▸ List.mem_append_right m List.mem_cons_self) hx
  · cases m with
    | nil => exact ⟨List.append_nil b, (List.cons.inj hm).2.symm⟩
    | cons c m =>
      have ⟨_, rest⟩ := List.cons.inj hm
      exact absurd (rest ▸ List.mem_append_right m List.mem_cons_self) hy

/-- The name of a tail, character by character: both numbers stand behind a dot. -/
theorem toList_tail (origin : String) (alternative position : Nat) :
    (WantedName.tail origin alternative position).toList =
      "$bin.".toList ++ origin.toList ++ '.' :: Nat.toDigits 10 alternative ++
        '.' :: Nat.toDigits 10 position := by
  simp only [WantedName.tail, String.toList_append, toList_toString_nat]
  simp

/-- **A tail's name tells its place.** -/
theorem TailPlace.wanted_injective : Function.Injective TailPlace.wanted := by
  rintro ⟨origin, alternative, position⟩ ⟨origin', alternative', position'⟩ h
  have chars := congrArg String.toList h
  simp only [TailPlace.wanted, toList_tail] at chars
  -- read from the end: first the position comes off, and then the number of the alternative
  obtain ⟨front, positions⟩ :=
    append_dot_inj (dot_notMem_toDigits _) (dot_notMem_toDigits _) chars
  obtain ⟨front, alternatives⟩ :=
    append_dot_inj (dot_notMem_toDigits _) (dot_notMem_toDigits _) front
  have origins := String.toList_inj.1 (List.append_cancel_left front)
  rw [origins, toDigits_inj alternatives, toDigits_inj positions]

/-- The places at which a grammar is cut are distinct. -/
theorem Rule.nodup_tailPlaces (rule : Rule) : rule.tailPlaces.Nodup := by
  unfold tailPlaces
  rw [List.nodup_flatMap]
  refine ⟨fun x _ => ?_, ?_⟩
  · -- the places of one alternative differ by their position
    refine (List.nodup_range' (s := 1)).map fun i j e => ?_
    exact congrArg TailPlace.position e
  · -- alternatives differ by their number
    have numbers : (rule.alternatives.zipIdx.map Prod.snd).Nodup := by
      rw [List.zipIdx_map_snd]
      exact List.nodup_range'
    refine (List.pairwise_map.1 numbers).imp fun {x y} ne place hx hy => ne ?_
    obtain ⟨i, -, rfl⟩ := List.mem_map.1 hx
    obtain ⟨j, -, e⟩ := List.mem_map.1 hy
    exact (congrArg TailPlace.alternative e).symm

/-- Rules differ by their names, so no two of them share a place. -/
theorem nodup_tailPlaces {rules : List Rule} (nodup : (rules.map Rule.name).Nodup) :
    (rules.flatMap Rule.tailPlaces).Nodup := by
  rw [List.nodup_flatMap]
  refine ⟨fun rule _ => rule.nodup_tailPlaces, ?_⟩
  have origin : ∀ (rule : Rule), ∀ place ∈ rule.tailPlaces, place.origin = rule.name := by
    intro rule place h
    obtain ⟨x, -, h⟩ := List.mem_flatMap.1 h
    obtain ⟨i, -, rfl⟩ := List.mem_map.1 h
    rfl
  refine (List.pairwise_map.1 nodup).imp fun {a b} ne place ha hb => ne ?_
  rw [← origin a place ha, origin b place hb]

/-! ## 3. Rules that are cut as if they stood alone -/

namespace Cut

/-- Two cuts that keep and cut off the same, whatever names are taken. -/
structure Agrees {α : Type} (c c' : Cut α) : Prop where
  kept : c.kept = c'.kept
  tails : c.tails = c'.tails

/-- The names that a row wants from a position on. -/
def wantedByRow (origin : String) (alternative position count : Nat) : List String :=
  ((List.range' position count).map (TailPlace.mk origin alternative)).map TailPlace.wanted

/-- What is taken after a row was cut is told from the names that it wants. -/
theorem taken_row (origin : String) (alternative position : Nat) (first : Symbol)
    (rest : List Symbol) (taken : TakenNames) :
    (row origin alternative position first rest taken).taken =
      (taken.claimAll (wantedByRow origin alternative position (rest.length - 1))).2 := by
  induction rest generalizing position first taken with
  | nil => rfl
  | cons second rest ih =>
    cases rest with
    | nil => rfl
    | cons third rest =>
      have later := ih (position + 1) second
        (taken.claim (WantedName.tail origin alternative position)).2
      rw [List.length_cons, Nat.add_sub_cancel] at later
      rw [row_long, List.length_cons, Nat.add_sub_cancel, List.length_cons]
      exact later

/-- A row is cut alike wherever the names that it wants are spared. -/
theorem agrees_row {origin : String} {alternative position : Nat} {first : Symbol}
    {rest : List Symbol} {taken taken' : TakenNames}
    (h : taken.Spares (wantedByRow origin alternative position (rest.length - 1)))
    (h' : taken'.Spares (wantedByRow origin alternative position (rest.length - 1))) :
    (row origin alternative position first rest taken).Agrees
      (row origin alternative position first rest taken') := by
  induction rest generalizing position first taken taken' with
  | nil => exact ⟨rfl, rfl⟩
  | cons second rest ih =>
    cases rest with
    | nil => exact ⟨rfl, rfl⟩
    | cons third rest =>
      have split : wantedByRow origin alternative position (rest.length + 1) =
          WantedName.tail origin alternative position ::
            wantedByRow origin alternative (position + 1) rest.length := rfl
      simp only [List.length_cons, Nat.add_sub_cancel, split] at h h' ih
      -- both claim the wanted name, and go on with the same row
      have claimed := congrArg Prod.fst (TakenNames.claim_of_notMem h.of_cons.1)
      have claimed' := congrArg Prod.fst (TakenNames.claim_of_notMem h'.of_cons.1)
      have later := @ih _ second _ _ h.of_cons.2 h'.of_cons.2
      rw [row_long, row_long]
      refine ⟨?_, ?_⟩
      · dsimp only
        rw [claimed, claimed']
      · dsimp only
        rw [claimed, claimed', later.kept, later.tails]

/-- The names that an alternative wants. -/
def wantedByProduction (origin : String) (alternative : Nat) (p : Production) : List String :=
  (p.tailPlaces origin alternative).map TailPlace.wanted

theorem taken_production (origin : String) (alternative : Nat) (p : Production)
    (taken : TakenNames) :
    (production origin alternative p taken).taken =
      (taken.claimAll (wantedByProduction origin alternative p)).2 := by
  obtain ⟨symbols, ne⟩ := p
  cases symbols with
  | nil => exact absurd rfl ne
  | cons first rest => exact taken_row origin alternative 1 first rest taken

/-- An alternative is cut alike wherever its names are spared. -/
theorem agrees_production {origin : String} {alternative : Nat} {p : Production}
    {taken taken' : TakenNames} (h : taken.Spares (wantedByProduction origin alternative p))
    (h' : taken'.Spares (wantedByProduction origin alternative p)) :
    (production origin alternative p taken).Agrees (production origin alternative p taken') := by
  obtain ⟨symbols, ne⟩ := p
  cases symbols with
  | nil => exact absurd rfl ne
  | cons first rest => exact agrees_row h h'

/-- The names that alternatives want, the first of which has a number. -/
def wantedByAlternatives (origin : String) (index : Nat) (ps : List Production) : List String :=
  (ps.zipIdx index).flatMap fun x => wantedByProduction origin x.2 x.1

/-- The same for the alternatives of a rule, whose rows are cut one after the other. -/
theorem taken_alternatives (origin : String) (index : Nat) (ps : List Production)
    (taken : TakenNames) :
    (alternatives origin index ps taken).taken =
      (taken.claimAll (wantedByAlternatives origin index ps)).2 := by
  induction ps generalizing index taken with
  | nil => rfl
  | cons p rest ih =>
    rw [wantedByAlternatives, List.zipIdx_cons, List.flatMap_cons,
      TakenNames.claimAll_append_snd, ← taken_production]
    exact ih _ _

/-- The alternatives of a rule are cut alike wherever their names are spared. -/
theorem agrees_alternatives {origin : String} {index : Nat} {ps : List Production}
    {taken taken' : TakenNames} (h : taken.Spares (wantedByAlternatives origin index ps))
    (h' : taken'.Spares (wantedByAlternatives origin index ps)) :
    (alternatives origin index ps taken).Agrees (alternatives origin index ps taken') := by
  induction ps generalizing index taken taken' with
  | nil => exact ⟨rfl, rfl⟩
  | cons p rest ih =>
    rw [wantedByAlternatives, List.zipIdx_cons, List.flatMap_cons] at h h'
    have head := agrees_production h.of_append.1 h'.of_append.1
    -- the names that the first one takes are the same in both, and leave the others spared
    have others := ih (taken_production origin index p taken ▸ h.of_append.2)
      (taken_production origin index p taken' ▸ h'.of_append.2)
    refine ⟨?_, ?_⟩
    · rw [alternatives, alternatives]
      dsimp only
      rw [head.kept, others.kept]
    · rw [alternatives, alternatives]
      dsimp only
      rw [head.tails, others.tails]

end Cut

/-- A rule that is cut on its own, when no name is taken. -/
def Rule.cut (rule : Rule) : Cut (List Production) :=
  Cut.alternatives rule.name 0 rule.alternatives ⟨[]⟩

/-- The names that a rule wants for its tails. -/
def Rule.wanted (rule : Rule) : List String :=
  Cut.wantedByAlternatives rule.name 0 rule.alternatives

/-- The names that a rule wants are those of its places. -/
theorem Rule.wanted_eq (rule : Rule) : rule.wanted = rule.tailPlaces.map TailPlace.wanted := by
  rw [wanted, Cut.wantedByAlternatives, tailPlaces, List.map_flatMap]
  rfl

/-- **Where no name needs a prime, each rule is cut as if it stood alone.** -/
theorem Cut.rules_of_spares {rs : List Rule} {taken : TakenNames}
    (h : taken.Spares (rs.flatMap Rule.wanted)) :
    (rules rs taken).kept = rs.map (fun rule => ⟨rule.name, rule.cut.kept⟩) ∧
      (rules rs taken).tails = rs.flatMap fun rule => rule.cut.tails := by
  induction rs generalizing taken with
  | nil => exact ⟨rfl, rfl⟩
  | cons rule rest ih =>
    rw [List.flatMap_cons] at h
    -- on its own a rule has all names to itself
    have alone : TakenNames.Spares ⟨[]⟩ rule.wanted :=
      ⟨h.of_append.1.nodup, fun _ _ => List.not_mem_nil⟩
    have head := agrees_alternatives h.of_append.1 alone
    have others := ih (taken_alternatives rule.name 0 rule.alternatives taken ▸ h.of_append.2)
    rw [rules]
    dsimp only
    rw [head.kept, head.tails, others.1, others.2]
    exact ⟨rfl, rfl⟩

/-! ## 4. Stand-ins with the names that they want -/

/-- The stand-in of a terminal under the name that it wants. -/
def StandIn.own (terminal : String) : StandIn := ⟨terminal, WantedName.standIn terminal⟩

/-- Where no name needs a prime, every terminal gets the stand-in that it wants. -/
theorem StandIn.claimAll_of_spares {taken : TakenNames} {terminals : List String}
    (h : taken.Spares (terminals.map WantedName.standIn)) :
    claimAll taken terminals = terminals.map own := by
  rw [claimAll, h.claimAll_eq, List.zipWith_map_right, List.zipWith_self]
  rfl

/-- What stands in the place of a terminal depends on whether it is isolated. -/
theorem StandIn.substitute_own (terminals : List String) (text : String) :
    substitute (terminals.map own) (.terminal text) =
      if text ∈ terminals then .nonterminal (WantedName.standIn text) else .terminal text := by
  induction terminals with
  | nil => rfl
  | cons terminal rest ih =>
    by_cases same : terminal = text
    · rw [same, if_pos List.mem_cons_self]
      simp [substitute, own]
    · have other : (text ∈ terminal :: rest) = (text ∈ rest) := by
        rw [List.mem_cons, or_iff_right (Ne.symm same)]
      simp only [other]
      rw [← ih]
      simp [substitute, own, same]

end ChomskyForm
