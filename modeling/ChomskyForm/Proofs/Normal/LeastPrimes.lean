/-
A claimed name has the fewest primes.

The search for a free name has no bound of its own: it primes a name as long as
the name is taken. It ends because the primed forms of a name are distinct and
only so many names are taken, and it ends at the first form that is free. So the
name that a claim answers is told from what is wanted and from what is taken
before, whatever else was claimed in between: `claimAll_least` says it of every
claim in a row.
-/
import Mathlib.Data.Finset.Card
import Mathlib.Data.List.GetD
import Mathlib.Order.Bounds.Basic
import ChomskyForm.Proofs.Normal.GeneratedNames

set_option autoImplicit false

namespace ChomskyForm

/-! ## 1. Names with some primes -/

/-- A name with some primes behind it. -/
def primed (name : String) (count : Nat) : String :=
  name ++ String.ofList (List.replicate count '\'')

theorem primed_zero (name : String) : primed name 0 = name := String.append_empty

/-- Another prime may be set behind the name first. -/
theorem primed_succ (name : String) (count : Nat) :
    primed name (count + 1) = primed (name ++ "'") count := by
  apply String.ext
  simp only [primed, String.toList_append, String.toList_ofList, List.replicate_succ,
    List.append_assoc]
  rfl

theorem length_primed (name : String) (count : Nat) :
    (primed name count).length = name.length + count := by
  rw [primed, String.length_append, String.length_ofList, List.length_replicate]

/-- No two primed forms of a name agree, as their lengths differ. -/
theorem primed_injective (name : String) : Function.Injective (primed name) := by
  intro i j same
  have lengths := congrArg String.length same
  rw [length_primed, length_primed] at lengths
  omega

/-! ## 2. One claim -/

namespace TakenNames

variable (taken : TakenNames)

/-- The search goes through the primed forms and stops at the first free one. -/
theorem exists_free_eq (wanted : String) :
    ∃ count, taken.free wanted = primed wanted count ∧
      IsLeast {k | primed wanted k ∉ taken.names} count := by
  fun_induction free taken wanted with
  | case1 wanted isTaken ih =>
    obtain ⟨count, found, isFree, least⟩ := ih
    refine ⟨count + 1, found.trans (primed_succ wanted count).symm, ?_, ?_⟩
    · rwa [Set.mem_ofPred_eq, primed_succ]
    · intro k hk
      -- the name itself is taken, so a free form has a prime to give away
      cases k with
      | zero =>
        rw [Set.mem_ofPred_eq, primed_zero] at hk
        exact absurd isTaken hk
      | succ k =>
        rw [Set.mem_ofPred_eq, primed_succ] at hk
        exact Nat.succ_le_succ (least hk)
  | case2 wanted isFree =>
    refine ⟨0, (primed_zero wanted).symm, ?_, fun k _ => Nat.zero_le k⟩
    rwa [Set.mem_ofPred_eq, primed_zero]

/-- The primed forms that the search passes are distinct taken names. -/
theorem le_card_of_isLeast {wanted : String} {count : Nat}
    (h : IsLeast {k | primed wanted k ∉ taken.names} count) :
    count ≤ taken.names.toFinset.card := by
  have passed : ∀ k ∈ Finset.range count, primed wanted k ∈ taken.names.toFinset := by
    intro k hk
    rw [List.mem_toFinset]
    by_contra isFree
    exact absurd (h.2 isFree) (Nat.not_le.2 (Finset.mem_range.1 hk))
  have distinct : Set.InjOn (primed wanted) (Finset.range count) :=
    (primed_injective wanted).injOn
  calc count = (Finset.range count).card := (Finset.card_range count).symm
    _ ≤ taken.names.toFinset.card := Finset.card_le_card_of_injOn _ passed distinct

/-! ## 3. Rows of claims -/

/-- **Every claim of a row answers the least primed form**: least among those that
are not taken at first and were not answered before. -/
theorem claimAll_least {wanted : List String} {i : Nat} {candidate : String}
    (asked : wanted[i]? = some candidate) :
    ∃ count, (taken.claimAll wanted).1[i]? = some (primed candidate count) ∧
      IsLeast {k | primed candidate k ∉ taken.names ∧
        primed candidate k ∉ (taken.claimAll wanted).1.take i} count ∧
      count ≤ taken.names.toFinset.card + i := by
  induction wanted generalizing taken i with
  | nil => simp at asked
  | cons first rest ih =>
    have row : (taken.claimAll (first :: rest)).1 =
        taken.free first :: ((taken.claim first).2.claimAll rest).1 := rfl
    rw [row]
    cases i with
    | zero =>
      obtain rfl : first = candidate := Option.some.inj asked
      obtain ⟨count, found, least⟩ := taken.exists_free_eq first
      refine ⟨count, congrArg some found, ?_, taken.le_card_of_isLeast least⟩
      simpa only [List.take_zero, List.not_mem_nil, not_false_eq_true, and_true] using least
    | succ i =>
      obtain ⟨count, found, least, bound⟩ := ih (taken.claim first).2 asked
      have grown : (taken.claim first).2.names = taken.free first :: taken.names := rfl
      rw [grown] at least bound
      refine ⟨count, found, ?_, ?_⟩
      · -- the first answer is taken for the others, or answered before them
        simpa only [List.take_succ_cons, List.mem_cons, not_or, and_comm, and_left_comm]
          using least
      · rw [List.toFinset_cons] at bound
        have one := Finset.card_insert_le (taken.free first) taken.names.toFinset
        omega

end TakenNames

/-! ## 4. The names of a grammar -/

namespace Grammar

/-- A grammar does not know just the names that are not taken at first. -/
theorem fresh_iff (g : Grammar) (name : String) :
    g.Fresh name ↔ name ∉ (TakenNames.ofGrammar g).names := by
  rw [mem_taken_iff, not_or, not_or]
  rfl

/-- **Claims on the names of a grammar** answer the least primed form that the
grammar does not know and that was not answered before. The search for it looks
at no more forms than there are names to pass. -/
theorem claims_have_fewest_primes (g : Grammar) (wanted : List String) :
    ((TakenNames.ofGrammar g).claimAll wanted).1.length = wanted.length ∧
      (∀ i candidate, wanted[i]? = some candidate →
        ∃ count, ((TakenNames.ofGrammar g).claimAll wanted).1[i]? =
            some (primed candidate count) ∧
          IsLeast {k | g.Fresh (primed candidate k) ∧
            primed candidate k ∉ ((TakenNames.ofGrammar g).claimAll wanted).1.take i} count ∧
          count ≤ (TakenNames.ofGrammar g).names.toFinset.card + i) ∧
      ((TakenNames.ofGrammar g).claimAll wanted).1.Nodup ∧
      ∀ name ∈ ((TakenNames.ofGrammar g).claimAll wanted).1, g.Fresh name := by
  have claims := (TakenNames.ofGrammar g).claims_claimAll wanted
  refine ⟨TakenNames.length_claimAll _ _, ?_, claims.nodup, fun name => fresh_of_claims claims⟩
  intro i candidate asked
  simp only [fresh_iff]
  exact (TakenNames.ofGrammar g).claimAll_least asked

/-- A grammar that refers to two primed names and starts with a third one, none of
which it declares. -/
def primedReferences : Grammar :=
  ⟨RuleTable.ofList [⟨"S", [.pair (.nonterminal "a''") (.nonterminal "$start")]⟩], some "T"⟩

/-- The third claim passes its own name, which was answered before, a name that
was wanted with its prime, and a name that is referred to. -/
theorem claims_have_fewest_primes_interleaved :
    ((TakenNames.ofGrammar primedReferences).claimAll ["a'", "a", "a", "a'", "T", "$start"]).1 =
        ["a'", "a", "a'''", "a''''", "T'", "$start'"] ∧
      IsLeast {k | primedReferences.Fresh (primed "a" k) ∧ primed "a" k ∉ ["a'", "a"]} 3 := by
  have answers :
      ((TakenNames.ofGrammar primedReferences).claimAll ["a'", "a", "a", "a'", "T", "$start"]).1 =
        ["a'", "a", "a'''", "a''''", "T'", "$start'"] := by decide +kernel
  obtain ⟨-, least, -⟩ :=
    claims_have_fewest_primes primedReferences ["a'", "a", "a", "a'", "T", "$start"]
  obtain ⟨count, found, third, -⟩ := least 2 "a" rfl
  rw [answers] at found third
  have three : primed "a" 3 = "a'''" := by decide +kernel
  obtain rfl : count = 3 := primed_injective "a" ((Option.some.inj found).symm.trans three.symm)
  exact ⟨answers, third⟩

end Grammar

end ChomskyForm
