/-
The language of a nonterminal.

A row of symbols derives a list of terminal texts if every terminal stands for
itself and every nonterminal is replaced by what one of its productions
derives. A nonterminal that is not declared has no production, so it derives
nothing.

What an interpretation of the nonterminals by languages makes of a row is the
product of the languages of its symbols. The languages that a grammar derives
are the least interpretation in which no production of a nonterminal yields
more than the nonterminal itself: `rowLanguage_le_language` says that they are
such an interpretation, and `language_le_of_closed` that every other one
contains them. Comparing two grammars thus needs no derivation at all; it needs
one inclusion for each production.
-/
import Mathlib.Computability.Language
import Mathlib.Order.CompletePartialOrder
import ChomskyForm.Proofs.Grammar.Lookup

set_option autoImplicit false

namespace ChomskyForm

/-! ## 1. Derivations -/

/-- `g.Derives row texts`: the symbols of `row`, from left to right, derive the
terminal texts `texts`. -/
inductive Grammar.Derives (g : Grammar) : List Symbol → List String → Prop
  | nil : Derives g [] []
  | terminal {text : String} {rest : List Symbol} {texts : List String} :
      Derives g rest texts → Derives g (.terminal text :: rest) (text :: texts)
  | nonterminal {name : String} {p : Production} {rest : List Symbol}
      {first texts : List String} :
      p ∈ g.productionsOf name → Derives g p.symbols first → Derives g rest texts →
      Derives g (.nonterminal name :: rest) (first ++ texts)

/-- The language of a nonterminal: all lists of terminal texts that it derives. -/
def Grammar.language (g : Grammar) (name : String) : Language String :=
  {texts | g.Derives [.nonterminal name] texts}

/-- The language of a grammar is that of its start symbol. -/
def Grammar.startLanguage (g : Grammar) : Language String :=
  match g.start? with
  | some start => g.language start
  | none => 0

/-! ## 2. Interpretations -/

/-- The language of a symbol if nonterminals have these languages. -/
def symbolLanguage (I : String → Language String) : Symbol → Language String
  | .terminal text => {[text]}
  | .nonterminal name => I name

/-- The language of a row of symbols if nonterminals have these languages. -/
def rowLanguage (I : String → Language String) (row : List Symbol) : Language String :=
  (row.map (symbolLanguage I)).prod

@[simp] theorem rowLanguage_nil (I : String → Language String) : rowLanguage I [] = 1 := rfl

/-- A row yields what its first symbol yields, followed by what the others yield. -/
@[simp] theorem rowLanguage_cons (I : String → Language String) (s : Symbol)
    (row : List Symbol) : rowLanguage I (s :: row) = symbolLanguage I s * rowLanguage I row := by
  simp [rowLanguage]

theorem rowLanguage_singleton (I : String → Language String) (s : Symbol) :
    rowLanguage I [s] = symbolLanguage I s := by
  rw [rowLanguage_cons, rowLanguage_nil, mul_one]

/-- A row yields no more than one that yields more symbol by symbol. -/
theorem rowLanguage_map_le {I J : String → Language String} {f : Symbol → Symbol}
    {row : List Symbol} (h : ∀ s ∈ row, symbolLanguage I (f s) ≤ symbolLanguage J s) :
    rowLanguage I (row.map f) ≤ rowLanguage J row := by
  induction row with
  | nil => exact le_refl _
  | cons s rest ih =>
    rw [List.map_cons, rowLanguage_cons, rowLanguage_cons]
    refine mul_le_mul' (h s List.mem_cons_self) (ih ?_)
    intro t ht
    exact h t (List.mem_cons_of_mem s ht)

/-- A row yields no less than one that yields less symbol by symbol. -/
theorem le_rowLanguage_map {I J : String → Language String} {f : Symbol → Symbol}
    {row : List Symbol} (h : ∀ s ∈ row, symbolLanguage I s ≤ symbolLanguage J (f s)) :
    rowLanguage I row ≤ rowLanguage J (row.map f) := by
  induction row with
  | nil => exact le_refl _
  | cons s rest ih =>
    rw [List.map_cons, rowLanguage_cons, rowLanguage_cons]
    refine mul_le_mul' (h s List.mem_cons_self) (ih ?_)
    intro t ht
    exact h t (List.mem_cons_of_mem s ht)

/-- More for the nonterminals of a row is more for the row. -/
theorem rowLanguage_mono {I J : String → Language String} {row : List Symbol}
    (h : ∀ name, .nonterminal name ∈ row → I name ≤ J name) :
    rowLanguage I row ≤ rowLanguage J row := by
  have symbols : ∀ s ∈ row, symbolLanguage I s ≤ symbolLanguage J (id s) := by
    intro s hs
    cases s with
    | terminal text => exact le_refl _
    | nonterminal name => exact h name hs
  have := le_rowLanguage_map symbols
  rwa [List.map_id] at this

/-- A row depends on the nonterminals that occur in it, and on no others. -/
theorem rowLanguage_congr {I J : String → Language String} {row : List Symbol}
    (h : ∀ name, .nonterminal name ∈ row → I name = J name) :
    rowLanguage I row = rowLanguage J row :=
  le_antisymm (rowLanguage_mono fun name hn => le_of_eq (h name hn))
    (rowLanguage_mono fun name hn => le_of_eq (h name hn).symm)

namespace Grammar

/-! ## 3. The least interpretation -/

/-- Derivations of two rows make a derivation of both in a row. -/
theorem Derives.append {g : Grammar} {row row' : List Symbol} {texts texts' : List String}
    (h : g.Derives row texts) (h' : g.Derives row' texts') :
    g.Derives (row ++ row') (texts ++ texts') := by
  induction h with
  | nil => exact h'
  | terminal _ ih => exact .terminal ih
  | nonterminal hp hd _ _ ih =>
    rw [List.append_assoc]
    exact .nonterminal hp hd ih

/-- What a row derives is the product of what its symbols derive. -/
theorem derives_iff_mem_rowLanguage (g : Grammar) (row : List Symbol) (texts : List String) :
    g.Derives row texts ↔ texts ∈ rowLanguage g.language row := by
  constructor
  · intro h
    induction h with
    | nil => exact Language.nil_mem_one
    | terminal _ ih => exact Language.append_mem_mul (a := [_]) rfl ih
    | nonterminal hp hd _ _ ih =>
      -- the step for the first symbol, with nothing behind it, is a derivation of its own
      have whole : g.Derives [.nonterminal _] (_ ++ []) := .nonterminal hp hd .nil
      rw [List.append_nil] at whole
      exact Language.append_mem_mul whole ih
  · intro h
    induction row generalizing texts with
    | nil =>
      rw [rowLanguage_nil, Language.mem_one] at h
      subst h
      exact .nil
    | cons s rest ih =>
      rw [rowLanguage_cons, Language.mem_mul] at h
      -- the texts split into those of the first symbol and those of the others
      obtain ⟨first, hf, others, ho, rfl⟩ := h
      cases s with
      | terminal text =>
        obtain rfl : first = [text] := hf
        exact .terminal (ih others ho)
      | nonterminal name =>
        have hd : g.Derives [.nonterminal name] first := hf
        exact hd.append (ih others ho)

/-- **The derived languages are closed**: a production yields nothing that its
nonterminal does not. -/
theorem rowLanguage_le_language {g : Grammar} {name : String} {p : Production}
    (h : p ∈ g.productionsOf name) : rowLanguage g.language p.symbols ≤ g.language name := by
  intro texts ht
  have hd := (g.derives_iff_mem_rowLanguage p.symbols texts).2 ht
  have whole : g.Derives [.nonterminal name] (texts ++ []) := .nonterminal h hd .nil
  rw [List.append_nil] at whole
  exact whole

/-- **The derived languages are the least closed ones.** -/
theorem language_le_of_closed {g : Grammar} {I : String → Language String}
    (closed : ∀ name, ∀ p ∈ g.productionsOf name, rowLanguage I p.symbols ≤ I name)
    (name : String) : g.language name ≤ I name := by
  -- by induction on the derivation, for rows instead of single nonterminals
  have rows : ∀ row texts, g.Derives row texts → texts ∈ rowLanguage I row := by
    intro row texts h
    induction h with
    | nil => exact Language.nil_mem_one
    | terminal _ ih => exact Language.append_mem_mul (a := [_]) rfl ih
    | nonterminal hp _ _ ihp ih =>
      rw [rowLanguage_cons]
      exact Language.append_mem_mul (closed _ _ hp ihp) ih
  intro texts ht
  have := rows _ _ ht
  rw [rowLanguage_singleton] at this
  exact this

/-- A nonterminal derives what its productions yield, and nothing else. -/
theorem language_le_of_productions {g : Grammar} {name : String} {L : Language String}
    (h : ∀ p ∈ g.productionsOf name, rowLanguage g.language p.symbols ≤ L) :
    g.language name ≤ L := by
  intro texts ht
  cases ht with
  | nonterminal hp hd hn =>
    cases hn
    rw [List.append_nil]
    exact h _ hp ((g.derives_iff_mem_rowLanguage _ _).1 hd)

end Grammar

end ChomskyForm
