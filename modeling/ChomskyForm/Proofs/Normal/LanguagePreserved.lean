/-
The stages keep the language.

Whatever stages a grammar goes through, in whatever order and however often:
its nonterminals stay declared and keep their languages, and so does the start
symbol. The grammar may refer to names that it does not declare, may have
nonterminals without alternatives, and may have unit cycles.

Each stage is compared with its input by two inclusions. That nothing is lost
means that the new languages are closed under the old productions. That nothing
is gained means that the old languages, extended to the new nonterminals by the
rows that these stand for, are closed under the new productions.
-/
import ChomskyForm.Proofs.Grammar.Language
import ChomskyForm.Proofs.Normal.Cuts
import ChomskyForm.Proofs.Normal.StageResult
import ChomskyForm.Proofs.Normal.UnitReach

set_option autoImplicit false

namespace ChomskyForm

/-! ## 1. New nonterminals that stand for rows -/

/-- Languages for the nonterminals of a grammar, and for new ones: each of those
stands for a row. -/
def extendBy (I : String → Language String) (rows : List (String × List Symbol)) :
    String → Language String := fun name =>
  {texts | (∃ row, (name, row) ∈ rows ∧ texts ∈ rowLanguage I row) ∨
    (name ∉ rows.map Prod.fst ∧ texts ∈ I name)}

section ExtendBy

variable {I : String → Language String} {rows : List (String × List Symbol)}

/-- A name that stands for no row keeps its language. -/
theorem extendBy_of_notMem {name : String} (h : name ∉ rows.map Prod.fst) :
    extendBy I rows name = I name := by
  ext texts
  constructor
  · rintro (⟨row, hr, _⟩ | ⟨_, ht⟩)
    · exact absurd (List.mem_map_of_mem hr) h
    · exact ht
  · intro ht
    exact .inr ⟨h, ht⟩

/-- A name that stands for a row gets the language of the row. -/
theorem extendBy_of_mem (nodup : (rows.map Prod.fst).Nodup) {name : String} {row : List Symbol}
    (h : (name, row) ∈ rows) : extendBy I rows name = rowLanguage I row := by
  have old : name ∈ rows.map Prod.fst := List.mem_map_of_mem h
  ext texts
  constructor
  · rintro (⟨row', hr, ht⟩ | ⟨new, _⟩)
    · -- no name stands for two rows
      have : (name, row') = (name, row) := List.inj_on_of_nodup_map nodup hr h rfl
      cases this
      exact ht
    · exact absurd old new
  · intro ht
    exact .inl ⟨row, h, ht⟩

/-- A row without new nonterminals means what it meant. -/
theorem rowLanguage_extendBy {row : List Symbol}
    (h : ∀ name, .nonterminal name ∈ row → name ∉ rows.map Prod.fst) :
    rowLanguage (extendBy I rows) row = rowLanguage I row :=
  rowLanguage_congr fun name hn => extendBy_of_notMem (h name hn)

end ExtendBy

namespace Grammar

/-- **Two grammars agree** on the nonterminals that stand for no row if each
interprets the productions of the other. -/
theorem language_eq_of_closed {g g' : Grammar} (rows : List (String × List Symbol))
    (forward : ∀ name, ∀ p ∈ g.productionsOf name,
      rowLanguage g'.language p.symbols ≤ g'.language name)
    (backward : ∀ name, ∀ p ∈ g'.productionsOf name,
      rowLanguage (extendBy g.language rows) p.symbols ≤ extendBy g.language rows name)
    {name : String} (h : name ∉ rows.map Prod.fst) : g'.language name = g.language name := by
  apply le_antisymm
  · -- the extension leaves the nonterminals alone that stand for no row
    have := language_le_of_closed backward name
    rwa [extendBy_of_notMem h] at this
  · exact language_le_of_closed forward name

/-- An old production means the same with the new nonterminals. -/
theorem rowLanguage_extendBy_of_mem {g : Grammar} {rows : List (String × List Symbol)}
    {after : TakenNames} (new : (TakenNames.ofGrammar g).Claims (rows.map Prod.fst) after)
    {name : String} {p : Production} (hp : p ∈ g.productionsOf name) {row : List Symbol}
    (sub : ∀ s ∈ row, s ∈ p.symbols) :
    rowLanguage (extendBy g.language rows) row = rowLanguage g.language row := by
  apply rowLanguage_extendBy
  intro m hm added
  exact new.fresh m added (mem_taken_of_mem_productionsOf hp (sub _ hm))

/-- A declared nonterminal keeps its language. -/
theorem extendBy_of_mem_names {g : Grammar} {rows : List (String × List Symbol)}
    {after : TakenNames} (new : (TakenNames.ofGrammar g).Claims (rows.map Prod.fst) after)
    {name : String} (h : name ∈ g.names) : extendBy g.language rows name = g.language name :=
  extendBy_of_notMem fun added => new.fresh name added (mem_taken_of_mem_names h)

/-! ## 2. The wrapper -/

namespace WrapsStart

variable {g g' : Grammar} {inner : String}

/-- The wrapper changes the language of no other nonterminal. -/
theorem language_eq (h : g.WrapsStart inner g') {name : String} (old : name ≠ g.wrapperName) :
    g'.language name = g.language name := by
  let rows : List (String × List Symbol) := [(g.wrapperName, [.nonterminal inner])]
  have new : (TakenNames.ofGrammar g).Claims (rows.map Prod.fst) _ := g.claims_wrapperName
  apply language_eq_of_closed rows
  · intro n p hp
    exact rowLanguage_le_language ((h.mem_productionsOf_iff n p).2 (.inr hp))
  · intro n p hp
    rcases (h.mem_productionsOf_iff n p).1 hp with ⟨rfl, rfl⟩ | hp
    · -- the start symbol is taken, so it is no name of a wrapper
      rw [extendBy_of_mem new.nodup (List.mem_singleton.2 rfl)]
      apply le_of_eq
      apply rowLanguage_extendBy
      intro m hm added
      cases List.mem_singleton.1 hm
      exact new.fresh _ added (mem_taken_of_start? h.start?)
    · rw [rowLanguage_extendBy_of_mem new hp fun s hs => hs,
        extendBy_of_mem_names new (g.mem_names_of_mem_productionsOf hp)]
      exact rowLanguage_le_language hp
  · simpa [rows] using old

/-- The wrapper has the language of what it wraps. -/
theorem language_wrapperName (h : g.WrapsStart inner g') :
    g'.language g.wrapperName = g.language inner := by
  have other : inner ≠ g.wrapperName := by
    rintro rfl
    exact g.wrapperName_notMem (mem_taken_of_start? h.start?)
  rw [← h.language_eq other]
  apply le_antisymm
  · apply language_le_of_productions
    intro p hp
    rcases (h.mem_productionsOf_iff _ p).1 hp with ⟨-, rfl⟩ | old
    · rw [Production.symbols_unit, rowLanguage_singleton]
      exact le_refl _
    · exact absurd (mem_taken_of_mem_names (g.mem_names_of_mem_productionsOf old))
        g.wrapperName_notMem
  · have := rowLanguage_le_language ((h.mem_productionsOf_iff _ _).2 (.inl ⟨rfl, rfl⟩))
    rwa [Production.symbols_unit, rowLanguage_singleton] at this

end WrapsStart

end Grammar

/-! ## 3. Stand-ins -/

namespace Grammar

/-- The row that a stand-in stands for is its terminal. -/
theorem IsolatesTerminals.language_eq {g g' : Grammar} (h : g.IsolatesTerminals g') {name : String}
    (old : name ∉ g.standIns.map StandIn.name) : g'.language name = g.language name := by
  let rows : List (String × List Symbol) := g.standIns.map fun x => (x.name, [.terminal x.terminal])
  have keys : rows.map Prod.fst = g.standIns.map StandIn.name := by
    rw [List.map_map]
    rfl
  have new := StandIn.claims_standIns g
  rw [← keys] at new
  have stands : ∀ x ∈ g.standIns, extendBy g.language rows x.name = {[x.terminal]} := by
    intro x hx
    rw [extendBy_of_mem new.nodup (List.mem_map_of_mem hx), rowLanguage_singleton]
    rfl
  apply language_eq_of_closed rows
  · -- nothing is lost: a stand-in derives at least its terminal
    intro n p hp
    refine le_trans ?_ (rowLanguage_le_language ((h.mem_productionsOf_iff n _).2
      (.inl ⟨p, hp, rfl⟩)))
    unfold Production.standInTerminals
    split
    · exact le_refl _
    · apply le_rowLanguage_map
      intro s _
      rcases StandIn.substitute_cases g.standIns s with e | ⟨x, hx, rfl, e⟩
      · rw [e]
      · rw [e]
        have := rowLanguage_le_language ((h.mem_productionsOf_iff x.name _).2
          (.inr ⟨x, hx, rfl, rfl⟩))
        rwa [Production.symbols_unit, rowLanguage_singleton] at this
  · -- nothing is gained: it derives nothing else
    intro n p hp
    rcases (h.mem_productionsOf_iff n p).1 hp with ⟨q, hq, rfl⟩ | ⟨x, hx, rfl, rfl⟩
    · rw [extendBy_of_mem_names new (g.mem_names_of_mem_productionsOf hq)]
      refine le_trans ?_ (rowLanguage_le_language hq)
      rw [← rowLanguage_extendBy_of_mem new hq fun s hs => hs]
      unfold Production.standInTerminals
      split
      · exact le_refl _
      · apply rowLanguage_map_le
        intro s _
        rcases StandIn.substitute_cases g.standIns s with e | ⟨x, hx, rfl, e⟩
        · rw [e]
        · rw [e]
          exact le_of_eq (stands x hx)
    · rw [Production.symbols_unit, rowLanguage_singleton, stands x hx]
      exact le_refl _
  · rwa [keys]

end Grammar

/-! ## 4. Tails -/

namespace Cut.Chain

variable {I : String → Language String} {row : List Symbol} {kept : Production}
  {tails : List Rule}

/-- Cutting a row loses nothing where the rules of the tails are respected. -/
theorem rowLanguage_le_kept (h : Chain row kept tails)
    (closed : ∀ rule ∈ tails, ∀ p ∈ rule.alternatives, rowLanguage I p.symbols ≤ I rule.name) :
    rowLanguage I row ≤ rowLanguage I kept.symbols := by
  induction h with
  | short _ hk => rw [hk]
  | long _ ih =>
    -- the first tail yields at least what the rest of the row is cut into
    obtain ⟨first, others⟩ := List.forall_mem_cons.1 closed
    rw [Production.symbols_pair, rowLanguage_cons I _ [_], rowLanguage_singleton,
      rowLanguage_cons]
    refine mul_le_mul' (le_refl _) ?_
    exact le_trans (ih others) (first _ (List.mem_singleton.2 rfl))

/-- Cutting a row changes nothing where every tail stands for its row. -/
theorem rowLanguage_pieces (h : Chain row kept tails)
    (stands : ∀ x ∈ (tails.map Rule.name).zip (tailRows row), I x.1 = rowLanguage I x.2) :
    rowLanguage I kept.symbols = rowLanguage I row ∧
      ∀ rule ∈ tails, ∀ p ∈ rule.alternatives, rowLanguage I p.symbols = I rule.name := by
  induction h with
  | short _ hk => exact ⟨by rw [hk], fun _ hr => absurd hr List.not_mem_nil⟩
  | long _ ih =>
    rw [tailRows, List.map_cons, List.zip_cons_cons, List.forall_mem_cons] at stands
    obtain ⟨first, others⟩ := stands
    obtain ⟨hk, ht⟩ := ih others
    refine ⟨?_, List.forall_mem_cons.2 ⟨?_, ht⟩⟩
    · rw [Production.symbols_pair, rowLanguage_cons, rowLanguage_singleton]
      show _ * I _ = _
      rw [first, ← rowLanguage_cons]
    · intro p hp
      rw [List.mem_singleton.1 hp, hk]
      exact first.symm

end Cut.Chain

namespace Grammar

/-- The names of the tails of a grammar with the rows that they stand for. -/
def tailRows (g : Grammar) : List (String × List Symbol) :=
  g.trims.flatMap fun x => x.trims.flatMap fun t =>
    (t.cut.tails.map Rule.name).zip (Cut.tailRows t.whole.symbols)

/-- The names that stand for rows are those of the tails. -/
theorem map_fst_tailRows (g : Grammar) :
    g.tailRows.map Prod.fst = g.cutRules.tails.map Rule.name := by
  rw [tails_eq_flatMap_trims, tailRows, List.map_flatMap, List.map_flatMap]
  apply List.flatMap_congr
  intro x hx
  rw [List.map_flatMap, List.map_flatMap]
  apply List.flatMap_congr
  intro t ht
  apply List.map_fst_zip
  rw [List.length_map, (chain_of_mem_trims hx ht).length_tails]

/-- A tail of a production stands for its row of the production. -/
theorem mem_tailRows {g : Grammar} {x : TrimmedRule} (hx : x ∈ g.trims) {t : Trim}
    (ht : t ∈ x.trims) {pair : String × List Symbol}
    (h : pair ∈ (t.cut.tails.map Rule.name).zip (Cut.tailRows t.whole.symbols)) :
    pair ∈ g.tailRows :=
  List.mem_flatMap.2 ⟨x, hx, List.mem_flatMap.2 ⟨t, ht, h⟩⟩

/-- Cutting changes the language of no old nonterminal. -/
theorem Binarizes.language_eq {g g' : Grammar} (h : g.Binarizes g') {name : String}
    (old : name ∉ g.cutRules.tails.map Rule.name) : g'.language name = g.language name := by
  have new : (TakenNames.ofGrammar g).Claims (g.tailRows.map Prod.fst) _ :=
    g.map_fst_tailRows ▸ g.claims_tails
  apply language_eq_of_closed g.tailRows
  · intro n p hp
    obtain ⟨x, hx, rfl, t, ht, rfl⟩ := exists_trim_of_mem_productionsOf hp
    refine le_trans ((chain_of_mem_trims hx ht).rowLanguage_le_kept ?_)
      (rowLanguage_le_language ((h.mem_productionsOf_iff _ _).2 ⟨x, hx, t, ht, .inl ⟨rfl, rfl⟩⟩))
    -- nothing is lost, since the new languages respect the rules of the tails
    intro rule hr q hq
    exact rowLanguage_le_language ((h.mem_productionsOf_iff _ _).2
      ⟨x, hx, t, ht, .inr ⟨rule, hr, rfl, hq⟩⟩)
  · intro n p hp
    obtain ⟨x, hx, t, ht, hp⟩ := (h.mem_productionsOf_iff n p).1 hp
    have whole := whole_mem_productionsOf hx ht
    -- the rows of the tails are made of symbols of the production
    have stands : ∀ pair ∈ (t.cut.tails.map Rule.name).zip (Cut.tailRows t.whole.symbols),
        extendBy g.language g.tailRows pair.1 =
          rowLanguage (extendBy g.language g.tailRows) pair.2 := by
      rintro ⟨n, row⟩ hpair
      rw [extendBy_of_mem new.nodup (mem_tailRows hx ht hpair)]
      refine (rowLanguage_extendBy_of_mem new whole ?_).symm
      intro s hs
      exact Cut.mem_of_mem_tailRows (List.of_mem_zip hpair).2 hs
    obtain ⟨hk, htails⟩ := (chain_of_mem_trims hx ht).rowLanguage_pieces stands
    rcases hp with ⟨rfl, rfl⟩ | ⟨rule, hr, rfl, ha⟩
    · rw [hk, rowLanguage_extendBy_of_mem new whole fun s hs => hs,
        extendBy_of_mem_names new (g.mem_names_of_mem_productionsOf whole)]
      exact rowLanguage_le_language whole
    · exact le_of_eq (htails rule hr p ha)
  · rwa [map_fst_tailRows]

/-! ## 5. Unit productions -/

/-- What unit productions lead to yields no more than where they start. -/
theorem language_le_of_unitReaches {g : Grammar} {origin name : String}
    (h : g.UnitReaches origin name) : g.language name ≤ g.language origin := by
  induction h with
  | refl => exact le_refl _
  | tail _ edge ih =>
    have := rowLanguage_le_language edge
    rw [Production.symbols_unit, rowLanguage_singleton] at this
    exact le_trans this ih

/-- Eliminating unit productions changes no language. -/
theorem EliminatesUnits.language_eq {g g' : Grammar} (h : g.EliminatesUnits g') (name : String) :
    g'.language name = g.language name := by
  apply le_antisymm
  · apply language_le_of_closed
    intro n p hp
    -- a resolvent comes from a nonterminal that unit productions lead to
    obtain ⟨-, m, reach, hp⟩ := (g.mem_resolvents_iff n p).1 ((h.mem_productionsOf_iff n p).1 hp).2
    exact le_trans (rowLanguage_le_language hp) (language_le_of_unitReaches reach)
  · apply language_le_of_closed
    intro n p hp
    have declared := g.mem_names_of_mem_productionsOf hp
    cases ht : p.unitTarget? with
    | none =>
      apply rowLanguage_le_language
      exact (h.mem_productionsOf_iff n p).2
        ⟨declared, (g.mem_resolvents_iff n p).2 ⟨ht, n, .refl, hp⟩⟩
    | some target =>
      -- a unit production: the resolvents of its target are among those of `n`
      have e := (Production.unitTarget?_eq_some_iff p target).1 ht
      subst e
      rw [Production.symbols_unit, rowLanguage_singleton]
      apply language_le_of_productions
      intro q hq
      obtain ⟨resolved, m, reach, hq⟩ :=
        (g.mem_resolvents_iff target q).1 ((h.mem_productionsOf_iff target q).1 hq).2
      apply rowLanguage_le_language
      exact (h.mem_productionsOf_iff n q).2
        ⟨declared, (g.mem_resolvents_iff n q).2 ⟨resolved, m, .head hp reach, hq⟩⟩

/-! ## 6. Runs of stages -/

/-- The declared nonterminals of `g` and its start symbol keep their languages
in `g'`. -/
structure KeepsLanguage (g g' : Grammar) : Prop where
  declared : ∀ name ∈ g.names, name ∈ g'.names
  language : ∀ name ∈ g.names, g'.language name = g.language name
  start : g'.startLanguage = g.startLanguage

theorem KeepsLanguage.refl (g : Grammar) : KeepsLanguage g g :=
  ⟨fun _ h => h, fun _ _ => rfl, rfl⟩

/-- What two steps keep is kept by both together. -/
theorem KeepsLanguage.trans {a b c : Grammar} (h : KeepsLanguage a b) (h' : KeepsLanguage b c) :
    KeepsLanguage a c := by
  refine ⟨?_, ?_, h'.start.trans h.start⟩
  · intro name hn
    exact h'.declared name (h.declared name hn)
  · intro name hn
    rw [h'.language name (h.declared name hn), h.language name hn]

/-- A stage that adds names which are new keeps the language of all others. -/
theorem keepsLanguage_of_added {g g' : Grammar} {added : List String}
    (names : g'.names = g.names ++ added) (start : g'.start? = g.start?)
    (fresh : ∀ name ∈ added, name ∉ (TakenNames.ofGrammar g).names)
    (language : ∀ name, name ∉ added → g'.language name = g.language name) :
    KeepsLanguage g g' := by
  refine ⟨?_, ?_, ?_⟩
  · intro name hn
    rw [names]
    exact List.mem_append_left _ hn
  · intro name hn
    exact language name fun new => fresh name new (mem_taken_of_mem_names hn)
  · unfold startLanguage
    rw [start]
    cases hs : g.start? with
    | none => rfl
    | some first => exact language first fun new => fresh first new (mem_taken_of_start? hs)

/-- The wrapper keeps the languages, and starts with that of the old start symbol. -/
theorem WrapsStart.keepsLanguage {g g' : Grammar} {inner : String} (h : g.WrapsStart inner g') :
    KeepsLanguage g g' := by
  refine ⟨?_, ?_, ?_⟩
  · intro name hn
    rw [h.names]
    exact List.mem_cons_of_mem _ hn
  · rintro name hn
    apply h.language_eq
    rintro rfl
    exact g.wrapperName_notMem (mem_taken_of_mem_names hn)
  · -- the start symbol is another one, with the same language
    unfold startLanguage
    rw [h.start?, start?_eq_some h.explicitStart]
    exact h.language_wrapperName

/-- **Every stage keeps the language.** -/
theorem keepsLanguage_run {stage : Stage} {g g' : Grammar}
    (h : (stage.run g).outcome = .ok g') : KeepsLanguage g g' := by
  cases stage with
  | wrapStart =>
    obtain ⟨inner, w⟩ := wrapsStart_of_ok h
    exact w.keepsLanguage
  | isolateTerminals =>
    have w := isolatesTerminals_of_ok h
    exact keepsLanguage_of_added w.names w.start?_eq (StandIn.claims_standIns g).fresh
      fun name hn => w.language_eq hn
  | binarize =>
    have w := binarizes_of_ok h
    exact keepsLanguage_of_added w.names w.start?_eq g.claims_tails.fresh
      fun name hn => w.language_eq hn
  | eliminateUnits =>
    have w := eliminatesUnits_of_ok h
    have names : g'.names = g.names ++ [] := by rw [w.names, List.append_nil]
    exact keepsLanguage_of_added names w.start?_eq (fun _ hn => absurd hn List.not_mem_nil)
      fun name _ => w.language_eq name

/-- By induction, stages in a row keep the language. -/
theorem keepsLanguage_afterStages {stages : List Stage} {g g' : Grammar}
    (h : afterStages stages g = .ok g') : KeepsLanguage g g' := by
  -- on the stages that are left, for whatever grammar the first of them is given
  induction stages generalizing g with
  | nil =>
    cases h
    exact .refl _
  | cons stage rest ih =>
    rw [afterStages_cons] at h
    cases hs : (stage.run g).outcome with
    | error e =>
      rw [hs] at h
      cases h
    | ok first =>
      rw [hs] at h
      exact (keepsLanguage_run hs).trans (ih h)

/-- **Language preservation.** Whatever stages succeed one after the other on a
grammar, in whatever order and with whatever repetitions, every nonterminal that
it declares stays declared and keeps its language, and the language of the start
symbol stays the same; so the normal form of a grammar has the grammar's
language. -/
theorem language_preserved :
    (∀ (stages : List Stage) (g g' : Grammar), afterStages stages g = .ok g' →
      (∀ name ∈ g.names, name ∈ g'.names ∧ g'.language name = g.language name) ∧
      g'.startLanguage = g.startLanguage) ∧
    ∀ g g' : Grammar, g.toNormalForm.outcome = .ok g' → g'.startLanguage = g.startLanguage := by
  constructor
  · intro stages g g' h
    have keeps := keepsLanguage_afterStages h
    exact ⟨fun name hn => ⟨keeps.declared name hn, keeps.language name hn⟩, keeps.start⟩
  · intro g g' h
    rw [toNormalForm, outcome_runAll] at h
    exact (keepsLanguage_afterStages h).start

/-- A grammar with a unit cycle, an undeclared name, a repeated alternative and a
name that looks generated. -/
def crowded : Grammar :=
  ⟨RuleTable.ofList
    [⟨"S", [.unit (.nonterminal "A"),
      ⟨[.nonterminal "A", .terminal "c", .nonterminal "$start", .nonterminal "B"], by simp⟩]⟩,
     ⟨"A", [.unit (.nonterminal "S"), .unit (.terminal "a"), .unit (.terminal "a")]⟩,
     ⟨"$start", [.pair (.terminal "c") (.nonterminal "S")]⟩], none⟩

/-- Six stages in an order of their own, two of them twice, on a grammar with everything
that could disturb them. -/
theorem language_preserved_crowded :
    ∃ g', afterStages [.eliminateUnits, .wrapStart, .binarize, .isolateTerminals, .wrapStart,
        .eliminateUnits] crowded = .ok g' ∧
      g'.language "S" = crowded.language "S" ∧ g'.startLanguage = crowded.startLanguage := by
  have succeeds : (afterStages [.eliminateUnits, .wrapStart, .binarize, .isolateTerminals,
      .wrapStart, .eliminateUnits] crowded).isOk = true := by decide +kernel
  cases h : afterStages [.eliminateUnits, .wrapStart, .binarize, .isolateTerminals, .wrapStart,
      .eliminateUnits] crowded with
  | error e =>
    rw [h] at succeeds
    cases succeeds
  | ok g' =>
    obtain ⟨declared, start⟩ := language_preserved.1 _ _ _ h
    exact ⟨g', rfl, (declared "S" (by decide)).2, start⟩

end Grammar

end ChomskyForm
