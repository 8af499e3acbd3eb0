/-
What is read is legible.

Whatever a source delivers, a token that the lexer gives is a word that was in
its window: the characters up to what ends a word, no more than a window holds.
So a grammar that was read has legible symbols that are shorter than a window.
The lexer keeps that nothing is scanned between two tokens, the reader keeps
whatever holds of the symbols of the tokens that it takes, and both are carried
along while the tokens are read.
-/
import ChomskyForm.Proofs.Bnf.Written
import ChomskyForm.Proofs.Input.Outlook

set_option autoImplicit false

namespace ChomskyForm

/-! ## 1. Symbols of an extended grammar -/

/-- An altered rule is a rule that was there, or the rule of the name, with what
the change makes of its alternatives. -/
theorem Rule.mem_alter {name : String} {change : Option (List Production) → List Production}
    {rules : List Rule} {rule : Rule} (h : rule ∈ alter name change rules) :
    rule ∈ rules ∨
      ∃ old, rule = ⟨name, change old⟩ ∧ ∀ alternatives ∈ old, ⟨name, alternatives⟩ ∈ rules := by
  -- on the rules, as `alter` searches them for the name
  induction rules with
  | nil => exact .inr ⟨none, List.mem_singleton.1 h, fun _ ha => by cases ha⟩
  | cons first rest ih =>
    unfold alter at h
    by_cases e : first.name = name
    · rw [if_pos e] at h
      rcases List.mem_cons.1 h with rfl | h
      · refine .inr ⟨some first.alternatives, rfl, fun _ ha => ?_⟩
        cases ha
        rw [← e]
        exact List.mem_cons_self
      · exact .inl (List.mem_cons_of_mem _ h)
    · rw [if_neg e] at h
      rcases List.mem_cons.1 h with rfl | h
      · exact .inl List.mem_cons_self
      · rcases ih h with h | ⟨old, e', ho⟩
        · exact .inl (List.mem_cons_of_mem _ h)
        · exact .inr ⟨old, e', fun _ ha => List.mem_cons_of_mem _ (ho _ ha)⟩

namespace Grammar

variable {g : Grammar} {name : String} {alternatives : List Production}

/-- A rule of an extended grammar was there, or is the extended one. The alternatives of
the latter are old ones, all from the grammar, and the new ones. -/
theorem mem_rules_extend {rule : Rule} (h : rule ∈ (g.extend name alternatives).rules) :
    rule ∈ g.rules ∨ ∃ old : List Production, rule = ⟨name, old ++ alternatives⟩ ∧
      ∀ p ∈ old, ∃ rule' ∈ g.rules, p ∈ rule'.alternatives := by
  rcases Rule.mem_alter h with h | ⟨old, e, ho⟩
  · exact .inl h
  · refine .inr ⟨old.getD [], e, fun p hp => ?_⟩
    cases old with
    | none => cases hp
    | some old => exact ⟨_, ho old rfl, hp⟩

/-- A symbol of an extended grammar was there, or names the extended rule, or stands in
a new alternative. -/
theorem mem_symbols_extend {s : Symbol} (h : s ∈ (g.extend name alternatives).symbols) :
    s ∈ g.symbols ∨ s = .nonterminal name ∨ s ∈ alternatives.flatMap Production.symbols := by
  obtain ⟨rule, hr, hs⟩ := List.mem_flatMap.1 h
  rcases mem_rules_extend hr with hr | ⟨old, rfl, ho⟩
  · exact .inl (List.mem_flatMap.2 ⟨rule, hr, hs⟩)
  rcases List.mem_cons.1 hs with e | hs
  · exact .inr (.inl e)
  rw [List.flatMap_append, List.mem_append] at hs
  rcases hs with hs | hs
  · obtain ⟨p, hp, hs⟩ := List.mem_flatMap.1 hs
    obtain ⟨rule', hr', hp'⟩ := ho p hp
    have inRule : s ∈ rule'.symbols := List.mem_cons_of_mem _ (List.mem_flatMap.2 ⟨p, hp', hs⟩)
    exact .inl (List.mem_flatMap.2 ⟨rule', hr', inRule⟩)
  · exact .inr (.inr hs)

end Grammar

namespace Bnf

/-! ## 2. Tokens that are read -/

/-- A token of a symbol is legible and shorter than a window. -/
def Token.Spelled (token : Token) : Prop :=
  ∀ s, token = tokenOf s → token.Legible ∧ Utf8.size token.text.toList < Window.capacity

namespace Lexer

/-- Between two tokens nothing is scanned. -/
structure Ready (l : Lexer) : Prop where
  scanned : l.window.scanned = []
  fits : l.window.Fits

/-- Some characters are scanned, none of which ends a word. -/
structure InWord (l : Lexer) : Prop where
  nonempty : l.window.scanned ≠ []
  solid : ∀ c ∈ l.window.scanned, endsWord c = false
  fits : l.window.Fits

variable {l l' : Lexer}

/-- A scan keeps the window in bounds, whatever it answers. -/
theorem fits_of_scan {answer : Except LexError (Option Char)} (fits : l.window.Fits)
    (h : l.scan = (answer, l')) : l'.window.Fits := by
  have scanned := Window.fits_scan fits
  unfold scan at h
  split at h <;> rename_i e <;> rw [e] at scanned <;> cases h <;> exact scanned

/-- Where a scan finds the end, the source has ended and nothing more is scanned. -/
theorem scan_none_eq (h : l.scan = (.ok none, l')) :
    l'.window.ended = true ∧ l'.window.scanned = l.window.scanned := by
  unfold scan at h
  split at h
  · cases h
  · rename_i w e
    cases h
    exact Window.scan_none_eq e
  · cases h

theorem scanned_scan_some {c : Char} (h : l.scan = (.ok (some c), l')) :
    l'.window.scanned = c :: l.window.scanned := by
  obtain ⟨w, e, rfl⟩ := scan_some_eq h
  exact Window.scanned_scan_some e

theorem scanned_giveBack {c : Char} (h : l.scan = (.ok (some c), l')) :
    (l.giveBack l').window.scanned = l.window.scanned :=
  Window.scanned_back (scanned_scan_some h)

/-- A character that was found leaves room for what was scanned before it. -/
theorem size_lt_of_scan_some {c : Char} (fits : l.window.Fits)
    (h : l.scan = (.ok (some c), l')) : Utf8.size l.window.scanned < Window.capacity := by
  have held := (fits_of_scan fits h).held
  have least := c.utf8Size_pos
  unfold Window.held at held
  rw [scanned_scan_some h, Utf8.size_cons] at held
  omega

/-- The end of the source leaves room as well. -/
theorem size_lt_of_scan_none (fits : l.window.Fits) (h : l.scan = (.ok none, l')) :
    Utf8.size l'.window.scanned < Window.capacity := by
  have room := (fits_of_scan fits h).ended (scan_none_eq h).1
  unfold Window.held at room
  exact Nat.lt_of_le_of_lt (Nat.le_add_right _ _) room

/-- Once what was scanned is dropped, the lexer is ready. -/
theorem Ready.discard {l : Lexer} (fits : l.window.Fits) : l.discard.Ready :=
  ⟨rfl, Window.fits_pop fits⟩

/-- A finished word is one that there was room for. -/
theorem InWord.finishWord (h : l.InWord) (done : l.finishWord = (.ok (), l')) :
    l'.InWord ∧ Utf8.size l'.window.scanned < Window.capacity := by
  fun_induction Lexer.finishWord l with
  | case1 l cause after e => cases done
  | case2 l after e =>
    cases done
    have same := (scan_none_eq e).2
    have fits := fits_of_scan h.fits e
    exact ⟨⟨same ▸ h.nonempty, same ▸ h.solid, fits⟩, size_lt_of_scan_none h.fits e⟩
  | case3 l c after e ends =>
    cases done
    have same := scanned_giveBack e
    have fits := fits_of_scan h.fits e
    refine ⟨⟨same ▸ h.nonempty, same ▸ h.solid, Window.fits_back fits⟩, ?_⟩
    -- what ends the word was found, so there was room for one byte more than the word
    rw [same]
    exact size_lt_of_scan_some h.fits e
  | case4 l c after e goesOn ih =>
    have scanned := scanned_scan_some e
    have fits := fits_of_scan h.fits e
    refine ih ⟨?_, ?_, fits⟩ done
    · rw [scanned]
      exact List.cons_ne_nil _ _
    · rw [scanned, List.forall_mem_cons]
      exact ⟨Bool.eq_false_iff.2 goesOn, h.solid⟩

/-- A lexer that skipped a comment is ready, as the comment was dropped on the way. -/
theorem Ready.skipComment (h : l.Ready) (done : l.skipComment = (.ok (), l')) : l'.Ready := by
  fun_induction Lexer.skipComment l with
  | case1 l cause after e => cases done
  | case2 l after e =>
    cases done
    have fits := fits_of_scan h.fits e
    exact ⟨(scan_none_eq e).2.trans h.scanned, fits⟩
  | case3 l after e =>
    cases done
    have fits := fits_of_scan h.fits e
    exact ⟨(scanned_giveBack e).trans h.scanned, Window.fits_back fits⟩
  | case4 l c after e goesOn ih =>
    have fits := fits_of_scan h.fits e
    exact ih (.discard fits) done

/-- Unless it is an error, an item is a spelled token, and the lexer is ready
again. -/
def Proceeds : Option Item × Lexer → Prop
  | (none, l') => l'.Ready
  | (some (.ok (token, _)), l') => l'.Ready ∧ token.Spelled
  | (some (.error _), _) => True

/-- A word that is taken out of the window gives a spelled token or an error. -/
theorem InWord.takeWord (h : l.InWord) (short : Utf8.size l.window.scanned < Window.capacity)
    (start : Position) : Proceeds (some (l.takeWord start).1, (l.takeWord start).2) := by
  let x : Lexeme := ⟨l.window.scanned.reverse, start⟩
  have popped : l.window.pop.1 = String.ofList x.text := rfl
  unfold Lexer.takeWord
  dsimp only
  rw [popped]
  cases e : Token.classify? (String.ofList x.text) with
  | none => exact trivial
  | some token =>
    have classified := x.classified
    unfold Lexeme.token? at classified
    rw [e] at classified
    have text := classified.text_eq
    -- the token shows the word, so what holds of the word holds of the text of the token
    refine ⟨⟨rfl, Window.fits_pop h.fits⟩, fun s _ => ⟨⟨?_, ?_, ?_⟩, ?_⟩⟩
    · rw [text]
      exact List.reverse_ne_nil_iff.2 h.nonempty
    · rw [text]
      exact fun c hc => h.solid c (List.mem_reverse.1 hc)
    · rwa [← text, String.ofList_toList] at e
    · rw [text, Utf8.size_reverse]
      exact short

/-- The ends of lines are tokens of no symbol, so there is nothing to spell. -/
theorem spelled_of_endsLine {token : Token} (ends : EndsLine token) : token.Spelled := by
  intro s e
  rcases ends with rfl | rfl <;> cases s <;> cases e

/-- A step of a lexer that is ready proceeds. -/
theorem Ready.step (h : l.Ready) : Proceeds l.step := by
  cases e : l.step with
  | mk item l' =>
  cases stepped_of_step e with
  | failed | failedComment | failedWord => exact trivial
  | ended scan =>
    have fits := fits_of_scan h.fits scan
    exact ⟨⟨(scan_none_eq scan).2.trans h.scanned, fits⟩, spelled_of_endsLine (.inr rfl)⟩
  | blank scan => exact .discard (fits_of_scan h.fits scan)
  | newLine scan =>
    have discarded := Ready.discard (fits_of_scan h.fits scan)
    exact ⟨⟨discarded.scanned, discarded.fits⟩, spelled_of_endsLine (.inl rfl)⟩
  | comment scan _ done => exact (Ready.discard (fits_of_scan h.fits scan)).skipComment done
  | @word c l₁ l₂ scan inside _ done =>
    -- the character that was scanned begins a word
    have inWord : l₁.InWord := by
      have scanned := scanned_scan_some scan
      refine ⟨?_, ?_, fits_of_scan h.fits scan⟩
      · rw [scanned]
        exact List.cons_ne_nil _ _
      · rw [scanned, h.scanned, List.forall_mem_singleton]
        exact inside
    obtain ⟨word, short⟩ := inWord.finishWord done
    exact word.takeWord short l.position

/-- **A token that is read is spelled**, and the lexer is ready for the next
one. -/
theorem Ready.next (h : l.Ready) {token : Token} {span : Span}
    (e : l.next = (some (.ok (token, span)), l')) : l'.Ready ∧ token.Spelled := by
  fun_induction Lexer.next l with
  | case1 l last => cases e
  | case2 l going cause after step => cases e
  | case3 l going token after step =>
    cases e
    have proceeds := h.step
    rwa [step] at proceeds
  | case4 l going after step ih =>
    have proceeds := h.step
    rw [step] at proceeds
    exact ih proceeds e

theorem Ready.takeReads (h : l.Ready) : l.takeReads.2.Ready :=
  ⟨h.scanned, h.fits.held, h.fits.ended⟩

end Lexer

/-! ## 3. Symbols that the reader keeps -/

/-- The symbols of the present rule that were read. -/
def Place.symbols : Place → List Symbol
  | .lineStart => []
  | .head name => [.nonterminal name]
  | .body name alternatives symbols =>
    .nonterminal name :: (alternatives.flatMap Production.symbols ++ symbols)

namespace RuleReader

/-- Something holds of every symbol that a reader took, whatever has become of
the symbol, and the rules that were read have alternatives. -/
structure Keeps (P : Symbol → Prop) (r : RuleReader) : Prop where
  grammar : ∀ s ∈ r.grammar.symbols, P s
  place : ∀ s ∈ r.place.symbols, P s
  alternatives : ∀ rule ∈ r.grammar.rules, rule.alternatives ≠ []
  start : r.grammar.explicitStart = none

variable {P : Symbol → Prop} {g : Grammar} {name : String} {alternatives : List Production}
  {symbols : List Symbol} {token : Token} {span : Span} {r r' : RuleReader}

theorem keeps_start : start.Keeps P :=
  ⟨fun _ h => absurd h List.not_mem_nil, fun _ h => absurd h List.not_mem_nil,
    fun _ h => absurd h List.not_mem_nil, rfl⟩

/-- Going on in the same rule adds no symbol but that of the token. -/
theorem Keeps.move {place place' : Place} (h : Keeps P ⟨g, place⟩)
    (new : ∀ s ∈ place'.symbols, s ∈ place.symbols ∨ P s) : Keeps P ⟨g, place'⟩ :=
  ⟨h.grammar, fun s hs => (new s hs).elim (h.place s) id, h.alternatives, h.start⟩

/-- A symbol more in the alternative is a symbol more in the rule. -/
theorem mem_symbols_body_cons {symbol s : Symbol}
    (h : s ∈ Place.symbols (.body name alternatives (symbol :: symbols))) :
    s ∈ Place.symbols (.body name alternatives symbols) ∨ s = symbol := by
  simp only [Place.symbols, List.mem_cons, List.mem_append] at h ⊢
  rcases h with h | h | h | h
  · exact .inl (.inl h)
  · exact .inl (.inr (.inl h))
  · exact .inr h
  · exact .inl (.inr (.inr h))

/-- A closed alternative has the symbols that it had while it was open. -/
theorem mem_symbols_body_pipe {p : Production} (hp : p.symbols = symbols.reverse) {s : Symbol}
    (h : s ∈ Place.symbols (.body name (p :: alternatives) [])) :
    s ∈ Place.symbols (.body name alternatives symbols) := by
  simp only [Place.symbols, List.flatMap_cons, hp, List.append_nil, List.mem_cons,
    List.mem_append, List.mem_reverse] at h ⊢
  rcases h with h | h | h
  · exact .inl h
  · exact .inr (.inr h)
  · exact .inr (.inl h)

/-- A pipe closes an alternative, and no symbol comes with it. -/
theorem Keeps.pipe (h : Keeps P ⟨g, .body name alternatives symbols⟩)
    (ok : (step ⟨g, .body name alternatives symbols⟩ .pipe span).outcome = .ok r') :
    r'.Keeps P := by
  change (close name symbols span >>= _).outcome = _ at ok
  by_cases empty : symbols = []
  · subst empty
    cases ok
  · obtain ⟨p, hp, closed⟩ := close_of_ne_nil name empty span
    rw [closed] at ok
    cases ok
    exact h.move fun s hs => .inl (mem_symbols_body_pipe hp hs)

/-- The end of a line hands the symbols of the rule over to the grammar. -/
theorem Keeps.finishRule (h : Keeps P ⟨g, .body name alternatives symbols⟩)
    (ok : (finishRule g name alternatives symbols span).outcome = .ok r') : r'.Keeps P := by
  by_cases empty : symbols = []
  · subst empty
    cases ok
  · obtain ⟨p, hp, closed⟩ := close_of_ne_nil name empty span
    rw [outcome_finishRule name alternatives closed] at ok
    cases ok
    have place := h.place
    unfold Place.symbols at place
    -- the symbols of the extended grammar, by where they come from; then its alternatives
    refine ⟨fun s hs => ?_, fun _ hs => absurd hs List.not_mem_nil, fun rule hr => ?_, h.start⟩
    · rcases Grammar.mem_symbols_extend hs with old | rfl | new
      · exact h.grammar s old
      · exact place _ List.mem_cons_self
      · refine place s (List.mem_cons_of_mem _ ?_)
        simpa [hp, or_comm] using new
    · rcases Grammar.mem_rules_extend hr with old | ⟨old, rfl, -⟩
      · exact h.alternatives rule old
      · simp

/-- **A step of the reader keeps what holds of all symbols** if it holds of the symbol
of the token, should the token be one of a symbol. -/
theorem Keeps.step (h : r.Keeps P) (new : ∀ s, token = tokenOf s → P s)
    (ok : (r.step token span).outcome = .ok r') : r'.Keeps P := by
  obtain ⟨g, place⟩ := r
  cases place with
  | lineStart =>
    cases token with
    | newLine | endMarker =>
      cases ok
      exact h
    | name name =>
      cases ok
      exact h.move fun s hs => .inr (List.mem_singleton.1 hs ▸ new _ rfl)
    | word | define | pipe => cases ok
  | head name =>
    cases token with
    | define =>
      cases ok
      exact h.move fun s hs => .inl hs
    | newLine | endMarker | name | word | pipe => cases ok
  -- the place where the reader does most: here tokens add symbols, and the line can end
  | body name alternatives symbols =>
    cases token with
    | newLine | endMarker => exact h.finishRule ok
    | define => cases ok
    | name | word =>
      cases ok
      refine h.move fun s hs => ?_
      rcases mem_symbols_body_cons hs with old | rfl
      · exact .inl old
      · exact .inr (new _ rfl)
    | pipe => exact h.pipe ok

end RuleReader

/-! ## 4. What is read -/

/-- Reading carries both sides along: the lexer stays ready, so its tokens are spelled,
and what follows from that for their symbols is kept by the reader. -/
theorem readRules_keeps {P : Symbol → Prop}
    (spelled : ∀ token : Token, token.Spelled → ∀ s, token = tokenOf s → P s) {l : Lexer}
    {r : RuleReader} (ready : l.Ready) (keeps : r.Keeps P) {g : Grammar}
    (ok : (readRules l r).outcome = .ok g) :
    (∀ s ∈ g.symbols, P s) ∧ (∀ rule ∈ g.rules, rule.alternatives ≠ []) ∧
      g.explicitStart = none := by
  fun_induction readRules l r with
  | case1 l r after e =>
    cases ok
    exact ⟨keeps.grammar, keeps.alternatives, keeps.start⟩
  | case2 l r cause after e => cases ok
  | case3 l r token span after e ih =>
    obtain ⟨ready', word⟩ := ready.next e
    rw [Logged.outcome_after, Logged.outcome_bind] at ok
    cases step : (r.step token span).outcome with
    | error cause =>
      rw [step] at ok
      cases ok
    | ok r' =>
      rw [step] at ok
      exact ih r' ready'.takeReads (keeps.step (spelled token word) step) ok

/-- **A grammar that is read is legible**, and each of its symbols is shorter
than a window. -/
theorem legible_of_readGrammar {source : Source} {g : Grammar}
    (ok : (readGrammar source).outcome = .ok g) :
    Legible g ∧ (∀ s ∈ g.symbols, Utf8.size s.text.toList < 8192) ∧
      g.explicitStart = none := by
  unfold readGrammar at ok
  split at ok
  · cases ok
  rename_i w e
  have ready : (Lexer.ofWindow w).Ready :=
    ⟨Window.scanned_of_ofSource e, Window.fits_of_ofSource e⟩
  have spelled : ∀ token : Token, token.Spelled → ∀ s, token = tokenOf s →
      (tokenOf s).Legible ∧ Utf8.size s.text.toList < 8192 := by
    rintro token word s rfl
    have legible := word s rfl
    rwa [text_tokenOf] at legible
  obtain ⟨symbols, alternatives, start⟩ := readRules_keeps spelled ready RuleReader.keeps_start ok
  exact ⟨⟨fun s hs => (symbols s hs).1, alternatives⟩, fun s hs => (symbols s hs).2, start⟩

end Bnf

end ChomskyForm
