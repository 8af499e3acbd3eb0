/-
Lines that hold a rule, and lines that do not.

The reader keeps a place in the present rule. What it needs of a line is only
which tokens it has taken (`placeTokens`): from these alone it follows whether
the next token may stand where it does (`misplaced`), and at the end of a line
they are the tokens of the rule. So a line either has a first fault, which is
where reading ends, or its tokens are those of a rule, which goes into the
grammar.
-/
import ChomskyForm.Proofs.Bnf.Line

set_option autoImplicit false

namespace ChomskyForm.Bnf

/-! ## 1. The tokens of a rule -/

/-- The token that a symbol is written as. -/
def tokenOf : Symbol → Token
  | .nonterminal name => .name name
  | .terminal text => .word text

/-- A production is written symbol after symbol. -/
def tokensOf (p : Production) : List Token := p.symbols.map tokenOf

/-- A rule is written as its name, `::=`, and its alternatives with bars between
them. -/
def ruleTokens (rule : Rule) : List Token :=
  .name rule.name :: .define :: [Token.pipe].intercalate (rule.alternatives.map tokensOf)

/-- The words of a line are those of a rule that has alternatives. -/
def Fits (words : List Lexeme) (rule : Rule) : Prop :=
  rule.alternatives ≠ [] ∧ words.map Lexeme.token? = (ruleTokens rule).map some

instance (words : List Lexeme) (rule : Rule) : Decidable (Fits words rule) :=
  inferInstanceAs (Decidable (_ ∧ _))

/-! ## 2. The first fault of a line -/

/-- The tokens behind which an alternative begins. -/
def opensAlternative (earlier : List Token) : Prop :=
  earlier.getLast? = some .define ∨ earlier.getLast? = some .pipe

instance (earlier : List Token) : Decidable (opensAlternative earlier) :=
  inferInstanceAs (Decidable (_ ∨ _))

/-- The tokens that end an alternative. -/
def endsAlternative (token : Token) : Prop :=
  token = .pipe ∨ token = .newLine ∨ token = .endMarker

instance (token : Token) : Decidable (endsAlternative token) :=
  inferInstanceAs (Decidable (_ ∨ _))

/-- What is wrong with a token behind the earlier tokens of its line, which have
no fault. -/
def misplaced (earlier : List Token) (token : Token) (span : Span) : Option ParseError :=
  match earlier with
  | [] =>
    match token with
    | .name _ | .newLine | .endMarker => none
    | _ => some (.malformedRule span (.nameExpected token))
  | [.name name] =>
    if token = .define then none else some (.malformedRule span (.defineExpected name))
  | .name name :: _ =>
    if token = .define then some (.unexpectedToken token span)
    else if endsAlternative token ∧ opensAlternative earlier then
      some (.malformedRule span (.alternativeEmpty name))
    else none
  | _ => none

/-- The first fault among items that stand behind some tokens: a word that is no
token, or a misplaced token. -/
def faultAmong (earlier : List Token) : List Item → Option ParseError
  | [] => none
  | .error e :: _ => some (.lex e)
  | .ok (token, span) :: rest =>
    (misplaced earlier token span).or (faultAmong (earlier ++ [token]) rest)

/-- The first fault of a line. -/
def Line.fault (line : Line) : Option ParseError := faultAmong [] line.items

/-! ## 3. The place of a reader -/

/-- The tokens of the present line that lead a reader to a place. -/
def placeTokens : Place → List Token
  | .lineStart => []
  | .head name => [.name name]
  | .body name alternatives symbols =>
    .name name :: .define ::
      (alternatives.reverse.flatMap (fun p => tokensOf p ++ [.pipe]) ++
        symbols.reverse.map tokenOf)

section Body

variable (name : String) (alternatives : List Production)

/-- A symbol more is a token more behind the others. -/
theorem placeTokens_symbol (symbol : Symbol) (symbols : List Symbol) :
    placeTokens (.body name alternatives (symbol :: symbols)) =
      placeTokens (.body name alternatives symbols) ++ [tokenOf symbol] := by
  unfold placeTokens
  dsimp only
  rw [List.reverse_cons, List.map_append, List.cons_append, List.cons_append, List.append_assoc]
  rfl

/-- A bar more closes the alternative, whose symbols the reader keeps in reverse. -/
theorem placeTokens_pipe {p : Production} {symbols : List Symbol}
    (h : p.symbols = symbols.reverse) :
    placeTokens (.body name (p :: alternatives) []) =
      placeTokens (.body name alternatives symbols) ++ [.pipe] := by
  unfold placeTokens tokensOf
  dsimp only
  rw [List.reverse_cons, List.flatMap_append, List.flatMap_singleton, h, List.reverse_nil,
    List.map_nil, List.append_nil, List.cons_append, List.cons_append, List.append_assoc]

/-- An alternative begins where it has no symbol yet. -/
theorem opensAlternative_body_iff (symbols : List Symbol) :
    opensAlternative (placeTokens (.body name alternatives symbols)) ↔ symbols = [] := by
  unfold opensAlternative
  cases symbols with
  | nil =>
    refine iff_of_true ?_ rfl
    cases alternatives with
    | nil => exact .inl rfl
    | cons p rest =>
      -- the bar behind the last closed alternative
      rw [placeTokens_pipe name rest (List.reverse_reverse p.symbols).symm, List.getLast?_concat]
      exact .inr rfl
  | cons symbol symbols =>
    rw [placeTokens_symbol, List.getLast?_concat]
    refine iff_of_false ?_ (List.cons_ne_nil _ _)
    cases symbol <;> rintro (h | h) <;> cases h

/-- What is wrong with a token behind the sign of definition, in terms of the symbols of
the present alternative. -/
theorem misplaced_body (symbols : List Symbol) (token : Token) (span : Span) :
    misplaced (placeTokens (.body name alternatives symbols)) token span =
      if token = .define then some (.unexpectedToken token span)
      else if endsAlternative token ∧ symbols = [] then
        some (.malformedRule span (.alternativeEmpty name))
      else none := by
  show (if token = .define then _ else
    if endsAlternative token ∧ opensAlternative (placeTokens (.body name alternatives symbols))
    then _ else _) = _
  simp only [opensAlternative_body_iff]

end Body

/-- At the end of a line the tokens behind the reader are those of the rule. -/
theorem ruleTokens_of_body (name : String) (alternatives : List Production) {p : Production}
    {symbols : List Symbol} (h : p.symbols = symbols.reverse) :
    ruleTokens ⟨name, (p :: alternatives).reverse⟩ =
      placeTokens (.body name alternatives symbols) := by
  unfold ruleTokens placeTokens
  dsimp only
  rw [List.reverse_cons, List.map_append, List.map_singleton, intercalate_concat,
    List.flatMap_map, ← h]
  rfl

/-! ## 4. One token -/

/-- Closing an alternative turns its symbols around and gives the production. -/
theorem close_reverse (name : String) (p : Production) (span : Span) :
    RuleReader.close name p.symbols.reverse span = pure p := by
  unfold RuleReader.close
  rw [List.reverse_reverse, (Production.ofList?_eq_some_iff _ p).2 rfl]

/-- An alternative with symbols can be closed, to a production of these symbols. -/
theorem close_of_ne_nil (name : String) {symbols : List Symbol} (h : symbols ≠ [])
    (span : Span) :
    ∃ p, p.symbols = symbols.reverse ∧ RuleReader.close name symbols span = pure p := by
  let p : Production := ⟨symbols.reverse, by simpa using h⟩
  have closed := close_reverse name p span
  rw [List.reverse_reverse] at closed
  exact ⟨p, rfl, closed⟩

/-- A token that ends a line. -/
def EndsLine (token : Token) : Prop := token = .newLine ∨ token = .endMarker

theorem Line.endsLine_stop (line : Line) : EndsLine line.stop.1 := by
  unfold Line.stop
  dsimp only
  split
  · exact .inr rfl
  · exact .inl rfl

variable {g : Grammar} {place : Place} {token : Token} {span : Span}

/-- A reader refuses a misplaced token. -/
theorem outcome_step_of_misplaced {e : ParseError}
    (h : misplaced (placeTokens place) token span = some e) :
    (RuleReader.step ⟨g, place⟩ token span).outcome = .error e := by
  -- `misplaced` looks at the tokens and the reader at its place, so the place is split
  cases place with
  | lineStart => cases token <;> cases h <;> rfl
  | head name =>
    change (if token = .define then none else some _) = some e at h
    cases token <;> cases h <;> rfl
  | body name alternatives symbols =>
    rw [misplaced_body] at h
    by_cases define : token = .define
    · rw [if_pos define] at h
      subst define
      cases h
      rfl
    rw [if_neg define] at h
    by_cases empty : endsAlternative token ∧ symbols = []
    · rw [if_pos empty] at h
      obtain ⟨rfl | rfl | rfl, rfl⟩ := empty <;> cases h <;> rfl
    · rw [if_neg empty] at h
      cases h

/-- Within a line a reader takes any other token. -/
theorem outcome_step_of_inner (inner : ¬ EndsLine token)
    (h : misplaced (placeTokens place) token span = none) :
    ∃ place', (RuleReader.step ⟨g, place⟩ token span).outcome = .ok ⟨g, place'⟩ ∧
      placeTokens place' = placeTokens place ++ [token] := by
  cases place with
  | lineStart =>
    cases token with
    | name name => exact ⟨.head name, rfl, rfl⟩
    | newLine => exact absurd (.inl rfl) inner
    | endMarker => exact absurd (.inr rfl) inner
    | word | define | pipe => cases h
  | head name =>
    change (if token = .define then none else some _) = none at h
    by_cases define : token = .define
    · subst define
      exact ⟨.body name [] [], rfl, rfl⟩
    · rw [if_neg define] at h
      cases h
  | body name alternatives symbols =>
    rw [misplaced_body] at h
    cases token with
    | name text =>
      exact ⟨.body name alternatives (.nonterminal text :: symbols), rfl, placeTokens_symbol ..⟩
    | word text =>
      exact ⟨.body name alternatives (.terminal text :: symbols), rfl, placeTokens_symbol ..⟩
    | define => cases h
    | newLine => exact absurd (.inl rfl) inner
    | endMarker => exact absurd (.inr rfl) inner
    | pipe =>
      -- the bar would be misplaced behind an empty alternative
      have any : symbols ≠ [] := by
        rintro rfl
        cases h
      obtain ⟨p, hp, closed⟩ := close_of_ne_nil name any span
      refine ⟨.body name (p :: alternatives) [], ?_, placeTokens_pipe name alternatives hp⟩
      show (RuleReader.close name symbols span >>= _).outcome = _
      rw [closed]
      rfl

/-- The end of a rule extends the grammar with the alternatives in the order in which
they were read. -/
theorem outcome_finishRule (name : String) (alternatives : List Production) {p : Production}
    {symbols : List Symbol} (h : RuleReader.close name symbols span = pure p) :
    (RuleReader.finishRule g name alternatives symbols span).outcome =
      .ok ⟨g.extend name (p :: alternatives).reverse, .lineStart⟩ := by
  unfold RuleReader.finishRule
  rw [h]
  -- a repeated name is noted, which the outcome does not show
  by_cases known : g.contains name = true
  · simp only [if_pos known]
    rfl
  · simp only [if_neg known]
    rfl

/-- At the end of a line a reader has read nothing, or it has read a rule. -/
theorem outcome_step_of_stop (stop : EndsLine token)
    (h : misplaced (placeTokens place) token span = none) :
    (place = .lineStart ∧ (RuleReader.step ⟨g, place⟩ token span).outcome = .ok ⟨g, .lineStart⟩) ∨
    ∃ rule : Rule, rule.alternatives ≠ [] ∧ ruleTokens rule = placeTokens place ∧
      (RuleReader.step ⟨g, place⟩ token span).outcome =
        .ok ⟨g.extend rule.name rule.alternatives, .lineStart⟩ := by
  cases place with
  | lineStart => rcases stop with rfl | rfl <;> exact .inl ⟨rfl, rfl⟩
  | head name => rcases stop with rfl | rfl <;> cases h
  | body name alternatives symbols =>
    rw [misplaced_body] at h
    have any : symbols ≠ [] := by
      rintro rfl
      rcases stop with rfl | rfl <;> cases h
    obtain ⟨p, hp, closed⟩ := close_of_ne_nil name any span
    refine .inr ⟨⟨name, (p :: alternatives).reverse⟩, ?_, ruleTokens_of_body _ _ hp, ?_⟩
    · simp
    · rcases stop with rfl | rfl <;> exact outcome_finishRule name alternatives closed

/-! ## 5. Faults of a line -/

/-- A token that the reader takes is followed by the other items. -/
theorem feed_of_step {r r' : RuleReader} (h : (r.step token span).outcome = .ok r')
    (rest : List Item) : feed r (.ok (token, span) :: rest) = feed r' rest := by
  rw [feed, h]
  rfl

/-- A token that the reader refuses ends the reading. -/
theorem feed_of_failed_step {r : RuleReader} {e : ParseError}
    (h : (r.step token span).outcome = .error e) (rest : List Item) :
    feed r (.ok (token, span) :: rest) = .error e := by
  rw [feed, h]
  rfl

/-- A word that is a token gives the token with its span. -/
theorem Lexeme.item_of_token? {x : Lexeme} (h : x.token? = some token) :
    x.item = .ok (token, ⟨x.place, x.place.right x.text.length⟩) := by
  unfold Lexeme.item
  rw [h]

/-- A word that is no token gives an error with its place. -/
theorem Lexeme.item_of_refused {x : Lexeme} (h : x.token? = none) :
    x.item = .error (.unmatchedBracket (String.ofList x.text) x.place) := by
  unfold Lexeme.item
  rw [h]

/-- A word is never the end of a line. -/
theorem Lexeme.not_endsLine {x : Lexeme} (h : x.token? = some token) : ¬ EndsLine token := by
  unfold Lexeme.token? Token.classify? at h
  rintro (rfl | rfl) <;> repeat' split at h
  all_goals cases h

variable {words : List Lexeme} {stop : Token × Span}

/-- The first fault of a line is where reading ends. -/
theorem feed_of_fault {e : ParseError} (more : List Item)
    (h : faultAmong (placeTokens place) (words.map Lexeme.item ++ [.ok stop]) = some e) :
    feed ⟨g, place⟩ (words.map Lexeme.item ++ .ok stop :: more) = .error e := by
  -- on the words of the line; behind each of them the reader is at another place
  induction words generalizing place with
  | nil =>
    obtain ⟨token, span⟩ := stop
    rcases Option.or_eq_some_iff.1 h with misplaced | ⟨-, none⟩
    · exact feed_of_failed_step (outcome_step_of_misplaced misplaced) _
    · cases none
  | cons x words ih =>
    rw [List.map_cons, List.cons_append] at h ⊢
    cases e' : x.token? with
    | none =>
      rw [x.item_of_refused e'] at h ⊢
      cases h
      rfl
    | some token =>
      rw [x.item_of_token? e'] at h ⊢
      rcases Option.or_eq_some_iff.1 h with misplaced | ⟨fine, behind⟩
      · exact feed_of_failed_step (outcome_step_of_misplaced misplaced) _
      · obtain ⟨place', step, tokens⟩ := outcome_step_of_inner (g := g)
          (Lexeme.not_endsLine e') fine
        rw [feed_of_step step]
        rw [← tokens] at behind
        exact ih behind

/-- Without a fault the words of a line are the tokens of a rule, if there are
any. -/
theorem exists_rule_of_no_fault (ends : EndsLine stop.1)
    (h : faultAmong (placeTokens place) (words.map Lexeme.item ++ [.ok stop]) = none) :
    (place = .lineStart ∧ words = []) ∨
    ∃ (rule : Rule) (tokens : List Token), rule.alternatives ≠ [] ∧
      words.map Lexeme.token? = tokens.map some ∧
      ruleTokens rule = placeTokens place ++ tokens := by
  induction words generalizing place with
  | nil =>
    obtain ⟨token, span⟩ := stop
    obtain ⟨fine, -⟩ := Option.or_eq_none_iff.1 h
    -- any grammar will do here, as the rule depends on the tokens alone
    rcases outcome_step_of_stop (g := Grammar.empty) ends fine with
      ⟨start, -⟩ | ⟨rule, any, tokens, -⟩
    · exact .inl ⟨start, rfl⟩
    · exact .inr ⟨rule, [], any, rfl, by rw [tokens, List.append_nil]⟩
  | cons x words ih =>
    rw [List.map_cons, List.cons_append] at h
    cases e' : x.token? with
    | none =>
      rw [x.item_of_refused e'] at h
      cases h
    | some token =>
      rw [x.item_of_token? e'] at h
      obtain ⟨fine, behind⟩ := Option.or_eq_none_iff.1 h
      obtain ⟨place', -, tokens⟩ := outcome_step_of_inner (g := Grammar.empty)
        (Lexeme.not_endsLine e') fine
      rw [← tokens] at behind
      rcases ih behind with ⟨rfl, -⟩ | ⟨rule, others, any, classified, row⟩
      · -- a reader that has taken a token is not at the start of a line
        exact absurd tokens.symm (List.append_ne_nil_of_right_ne_nil _ (List.cons_ne_nil _ _))
      · refine .inr ⟨rule, token :: others, any, ?_, ?_⟩
        · rw [List.map_cons, List.map_cons, e', classified]
        · rw [row, tokens, List.append_assoc]
          rfl

/-! ## 6. Reading a rule -/

/-- The symbols of an alternative are read one after the other, and the latest of them
is kept first. -/
theorem feed_symbols (name : String) (alternatives : List Production) (symbols : List Symbol)
    {before : List Symbol} {given : List (Token × Span)}
    (h : given.map Prod.fst = symbols.map tokenOf) (rest : List Item) :
    feed ⟨g, .body name alternatives before⟩ (given.map .ok ++ rest) =
      feed ⟨g, .body name alternatives (symbols.reverse ++ before)⟩ rest := by
  induction symbols generalizing before given with
  | nil =>
    rw [List.map_nil, List.map_eq_nil_iff] at h
    rw [h]
    rfl
  | cons symbol symbols ih =>
    obtain ⟨⟨token, span⟩, behind, rfl, rfl, hb⟩ := List.map_eq_cons_iff.1 h
    rw [List.reverse_cons, List.append_assoc, List.map_cons, List.cons_append,
      List.singleton_append, ← ih hb]
    apply feed_of_step
    cases symbol <;> rfl

/-- The alternatives of a rule are read up to the end of its line. -/
theorem feed_alternatives (name : String) {alternatives before : List Production}
    (any : alternatives ≠ []) {given : List (Token × Span)}
    (h : given.map Prod.fst = [Token.pipe].intercalate (alternatives.map tokensOf))
    (ends : EndsLine stop.1) (more : List Item) :
    feed ⟨g, .body name before []⟩ (given.map .ok ++ .ok stop :: more) =
      feed ⟨g.extend name (before.reverse ++ alternatives), .lineStart⟩ more := by
  obtain ⟨token, span⟩ := stop
  induction alternatives generalizing before given with
  | nil => exact absurd rfl any
  | cons p rest ih =>
    -- no bar follows the last alternative
    cases rest with
    | nil =>
      rw [List.map_singleton, List.intercalate_singleton] at h
      rw [feed_symbols name before p.symbols h, List.append_nil, ← List.reverse_cons]
      apply feed_of_step
      have finished := outcome_finishRule (g := g) name before (close_reverse name p span)
      rcases ends with rfl | rfl <;> exact finished
    | cons q rest =>
      rw [List.map_cons, List.map_cons, List.intercalate_cons_cons, List.append_assoc] at h
      obtain ⟨first, behind, rfl, hf, hb⟩ := List.map_eq_append_iff.1 h
      obtain ⟨⟨bar, place⟩, behind, rfl, rfl, ho⟩ := List.map_eq_cons_iff.1 hb
      rw [List.map_append, List.append_assoc, feed_symbols name before p.symbols hf,
        List.append_nil, List.map_cons, List.cons_append]
      have step : (RuleReader.step ⟨g, .body name before p.symbols.reverse⟩ .pipe place).outcome =
          .ok ⟨g, .body name (p :: before) []⟩ := by
        show (RuleReader.close name p.symbols.reverse place >>= _).outcome = _
        rw [close_reverse]
        rfl
      rw [feed_of_step step, ih (List.cons_ne_nil _ _) ho, List.reverse_cons, List.append_assoc]
      rfl

/-- Words that are tokens give these tokens. -/
theorem exists_given {tokens : List Token} (h : words.map Lexeme.token? = tokens.map some) :
    ∃ given : List (Token × Span),
      words.map Lexeme.item = given.map .ok ∧ given.map Prod.fst = tokens := by
  induction words generalizing tokens with
  | nil =>
    rw [List.map_nil, eq_comm, List.map_eq_nil_iff] at h
    exact ⟨[], rfl, h.symm⟩
  | cons x words ih =>
    obtain ⟨token, others, rfl, first, behind⟩ := List.map_eq_cons_iff.1 h.symm
    obtain ⟨given, items, rfl⟩ := ih behind.symm
    refine ⟨(token, ⟨x.place, x.place.right x.text.length⟩) :: given, ?_, rfl⟩
    rw [List.map_cons, List.map_cons, items, x.item_of_token? first.symm]

/-- **A line that fits a rule** adds the alternatives of the rule to its name. -/
theorem feed_of_fits {rule : Rule} (fits : Fits words rule) (ends : EndsLine stop.1)
    (more : List Item) :
    feed ⟨g, .lineStart⟩ (words.map Lexeme.item ++ .ok stop :: more) =
      feed ⟨g.extend rule.name rule.alternatives, .lineStart⟩ more := by
  obtain ⟨any, classified⟩ := fits
  obtain ⟨given, items, tokens⟩ := exists_given classified
  obtain ⟨⟨first, start⟩, behind, rfl, rfl, ht⟩ := List.map_eq_cons_iff.1 tokens
  obtain ⟨⟨second, between⟩, body, rfl, rfl, hb⟩ := List.map_eq_cons_iff.1 ht
  have head : (RuleReader.step ⟨g, .lineStart⟩ (.name rule.name) start).outcome =
      .ok ⟨g, .head rule.name⟩ := rfl
  have define : (RuleReader.step ⟨g, .head rule.name⟩ .define between).outcome =
      .ok ⟨g, .body rule.name [] []⟩ := rfl
  rw [items, List.map_cons, List.map_cons, List.cons_append, List.cons_append,
    feed_of_step head, feed_of_step define, feed_alternatives rule.name any hb ends]
  rfl

end ChomskyForm.Bnf
