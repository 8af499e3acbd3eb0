/-
The items of a stream end once.

Whatever a stream delivers, the lexer gives some tokens and then one last item:
the end marker, or the error that ended it. From there on it gives nothing. The
reader takes the same items, asked for one at a time, and a grammar comes only
of those that end with the end marker. Then no line is left half read: the
reader is at the start of a line, and what stands between two line feeds is
nothing or all tokens of a rule of the grammar.
-/
import ChomskyForm.Proofs.Bnf.Delivery
import ChomskyForm.Proofs.Bnf.Written

set_option autoImplicit false

namespace ChomskyForm

/-- To open a window loses no byte: what is held and what the source still has are all
the bytes of the source. -/
theorem Window.unscanned_of_ofSource {source : Source} {w : Window}
    (h : ofSource source = .ok w) : w.unscanned = source.size := by
  have kept := unscanned_load ⟨[], [], false, source, []⟩
  unfold ofSource at h
  split at h
  · rename_i e
    cases h
    rw [e] at kept
    exact kept.trans (Nat.zero_add _)
  · cases h

namespace Bnf

/-! ## 1. Steps and the end of the items -/

/-- An item that no item follows. -/
inductive IsLast : Item → Prop where
  | error (e : LexError) : IsLast (.error e)
  | endMarker (span : Span) : IsLast (.ok (.endMarker, span))

namespace Lexer

variable {l l' : Lexer}

/-- A scan does not finish the lexer, and so neither the rest of a word nor a comment
does. -/
theorem finished_scan (l : Lexer) : l.scan.2.finished = l.finished := by
  unfold scan
  split <;> rfl

theorem finished_finishWord (l : Lexer) : l.finishWord.2.finished = l.finished := by
  have scanned := l.finished_scan
  fun_induction finishWord l with
  | case1 l e l' h => rwa [h] at scanned
  | case2 l l' h => rwa [h] at scanned
  | case3 l c l' h ends => rfl
  | case4 l c l' h goesOn ih =>
    rw [h] at scanned
    exact (ih l'.finished_scan).trans scanned

theorem finished_skipComment (l : Lexer) : l.skipComment.2.finished = l.finished := by
  have scanned := l.finished_scan
  fun_induction skipComment l with
  | case1 l e l' h => rwa [h] at scanned
  | case2 l l' h => rwa [h] at scanned
  | case3 l l' h => rfl
  | case4 l c l' h goesOn ih =>
    rw [h] at scanned
    exact (ih l'.discard.finished_scan).trans scanned

/-- A step without an item leaves the lexer going. So does a token, unless it is
the end marker, which finishes the lexer. -/
def Advances : Option Item × Lexer → Prop
  | (none, l') => l'.finished = false
  | (some (.ok (token, _)), l') => l'.finished = true ↔ token = .endMarker
  | (some (.error _), _) => True

/-- A word that is taken is no end marker, so the lexer goes on. -/
theorem advances_takeWord (going : l.finished = false) (start : Position) :
    Advances (some (l.takeWord start).1, (l.takeWord start).2) := by
  let x : Lexeme := ⟨l.window.scanned.reverse, start⟩
  have popped : l.window.pop.1 = String.ofList x.text := rfl
  unfold takeWord
  dsimp only
  rw [popped]
  cases e : Token.classify? (String.ofList x.text) with
  | none => exact trivial
  | some token =>
    have word : ¬ EndsLine token := Lexeme.not_endsLine (x := x) e
    refine iff_of_false ?_ fun h => word (.inr h)
    rw [going]
    exact Bool.false_ne_true

/-- Every step advances: only the end of the text gives an end marker, and it is what
finishes the lexer. -/
theorem advances_step (going : l.finished = false) : Advances l.step := by
  have scanned := l.finished_scan
  rw [going] at scanned
  cases e : l.step with
  | mk item l' =>
  cases stepped_of_step e with
  | failed | failedComment | failedWord => exact trivial
  -- the end marker is given and the lexer is finished, both at once
  | ended => exact iff_of_true rfl rfl
  | blank scan =>
    rw [scan] at scanned
    exact scanned
  | @newLine l₁ scan =>
    rw [scan] at scanned
    refine iff_of_false ?_ (by decide)
    show ¬ l₁.finished = true
    exact Bool.eq_false_iff.1 scanned
  | @comment l₁ l' scan _ done =>
    have skipped := l₁.discard.finished_skipComment
    rw [scan] at scanned
    rw [done] at skipped
    exact skipped.trans scanned
  | @word c l₁ l₂ scan _ _ done =>
    have finished := l₁.finished_finishWord
    rw [scan] at scanned
    rw [done] at finished
    exact advances_takeWord (finished.trans scanned) l.position

/-- **A lexer gives an item until it gave the last one.** -/
theorem exists_next (going : l.finished = false) :
    ∃ item l', l.next = (some item, l') ∧ (l'.finished = true ↔ IsLast item) := by
  have advances := advances_step going
  -- over the steps without an item, each of which leaves the lexer going
  fun_induction next l with
  | case1 l last =>
    rw [going] at last
    cases last
  | case2 l _ e l' step => exact ⟨_, _, rfl, iff_of_true rfl (.error e)⟩
  | case3 l _ given l' step =>
    obtain ⟨token, span⟩ := given
    rw [step] at advances
    refine ⟨_, _, rfl, advances.trans ⟨?_, ?_⟩⟩
    · rintro rfl
      exact .endMarker span
    · intro last
      cases last
      rfl
  | case4 l _ l' step ih =>
    rw [step] at advances
    exact ih advances (advances_step advances)

/-! ## 2. All items -/

/-- The items are tokens other than the end marker, and then a last item. -/
theorem exists_items (going : l.finished = false) :
    ∃ (given : List (Token × Span)) (last : Item), l.items.1 = given.map .ok ++ [last] ∧
      (∀ x ∈ given, x.1 ≠ .endMarker) ∧ IsLast last := by
  fun_induction items l with
  | case1 l l' e =>
    obtain ⟨item, after, e', -⟩ := exists_next going
    rw [e] at e'
    cases e'
  | case2 l item l' e others l'' e' ih =>
    obtain ⟨item', after, e'', ends⟩ := exists_next going
    rw [e] at e''
    cases e''
    rw [e'] at ih
    -- the lexer is finished behind an item just if that item is the last one
    by_cases finished : l'.finished = true
    · have none : others = [] := by
        have row := l'.items_eq
        rw [e', next_of_finished finished] at row
        exact row
      rw [none]
      exact ⟨[], item, rfl, fun x hx => absurd hx List.not_mem_nil, ends.1 finished⟩
    · obtain ⟨given, last, row, tokens, isLast⟩ := ih (Bool.eq_false_iff.2 finished)
      have notLast : ¬ IsLast item := fun h => finished (ends.2 h)
      cases item with
      | error cause => exact absurd (.error cause) notLast
      | ok first =>
        refine ⟨first :: given, last, congrArg (List.cons _) row, ?_, isLast⟩
        rw [List.forall_mem_cons]
        refine ⟨?_, tokens⟩
        obtain ⟨token, span⟩ := first
        rintro rfl
        exact notLast (.endMarker span)

/-- There are no more items than is left to do. -/
theorem length_items_le (l : Lexer) : l.items.1.length ≤ l.remaining := by
  fun_induction items l with
  | case1 l l' e => exact Nat.zero_le _
  | case2 l item l' e others l'' e' ih =>
    rw [e'] at ih
    have less := remaining_next_lt e
    exact Nat.le_trans (Nat.succ_le_succ ih) less

/-- What a lexer answers when it is asked for items. -/
def asks : Nat → Lexer → List (Option Item)
  | 0, _ => []
  | n + 1, l => l.next.1 :: asks n l.next.2

/-- A finished lexer answers that there is nothing, any number of times. -/
theorem asks_of_finished (h : l.finished = true) (n : Nat) :
    l.asks n = List.replicate n none := by
  induction n with
  | zero => rfl
  | succ n ih => rw [asks, next_of_finished h, ih, List.replicate_succ]

/-- **The items come one by one, and nothing comes behind them.** -/
theorem asks_eq (l : Lexer) (n : Nat) :
    l.asks n = (l.items.1.map some ++ List.replicate n none).take n := by
  induction n generalizing l with
  | zero => rfl
  | succ n ih =>
    rw [l.items_eq]
    by_cases finished : l.finished = true
    · rw [asks_of_finished finished, next_of_finished finished]
      simp
    · obtain ⟨item, l', e, -⟩ := exists_next (Bool.eq_false_iff.2 finished)
      rw [asks, e, ih l']
      simp only [List.map_cons, List.cons_append, List.take_succ_cons, List.take_append,
        List.take_replicate]
      congr 3
      omega

end Lexer

/-! ## 3. The reader takes the items -/

/-- Asking for one item at a time, the reader gets all of them in order. -/
theorem outcome_readRules_eq_feed (l : Lexer) (r : RuleReader) :
    (readRules l r).outcome = feed r l.items.1 := by
  fun_induction readRules l r with
  | case1 l r l' e =>
    rw [l.items_eq, e]
    rfl
  | case2 l r cause l' e =>
    rw [l.items_eq, e]
    rfl
  | case3 l r token span l' e ih =>
    rw [l.items_eq, e, Logged.outcome_after, Logged.outcome_bind]
    dsimp only [feed]
    congr 1
    funext r'
    -- the reader looks at the reads between two items, which changes none of them
    rw [ih r', (Lexer.alike_takeReads l').items_eq]

/-- A reader takes a token. -/
def RuleReader.take (r : RuleReader) (given : Token × Span) : Except ParseError RuleReader :=
  (r.step given.1 given.2).outcome

/-- Where no item is an error, the reader takes the tokens one after the other. -/
theorem feed_tokens (r : RuleReader) (given : List (Token × Span)) :
    feed r (given.map .ok) = (given.foldlM RuleReader.take r).map RuleReader.grammar := by
  induction given generalizing r with
  | nil => rfl
  | cons x given ih =>
    rw [List.map_cons, List.foldlM_cons]
    unfold feed RuleReader.take
    cases (r.step x.1 x.2).outcome with
    | error e => rfl
    | ok r' => exact ih r'

/-- No grammar comes of items that end with an error. -/
theorem feed_error_ne_ok (r : RuleReader) (given : List (Token × Span)) (e : LexError)
    (g : Grammar) : feed r (given.map .ok ++ [.error e]) ≠ .ok g := by
  induction given generalizing r with
  | nil => exact fun h => by cases h
  | cons x given ih =>
    rw [List.map_cons, List.cons_append]
    unfold feed
    cases (r.step x.1 x.2).outcome with
    | error e => exact fun h => by cases h
    | ok r' => exact ih r'

/-! ## 4. No line is left half read -/

/-- The tokens between line feeds, where there are any. -/
def tokenRows (tokens : List Token) : List (List Token) :=
  (tokens.splitOn .newLine).filter (· ≠ [])

/-- A row without line feeds, in the form in which `splitOnP` asks for it. -/
theorem ne_newLine_of_notMem {row : List Token} (inside : .newLine ∉ row) :
    ∀ token ∈ row, (token == Token.newLine) = false := by
  intro token ht
  rw [beq_eq_false_iff_ne]
  rintro rfl
  exact inside ht

theorem tokenRows_newLine (tokens : List Token) :
    tokenRows (.newLine :: tokens) = tokenRows tokens := by
  unfold tokenRows List.splitOn
  rw [← List.nil_append (.newLine :: tokens),
    List.splitOnP_append_cons_of_forall_mem (ne_newLine_of_notMem List.not_mem_nil) .newLine rfl]
  rfl

/-- Tokens without a line feed are one row. -/
theorem tokenRows_row {row : List Token} (inside : .newLine ∉ row) (any : row ≠ []) :
    tokenRows row = [row] := by
  unfold tokenRows List.splitOn
  rw [List.splitOnP_eq_singleton (ne_newLine_of_notMem inside)]
  exact List.filter_cons_of_pos (decide_eq_true any)

/-- A line feed ends a row, and the next ones are those of the tokens behind it. -/
theorem tokenRows_row_newLine {row : List Token} (inside : .newLine ∉ row) (any : row ≠ [])
    (tokens : List Token) : tokenRows (row ++ .newLine :: tokens) = row :: tokenRows tokens := by
  unfold tokenRows List.splitOn
  rw [List.splitOnP_append_cons_of_forall_mem (ne_newLine_of_notMem inside) .newLine rfl]
  exact List.filter_cons_of_pos (decide_eq_true any)

/-- The tokens of a rule stand on one line. -/
theorem newLine_notMem_ruleTokens (rule : Rule) : .newLine ∉ ruleTokens rule := by
  intro h
  rcases mem_ruleTokens h with e | e | ⟨s, -, e⟩
  · cases e
  · cases e
  · cases s <;> cases e

section Takes

variable {g : Grammar} {place : Place} {x : Token × Span} {r r' : RuleReader}

/-- A token that a reader took stands at its place. -/
theorem misplaced_of_take (ok : RuleReader.take ⟨g, place⟩ x = .ok r) :
    misplaced (placeTokens place) x.1 x.2 = none := by
  cases e : misplaced (placeTokens place) x.1 x.2 with
  | none => rfl
  | some cause =>
    have refused := outcome_step_of_misplaced (g := g) e
    unfold RuleReader.take at ok
    rw [ok] at refused
    cases refused

/-- A reader that took a row of tokens took the first one and then the others. -/
theorem exists_take {rest : List (Token × Span)}
    (ok : (x :: rest).foldlM RuleReader.take r = .ok r') :
    ∃ r₁, r.take x = .ok r₁ ∧ rest.foldlM RuleReader.take r₁ = .ok r' := by
  rw [List.foldlM_cons] at ok
  cases e : r.take x with
  | error cause =>
    rw [e] at ok
    cases ok
  | ok r₁ =>
    rw [e] at ok
    exact ⟨r₁, rfl, ok⟩

/-- At the end of a line a reader has a rule more, or there was none to read. -/
theorem take_of_endsLine (ends : EndsLine x.1) (ok : RuleReader.take ⟨g, place⟩ x = .ok r) :
    (place = .lineStart ∧ r = ⟨g, .lineStart⟩) ∨
      ∃ rule : Rule, ruleTokens rule = placeTokens place ∧
        r = ⟨g.extend rule.name rule.alternatives, .lineStart⟩ := by
  have fine := misplaced_of_take ok
  unfold RuleReader.take at ok
  rcases outcome_step_of_stop (g := g) ends fine with ⟨start, step⟩ | ⟨rule, -, row, step⟩
  · rw [step] at ok
    cases ok
    exact .inl ⟨start, rfl⟩
  · rw [step] at ok
    cases ok
    exact .inr ⟨rule, row, rfl⟩

/-- **A reader that took the end marker has read whole rules.** What it took since
the start of a line, and what it takes up to the end marker, are the tokens of the
rules that went into its grammar, a row for each. -/
theorem exists_rules_of_takes {given : List (Token × Span)}
    (tokens : ∀ x ∈ given, x.1 ≠ .endMarker) {span : Span}
    (ok : (given ++ [(Token.endMarker, span)]).foldlM RuleReader.take ⟨g, place⟩ = .ok r) :
    r.place = .lineStart ∧ ∃ rules : List Rule,
      r.grammar = rules.foldl (fun g rule => g.extend rule.name rule.alternatives) g ∧
      tokenRows (placeTokens place ++ given.map Prod.fst) = rules.map ruleTokens := by
  -- on the tokens; the rules found so far are in the grammar, and the present one is in the place
  induction given generalizing g place with
  | nil =>
    obtain ⟨r₁, first, last⟩ := exists_take ok
    cases last
    rcases take_of_endsLine (.inr rfl) first with ⟨rfl, rfl⟩ | ⟨rule, row, rfl⟩
    · exact ⟨rfl, [], rfl, rfl⟩
    · refine ⟨rfl, [rule], rfl, ?_⟩
      rw [List.map_nil, List.append_nil, ← row]
      exact tokenRows_row (newLine_notMem_ruleTokens rule) (List.cons_ne_nil _ _)
  | cons x given ih =>
    rw [List.forall_mem_cons] at tokens
    rw [List.cons_append] at ok
    obtain ⟨r₁, first, others⟩ := exists_take ok
    -- a line feed closes the present rule, if there is one
    by_cases newLine : x.1 = .newLine
    · rw [List.map_cons, newLine]
      rcases take_of_endsLine (.inl newLine) first with ⟨rfl, rfl⟩ | ⟨rule, row, rfl⟩
      · obtain ⟨start, rules, collected, rows⟩ := ih tokens.2 others
        exact ⟨start, rules, collected, (tokenRows_newLine _).trans rows⟩
      · obtain ⟨start, rules, collected, rows⟩ := ih tokens.2 others
        refine ⟨start, rule :: rules, collected, ?_⟩
        rw [← row, tokenRows_row_newLine (newLine_notMem_ruleTokens rule) (List.cons_ne_nil _ _),
          List.map_cons, ← rows]
        rfl
    · -- within a line the token goes to those of the present rule
      have inner : ¬ EndsLine x.1 := fun h => h.elim newLine tokens.1
      obtain ⟨place', step, row⟩ := outcome_step_of_inner (g := g) inner (misplaced_of_take first)
      have taken : RuleReader.take ⟨g, place⟩ x = .ok ⟨g, place'⟩ := step
      rw [taken] at first
      cases first
      obtain ⟨start, rules, collected, rows⟩ := ih tokens.2 others
      refine ⟨start, rules, collected, ?_⟩
      rw [List.map_cons, List.append_cons, ← row]
      exact rows

end Takes

/-! ## 5. The end of a stream -/

/-- **The items of a stream end once.** A lexer at the beginning of a stream gives
tokens other than the end marker, no more than the stream has bytes, then one item
more, which is the end marker or an error, and then nothing, however often it is
asked. The reader takes just these items. If it gives a grammar, then it took the
end marker and stands at the start of a line, and the tokens between the line feeds
are those of the rules that the grammar collects. -/
theorem token_stream_ends {source : Source} {w : Window} (started : Window.ofSource source = .ok w) :
    ∃ (given : List (Token × Span)) (last : Item),
      (Lexer.ofWindow w).items.1 = given.map .ok ++ [last] ∧
      (∀ x ∈ given, x.1 ≠ .endMarker) ∧ IsLast last ∧ given.length ≤ source.size ∧
      (∀ n, (Lexer.ofWindow w).asks n =
        ((Lexer.ofWindow w).items.1.map some ++ List.replicate n none).take n) ∧
      (readGrammar source).outcome = feed .start (Lexer.ofWindow w).items.1 ∧
      ∀ g, (readGrammar source).outcome = .ok g → ∃ span rules,
        last = .ok (.endMarker, span) ∧
        (given ++ [(Token.endMarker, span)]).foldlM RuleReader.take .start =
          .ok ⟨g, .lineStart⟩ ∧
        g = Grammar.collect rules ∧ tokenRows (given.map Prod.fst) = rules.map ruleTokens := by
  obtain ⟨given, last, items, tokens, isLast⟩ := Lexer.exists_items (l := .ofWindow w) rfl
  have read : (readGrammar source).outcome = feed .start (Lexer.ofWindow w).items.1 := by
    unfold readGrammar
    rw [started]
    exact outcome_readRules_eq_feed _ _
  refine ⟨given, last, items, tokens, isLast, ?_, Lexer.asks_eq _, read, fun g ok => ?_⟩
  · have most := (Lexer.ofWindow w).length_items_le
    have bytes : (Lexer.ofWindow w).remaining = source.size + 1 :=
      congrArg (· + 1) (Window.unscanned_of_ofSource started)
    rw [items, List.length_append, List.length_map, bytes] at most
    exact Nat.le_of_succ_le_succ most
  · rw [read, items] at ok
    cases isLast with
    | error e => exact absurd ok (feed_error_ne_ok _ _ e g)
    | endMarker span =>
      have row : given.map Except.ok ++ [.ok (.endMarker, span)] =
          ((given ++ [(Token.endMarker, span)]).map .ok : List Item) := by
        rw [List.map_append]
        rfl
      rw [row, feed_tokens] at ok
      cases taken : (given ++ [(Token.endMarker, span)]).foldlM RuleReader.take .start with
      | error e =>
        rw [taken] at ok
        cases ok
      | ok r =>
        rw [taken] at ok
        cases ok
        obtain ⟨start, rules, collected, rows⟩ := exists_rules_of_takes tokens taken
        refine ⟨span, rules, rfl, ?_, ?_, rows⟩
        · rw [taken, ← start]
        · rw [collected, Grammar.foldl_extend_eq_collect]

/-- A rule in pieces of three bytes, a comment that the end of the stream ends, and
bytes behind that end. -/
def cutStream : Source :=
  ⟨[.interruption, .bytes "<S> ::= a\n".toUTF8.toList, .bytes "# c".toUTF8.toList, .endMark,
    .bytes "<T>".toUTF8.toList], some 3⟩

/-- The grammar of a stream that is cut in pieces, with the size of the stream as the
bound on its tokens. -/
theorem token_stream_ends_cut :
    ∃ (w : Window) (given : List (Token × Span)) (span : Span) (rules : List Rule),
      Window.ofSource cutStream = .ok w ∧ given.length ≤ 16 ∧
      (Lexer.ofWindow w).items.1 = given.map .ok ++ [.ok (.endMarker, span)] ∧
      (readGrammar cutStream).outcome = .ok (Grammar.collect rules) ∧
      tokenRows (given.map Prod.fst) = rules.map ruleTokens := by
  have flows : cutStream.Flows := fun h => by cases h
  have bytes : cutStream.events = ("<S> ::= a\n# c".toList.flatMap Utf8.encode).map .ok := by
    decide +kernel
  obtain ⟨w, started, -⟩ := Window.ofSource_of_text flows bytes
  have read := outcome_readGrammar_eq_feed flows bytes (lexes_text (by decide +kernel))
  have succeeds : (readGrammar cutStream).outcome.isOk = true := by
    rw [read]
    decide +kernel
  obtain ⟨g, ok⟩ := Logged.exists_eq_ok succeeds
  obtain ⟨given, last, items, -, -, few, -, -, grammar⟩ := token_stream_ends started
  obtain ⟨span, rules, rfl, -, rfl, rows⟩ := grammar g ok
  have size : cutStream.size = 16 := by decide +kernel
  exact ⟨w, given, span, rules, started, size ▸ few, items, ok, rows⟩

end Bnf

end ChomskyForm
