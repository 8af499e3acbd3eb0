/-
Writing rules, and reading them again.

A grammar is shown with an arrow behind the name of each rule. With `::=` in its
place the text is in the format that is read: `asDefinitions`. It reads back if
each symbol is legible, which means that the text of the symbol is one word and
that this word has the token of the symbol. A rule then is a line with the words
of the tokens of the rule, so the line fits the rule; and since no name is
declared twice, nothing is merged on the way back.
-/
import ChomskyForm.Proofs.Bnf.ReadText

set_option autoImplicit false

namespace ChomskyForm

/-! ## 1. The symbols of a grammar -/

/-- The symbols that a rule is written with: its name, and those of its
alternatives. -/
def Rule.symbols (rule : Rule) : List Symbol :=
  .nonterminal rule.name :: rule.alternatives.flatMap Production.symbols

/-- The symbols that a grammar is written with. -/
def Grammar.symbols (g : Grammar) : List Symbol := g.rules.flatMap Rule.symbols

/-- Rules of distinct names are collected as they are. -/
theorem Grammar.rules_collect_of_nodup {rules : List Rule} (nodup : (rules.map Rule.name).Nodup) :
    (Grammar.collect rules).rules = rules := by
  induction rules using List.reverseRecOn with
  | nil => rfl
  | append_singleton rules rule ih =>
    rw [List.map_append, List.map_singleton, List.nodup_append] at nodup
    obtain ⟨nodup, -, apart⟩ := nodup
    have new : rule.name ∉ (Grammar.collect rules).names := by
      rw [names_collect, List.mem_eraseDups]
      exact fun old => apart _ old _ List.mem_cons_self rfl
    rw [collect_concat]
    show (RuleTable.extend _ rule.name rule.alternatives).rules = _
    rw [RuleTable.rules_extend_of_notMem _ _ new]
    exact congrArg (· ++ [rule]) (ih nodup)

namespace Bnf

/-! ## 2. Legible tokens -/

/-- The text of a token is one word, and the word has this token. -/
structure Token.Legible (token : Token) : Prop where
  nonempty : token.text.toList ≠ []
  solid : ∀ c ∈ token.text.toList, Lexer.endsWord c = false
  classified : Token.classify? token.text = some token

/-- A check of all characters, which evaluation can decide. -/
theorem solid_of_all {chars : List Char} (h : chars.all (fun c => !Lexer.endsWord c) = true) :
    ∀ c ∈ chars, Lexer.endsWord c = false := by
  simpa using h

theorem legible_define : Token.Legible .define :=
  ⟨by decide, solid_of_all (by decide), by decide⟩

theorem legible_pipe : Token.Legible .pipe :=
  ⟨by decide, solid_of_all (by decide), by decide⟩

/-- The token of a symbol is written like the symbol. -/
theorem text_tokenOf (s : Symbol) : (tokenOf s).text = s.text := by
  cases s <;> rfl

/-- Every symbol of a grammar is legible, and every rule has an alternative. -/
structure Legible (g : Grammar) : Prop where
  symbols : ∀ s ∈ g.symbols, (tokenOf s).Legible
  alternatives : ∀ rule ∈ g.rules, rule.alternatives ≠ []

/-! ## 3. Joining and cutting -/

/-- Rows of words with a bar between them, as one row of words. -/
theorem intercalate_rows (bar : List Char) {rows : List (List (List Char))}
    (nonempty : ∀ row ∈ rows, row ≠ []) :
    [' '].intercalate ([bar].intercalate rows) =
      (' ' :: bar ++ [' ']).intercalate (rows.map [' '].intercalate) := by
  induction rows with
  | nil => rfl
  | cons first rest ih =>
    rw [List.forall_mem_cons] at nonempty
    cases rest with
    | nil => rw [List.intercalate_singleton, List.map_singleton, List.intercalate_singleton]
    | cons second rest =>
      -- behind the bar stands at least one word more, so there is a blank on both of its sides
      have behind := intercalate_ne_nil [bar] (List.cons_ne_nil second rest) nonempty.2
      rw [List.intercalate_cons_cons, List.append_assoc,
        intercalate_append [' '] nonempty.1 (by simp),
        intercalate_append [' '] (List.cons_ne_nil _ _) behind, ih nonempty.2, List.map_cons,
        List.map_cons, List.map_cons, List.intercalate_cons_cons, List.intercalate_singleton]
      simp only [List.append_assoc, List.cons_append, List.nil_append]

/-- Words joined by single blanks are cut into the words. -/
theorem splitOnP_intercalate {pieces : List (List Char)} (any : pieces ≠ [])
    (solid : ∀ piece ∈ pieces, ∀ c ∈ piece, Lexer.isBlank c = false) :
    ([' '].intercalate pieces).splitOnP Lexer.isBlank = pieces := by
  induction pieces with
  | nil => exact absurd rfl any
  | cons first rest ih =>
    rw [List.forall_mem_cons] at solid
    cases rest with
    | nil => rw [List.intercalate_singleton, List.splitOnP_eq_singleton solid.1]
    | cons second rest =>
      rw [List.intercalate_cons_cons, List.append_assoc, List.singleton_append,
        List.splitOnP_append_cons_of_forall_mem solid.1 ' ' rfl, ih (List.cons_ne_nil _ _) solid.2]

theorem map_text_wordsFrom {pieces : List (List Char)} (nonempty : ∀ piece ∈ pieces, piece ≠ [])
    (place : Position) : (wordsFrom place pieces).map Lexeme.text = pieces := by
  induction pieces generalizing place with
  | nil => rfl
  | cons first rest ih =>
    rw [List.forall_mem_cons] at nonempty
    rw [wordsFrom_cons place nonempty.1, List.map_cons, ih nonempty.2]

/-! ## 4. From arrows to definitions -/

/-- Writes a text in the place of the first occurrence of another one. -/
def replaceFirst (old new : List Char) : List Char → List Char
  | [] => []
  | c :: rest =>
    if old.isPrefixOf (c :: rest) then new ++ (c :: rest).drop old.length
    else c :: replaceFirst old new rest

/-- The text of a grammar with ` ::= ` in the place of the first arrow of each
line. -/
def asDefinitions (text : String) : String :=
  String.ofList (['\n'].intercalate
    ((text.toList.splitOn '\n').map (replaceFirst " -> ".toList " ::= ".toList)))

theorem replaceFirst_append {word : List Char} (old new rest : List Char) (solid : ' ' ∉ word) :
    replaceFirst (' ' :: old) new (word ++ ' ' :: old ++ rest) = word ++ new ++ rest := by
  -- on the characters before the blank; none of them begins an occurrence
  induction word with
  | nil =>
    have here : List.isPrefixOf (' ' :: old) (' ' :: (old ++ rest)) = true := by
      rw [List.isPrefixOf_iff_prefix]
      exact List.prefix_append (' ' :: old) rest
    show replaceFirst (' ' :: old) new (' ' :: (old ++ rest)) = _
    rw [replaceFirst, if_pos here, ← List.cons_append, List.drop_left]
    rfl
  | cons c word ih =>
    rw [List.mem_cons, not_or] at solid
    have other : ¬ List.isPrefixOf (' ' :: old) (c :: (word ++ ' ' :: old ++ rest)) = true := by
      rw [List.isPrefixOf_iff_prefix, List.cons_prefix_cons]
      exact fun h => solid.1 h.1
    show replaceFirst (' ' :: old) new (c :: (word ++ ' ' :: old ++ rest)) = _
    rw [replaceFirst, if_neg other, ih solid.2]
    rfl

example : replaceFirst " -> ".toList " ::= ".toList "<S> -> a -> b".toList =
    "<S> ::= a -> b".toList := by decide

/-! ## 5. The line of a rule -/

/-- The words of a rule with single blanks between them. -/
def definitionLine (rule : Rule) : List Char :=
  [' '].intercalate ((ruleTokens rule).map fun token => token.text.toList)

/-- The line that shows a rule, up to its line feed. -/
def shownLine (rule : Rule) : List Char :=
  (Token.name rule.name).text.toList ++ " -> ".toList ++
    (" | ".intercalate (rule.alternatives.map Production.text)).toList

/-- A rule is shown as its line and a line feed. -/
theorem toList_text_rule (rule : Rule) : rule.text.toList = shownLine rule ++ ['\n'] := by
  simp [Rule.text, shownLine, Token.text]

/-- An alternative is shown as its words with single blanks between them. -/
theorem toList_text_production (p : Production) :
    p.text.toList = [' '].intercalate ((tokensOf p).map fun token => token.text.toList) := by
  unfold Production.text tokensOf
  rw [String.toList_intercalate, List.map_map, List.map_map]
  refine congrArg _ (List.map_congr_left fun s _ => ?_)
  exact congrArg String.toList (text_tokenOf s).symm

/-- The line of a rule is the line that shows it, with another sign behind the
name. -/
theorem definitionLine_eq {rule : Rule} (any : rule.alternatives ≠ []) :
    definitionLine rule = (Token.name rule.name).text.toList ++ " ::= ".toList ++
      (" | ".intercalate (rule.alternatives.map Production.text)).toList := by
  -- the words of each alternative; the bars between them are words as well
  let rows := rule.alternatives.map fun p => (tokensOf p).map fun token => token.text.toList
  have nonempty : ∀ row ∈ rows, row ≠ [] := by
    intro row hr
    obtain ⟨p, -, rfl⟩ := List.mem_map.1 hr
    simpa [tokensOf] using p.symbols_ne_nil
  have body : ([Token.pipe].intercalate (rule.alternatives.map tokensOf)).map
      (fun token => token.text.toList) = [['|']].intercalate rows := by
    rw [map_intercalate, List.map_map]
    rfl
  have shown : (" | ".intercalate (rule.alternatives.map Production.text)).toList =
      [' '].intercalate ([['|']].intercalate rows) := by
    rw [String.toList_intercalate, intercalate_rows ['|'] nonempty, List.map_map, List.map_map]
    refine congrArg _ (List.map_congr_left fun p _ => ?_)
    exact toList_text_production p
  have behind : [['|']].intercalate rows ≠ [] :=
    intercalate_ne_nil _ (List.map_eq_nil_iff.not.2 any) nonempty
  unfold definitionLine ruleTokens
  have sign : " ::= ".toList = [' '] ++ Token.define.text.toList ++ [' '] := by decide
  rw [List.map_cons, List.map_cons, body, shown, sign, List.intercalate_cons_cons,
    List.intercalate_cons_of_ne_nil behind]
  simp only [List.append_assoc]

/-- The tokens of a rule are its two signs and the tokens of its symbols. -/
theorem mem_ruleTokens {rule : Rule} {token : Token} (h : token ∈ ruleTokens rule) :
    token = .define ∨ token = .pipe ∨ ∃ s ∈ rule.symbols, token = tokenOf s := by
  unfold ruleTokens at h
  rcases List.mem_cons.1 h with rfl | h
  · exact .inr (.inr ⟨.nonterminal rule.name, List.mem_cons_self, rfl⟩)
  rcases List.mem_cons.1 h with rfl | h
  · exact .inl rfl
  rcases mem_intercalate h with h | ⟨row, hr, h⟩
  · exact .inr (.inl (List.mem_singleton.1 h))
  · obtain ⟨p, hp, rfl⟩ := List.mem_map.1 hr
    obtain ⟨s, hs, rfl⟩ := List.mem_map.1 h
    exact .inr (.inr ⟨s, List.mem_cons_of_mem _ (List.mem_flatMap.2 ⟨p, hp, hs⟩), rfl⟩)

/-- All tokens of a rule of a legible grammar are legible. -/
theorem Legible.tokens {g : Grammar} (h : Legible g) {rule : Rule} (hr : rule ∈ g.rules) :
    ∀ token ∈ ruleTokens rule, token.Legible := by
  intro token ht
  rcases mem_ruleTokens ht with rfl | rfl | ⟨s, hs, rfl⟩
  · exact legible_define
  · exact legible_pipe
  · exact h.symbols s (List.mem_flatMap.2 ⟨rule, hr, hs⟩)

section Line

variable {rule : Rule} (legible : ∀ token ∈ ruleTokens rule, token.Legible)
include legible

/-- The line of a rule is one line: no token of it holds a line feed. -/
theorem notMem_definitionLine : '\n' ∉ definitionLine rule := by
  intro h
  rcases mem_intercalate h with blank | ⟨word, hw, feed⟩
  · exact absurd blank (by decide)
  · obtain ⟨token, ht, rfl⟩ := List.mem_map.1 hw
    exact Bool.noConfusion ((legible token ht).solid _ feed)

/-- The line of a rule is cut into the words of the rule. -/
theorem map_text_words (number : Nat) (last : Bool) :
    (Line.words ⟨number, definitionLine rule, last⟩).map Lexeme.text =
      (ruleTokens rule).map fun token => token.text.toList := by
  have solid : ∀ word ∈ (ruleTokens rule).map fun token => token.text.toList,
      ∀ c ∈ word, Lexer.isBlank c = false := by
    intro word hw c hc
    obtain ⟨token, ht, rfl⟩ := List.mem_map.1 hw
    exact (Lexer.ne_of_endsWord_eq_false ((legible token ht).solid c hc)).1
  have nonempty : ∀ word ∈ (ruleTokens rule).map fun token => token.text.toList, word ≠ [] := by
    intro word hw
    obtain ⟨token, ht, rfl⟩ := List.mem_map.1 hw
    exact (legible token ht).nonempty
  have any : ((ruleTokens rule).map fun token => token.text.toList) ≠ [] := List.cons_ne_nil _ _
  unfold Line.words definitionLine
  dsimp only
  rw [splitOnP_intercalate any solid, map_text_wordsFrom nonempty]

/-- No comment begins with the name of a rule. -/
theorem lexemes_definitionLine (number : Nat) (last : Bool) :
    Line.lexemes ⟨number, definitionLine rule, last⟩ =
      Line.words ⟨number, definitionLine rule, last⟩ := by
  have texts := map_text_words legible number last
  obtain ⟨first, rest, e, name, -⟩ := List.map_eq_cons_iff.1 texts
  have noComment : ¬ Line.isComment ⟨number, definitionLine rule, last⟩ = true := by
    unfold Line.isComment
    rw [e]
    show ¬ (first.text.head? == some '#') = true
    rw [name]
    simp [Token.text]
  unfold Line.lexemes
  rw [if_neg noComment]

/-- The line of a rule fits the rule: its words are the texts of the tokens, and a
legible token is the one of its text. -/
theorem fits_definitionLine (any : rule.alternatives ≠ []) (number : Nat) (last : Bool) :
    Fits (Line.lexemes ⟨number, definitionLine rule, last⟩) rule := by
  refine ⟨any, ?_⟩
  have tokens : ∀ words : List Lexeme, words.map Lexeme.token? =
      (words.map Lexeme.text).map fun word => Token.classify? (String.ofList word) := by
    intro words
    rw [List.map_map]
    rfl
  rw [lexemes_definitionLine legible, tokens, map_text_words legible, List.map_map]
  refine List.map_congr_left fun token ht => ?_
  show Token.classify? (String.ofList token.text.toList) = some token
  rw [String.ofList_toList]
  exact (legible token ht).classified

end Line

/-! ## 6. The text of a grammar -/

/-- Numbered lines before others are not the last one. -/
theorem linesFrom_cons (number : Nat) (chars : List Char) {rest : List (List Char)}
    (more : rest ≠ []) :
    linesFrom number (chars :: rest) = ⟨number, chars, false⟩ :: linesFrom (number + 1) rest := by
  cases rest with
  | nil => exact absurd rfl more
  | cons next rest => rfl

/-- The characters of a numbered line are one of the pieces. -/
theorem chars_mem_of_mem_linesFrom {number : Nat} {pieces : List (List Char)} {line : Line}
    (h : line ∈ linesFrom number pieces) : line.chars ∈ pieces := by
  fun_induction linesFrom number pieces with
  | case1 => cases h
  | case2 number chars =>
    rw [List.mem_singleton.1 h]
    exact List.mem_cons_self
  | case3 number chars next rest ih =>
    rcases List.mem_cons.1 h with rfl | h
    · exact List.mem_cons_self
    · exact List.mem_cons_of_mem _ (ih h)

/-- The lines that define the rules, and the empty line behind the last one. -/
def definitionLines (g : Grammar) : List (List Char) := g.rules.map definitionLine ++ [[]]

namespace Legible

variable {g : Grammar} (h : Legible g)
include h

/-- The line that shows a rule is one line as well, as it differs from the other one in
its sign only. -/
theorem notMem_shownLine {rule : Rule} (hr : rule ∈ g.rules) : '\n' ∉ shownLine rule := by
  have none := notMem_definitionLine (h.tokens hr)
  rw [definitionLine_eq (h.alternatives rule hr)] at none
  intro feed
  unfold shownLine at feed
  simp only [List.mem_append, not_or] at none feed
  rcases feed with (feed | feed) | feed
  · exact none.1.1 feed
  · exact absurd feed (by decide)
  · exact none.2 feed

/-- In the line that shows a rule the first arrow is the one behind the name, as a name
holds no blank. -/
theorem replaceFirst_shownLine {rule : Rule} (hr : rule ∈ g.rules) :
    replaceFirst " -> ".toList " ::= ".toList (shownLine rule) = definitionLine rule := by
  have name : (Token.name rule.name).Legible := h.tokens hr _ List.mem_cons_self
  have solid : ' ' ∉ (Token.name rule.name).text.toList :=
    fun blank => Bool.noConfusion (name.solid _ blank)
  rw [definitionLine_eq (h.alternatives rule hr)]
  exact replaceFirst_append ['-', '>', ' '] _ _ solid

/-- The text of a grammar with definitions in it has the lines of its rules. -/
theorem splitOn_asDefinitions :
    (asDefinitions g.text).toList.splitOn '\n' = definitionLines g := by
  have shown : g.text.toList = ['\n'].intercalate (g.rules.map shownLine ++ [[]]) := by
    unfold Grammar.text RuleTable.text
    rw [String.toList_join, List.flatMap_map, intercalate_concat, List.flatMap_map, List.append_nil]
    exact List.flatMap_congr fun rule _ => toList_text_rule rule
  have whole : ∀ line ∈ g.rules.map shownLine ++ [[]], '\n' ∉ line := by
    rw [List.forall_mem_append, List.forall_mem_map, List.forall_mem_singleton]
    exact ⟨fun rule hr => h.notMem_shownLine hr, List.not_mem_nil⟩
  have whole' : ∀ line ∈ definitionLines g, '\n' ∉ line := by
    unfold definitionLines
    rw [List.forall_mem_append, List.forall_mem_map, List.forall_mem_singleton]
    exact ⟨fun rule hr => notMem_definitionLine (h.tokens hr), List.not_mem_nil⟩
  have replaced : (g.rules.map shownLine ++ [[]]).map
      (replaceFirst " -> ".toList " ::= ".toList) = definitionLines g := by
    unfold definitionLines
    rw [List.map_append, List.map_map, List.map_singleton]
    congr 1
    exact List.map_congr_left fun rule hr => h.replaceFirst_shownLine hr
  -- no line holds a line feed, so cutting undoes joining, before and after
  have any : definitionLines g ≠ [] := List.append_ne_nil_of_right_ne_nil _ (List.cons_ne_nil _ _)
  unfold asDefinitions
  rw [String.toList_ofList, shown, List.splitOn_intercalate '\n' whole (by simp), replaced,
    List.splitOn_intercalate '\n' whole' any]

/-- The words of these lines are those of legible tokens, so they are as short as
the symbols of the grammar. -/
theorem short_definitionLines (short : ∀ s ∈ g.symbols, Utf8.size s.text.toList < 8192)
    {number : Nat} {line : Line} (hl : line ∈ linesFrom number (definitionLines g)) :
    ∀ x ∈ line.lexemes, Utf8.size x.text < 8192 := by
  obtain ⟨number, chars, last⟩ := line
  rcases List.mem_append.1 (chars_mem_of_mem_linesFrom hl) with hc | hc
  · obtain ⟨rule, hr, rfl⟩ := List.mem_map.1 hc
    have legible := h.tokens hr
    intro x hx
    -- a word of the line has the text of a token of the rule
    rw [lexemes_definitionLine legible] at hx
    have text := List.mem_map_of_mem (f := Lexeme.text) hx
    rw [map_text_words legible] at text
    obtain ⟨token, ht, e⟩ := List.mem_map.1 text
    rw [← e]
    rcases mem_ruleTokens ht with rfl | rfl | ⟨s, hs, rfl⟩
    · decide
    · decide
    · rw [text_tokenOf]
      exact short s (List.mem_flatMap.2 ⟨rule, hr, hs⟩)
  · have empty : chars = [] := List.mem_singleton.1 hc
    rw [empty]
    intro x hx
    cases hx

end Legible

/-- The lines of some rules fit the rules, one after the other, and the empty line at
the end does not count. -/
theorem fits_definitionLines {rules : List Rule}
    (legible : ∀ rule ∈ rules, ∀ token ∈ ruleTokens rule, token.Legible)
    (any : ∀ rule ∈ rules, rule.alternatives ≠ []) (number : Nat) :
    List.Forall₂ Fits (ruleLines (linesFrom number (rules.map definitionLine ++ [[]]))) rules := by
  induction rules generalizing number with
  | nil => exact .nil
  | cons rule rest ih =>
    rw [List.forall_mem_cons] at legible any
    have fits := fits_definitionLine legible.1 any.1 number false
    have words : Line.lexemes ⟨number, definitionLine rule, false⟩ ≠ [] := by
      intro none
      have tokens := fits.2
      rw [none] at tokens
      cases tokens
    rw [List.map_cons, List.cons_append, linesFrom_cons _ _ (by simp),
      ruleLines_cons_of_ne_nil words]
    exact .cons fits (ih legible.2 any.2 (number + 1))

/-- **A legible grammar reads back**: the text that defines its rules is read as
a grammar with the same rules, if its symbols are shorter than a window. -/
theorem Legible.readGrammar_asDefinitions {g : Grammar} (h : Legible g)
    (short : ∀ s ∈ g.symbols, Utf8.size s.text.toList < 8192) :
    (readGrammar (Source.ofBytes (asDefinitions g.text).toUTF8.toList)).outcome =
      .ok (Grammar.collect g.rules) := by
  have bytes : (Source.ofBytes (asDefinitions g.text).toUTF8.toList).events =
      ((asDefinitions g.text).toList.flatMap Utf8.encode).map .ok := by
    rw [Source.events_ofBytes, Utf8.toList_toUTF8]
  have lines : linesOf (asDefinitions g.text).toList = linesFrom 0 (definitionLines g) := by
    unfold linesOf
    rw [h.splitOn_asDefinitions]
  -- short words make the items of the lexer those of the lines
  have words : ∀ line ∈ linesOf (asDefinitions g.text).toList, ∀ x ∈ line.lexemes,
      Utf8.size x.text < Window.capacity := by
    rw [lines]
    exact fun line hl => h.short_definitionLines short hl
  have fits := fits_definitionLines (fun rule hr => h.tokens hr) h.alternatives 0
  rw [outcome_readGrammar_eq_feed (Source.flows_ofBytes _) bytes (lexes_text words), lines,
    ← Grammar.foldl_extend_eq_collect]
  exact feed_of_rules fits

end Bnf

end ChomskyForm
