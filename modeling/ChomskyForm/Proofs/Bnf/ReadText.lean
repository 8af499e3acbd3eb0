/-
Reading a text line by line.

The reader takes bytes, decodes them in a window, lexes the characters and
feeds the tokens to three states. None of this is visible in the result: a text
is read as the list of its lines. Either every line that has words fits a rule,
and the grammar collects these rules, or the first fault of a line is the error
of the text. `readGrammar_eq_lines` says so for every text whose words are
shorter than a window.
-/
import Mathlib.Data.List.Induction
import ChomskyForm.Proofs.Bnf.RuleLine
import ChomskyForm.Proofs.Grammar.Lookup

set_option autoImplicit false

namespace ChomskyForm

/-! ## 1. Collecting rules -/

/-- The alternatives that the rules of a name list, in order. -/
def alternativesOf (rules : List Rule) (name : String) : List Production :=
  (rules.filter fun rule => rule.name = name).flatMap Rule.alternatives

/-- The grammar that declares the names of some rules in the order in which they
come first, each with all alternatives that the rules list for it. -/
def Grammar.collect (rules : List Rule) : Grammar where
  table := {
    rules := (rules.map Rule.name).eraseDups.map fun name => ⟨name, alternativesOf rules name⟩
    nodup := by
      rw [List.map_map]
      exact (List.map_id _).symm ▸ nodup_eraseDups _ }
  explicitStart := none

/-- One more rule adds its alternatives to those of its own name only. -/
theorem alternativesOf_concat (rules : List Rule) (rule : Rule) (name : String) :
    alternativesOf (rules ++ [rule]) name =
      alternativesOf rules name ++ if rule.name = name then rule.alternatives else [] := by
  unfold alternativesOf
  rw [List.filter_append, List.flatMap_append]
  congr 1
  by_cases e : rule.name = name
  · simp [e]
  · simp [e]

theorem alternativesOf_of_notMem {rules : List Rule} {name : String}
    (h : name ∉ rules.map Rule.name) : alternativesOf rules name = [] := by
  unfold alternativesOf
  rw [List.filter_eq_nil_iff.2, List.flatMap_nil]
  intro rule hr e
  exact h (List.mem_map.2 ⟨rule, hr, of_decide_eq_true e⟩)

/-- The collected names are those of the rules, each of them once. -/
theorem Grammar.names_collect (rules : List Rule) :
    (Grammar.collect rules).names = (rules.map Rule.name).eraseDups := by
  show ((rules.map Rule.name).eraseDups.map fun name => _).map Rule.name = _
  rw [List.map_map]
  exact List.map_id _

/-- One more rule extends what was collected. -/
theorem Grammar.collect_concat (rules : List Rule) (rule : Rule) :
    Grammar.collect (rules ++ [rule]) =
      (Grammar.collect rules).extend rule.name rule.alternatives := by
  have declared : rule.name ∈ (Grammar.collect rules).names ↔ rule.name ∈ rules.map Rule.name := by
    rw [names_collect, List.mem_eraseDups]
  refine Grammar.ext ?_ rfl
  show ((rules ++ [rule]).map Rule.name).eraseDups.map _ =
    Rule.alter rule.name _ (Grammar.collect rules).table.rules
  rw [List.map_append, List.eraseDups_append, List.map_singleton]
  by_cases known : rule.name ∈ rules.map Rule.name
  · -- the name keeps its place, and its alternatives get longer
    have repeated : [rule.name].removeAll (rules.map Rule.name) = [] := by
      simpa [List.removeAll] using known
    rw [RuleTable.alter_of_mem _ _ (Grammar.collect rules).table.nodup (declared.2 known),
      repeated, List.eraseDups_nil, List.append_nil]
    show _ = ((rules.map Rule.name).eraseDups.map _).map _
    rw [List.map_map]
    refine List.map_congr_left fun name _ => ?_
    rw [alternativesOf_concat]
    by_cases e : rule.name = name
    · subst e
      simp
    · have e' : ¬ name = rule.name := fun h => e h.symm
      simp [e, e']
  · -- the name comes last, and no earlier rule lists anything for it
    have new : [rule.name].removeAll (rules.map Rule.name) = [rule.name] := by
      simpa [List.removeAll] using known
    rw [RuleTable.alter_of_notMem _ _ (fun h => known (declared.1 h)), new, List.eraseDups_cons,
      List.map_append]
    congr 1
    · refine List.map_congr_left fun name hn => ?_
      have e : ¬ rule.name = name := by
        rintro rfl
        exact known (List.mem_eraseDups.1 hn)
      rw [alternativesOf_concat, if_neg e, List.append_nil]
    · rw [List.filter_nil, List.eraseDups_nil, List.map_singleton, alternativesOf_concat,
        if_pos rfl, alternativesOf_of_notMem known]
      rfl

/-- Extending the empty grammar rule by rule collects the rules. The induction takes the
last rule off, which is the one that extends the others. -/
theorem Grammar.foldl_extend_eq_collect (rules : List Rule) :
    rules.foldl (fun g rule => g.extend rule.name rule.alternatives) Grammar.empty =
      Grammar.collect rules := by
  induction rules using List.reverseRecOn with
  | nil => rfl
  | append_singleton rules rule ih => rw [List.foldl_concat, ih, collect_concat]

namespace Bnf

/-! ## 2. The lines of a text that have words -/

/-- The words of the lines that have words. -/
def ruleLines (lines : List Line) : List (List Lexeme) :=
  (lines.map Line.lexemes).filter (· ≠ [])

theorem ruleLines_cons_of_eq_nil {line : Line} (h : line.lexemes = []) (lines : List Line) :
    ruleLines (line :: lines) = ruleLines lines := by
  unfold ruleLines
  rw [List.map_cons, List.filter_cons_of_neg (by simpa using h)]

theorem ruleLines_cons_of_ne_nil {line : Line} (h : line.lexemes ≠ []) (lines : List Line) :
    ruleLines (line :: lines) = line.lexemes :: ruleLines lines := by
  unfold ruleLines
  rw [List.map_cons, List.filter_cons_of_pos (by simpa using h)]

/-- The first fault in the order of the lines and of the words in them. -/
def firstFault (lines : List Line) : Option ParseError := lines.findSome? Line.fault

variable {g : Grammar}

theorem outcome_step_lineStart {token : Token} (ends : EndsLine token) (span : Span) :
    (RuleReader.step ⟨g, .lineStart⟩ token span).outcome = .ok ⟨g, .lineStart⟩ := by
  rcases ends with rfl | rfl <;> rfl

/-- A line without words has no effect. -/
theorem feed_of_blank_line {line : Line} (h : line.lexemes = []) (more : List Item) :
    feed ⟨g, .lineStart⟩ (line.items ++ more) = feed ⟨g, .lineStart⟩ more := by
  unfold Line.items
  rw [h]
  exact feed_of_step (outcome_step_lineStart line.endsLine_stop line.stop.2) more

/-- A line that fits a rule extends the grammar. -/
theorem feed_of_rule_line {line : Line} {rule : Rule} (fits : Fits line.lexemes rule)
    (more : List Item) :
    feed ⟨g, .lineStart⟩ (line.items ++ more) =
      feed ⟨g.extend rule.name rule.alternatives, .lineStart⟩ more := by
  unfold Line.items
  rw [List.append_assoc]
  exact feed_of_fits fits line.endsLine_stop more

/-- A line with a fault ends the reading with that fault. -/
theorem feed_of_faulty_line {line : Line} {e : ParseError} (h : line.fault = some e)
    (more : List Item) : feed ⟨g, .lineStart⟩ (line.items ++ more) = .error e := by
  unfold Line.items
  rw [List.append_assoc]
  exact feed_of_fault more h

/-- A line without a fault has no words, or it fits a rule. -/
theorem Line.fits_of_no_fault {line : Line} (h : line.fault = none) :
    line.lexemes = [] ∨ ∃ rule, Fits line.lexemes rule := by
  have fine : faultAmong (placeTokens .lineStart) line.items = none := h
  rcases exists_rule_of_no_fault line.endsLine_stop fine with
    ⟨-, empty⟩ | ⟨rule, tokens, any, classified, row⟩
  · exact .inl empty
  · have row' : ruleTokens rule = tokens := row
    exact .inr ⟨rule, any, by rw [classified, row']⟩

/-! ## 3. All lines -/

/-- The first fault is that of the first line, or else that of the others. -/
theorem firstFault_cons (line : Line) (lines : List Line) :
    firstFault (line :: lines) = line.fault.or (firstFault lines) := by
  unfold firstFault
  rw [List.findSome?_cons]
  cases line.fault <;> rfl

/-- Where no line has a fault, the lines with words fit some rules. -/
theorem exists_rules_of_no_fault {lines : List Line} (h : firstFault lines = none) :
    ∃ rules, List.Forall₂ Fits (ruleLines lines) rules := by
  induction lines with
  | nil => exact ⟨[], .nil⟩
  | cons line lines ih =>
    rw [firstFault_cons, Option.or_eq_none_iff] at h
    obtain ⟨rules, fits⟩ := ih h.2
    rcases Line.fits_of_no_fault h.1 with blank | ⟨rule, fit⟩
    · exact ⟨rules, by rwa [ruleLines_cons_of_eq_nil blank]⟩
    · -- a line that fits a rule has words, but to ask is shorter than to show it
      by_cases blank : line.lexemes = []
      · exact ⟨rules, by rwa [ruleLines_cons_of_eq_nil blank]⟩
      · refine ⟨rule :: rules, ?_⟩
        rw [ruleLines_cons_of_ne_nil blank]
        exact .cons fit fits

/-- Lines that fit some rules extend the grammar with all of them. -/
theorem feed_of_rules {lines : List Line} {rules : List Rule}
    (fits : List.Forall₂ Fits (ruleLines lines) rules) :
    feed ⟨g, .lineStart⟩ (lines.flatMap Line.items) =
      .ok (rules.foldl (fun g rule => g.extend rule.name rule.alternatives) g) := by
  induction lines generalizing g rules with
  | nil =>
    cases fits
    rfl
  | cons line lines ih =>
    rw [List.flatMap_cons]
    by_cases blank : line.lexemes = []
    · rw [ruleLines_cons_of_eq_nil blank] at fits
      rw [feed_of_blank_line blank, ih fits]
    · rw [ruleLines_cons_of_ne_nil blank] at fits
      cases fits with
      | cons fit fits => rw [feed_of_rule_line fit, ih fits, List.foldl_cons]

/-- The first fault of some lines is where reading them ends. -/
theorem feed_of_firstFault {lines : List Line} {e : ParseError} (h : firstFault lines = some e) :
    feed ⟨g, .lineStart⟩ (lines.flatMap Line.items) = .error e := by
  induction lines generalizing g with
  | nil => cases h
  | cons line lines ih =>
    rw [firstFault_cons, Option.or_eq_some_iff] at h
    rw [List.flatMap_cons]
    rcases h with faulty | ⟨fine, behind⟩
    · exact feed_of_faulty_line faulty _
    · -- the lines before the fault are read, but what they add is lost with the error
      rcases Line.fits_of_no_fault fine with blank | ⟨rule, fit⟩
      · rw [feed_of_blank_line blank, ih behind]
      · rw [feed_of_rule_line fit, ih behind]

/-! ## 4. What a word is -/

/-- A name of some characters in brackets. -/
def IsName (word inner : List Char) : Prop :=
  inner ≠ [] ∧ '<' ∉ inner ∧ '>' ∉ inner ∧ word = '<' :: inner ++ ['>']

/-- A word that begins like a name. -/
def OpensName (word : List Char) : Prop :=
  ∃ c rest, word = '<' :: c :: rest ∧ (Unicode.isAlphanumeric c = true ∨ c = '_' ∨ c = '$')

/-- The token of a word, or none for a word that is refused. -/
inductive Classified : List Char → Option Token → Prop where
  | define : Classified [':', ':', '='] (some .define)
  | pipe : Classified ['|'] (some .pipe)
  | name {word inner : List Char} : IsName word inner →
      Classified word (some (.name (String.ofList inner)))
  | refused {word : List Char} : (∀ inner, ¬ IsName word inner) → OpensName word →
      Classified word none
  | word {word : List Char} : word ≠ [':', ':', '='] → word ≠ ['|'] →
      (∀ inner, ¬ IsName word inner) → ¬ OpensName word →
      Classified word (some (.word (String.ofList word)))

/-- A word is bracketed exactly if it is a name. -/
theorem bracketed?_eq_some_iff (word inner : List Char) :
    Token.bracketed? word = some inner ↔ IsName word inner := by
  constructor
  · intro h
    unfold Token.bracketed? at h
    split at h
    · rename_i rest
      dsimp only at h
      by_cases name : rest.getLast? = some '>' ∧ rest.dropLast ≠ [] ∧ '<' ∉ rest.dropLast ∧
          '>' ∉ rest.dropLast
      · rw [if_pos name] at h
        cases h
        obtain ⟨last, any, opening, closing⟩ := name
        refine ⟨any, opening, closing, ?_⟩
        rw [List.cons_append, List.dropLast_append_getLast? _ last]
      · rw [if_neg name] at h
        cases h
    · cases h
  · rintro ⟨any, opening, closing, rfl⟩
    simp only [Token.bracketed?, List.cons_append, List.getLast?_concat, List.dropLast_concat]
    exact if_pos ⟨trivial, any, opening, closing⟩

/-- The check for the beginning of a name decides `OpensName`. -/
theorem opensName_iff (word : List Char) : Token.opensName word = true ↔ OpensName word := by
  constructor
  · intro h
    unfold Token.opensName at h
    split at h
    · rename_i c rest
      exact ⟨c, rest, rfl, by simpa [or_assoc] using h⟩
    · cases h
  · rintro ⟨c, rest, rfl, h⟩
    simpa [Token.opensName, or_assoc] using h

/-- **The token of a word is that of its class.** The classes are asked for in the order
in which the lexer tries them. -/
theorem Lexeme.classified (x : Lexeme) : Classified x.text x.token? := by
  obtain ⟨word, place⟩ := x
  unfold Lexeme.token? Token.classify?
  dsimp only
  rw [String.toList_ofList]
  by_cases define : word = [':', ':', '=']
  · subst define
    exact .define
  by_cases pipe : word = ['|']
  · subst pipe
    exact .pipe
  -- the lexer compares strings and the classes are about their characters
  have define' : String.ofList word ≠ "::=" := by
    intro h
    exact define (by simpa using congrArg String.toList h)
  have pipe' : String.ofList word ≠ "|" := by
    intro h
    exact pipe (by simpa using congrArg String.toList h)
  rw [if_neg define', if_neg pipe']
  cases h : Token.bracketed? word with
  | some inner => exact .name ((bracketed?_eq_some_iff word inner).1 h)
  | none =>
    have unnamed : ∀ inner, ¬ IsName word inner := by
      intro inner name
      rw [(bracketed?_eq_some_iff word inner).2 name] at h
      cases h
    dsimp only
    by_cases opens : Token.opensName word = true
    · rw [if_pos opens]
      exact .refused unnamed ((opensName_iff word).1 opens)
    · rw [if_neg opens]
      exact .word define pipe unnamed fun h => opens ((opensName_iff word).2 h)

/-- A word is a name in one way only. -/
theorem IsName.unique {word a b : List Char} (ha : IsName word a) (hb : IsName word b) : a = b :=
  Option.some.inj (((bracketed?_eq_some_iff word a).2 ha).symm.trans
    ((bracketed?_eq_some_iff word b).2 hb))

theorem IsName.head? {word inner : List Char} (h : IsName word inner) : word.head? = some '<' := by
  obtain ⟨-, -, -, rfl⟩ := h
  rfl

theorem OpensName.head? {word : List Char} (h : OpensName word) : word.head? = some '<' := by
  obtain ⟨c, rest, rfl, -⟩ := h
  rfl

/-- No word is in two classes. -/
theorem Classified.unique {word : List Char} {a b : Option Token} (ha : Classified word a)
    (hb : Classified word b) : a = b := by
  cases ha with
  | define =>
    cases hb with
    | define => rfl
    | name name => cases name.head?
    | refused _ opens => cases opens.head?
    | word define => exact absurd rfl define
  | pipe =>
    cases hb with
    | pipe => rfl
    | name name => cases name.head?
    | refused _ opens => cases opens.head?
    | word _ pipe => exact absurd rfl pipe
  | name name =>
    cases hb with
    | define | pipe => cases name.head?
    | name name' => rw [name.unique name']
    | refused unnamed | word _ _ unnamed => exact absurd name (unnamed _)
  | refused unnamed opens =>
    cases hb with
    | define | pipe => cases opens.head?
    | name name => exact absurd name (unnamed _)
    | refused => rfl
    | word _ _ _ closed => exact absurd opens closed
  | word define pipe unnamed closed =>
    cases hb with
    | define => exact absurd rfl define
    | pipe => exact absurd rfl pipe
    | name name => exact absurd name (unnamed _)
    | refused _ opens => exact absurd opens closed
    | word => rfl

/-- The classes settle the token of a word, in both directions. -/
theorem Lexeme.token?_eq_iff (x : Lexeme) (result : Option Token) :
    x.token? = result ↔ Classified x.text result := by
  constructor
  · rintro rfl
    exact x.classified
  · exact x.classified.unique

/-- A token of a word has the text of the word. -/
theorem Classified.text_eq {word : List Char} {token : Token}
    (h : Classified word (some token)) : token.text.toList = word := by
  cases h with
  | define | pipe => rfl
  | name name =>
    obtain ⟨-, -, -, rfl⟩ := name
    simp [Token.text]
  | word => exact String.toList_ofList

/-! ## 5. The result for a text -/

/-- **Reading a text is reading its lines.** If every word that is not part of a
comment is shorter than a window, then the text is read exactly if every line
with words fits a rule. The grammar then collects the rules and has no explicit
start. Otherwise the error is the first fault in the order of the text. A word
has the token of its class, and none if it is refused. -/
theorem readGrammar_eq_lines (text : String)
    (short : ∀ line ∈ linesOf text.toList, ∀ x ∈ line.lexemes, Utf8.size x.text < 8192) :
    (∀ g, (readGrammar (Source.ofBytes text.toUTF8.toList)).outcome = .ok g ↔
      ∃ rules, List.Forall₂ Fits (ruleLines (linesOf text.toList)) rules ∧
        g = Grammar.collect rules) ∧
    (∀ e, (readGrammar (Source.ofBytes text.toUTF8.toList)).outcome = .error e ↔
      firstFault (linesOf text.toList) = some e) ∧
    ∀ (x : Lexeme) (result : Option Token), x.token? = result ↔ Classified x.text result := by
  have bytes : (Source.ofBytes text.toUTF8.toList).events =
      (text.toList.flatMap Utf8.encode).map .ok := by
    rw [Source.events_ofBytes, Utf8.toList_toUTF8]
  have read := outcome_readGrammar_eq_feed (Source.flows_ofBytes _) bytes (lexes_text short)
  have fails : ∀ e, firstFault (linesOf text.toList) = some e →
      (readGrammar (Source.ofBytes text.toUTF8.toList)).outcome = .error e := by
    intro e fault
    rw [read]
    exact feed_of_firstFault fault
  have succeeds : ∀ rules, List.Forall₂ Fits (ruleLines (linesOf text.toList)) rules →
      (readGrammar (Source.ofBytes text.toUTF8.toList)).outcome = .ok (Grammar.collect rules) := by
    intro rules fits
    rw [read, ← Grammar.foldl_extend_eq_collect]
    exact feed_of_rules fits
  -- a text has a first fault or it has none, so both converses follow
  refine ⟨fun g => ⟨?_, ?_⟩, fun e => ⟨?_, fails e⟩, Lexeme.token?_eq_iff⟩
  · intro h
    cases fault : firstFault (linesOf text.toList) with
    | some e =>
      rw [fails e fault] at h
      cases h
    | none =>
      obtain ⟨rules, fits⟩ := exists_rules_of_no_fault fault
      rw [succeeds rules fits] at h
      cases h
      exact ⟨rules, fits, rfl⟩
  · rintro ⟨rules, fits, rfl⟩
    exact succeeds rules fits
  · intro h
    cases fault : firstFault (linesOf text.toList) with
    | some e' =>
      rw [fails e' fault] at h
      cases h
      rfl
    | none =>
      obtain ⟨rules, fits⟩ := exists_rules_of_no_fault fault
      rw [succeeds rules fits] at h
      cases h

/-- A comment, a blank before a line feed, a sign of a comment that begins none,
and a last line without a line feed. -/
theorem readGrammar_eq_lines_merged :
    (readGrammar (Source.ofBytes
      "# x\n<S> ::= a | <S>\r\n<T> ::= #\n<S> ::= b".toUTF8.toList)).outcome =
        .ok (Grammar.collect
          [⟨"S", [.unit (.terminal "a"), .unit (.nonterminal "S")]⟩,
            ⟨"T", [.unit (.terminal "#")]⟩, ⟨"S", [.unit (.terminal "b")]⟩]) ∧
    (readGrammar (Source.ofBytes "<S> ::= a |\n<x".toUTF8.toList)).outcome =
      .error (.malformedRule ⟨⟨0, 11⟩, ⟨1, 0⟩⟩ (.alternativeEmpty "S")) := by
  constructor
  · refine ((readGrammar_eq_lines _ ?_).1 _).2 ⟨_, ?_, rfl⟩
    · decide +kernel
    · decide +kernel
  · refine ((readGrammar_eq_lines _ ?_).2.1 _).2 ?_
    · decide +kernel
    · decide +kernel

end Bnf

end ChomskyForm
