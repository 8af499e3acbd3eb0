/-
The components of a path.

What a path says is a row of components: the root or `.` at its beginning, then
names and `..`. A slash more than is needed says nothing, and neither does `.`
behind the beginning. The file of a path is its last component, if that is a
name.

`Path.split?` works on the text of a path. The parent that it answers is a part
of that text, cut off in front of slashes and dots that say nothing, and this
part has the components of the path but for the last one.
-/
import Mathlib.Data.List.DropRight
import ChomskyForm.Files.Path
import ChomskyForm.Proofs.Joining

set_option autoImplicit false

namespace ChomskyForm

/-- A component of a path. -/
inductive Component where
  /-- The root, where a path begins that begins with a slash. -/
  | root
  /-- The directory where a path begins that begins with `.`. -/
  | current
  /-- The directory above. -/
  | parent
  | name (text : String)
deriving DecidableEq

/-- The text of a component that is a name. -/
def Component.name? : Component → Option String
  | name text => some text
  | _ => none

namespace Path

/-! ## 1. Components -/

/-- The component that a piece is. -/
def component (piece : List Char) : Component :=
  if piece = ['.', '.'] then .parent else .name (String.ofList piece)

/-- The component that the first piece is if nothing is looked up for it: an empty
piece with a slash behind it, or `.`. -/
def opening : List (List Char) → List Component
  | [] => []
  | first :: behind =>
    if first = [] ∧ behind ≠ [] then [.root]
    else if first = ['.'] then [.current]
    else []

/-- The pieces that say something wherever they stand. -/
def spoken (row : List (List Char)) : List (List Char) := row.filter (!isVoid ·)

/-- The components of a path, from its pieces between slashes. -/
def components (path : Path) : List Component :=
  let row := path.text.toList.splitOn '/'
  opening row ++ (spoken row).map component

/-! ## 2. Pieces -/

/-- The pieces of a text are what the library cuts at slashes, so its lemmas on cutting
apply. -/
theorem pieces_eq_splitOn (text : List Char) : pieces text = text.splitOn '/' := by
  induction text with
  | nil => rfl
  | cons c rest ih =>
    rw [pieces, List.splitOn_cons_eq_if_modifyHead, ih]
    by_cases slash : c = '/'
    · rw [if_pos slash, if_pos (beq_iff_eq.2 slash)]
    · rw [if_neg slash, if_neg (fun e => slash (beq_iff_eq.1 e))]
      obtain ⟨first, others, split⟩ := List.exists_cons_of_ne_nil (List.splitOn_ne_nil '/' rest)
      rw [split]
      rfl

theorem pieces_ne_nil (text : List Char) : pieces text ≠ [] := by
  rw [pieces_eq_splitOn]
  exact List.splitOn_ne_nil '/' text

/-- A slash separates the pieces in front of it from those behind it. -/
theorem pieces_append (text behind : List Char) :
    pieces (text ++ '/' :: behind) = pieces text ++ pieces behind := by
  rw [pieces_eq_splitOn, pieces_eq_splitOn, pieces_eq_splitOn]
  exact List.splitOnP_append_cons text behind (beq_self_eq_true '/')

/-- A slash at the beginning has an empty piece in front of it. -/
theorem pieces_slash (text : List Char) : pieces ('/' :: text) = [] :: pieces text :=
  pieces_append [] text

/-- The piece that a text begins with, if it does not begin with a slash. -/
theorem pieces_cons_of_ne {c : Char} (h : c ≠ '/') (text : List Char) :
    ∃ first others, pieces text = first :: others ∧
      pieces (c :: text) = (c :: first) :: others := by
  obtain ⟨first, others, split⟩ := List.exists_cons_of_ne_nil (pieces_ne_nil text)
  refine ⟨first, others, split, ?_⟩
  rw [pieces, if_neg h, split]

theorem pieces_of_notMem {text : List Char} (h : '/' ∉ text) : pieces text = [text] := by
  rw [pieces_eq_splitOn]
  exact List.splitOn_eq_singleton h

/-- No piece has a slash in it. -/
theorem slash_notMem_of_mem_pieces {piece text : List Char} (h : piece ∈ pieces text) :
    '/' ∉ piece := by
  rw [pieces_eq_splitOn] at h
  exact notMem_of_mem_splitOn h

/-- Pieces of a text can be joined and cut again. -/
theorem pieces_intercalate {row : List (List Char)} {text : List Char} (any : row ≠ [])
    (inside : row ⊆ pieces text) : pieces (['/'].intercalate row) = row := by
  rw [pieces_eq_splitOn]
  exact List.splitOn_intercalate '/' (fun _ h => slash_notMem_of_mem_pieces (inside h)) any

/-- Only the empty text is one empty piece. -/
theorem eq_nil_of_pieces {text : List Char} (h : pieces text = [[]]) : text = [] := by
  have joined : ['/'].intercalate (text.splitOn '/') = text := List.intercalate_splitOn '/'
  rw [← pieces_eq_splitOn, h] at joined
  exact joined.symm

/-! ## 3. What is said by a row of pieces -/

@[simp] theorem spoken_append (a b : List (List Char)) :
    spoken (a ++ b) = spoken a ++ spoken b := List.filter_append _ _

theorem spoken_of_isVoid {piece : List Char} (h : isVoid piece = true) : spoken [piece] = [] := by
  simp [spoken, h]

theorem spoken_of_not_isVoid {piece : List Char} (h : ¬ isVoid piece = true) :
    spoken [piece] = [piece] := by
  simp [spoken, h]

/-- Void pieces at the end can be taken away. -/
theorem spoken_rdropWhile (row : List (List Char)) :
    spoken (row.rdropWhile isVoid) = spoken row := by
  induction row using List.reverseRecOn with
  | nil => rfl
  | append_singleton row piece ih =>
    rw [List.rdropWhile_concat, spoken_append]
    by_cases void : isVoid piece = true
    · rw [if_pos void, ih, spoken_of_isVoid void, List.append_nil]
    · rw [if_neg void, spoken_append]

/-- What opens a row does not depend on the last of several pieces. -/
theorem opening_append_singleton {row : List (List Char)} (any : row ≠ []) (a b : List Char) :
    opening (row ++ [a]) = opening (row ++ [b]) := by
  obtain ⟨first, rest, rfl⟩ := List.exists_cons_of_ne_nil any
  simp [opening]

/-- What opens a row that says something opens every longer one. -/
theorem opening_append {row : List (List Char)} (any : row ≠ []) (more : row ≠ [[]])
    (behind : List (List Char)) : opening (row ++ behind) = opening row := by
  obtain ⟨first, rest, rfl⟩ := List.exists_cons_of_ne_nil any
  by_cases alone : rest = []
  · subst alone
    have solid : first ≠ [] := fun e => more (by rw [e])
    simp [opening, solid]
  · simp [opening, alone]

/-- Joined pieces say what they said before. -/
theorem spoken_pieces_intercalate {row : List (List Char)} {text : List Char}
    (inside : row ⊆ pieces text) : spoken (pieces (['/'].intercalate row)) = spoken row := by
  by_cases any : row = []
  · rw [any]
    rfl
  · rw [pieces_intercalate any inside]

/-- The components in terms of the pieces that the path operations work with. -/
theorem components_eq (path : Path) : path.components =
    opening (pieces path.text.toList) ++ (spoken (pieces path.text.toList)).map component := by
  rw [pieces_eq_splitOn]
  rfl

/-! ## 4. A name in a directory -/

/-- A text that is a name: it has no slash, and says something other than
`..`. -/
structure IsName (name : List Char) : Prop where
  whole : '/' ∉ name
  spoken : ¬ isVoid name = true
  down : name ≠ ['.', '.']

theorem IsName.pieces_eq {name : List Char} (h : IsName name) : pieces name = [name] :=
  pieces_of_notMem h.whole

theorem IsName.component_eq {name : List Char} (h : IsName name) :
    component name = .name (String.ofList name) := if_neg h.down

/-- A path that is a name opens with nothing but the name. -/
theorem IsName.opening_eq {name : List Char} (h : IsName name) : opening [name] = [] := by
  have spoken := h.spoken
  simp only [isVoid, Bool.or_eq_true, beq_iff_eq, not_or] at spoken
  simp [opening, spoken]

/-- With the mark of an output in front, any text without slashes is a name, `..` and
`.` too. -/
theorem isName_mark {name : List Char} (whole : '/' ∉ name) :
    IsName (outputMark.toList ++ name) := by
  refine ⟨?_, ?_, ?_⟩
  · intro h
    rcases List.mem_append.1 h with h | h
    · exact absurd h (by decide)
    · exact whole h
  · intro h
    cases h
  · intro h
    cases h

theorem IsName.spoken_eq {name : List Char} (h : IsName name) : Path.spoken [name] = [name] :=
  spoken_of_not_isVoid h.spoken

/-- A name at the end of a row is a component at the end. -/
theorem components_concat (row : List (List Char)) {name : List Char} (h : IsName name) :
    (spoken (row ++ [name])).map component =
      (spoken row).map component ++ [.name (String.ofList name)] := by
  rw [spoken_append, h.spoken_eq, List.map_append, List.map_singleton, h.component_eq]

/-- A path joined with a name has the components of the path and the name. -/
theorem components_join (parent name : String) (h : IsName name.toList) :
    (join parent name).components = components ⟨parent⟩ ++ [.name name] := by
  have name_eq : Component.name (String.ofList name.toList) = .name name := by
    rw [String.ofList_toList]
  rw [components_eq, components_eq]
  unfold join
  by_cases empty : parent = ""
  · rw [if_pos empty, empty, h.pieces_eq]
    have concat := components_concat [] h
    rw [List.nil_append] at concat
    rw [h.opening_eq, concat, name_eq]
    rfl
  rw [if_neg empty]
  by_cases slash : parent.toList.getLast? = some '/'
  · -- the slash at the end of the parent is the one in front of the name
    rw [if_pos slash]
    obtain ⟨before, e⟩ := List.getLast?_eq_some_iff.1 slash
    have joined : (parent ++ name).toList = before ++ '/' :: name.toList := by
      rw [String.toList_append, e, List.append_assoc]
      rfl
    dsimp only
    rw [joined, pieces_append, h.pieces_eq, components_concat _ h, e, pieces_append, name_eq,
      opening_append_singleton (pieces_ne_nil before) name.toList []]
    have nothing : pieces [] = [[]] := rfl
    rw [nothing, spoken_append, spoken_of_isVoid rfl, List.append_nil, List.append_assoc]
  · rw [if_neg slash]
    have joined : (parent ++ "/" ++ name).toList = parent.toList ++ '/' :: name.toList := by
      rw [String.toList_append, String.toList_append, List.append_assoc]
      rfl
    have more : pieces parent.toList ≠ [[]] := fun e =>
      empty (String.toList_eq_nil_iff.1 (eq_nil_of_pieces e))
    dsimp only
    rw [joined, pieces_append, h.pieces_eq, components_concat _ h, name_eq,
      opening_append (pieces_ne_nil _) more, List.append_assoc]

/-! ## 5. The parent of a path -/

/-- How the text of a path is cut into a beginning that is kept and the rest, and
what it opens with. -/
inductive Anchored : List Char → List Char → List Component → Prop
  | root (body : List Char) : Anchored ['/'] body [.root]
  | dot : Anchored ['.'] [] [.current]
  | dotSlash (rest : List Char) : Anchored ['.'] ('/' :: rest) [.current]
  | nothing {body : List Char} : opening (pieces body) = [] → Anchored [] body []

/-- A text that does not begin with a slash or with `.` opens with a name. -/
theorem opening_of_plain {text : List Char} (slash : ∀ rest, text ≠ '/' :: rest)
    (alone : text ≠ ['.']) (dotSlash : ∀ rest, text ≠ '.' :: '/' :: rest) :
    opening (pieces text) = [] := by
  cases text with
  | nil => rfl
  | cons c rest =>
    have c_ne : c ≠ '/' := fun e => slash rest (by rw [e])
    obtain ⟨first, others, split, eq⟩ := pieces_cons_of_ne c_ne rest
    have first_ne : c :: first ≠ ['.'] := by
      intro e
      cases e
      -- the first piece is a dot alone where the text ends or goes on with a slash
      cases rest with
      | nil => exact alone rfl
      | cons d rest =>
        have d_ne : d ≠ '/' := fun e => dotSlash rest (by rw [e])
        obtain ⟨second, others', -, eq'⟩ := pieces_cons_of_ne d_ne rest
        rw [eq'] at split
        cases split
    rw [eq]
    simp only [opening, reduceCtorEq, false_and, if_false, if_neg first_ne]

/-- Every text is anchored where it is cut. -/
theorem anchored_splitAnchor (text : List Char) :
    ∃ start, Anchored (splitAnchor text).1 (splitAnchor text).2 start ∧
      (splitAnchor text).1 ++ (splitAnchor text).2 = text := by
  unfold splitAnchor
  split
  · exact ⟨_, .root _, rfl⟩
  · exact ⟨_, .dot, rfl⟩
  · exact ⟨_, .dotSlash _, rfl⟩
  · rename_i slash alone dotSlash
    exact ⟨_, .nothing (opening_of_plain slash alone dotSlash), rfl⟩

section Anchored

variable {anchor body : List Char} {start : List Component}

/-- The pieces that are kept at the beginning are no names. -/
theorem Anchored.pieces_eq (h : Anchored anchor body start) :
    opening (pieces (anchor ++ body)) = start ∧
      spoken (pieces (anchor ++ body)) = spoken (pieces body) := by
  cases h with
  | root body =>
    have any := pieces_ne_nil body
    rw [List.singleton_append, pieces_slash]
    exact ⟨by simp [opening, any], rfl⟩
  | dot => exact ⟨rfl, rfl⟩
  | dotSlash rest =>
    have dot : pieces ('.' :: '/' :: rest) = ['.'] :: pieces rest := pieces_append ['.'] rest
    rw [List.singleton_append, dot, pieces_slash]
    exact ⟨rfl, rfl⟩
  | nothing none => exact ⟨none, rfl⟩

/-- The components of an anchored text are what it opens with, and what the rest of it
says. -/
theorem Anchored.components_eq (h : Anchored anchor body start) :
    components ⟨String.ofList (anchor ++ body)⟩ =
      start ++ (spoken (pieces body)).map component := by
  rw [Path.components_eq, String.toList_ofList, h.pieces_eq.1, h.pieces_eq.2]

/-- What a text opens with is no name. -/
theorem Anchored.not_name (h : Anchored anchor body start) :
    start.getLast?.bind Component.name? = none := by
  cases h <;> rfl

/-- A path whose pieces are the first ones of another path, with something said at
the end, is cut in the same way. -/
theorem Anchored.parent (h : Anchored anchor body start) {row : List (List Char)}
    (front : row <+: pieces body) (solid : row.rdropWhile isVoid = row) :
    Anchored anchor (['/'].intercalate row) start := by
  have not_void : row ≠ [[]] := by
    intro e
    rw [e] at solid
    cases solid
  -- case by case, as what may be cut off depends on how the text begins
  cases h with
  | root body => exact .root _
  | dot =>
    -- the only piece of an empty text is void
    rcases List.prefix_concat_iff.1 (show row <+: [] ++ [[]] from front) with e | e
    · exact absurd e not_void
    · rw [List.prefix_nil.1 e]
      exact .dot
  | dotSlash rest =>
    rw [pieces_slash] at front
    cases row with
    | nil => exact .dot
    | cons first others =>
      obtain ⟨e, -⟩ := List.cons_prefix_cons.1 front
      subst e
      have any : others ≠ [] := fun e => not_void (by rw [e])
      rw [List.intercalate_cons_of_ne_nil any]
      exact .dotSlash _
  | nothing none =>
    by_cases any : row = []
    · subst any
      exact .nothing rfl
    · have inside : row ⊆ pieces body := front.subset
      obtain ⟨behind, e⟩ := front
      refine .nothing ?_
      rw [pieces_intercalate any inside, ← opening_append any not_void behind, e]
      exact none

end Anchored

/-- The last piece that says something, and the pieces in front of it. -/
theorem spoken_of_dropWhile {row before : List (List Char)} {name : List Char}
    (h : row.reverse.dropWhile isVoid = name :: before) :
    ¬ isVoid name = true ∧ name ∈ row ∧
      spoken row = spoken (before.dropWhile isVoid).reverse ++ [name] ∧
      (before.dropWhile isVoid).reverse <+: row := by
  -- from the end of the row, which the library drops from with `rdropWhile`
  have kept : row.rdropWhile isVoid = before.reverse ++ [name] := by
    rw [List.rdropWhile, h, List.reverse_cons]
  have front : before.reverse ++ [name] <+: row := kept ▸ List.rdropWhile_prefix isVoid row
  have cut : (before.dropWhile isVoid).reverse = before.reverse.rdropWhile isVoid := by
    rw [List.rdropWhile, List.reverse_reverse]
  have solid : ¬ isVoid name = true := by
    have first := List.head?_dropWhile_not isVoid row.reverse
    rw [h] at first
    exact Bool.eq_false_iff.1 first
  refine ⟨solid, front.subset (List.mem_append_right _ (List.mem_singleton_self name)), ?_, ?_⟩
  · rw [← spoken_rdropWhile row, kept, spoken_append, spoken_of_not_isVoid solid, cut,
      spoken_rdropWhile]
  · rw [cut]
    exact ((List.rdropWhile_prefix _ _).trans (List.prefix_append _ _)).trans front

/-- Where nothing is left, nothing was said. -/
theorem spoken_of_dropWhile_nil {row : List (List Char)}
    (h : row.reverse.dropWhile isVoid = []) : spoken row = [] := by
  have kept : row.rdropWhile isVoid = [] := by
    rw [List.rdropWhile, h, List.reverse_nil]
  rw [← spoken_rdropWhile row, kept]
  rfl

/-- **The components of a path that names a file** are those of its parent and the
name. -/
theorem components_of_split? {path : Path} {parent name : String}
    (h : path.split? = some (parent, name)) :
    path.components = components ⟨parent⟩ ++ [.name name] ∧ '/' ∉ name.toList := by
  obtain ⟨start, anchored, text⟩ := anchored_splitAnchor path.text.toList
  have whole := anchored.components_eq
  rw [text, String.ofList_toList] at whole
  unfold split? at h
  dsimp only at h
  split at h
  · cases h
  rename_i last before e
  split at h
  · cases h
  rename_i down
  obtain ⟨rfl, rfl⟩ := Prod.mk.inj (Option.some.inj h)
  obtain ⟨solid, inside, said, front⟩ := spoken_of_dropWhile e
  have slash : '/' ∉ last := slash_notMem_of_mem_pieces inside
  -- void pieces were dropped in front of the name as well, so nothing is dropped a second time
  have cut : (before.dropWhile isVoid).reverse.rdropWhile isVoid =
      (before.dropWhile isVoid).reverse := by
    rw [List.rdropWhile, List.reverse_reverse, List.dropWhile_idempotent]
  have parent := (anchored.parent front cut).components_eq
  rw [spoken_pieces_intercalate front.subset] at parent
  have name : IsName last := ⟨slash, solid, down⟩
  refine ⟨?_, by rwa [String.toList_ofList]⟩
  rw [whole, said, parent, List.map_append, List.map_singleton, name.component_eq,
    List.append_assoc]

/-- A path that names no file ends with no name. -/
theorem name?_of_split? {path : Path} (h : path.split? = none) :
    path.components.getLast?.bind Component.name? = none := by
  obtain ⟨start, anchored, text⟩ := anchored_splitAnchor path.text.toList
  have whole := anchored.components_eq
  rw [text, String.ofList_toList] at whole
  rw [whole]
  unfold split? at h
  dsimp only at h
  split at h
  · rename_i e
    rw [spoken_of_dropWhile_nil e, List.map_nil, List.append_nil]
    exact anchored.not_name
  · rename_i last before e
    split at h
    · rename_i up
      obtain ⟨-, -, said, -⟩ := spoken_of_dropWhile e
      rw [said, up, List.map_append, ← List.append_assoc]
      exact congrArg (Option.bind · Component.name?) List.getLast?_concat
    · cases h

/-- The file that a path names is its last component. -/
theorem fileName?_eq (path : Path) :
    path.fileName? = path.components.getLast?.bind Component.name? := by
  unfold fileName?
  cases e : path.split? with
  | none => exact (name?_of_split? e).symm
  | some split =>
    obtain ⟨parent, name⟩ := split
    rw [(components_of_split? e).1, List.getLast?_concat]
    rfl

/-! ## 6. The path of the output -/

/-- There is no output exactly where the last component is no name. -/
theorem output?_eq_none_iff (path : Path) :
    path.output? = none ↔ path.components.getLast?.bind Component.name? = none := by
  rw [← fileName?_eq, output?, fileName?, Option.map_eq_none_iff, Option.map_eq_none_iff]

/-- The output has the components of the input, but for a mark in front of the
last name. -/
theorem components_of_output? {input output : Path} (h : input.output? = some output) :
    ∃ parent name, input.components = parent ++ [.name name] ∧
      output.components = parent ++ [.name (outputMark ++ name)] := by
  unfold output? at h
  obtain ⟨⟨parent, name⟩, split, e⟩ := Option.map_eq_some_iff.1 h
  obtain ⟨whole, slash⟩ := components_of_split? split
  refine ⟨components ⟨parent⟩, name, whole, ?_⟩
  rw [← e]
  apply components_join
  rw [String.toList_append]
  exact isName_mark slash

/-- The mark makes another name, as it makes a longer one. -/
theorem mark_append_ne (name : String) : outputMark ++ name ≠ name := by
  intro h
  have length := congrArg String.length h
  rw [String.length_append] at length
  have mark : outputMark.length = 4 := rfl
  omega

/-- The output is never the input. -/
theorem output_ne_input {input output : Path} (h : input.output? = some output) :
    output ≠ input := by
  intro same
  obtain ⟨parent, name, whole, other⟩ := components_of_output? h
  rw [same, whole] at other
  have last := List.append_cancel_left other
  exact mark_append_ne name (Component.name.inj (List.cons.inj last).1).symm

end Path

end ChomskyForm
