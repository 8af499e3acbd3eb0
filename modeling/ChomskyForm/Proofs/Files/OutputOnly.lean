/-
A job changes its output and nothing else.

The output stands beside its input. Their paths have one parent, so where both
lead somewhere they lead to two names in one directory, and the names differ.
What is written to the one is therefore not written to the other. It is written
when everything else is done: what fails before leaves the files alone, and so
does an output that cannot be written.

Files may be refused for reasons that a tree does not know, and reading an open
file may fail at any byte. `FileTree.Serves` says what is relied on: to refuse is
to do nothing, and what is read is what is there.
-/
import ChomskyForm.Files.Job
import ChomskyForm.Proofs.Bnf.Delivery
import ChomskyForm.Proofs.Bnf.FailedRead
import ChomskyForm.Proofs.Files.Components
import ChomskyForm.Proofs.Normal.Shape

set_option autoImplicit false

namespace ChomskyForm

/-- What a composition answers is the answer of its second part. -/
theorem exists_of_bind_eq_ok {ε α β : Type} {x : Except ε α} {f : α → Except ε β} {b : β}
    (h : (x >>= f) = .ok b) : ∃ a, x = .ok a ∧ f a = .ok b := by
  cases x with
  | error e => cases h
  | ok a => exact ⟨a, rfl, h⟩

/-- A composition of actions goes on where its first part ends. -/
theorem run_bind_of_run {σ α β : Type} {x : StateM σ α} {s s' : σ} {a : α}
    (h : x.run s = (a, s')) (f : α → StateM σ β) : (x >>= f).run s = (f a).run s' := by
  show (f (x.run s).1).run (x.run s).2 = _
  rw [h]

namespace FileTree

variable {tree tree' : FileTree} {path : Path} {here there : Destination}

/-! ## 1. A path leads where its components lead -/

/-- Enters a component of a path. A name need not be there. -/
def enter (tree : FileTree) (here : Destination) : Component → Except Fault Destination
  | .root => .ok .root
  | .current => .ok here
  | .parent =>
    if tree.reached? here = some .directory then .ok here.parent else .error .notADirectory
  | .name name =>
    if tree.reached? here = some .directory then lookUp name here else .error .notADirectory

/-- Where following the pieces of a text leads, entering its components leads as well.
The empty pieces and the dots between them lead nowhere else. -/
theorem foldlM_enter_of_follow {row : List (List Char)} (h : tree.follow here row = .ok there) :
    ((Path.spoken row).map Path.component).foldlM tree.enter here = .ok there := by
  induction row generalizing here with
  | nil => exact h
  | cons piece rest ih =>
    have concat : Path.spoken (piece :: rest) = Path.spoken [piece] ++ Path.spoken rest :=
      Path.spoken_append [piece] rest
    unfold follow at h
    split at h
    · cases h
    · cases h
    rename_i directory
    -- the pieces are told apart as `follow` does it: to stay, to go up, or to enter a name
    by_cases void : Path.isVoid piece = true
    · rw [if_pos void] at h
      rw [concat, Path.spoken_of_isVoid void]
      exact ih h
    rw [if_neg void] at h
    rw [concat, Path.spoken_of_not_isVoid void, List.singleton_append, List.map_cons,
      List.foldlM_cons]
    by_cases up : piece = ['.', '.']
    · rw [if_pos up] at h
      rw [Path.component, if_pos up, enter, if_pos directory]
      exact ih h
    rw [if_neg up] at h
    rw [Path.component, if_neg up, enter, if_pos directory]
    cases entered : lookUp (String.ofList piece) here with
    | error fault =>
      rw [entered] at h
      cases h
    | ok next =>
      rw [entered] at h
      exact ih h

/-- What opens a path says where it begins. -/
theorem foldlM_enter_opening (tree : FileTree) {text : List Char} (any : text ≠ []) :
    (Path.opening (Path.pieces text)).foldlM tree.enter tree.home =
      .ok (if text.head? = some '/' then .root else tree.home) := by
  obtain ⟨c, rest, rfl⟩ := List.exists_cons_of_ne_nil any
  by_cases slash : c = '/'
  · subst slash
    have opening : Path.opening (Path.pieces ('/' :: rest)) = [.root] := by
      simp [Path.pieces_slash, Path.opening, Path.pieces_ne_nil]
    rw [opening]
    rfl
  · have head : ¬ (c :: rest).head? = some '/' := fun e => slash (Option.some.inj e)
    obtain ⟨first, others, -, eq⟩ := Path.pieces_cons_of_ne slash rest
    rw [if_neg head, eq]
    dsimp only [Path.opening]
    rw [if_neg fun e => List.cons_ne_nil c first e.1]
    split <;> rfl

/-- A path leads where its components lead. -/
theorem foldlM_enter_of_locate (h : tree.locate path = .ok there) :
    path.components.foldlM tree.enter tree.home = .ok there := by
  unfold locate at h
  dsimp only at h
  split at h
  · cases h
  split at h
  · cases h
  split at h
  · cases h
  -- only the paths that are looked up at all are left: not empty, not too long, without zeros
  rename_i any
  rw [Path.components_eq, List.foldlM_append, foldlM_enter_opening tree any]
  exact foldlM_enter_of_follow h

/-- To enter a name leads to that name in the present directory. -/
theorem eq_of_enter_name {name : String} (h : tree.enter here (.name name) = .ok there) :
    there = .inside (name :: here.names) := by
  unfold enter at h
  dsimp only at h
  split at h
  · unfold lookUp at h
    split at h
    · cases h
    · cases h
      rfl
  · cases h

/-- A path that ends with a name leads to this name in the directory to which its
parent leads. -/
theorem eq_of_locate {parent : List Component} {name : String}
    (names : path.components = parent ++ [.name name]) (h : tree.locate path = .ok there) :
    ∃ folder, parent.foldlM tree.enter tree.home = .ok folder ∧
      there = .inside (name :: folder.names) := by
  have led := foldlM_enter_of_locate h
  rw [names, List.foldlM_append] at led
  obtain ⟨folder, led, entered⟩ := exists_of_bind_eq_ok led
  rw [List.foldlM_cons] at entered
  obtain ⟨reached, entered, e⟩ := exists_of_bind_eq_ok entered
  cases e
  exact ⟨folder, led, eq_of_enter_name entered⟩

/-- Two paths with one parent lead into one directory. -/
theorem locate_siblings {a b : Path} {parent : List Component} {name other : String}
    (names : a.components = parent ++ [.name name])
    (names' : b.components = parent ++ [.name other])
    (h : tree.locate a = .ok here) (h' : tree.locate b = .ok there) :
    ∃ folder, here = .inside (name :: folder) ∧ there = .inside (other :: folder) := by
  obtain ⟨folder, led, e⟩ := eq_of_locate names h
  obtain ⟨folder', led', e'⟩ := eq_of_locate names' h'
  cases led.symm.trans led'
  exact ⟨folder.names, e, e'⟩

/-! ## 2. Reading and writing -/

/-- What can be opened is a file, or a directory, which cannot be read. -/
theorem read_cases {opened : Source} (h : tree.read path = .ok opened) :
    (∃ location content, tree.locate path = .ok (.inside location) ∧
        tree.node? location = some (.file content) ∧ opened = Source.ofBytes content) ∨
      faultsOf opened.events ≠ [] := by
  obtain ⟨place, located, found⟩ := exists_of_bind_eq_ok h
  split at found
  · cases found
  · rename_i content node
    cases found
    cases place with
    | root => cases node
    | inside location => exact .inl ⟨location, content, located, node, rfl⟩
  · cases found
    exact .inr (List.cons_ne_nil _ _)

/-- What can be written to is no directory, and is a file with the text behind that. -/
theorem write_eq {text : String} (h : tree.write path text = .ok tree') :
    ∃ location, tree.locate path = .ok (.inside location) ∧
      tree.node? location ≠ some .directory ∧
      tree' = tree.put location (.file text.toUTF8.toList) := by
  obtain ⟨place, located, written⟩ := exists_of_bind_eq_ok h
  cases place with
  | root => cases written
  | inside location =>
    dsimp only at written
    split at written
    · cases written
    · rename_i other
      cases written
      exact ⟨location, located, other, rfl⟩

theorem node?_put_self (tree : FileTree) (location : Location) (node : FileNode) :
    (tree.put location node).node? location = some node := by
  simp [node?, put]

/-- What is taken away for one location is not looked up for another one. -/
theorem lookup_filter_of_ne {location other : Location} (h : other ≠ location)
    (entries : List (Location × FileNode)) :
    (entries.filter fun entry => entry.1 != location).lookup other = entries.lookup other := by
  induction entries with
  | nil => rfl
  | cons entry rest ih =>
    obtain ⟨place, found⟩ := entry
    -- an entry that is taken away is not the one that is looked up
    by_cases here : place = location
    · subst here
      rw [List.filter_cons_of_neg (by simp), ih, List.lookup_cons, beq_false_of_ne h]
    · rw [List.filter_cons_of_pos (by simpa using here), List.lookup_cons, List.lookup_cons, ih]

/-- To put something at one location changes no other one. -/
theorem node?_put_of_ne (tree : FileTree) {location other : Location} (node : FileNode)
    (h : other ≠ location) : (tree.put location node).node? other = tree.node? other := by
  unfold node? put
  rw [List.lookup_cons, beq_false_of_ne h]
  exact lookup_filter_of_ne h tree.entries

end FileTree

/-! ## 3. What is relied on -/

/-- A source shows what is there: all of it, in reads of any size, or the beginning
of it and then a failing read. -/
structure Source.Shows (source : Source) (whole : List (Except Fault UInt8)) : Prop where
  flows : source.Flows
  events : source.events = whole ∨ ∃ front cause behind,
    front <+: whole ∧ source.events = front ++ .error cause :: behind

/-- A failure among the events is a failure of the source. -/
theorem faultsOf_ne_nil_of_mem {cause : Fault} {events : List (Except Fault UInt8)}
    (h : .error cause ∈ events) : faultsOf events ≠ [] := by
  induction events with
  | nil => cases h
  | cons event rest ih =>
    cases event with
    | error other => exact List.cons_ne_nil _ _
    | ok b =>
      rcases List.mem_cons.1 h with e | h
      · cases e
      · exact ih h

/-- What is shown without a failure is all there is. -/
theorem Source.Shows.events_eq {source : Source} {whole : List (Except Fault UInt8)}
    (h : source.Shows whole) (none : faultsOf source.events = []) : source.events = whole := by
  rcases h.events with same | ⟨front, cause, behind, -, cut⟩
  · exact same
  · have fault : .error cause ∈ source.events := by
      rw [cut]
      exact List.mem_append_right _ List.mem_cons_self
    exact absurd none (faultsOf_ne_nil_of_mem fault)

namespace FileTree

/-- The operations on the files of a tree may be refused, and then nothing is done.
Otherwise what an open file delivers is what is in it, and a written file holds
the text. -/
structure Serves (files : FileAccess (StateM FileTree)) : Prop where
  read (path : Path) (tree : FileTree) :
    (∃ fault, (files.read path).run tree = (.error fault, tree)) ∨
      ∃ opened source, tree.read path = .ok opened ∧
        (files.read path).run tree = (.ok source, tree) ∧ source.Shows opened.events
  write (path : Path) (text : String) (tree : FileTree) :
    (∃ fault, (files.write path text).run tree = (.error fault, tree)) ∨
      ∃ tree', tree.write path text = .ok tree' ∧
        (files.write path text).run tree = (.ok (), tree')

/-- An open file flows: it has no limit of its own on the size of a read. -/
theorem flows_of_read {tree : FileTree} {path : Path} {opened : Source}
    (h : tree.read path = .ok opened) : opened.Flows := by
  obtain ⟨place, located, found⟩ := exists_of_bind_eq_ok h
  split at found
  · cases found
  · cases found
    exact Source.flows_ofBytes _
  · cases found
    exact fun limit => by cases limit

/-- The access to a tree refuses what cannot be done, and nothing else. -/
theorem serves_access : Serves access := by
  refine ⟨?_, ?_⟩
  · intro path tree
    have ran : (access.read path).run tree = (tree.read path, tree) := rfl
    rw [ran]
    cases e : tree.read path with
    | error fault => exact .inl ⟨fault, rfl⟩
    | ok opened => exact .inr ⟨opened, opened, rfl, rfl, flows_of_read e, .inl rfl⟩
  · intro path text tree
    cases e : tree.write path text with
    | error fault =>
      refine .inl ⟨fault, ?_⟩
      unfold access
      simp [e]
      rfl
    | ok tree' =>
      refine .inr ⟨tree', rfl, ?_⟩
      unfold access
      simp [e]
      rfl

end FileTree

/-! ## 4. Jobs -/

namespace Job

open FileTree

variable {files : FileAccess (StateM FileTree)}

/-- What a job does to a tree: nothing, if it fails, and else it writes the normal
form of what it read. -/
theorem run_cases (serves : Serves files) (job : Job) (tree : FileTree) :
    (∃ notices e, (job.run files).run tree = (⟨notices, .error e⟩, tree) ∧
      ∀ violation, e ≠ .conversion (.notNormal violation)) ∨
    ∃ notices opened source g tree',
      (job.run files).run tree = (⟨notices, .ok ()⟩, tree') ∧
      tree.read job.input = .ok opened ∧ source.Shows opened.events ∧
      (convert source).outcome = .ok g ∧ tree.write job.output g.text = .ok tree' := by
  unfold run
  rcases serves.read job.input tree with ⟨fault, refused⟩ | ⟨opened, source, opens, reads, shows⟩
  · rw [run_bind_of_run refused]
    exact .inl ⟨[], .unreadable job.input fault, rfl, fun violation e => by cases e⟩
  rw [run_bind_of_run reads]
  dsimp only
  rw [Logged.outcome_mapError]
  cases converted : (convert source).outcome with
  | error cause =>
    refine .inl ⟨_, .conversion cause, rfl, ?_⟩
    intro violation e
    cases e
    exact outcome_convert_ne_notNormal source violation converted
  | ok g =>
    dsimp only [Except.mapError]
    -- writing comes last, so whatever fails up to here has written nothing
    rcases serves.write job.output g.text tree with ⟨fault, refused⟩ | ⟨tree', written, writes⟩
    · rw [run_bind_of_run refused]
      exact .inl ⟨_, .unwritable job.output fault, rfl, fun violation e => by cases e⟩
    · rw [run_bind_of_run writes]
      exact .inr ⟨_, opened, source, g, tree', rfl, opens, shows, converted, written⟩

end Job

/-- The text of the normal form of the grammar in one file was put into another
one, and nothing else was changed. -/
structure FileTree.Converted (tree tree' : FileTree) (input output : Location) : Prop where
  written : ∃ content g h, tree.node? input = some (.file content) ∧
    (Bnf.readGrammar (Source.ofBytes content)).outcome = .ok g ∧
    g.toNormalForm.outcome = .ok h ∧ tree'.node? output = some (.file h.text.toUTF8.toList)
  apart : input ≠ output
  others : ∀ place, place ≠ output → tree'.node? place = tree.node? place
  home : tree'.home = tree.home

namespace Job

open FileTree

variable {files : FileAccess (StateM FileTree)} {tree tree' : FileTree}

/-- What was converted is the content of the file that was opened. -/
theorem converted_of_shows {input output : Path} {parent : List Component} {name other : String}
    {opened source : Source} {g : Grammar} (names : input.components = parent ++ [.name name])
    (names' : output.components = parent ++ [.name other]) (differ : name ≠ other)
    (opens : tree.read input = .ok opened) (shows : source.Shows opened.events)
    (converted : (convert source).outcome = .ok g)
    (written : tree.write output g.text = .ok tree') :
    ∃ folder, tree.locate input = .ok (.inside (name :: folder)) ∧
      tree.locate output = .ok (.inside (other :: folder)) ∧
      Converted tree tree' (name :: folder) (other :: folder) := by
  obtain ⟨read, readable, normal⟩ := toNormalForm_of_convert converted
  -- a grammar was read, so no read failed, and what was shown is all there is
  have none := Bnf.faultsOf_of_readGrammar shows.flows readable
  have same := shows.events_eq none
  rcases read_cases opens with ⟨there, content, located, node, e⟩ | faults
  · obtain ⟨here, located', -, put⟩ := write_eq written
    obtain ⟨folder, e₁, e₂⟩ := locate_siblings names names' located located'
    cases e₁
    cases e₂
    subst e
    have apart : name :: folder ≠ other :: folder := fun e => differ (List.cons.inj e).1
    refine ⟨folder, located, located', ⟨content, read, g, node, ?_, normal, ?_⟩, apart, ?_, ?_⟩
    · rw [← readable]
      exact (Bnf.outcome_readGrammar_of_events shows.flows (Source.flows_ofBytes content) same).symm
    · rw [put, node?_put_self]
    · intro place elsewhere
      rw [put, node?_put_of_ne tree _ elsewhere]
    · rw [put]
      rfl
  · -- a directory can be opened, but nothing is read from it
    rw [← same] at faults
    exact absurd none faults

/-- **A job changes its output and nothing else, and only if it succeeds.** There is
an output where the input path names a file. It has the components of the input but
for a mark in front of the name, so it is another path. A job that fails leaves the
tree as it is, wherever it fails. One that succeeds leaves in the output the text of
the normal form of the grammar in the input, and leaves everything else, the input
among it. -/
theorem changes_only_output (serves : Serves files) (tree : FileTree) (input : Path) :
    (input.output? = none ↔ input.components.getLast?.bind Component.name? = none) ∧
    ∀ output, input.output? = some output →
      ofInput? input = some ⟨input, output⟩ ∧
      (∃ parent name, input.components = parent ++ [.name name] ∧
        output.components = parent ++ [.name ("cnf-" ++ name)]) ∧
      output ≠ input ∧
      ((∃ notices e, (run files ⟨input, output⟩).run tree = (⟨notices, .error e⟩, tree) ∧
          ∀ violation, e ≠ .conversion (.notNormal violation)) ∨
        ∃ notices tree' folder name,
          (run files ⟨input, output⟩).run tree = (⟨notices, .ok ()⟩, tree') ∧
          tree.locate input = .ok (.inside (name :: folder)) ∧
          tree.locate output = .ok (.inside (("cnf-" ++ name) :: folder)) ∧
          Converted tree tree' (name :: folder) (("cnf-" ++ name) :: folder)) := by
  refine ⟨input.output?_eq_none_iff, ?_⟩
  intro output h
  obtain ⟨parent, name, names, names'⟩ := Path.components_of_output? h
  have job : ofInput? input = some ⟨input, output⟩ := by
    rw [ofInput?, h]
    rfl
  refine ⟨job, ⟨parent, name, names, names'⟩, Path.output_ne_input h, ?_⟩
  rcases run_cases serves ⟨input, output⟩ tree with
    failed | ⟨notices, opened, source, g, tree', ran, opens, shows, converted, written⟩
  · exact .inl failed
  · obtain ⟨folder, located, located', changes⟩ := converted_of_shows names names'
      (Path.mark_append_ne name).symm opens shows converted written
    exact .inr ⟨notices, tree', folder, name, ran, located, located', changes⟩

/-- A working directory with a grammar in a directory. -/
def tidyTree : FileTree :=
  (FileTree.empty.makeDirectory ⟨"d"⟩).put ["g", "d", "working directory"]
    (.file "<S> ::= a <S> | b\n".toUTF8.toList)

/-- The path has all that says nothing in it, and leads up and down again. -/
theorem changes_only_output_tidy :
    Serves access ∧ Path.output? ⟨".//d/../d/./g"⟩ = some ⟨".//d/../d/cnf-g"⟩ ∧
      ∃ notices tree', (run access ⟨⟨".//d/../d/./g"⟩, ⟨".//d/../d/cnf-g"⟩⟩).run tidyTree =
          (⟨notices, .ok ()⟩, tree') ∧
        Converted tidyTree tree' ["g", "d", "working directory"]
          ["cnf-g", "d", "working directory"] := by
  have output : Path.output? ⟨".//d/../d/./g"⟩ = some ⟨".//d/../d/cnf-g"⟩ := by decide +kernel
  have place : tidyTree.locate ⟨".//d/../d/./g"⟩ =
      .ok (.inside ["g", "d", "working directory"]) := by decide +kernel
  have done : ((run access ⟨⟨".//d/../d/./g"⟩, ⟨".//d/../d/cnf-g"⟩⟩).run tidyTree).1.outcome.isOk =
      true := by decide +kernel
  refine ⟨serves_access, output, ?_⟩
  obtain ⟨-, -, -, all⟩ := (changes_only_output serves_access tidyTree _).2 _ output
  rcases all with ⟨notices, e, ran, -⟩ | ⟨notices, tree', folder, name, ran, located, -, changes⟩
  · rw [ran] at done
    cases done
  · cases place.symm.trans located
    exact ⟨notices, tree', ran, changes⟩

end Job

end ChomskyForm
