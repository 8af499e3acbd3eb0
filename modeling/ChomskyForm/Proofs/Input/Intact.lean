/-
What a buffer keeps.

After any row of steps, failed ones among them, the places of a buffer are in
order and in its memory, the bytes of its token are a text, and no byte was lost:
the texts that were popped and the bytes that are held are together what was read
so far. The last is a sum that every operation preserves, for it moves bytes from
the source to the bytes ahead, from there into the token or back, and from the
token into a text.
-/
import ChomskyForm.Proofs.Input.Buffered

set_option autoImplicit false

namespace ChomskyForm

/-! ## 1. Reads, one after the other -/

namespace Source

/-- Reads of a source deliver these bytes and leave the rest. -/
inductive Delivers : Source → List UInt8 → Source → Prop
  | nothing (source : Source) : Delivers source [] source
  | bytes {source rest rest' : Source} {given content : List UInt8} {room : Nat}
      (before : Delivers source given rest) (read : rest.read room = .bytes content rest') :
      Delivers source (given ++ content) rest'
  | finished {source rest rest' : Source} {given : List UInt8} {room : Nat}
      (before : Delivers source given rest) (read : rest.read room = .finished rest') :
      Delivers source given rest'
  | fault {source rest rest' : Source} {given : List UInt8} {room : Nat} {cause : Fault}
      (before : Delivers source given rest) (read : rest.read room = .fault cause rest') :
      Delivers source given rest'

/-- Reads that follow others deliver what comes next. -/
theorem Delivers.trans {a b c : Source} {given given' : List UInt8} (h : Delivers a given b)
    (h' : Delivers b given' c) : Delivers a (given ++ given') c := by
  induction h' with
  | nothing => rwa [List.append_nil]
  | bytes before read ih =>
    rw [← List.append_assoc]
    exact .bytes ih read
  | finished before read ih => exact .finished ih read
  | fault before read ih => exact .fault ih read

/-- All the bytes of a source. -/
def contents (source : Source) : List UInt8 :=
  source.blocks.flatMap fun block => match block with
    | .bytes content => content
    | _ => []

/-- A read of blocks takes its bytes off the front; nothing else is lost on the way. -/
theorem contents_readBlocks (limit : Option Nat) (count : Nat) (blocks : List Block) :
    match readBlocks limit count blocks with
    | .bytes content rest => contents ⟨blocks, limit⟩ = content ++ rest.contents
    | .finished rest => contents ⟨blocks, limit⟩ = rest.contents
    | .fault _ rest => contents ⟨blocks, limit⟩ = rest.contents := by
  induction blocks with
  | nil => rfl
  | cons block others ih =>
    cases block with
    | interruption => exact ih
    | fault cause => rfl
    | endMark => rfl
    | bytes held =>
      cases held with
      | nil => exact ih
      | cons b held =>
        cases count with
        | zero => rfl
        | succ n =>
          simp only [readBlocks, contents, List.flatMap_cons, List.cons_append]
          rw [← List.append_assoc, List.take_append_drop]

/-- What a read delivers stood in front of what is left. -/
theorem contents_read (source : Source) (room : Nat) :
    match source.read room with
    | .bytes content rest => source.contents = content ++ rest.contents
    | .finished rest => source.contents = rest.contents
    | .fault _ rest => source.contents = rest.contents :=
  contents_readBlocks source.limit _ source.blocks

/-- What is delivered is the front of the bytes of the source, in order. -/
theorem Delivers.contents_eq {source rest : Source} {given : List UInt8}
    (h : Delivers source given rest) : source.contents = given ++ rest.contents := by
  induction h with
  | nothing => rfl
  | @bytes rest rest' given content room before read ih =>
    have moved := rest.contents_read room
    rw [read] at moved
    rw [ih, moved, List.append_assoc]
  | @finished rest rest' given room before read ih =>
    have moved := rest.contents_read room
    rw [read] at moved
    rw [ih, moved]
  | @fault rest rest' given room cause before read ih =>
    have moved := rest.contents_read room
    rw [read] at moved
    rw [ih, moved]

end Source

/-! ## 2. No byte is lost -/

namespace Window

/-- The bytes that a window holds, in order. -/
def bytes (w : Window) : List UInt8 := w.token ++ w.ahead

/-- Between two windows some bytes were read, and some were taken out: those that
are held and those taken out are what was held before and what was read. -/
def Accounts (w : Window) (taken : List UInt8) (w' : Window) : Prop :=
  ∃ given, w.source.Delivers given w'.source ∧ taken ++ w'.bytes = w.bytes ++ given

/-- Where nothing is done nothing is to be accounted for. -/
theorem Accounts.refl (w : Window) : w.Accounts [] w :=
  ⟨[], .nothing _, (List.append_nil _).symm⟩

theorem Accounts.trans {w w' w'' : Window} {taken taken' : List UInt8}
    (h : w.Accounts taken w') (h' : w'.Accounts taken' w'') :
    w.Accounts (taken ++ taken') w'' := by
  obtain ⟨given, delivers, account⟩ := h
  obtain ⟨given', delivers', account'⟩ := h'
  refine ⟨given ++ given', delivers.trans delivers', ?_⟩
  calc taken ++ taken' ++ w''.bytes
      = taken ++ (w'.bytes ++ given') := by rw [List.append_assoc, account']
    _ = w.bytes ++ given ++ given' := by rw [← List.append_assoc, account]
    _ = w.bytes ++ (given ++ given') := List.append_assoc _ _ _

/-- A window that holds the same bytes of the same source. -/
theorem accounts_of_eq {w w' : Window} {taken : List UInt8} (source : w'.source = w.source)
    (bytes : taken ++ w'.bytes = w.bytes) : w.Accounts taken w' := by
  refine ⟨[], ?_, by rw [bytes, List.append_nil]⟩
  rw [source]
  exact .nothing _

/-- What a load takes from the source is ahead then. -/
theorem accounts_load (w : Window) : w.Accounts [] w.load.2 := by
  unfold load
  split
  · exact .refl w
  split
  · exact .refl w
  split
  · rename_i content rest read
    refine ⟨content, .bytes (.nothing _) read, ?_⟩
    unfold bytes token
    dsimp only
    rw [List.nil_append, List.append_assoc]
  · rename_i rest read
    exact ⟨[], .finished (.nothing _) read, (List.append_nil _).symm⟩
  · rename_i cause rest read
    exact ⟨[], .fault (.nothing _) read, (List.append_nil _).symm⟩

/-- Filling is a row of loads, and each adds its account. -/
theorem accounts_fill (need : Nat) (w : Window) : w.Accounts [] (w.fill need).2 :=
  fill_preserves (P := w.Accounts []) (fun w' account => account.trans w'.accounts_load) need
    (.refl w)

/-- Scanning moves bytes from the bytes ahead into the token. -/
theorem accounts_scan (w : Window) : w.Accounts [] w.scan.2 := by
  have first := w.accounts_fill 1
  unfold scan
  split <;> rename_i w₁ e₁ <;> rw [e₁] at first
  · exact first
  · exact first
  split
  · exact first
  rename_i width announced
  have second := first.trans (w₁.accounts_fill width)
  split <;> rename_i w₂ e₂ <;> rw [e₂] at second
  · exact second
  · exact second
  split
  · exact second
  rename_i c decoded
  -- the character is the bytes that it was decoded from
  refine second.trans (accounts_of_eq rfl ?_)
  unfold bytes token
  dsimp only
  rw [List.reverse_cons, List.flatMap_append, List.flatMap_singleton,
    Utf8.encode_of_decode? decoded, List.append_assoc, List.take_append_drop]
  rfl

/-- Giving back moves bytes of the token in front of those ahead. -/
theorem accounts_back (w : Window) : w.Accounts [] w.back.2 := by
  unfold back
  split
  · exact .refl w
  · rename_i c rest e
    refine accounts_of_eq rfl ?_
    unfold bytes token
    dsimp only
    rw [e, List.reverse_cons, List.flatMap_append, List.flatMap_singleton, List.append_assoc]
    rfl

/-- The text that is popped is the token; its bytes are the ones that go. -/
theorem accounts_pop (w : Window) : w.Accounts w.pop.1.toUTF8.toList w.pop.2 := by
  refine accounts_of_eq rfl ?_
  unfold pop
  rw [Utf8.toList_toUTF8, String.toList_ofList]
  rfl

/-- The bytes of the text of an answer, if it is one to a pop. -/
def Answer.taken : Answer → List UInt8
  | .popped text => text.toUTF8.toList
  | _ => []

/-- Every step is accounted for by its answer. -/
theorem accounts_perform (w : Window) (step : Step) :
    w.Accounts (w.perform step).1.taken (w.perform step).2 := by
  cases step with
  | scan => exact w.accounts_scan
  | back => exact w.accounts_back
  | pop => exact w.accounts_pop

/-- By induction on the steps, so is every row of them. -/
theorem accounts_after (w : Window) (steps : List Step) :
    w.Accounts ((w.answers steps).flatMap Answer.taken) (w.after steps) := by
  induction steps generalizing w with
  | nil => exact .refl w
  | cons step rest ih =>
    rw [answers, List.flatMap_cons]
    exact (w.accounts_perform step).trans (ih _)

/-- A window that was started holds what the first read delivered. -/
theorem accounts_ofSource {source : Source} {w : Window} (h : ofSource source = .ok w) :
    Accounts ⟨[], [], false, source, []⟩ [] w := by
  have loaded := accounts_load ⟨[], [], false, source, []⟩
  unfold ofSource at h
  split at h
  · rename_i found w' e
    rw [e] at loaded
    cases h
    exact loaded
  · cases h

end Window

/-! ## 3. The invariant of a buffer -/

namespace Buffer

/-- What is true of a buffer for `source` out of which the bytes `popped` were
taken. -/
structure Intact (b : Buffer) (source : Source) (popped : List UInt8) : Prop where
  start_le : b.start ≤ b.front
  front_le : b.front ≤ b.stop
  stop_le : b.stop ≤ 8192
  /-- The token is a text. It is popped as it is, and its last character is given
  back whole. -/
  token : ∃ text : List Char,
    b.memory.between b.start b.front = text.flatMap Utf8.encode ∧
    b.pop = some (String.ofList text, { b with start := b.front }) ∧
    (text = [] → b.back = some (none, b)) ∧
    ∀ before c, text = before ++ [c] →
      b.back = some (some c, { b with front := b.front - c.utf8Size })
  /-- What was read is what was popped and what is held. -/
  delivered : source.Delivers (popped ++ b.memory.between b.start b.stop) b.source
  /-- What is still to be read stands behind it. -/
  contents : source.contents = popped ++ b.memory.between b.start b.stop ++ b.source.contents

/-- A buffer keeps what the window that it holds has accounted for. -/
theorem Holds.intact {b : Buffer} {w : Window} {source : Source} {popped : List UInt8}
    (h : b.Holds w) (account : Window.Accounts ⟨[], [], false, source, []⟩ popped w) :
    b.Intact source popped := by
  obtain ⟨given, delivers, sum⟩ := account
  have held : popped ++ b.memory.between b.start b.stop = given := by
    rw [h.between]
    exact sum
  rw [← held, ← h.source] at delivers
  refine ⟨h.start_le, h.front_le, h.stop_le, ⟨w.scanned.reverse, h.token, h.pop_eq, ?_, ?_⟩,
    delivers, delivers.contents_eq⟩
  · intro none
    exact h.back_of_nil (List.reverse_eq_nil_iff.1 none)
  · intro before c e
    apply h.back_of_cons
    rw [← List.reverse_reverse w.scanned, e, List.reverse_append]
    rfl

/-- **A buffer that starts can be asked for ever.** It answers as the window does,
never looks outside its memory, and stays intact, whatever its source delivers
and whichever steps fail. -/
theorem runs_intact (source : Source) :
    (∃ e, ofSource source = some (.error e) ∧ Window.ofSource source = .error e) ∨
      ∃ b w, ofSource source = some (.ok b) ∧ Window.ofSource source = .ok w ∧
        ∀ steps, ∃ b', b.run steps = some (w.answers steps, b') ∧
          b'.Intact source ((w.answers steps).flatMap Window.Answer.taken) := by
  rcases holds_of_ofSource source with failed | ⟨b, w, started, started', holds⟩
  · exact .inl failed
  refine .inr ⟨b, w, started, started', ?_⟩
  intro steps
  obtain ⟨b', ran, holds'⟩ := holds.run steps
  have account := (Window.accounts_ofSource started').trans (w.accounts_after steps)
  exact ⟨b', ran, holds'.intact account⟩

end Buffer

end ChomskyForm
