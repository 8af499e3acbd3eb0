/-
Converting a file.

A job names the file to read and the file to write. The grammar is read,
converted and checked before the output is touched, so a job that fails leaves
every file as it was.
-/
import ChomskyForm.Conversion
import ChomskyForm.Files.Access

set_option autoImplicit false

namespace ChomskyForm

/-- The file to read and the file to write. -/
structure Job where
  input : Path
  output : Path
deriving DecidableEq

/-- Why a job was not done. -/
inductive JobError where
  /-- The input could not be opened. -/
  | unreadable (path : Path) (cause : Fault)
  /-- The output could not be written. -/
  | unwritable (path : Path) (cause : Fault)
  /-- The input was not converted. -/
  | conversion (cause : ConversionError)
deriving DecidableEq

namespace JobError

/-- The error in words, followed by what is behind it: a failed operation on a
file or a stream is a cause of its own. -/
def messages : JobError → List String
  | unreadable path cause => ["cannot read `" ++ path.text ++ "`", cause.text]
  | unwritable path cause => ["cannot write `" ++ path.text ++ "`", cause.text]
  | conversion (.parse (.lex (.read cause place))) =>
    [(Bnf.LexError.read cause place).message, cause.message]
  | conversion (.notNormal violation) =>
    [(ConversionError.notNormal violation).message, violation.message]
  | conversion cause => [cause.message]

/-- The error in words. -/
def message : JobError → String
  | unreadable path _ => "cannot read `" ++ path.text ++ "`"
  | unwritable path _ => "cannot write `" ++ path.text ++ "`"
  | conversion cause => cause.message

end JobError

namespace Job

/-- The job that converts a file and writes beside it, if the path names a
file. -/
def ofInput? (input : Path) : Option Job := input.output?.map fun output => ⟨input, output⟩

/-- Does a job. -/
def run {m : Type → Type} [Monad m] (files : FileAccess m) (job : Job) :
    m (Logged JobError Unit) := do
  match ← files.read job.input with
  | .error fault => return Logged.fail (.unreadable job.input fault)
  | .ok source =>
    let converted := (convert source).mapError JobError.conversion
    match converted.outcome with
    | .error e => return ⟨converted.notices, .error e⟩
    | .ok g =>
      match ← files.write job.output g.text with
      | .error fault => return ⟨converted.notices, .error (.unwritable job.output fault)⟩
      | .ok () =>
        let last : Notice :=
          ⟨.info, "wrote " ++ toString g.size ++ " nonterminals to " ++ job.output.text⟩
        return ⟨converted.notices ++ [last], .ok ()⟩

end Job

end ChomskyForm
