/-
The command line.

The program takes one argument, the file to convert. Arguments are read from
left to right: a request for help or for the version is granted as soon as it
is reached, and an argument that does not fit is refused as soon as it is
reached. Behind `--` every argument is a file.
-/
import ChomskyForm.Files.Job

set_option autoImplicit false

namespace ChomskyForm.CommandLine

/-! ## Arguments -/

/-- What the arguments ask for. -/
inductive Request where
  | help
  | version
  | convert (input : Path)
deriving DecidableEq

/-- Why the arguments ask for nothing. -/
inductive UsageError where
  /-- No file is given. -/
  | missingInput
  /-- An argument is not known, or a second file is given. -/
  | unexpected (argument : String)
deriving DecidableEq

/-- What an argument is. -/
inductive Argument where
  /-- The sign that only files follow. -/
  | separator
  /-- A request that needs no file. -/
  | request (request : Request)
  /-- An option that does not exist. -/
  | unknown (option : String)
  /-- A file. -/
  | file
deriving DecidableEq

/-- The option that a long option's name means. A value behind `=` is not
looked at. -/
def longOption (text : List Char) : Argument :=
  let name := (text.dropWhile (· == '-')).takeWhile (· != '=')
  if name = "help".toList then .request .help
  else if name = "version".toList then .request .version
  else .unknown ("--" ++ String.ofList name)

/-- The option that the first letter behind a single dash means; each of them
ends the reading, so the letters behind it do not matter. -/
def shortOption (letter : Char) : Argument :=
  if letter = 'h' then .request .help
  else if letter = 'V' then .request .version
  else .unknown ("-" ++ letter.toString)

/-- What an argument is where options are looked for. A dash alone is a
file. -/
def classify (argument : String) : Argument :=
  match argument.toList with
  | ['-', '-'] => .separator
  | '-' :: '-' :: rest => longOption rest
  | '-' :: letter :: _ => shortOption letter
  | _ => .file

/-- Reads arguments from left to right. `input` is the file found so far, and
`onlyFiles` says that the separator was passed. -/
def readFrom (onlyFiles : Bool) (input : Option String) : List String → Except UsageError Request
  | [] =>
    match input with
    | none => .error .missingInput
    | some path => .ok (.convert ⟨path⟩)
  | argument :: rest =>
    match if onlyFiles then .file else classify argument with
    | .separator => readFrom true input rest
    | .request request => .ok request
    | .unknown option => .error (.unexpected option)
    | .file =>
      match input with
      | some _ => .error (.unexpected argument)
      | none => readFrom onlyFiles (some argument) rest

/-- What the arguments ask for; the name of the program is not among them. -/
def readArguments (arguments : List String) : Except UsageError Request :=
  readFrom false none arguments

/-! ## Texts -/

/-- The name and the version of the program. -/
def versionText : String := "chomsky 0.1.0\n"

/-- How the program is called. -/
def usage : String := "USAGE:\n    chomsky <INPUT>\n"

/-- What the program says about itself. -/
def helpText : String :=
  versionText ++ "Converts a BNF grammar into Chomsky Normal Form\n\n" ++ usage
    ++ "\nFLAGS:\n    -h, --help       Prints help information\n"
    ++ "    -V, --version    Prints version information\n"
    ++ "\nARGS:\n    <INPUT>    grammar file to convert\n"

/-- What is wrong with the arguments, and how the program is called. -/
def UsageError.text (e : UsageError) : String :=
  let what := match e with
    | missingInput => "The following required arguments were not provided:\n    <INPUT>\n"
    | unexpected argument =>
      "Found argument '" ++ argument
        ++ "' which wasn't expected, or isn't valid in this context\n"
  "error: " ++ what ++ "\n" ++ usage ++ "\nFor more information try --help\n"

/-- Indents the lines of a text; the first one gets the lead instead. -/
def indent (lead : String) (margin : Nat) (text : String) : String :=
  lead ++ String.join (text.toList.map fun c =>
    if c = '\n' then "\n" ++ String.ofList (List.replicate margin ' ') else c.toString)

/-- A number at the right end of five columns. -/
def numberText (n : Nat) : String :=
  String.ofList (List.replicate (5 - (toString n).length) ' ') ++ toString n

/-- The causes of an error, a line each: a single one is indented, several are
numbered. -/
def causesText : List String → String
  | [cause] => indent "    " 4 cause ++ "\n"
  | causes => String.join (causes.zipIdx.map fun (cause, n) =>
      indent (numberText n ++ ": ") 7 cause ++ "\n")

/-- The report of an error with its causes. -/
def failureText (message : String) (causes : List String) : String :=
  "Error: " ++ message ++ "\n\nCaused by:\n" ++ causesText causes

/-! ## The program -/

/-- What the program leaves behind, apart from files. -/
structure Response where
  exitCode : Nat
  stdout : String
  stderr : String
deriving DecidableEq

/-- Does what the arguments ask for. -/
def respond {m : Type → Type} [Monad m] (files : FileAccess m) (arguments : List String) :
    m Response :=
  match readArguments arguments with
  | .error e => pure ⟨1, "", e.text⟩
  | .ok .help => pure ⟨0, helpText, ""⟩
  | .ok .version => pure ⟨0, versionText, ""⟩
  | .ok (.convert input) =>
    match Job.ofInput? input with
    | none => pure ⟨1, "", "Error: " ++ input.notAFileMessage ++ "\n"⟩
    | some job => do
      let done ← job.run files
      match done.outcome with
      | .ok () => return ⟨0, "", ""⟩
      | .error e =>
        return ⟨1, "", failureText ("failed to convert `" ++ input.text ++ "`") e.messages⟩

end ChomskyForm.CommandLine
