/-
The program: converts the grammar file that it is called with.

Everything that the program decides is decided in `CommandLine.respond`; here
are the files of the system, the two output streams and the exit code.
-/
import ChomskyForm.CommandLine

set_option autoImplicit false

namespace ChomskyForm

/-- The failure that the system gives a number to. -/
def numberedFault (code : UInt32) (details : String) : Fault :=
  match code with
  | 2 => .notFound
  | 13 => ⟨.permissionDenied, "Permission denied (os error 13)"⟩
  | 20 => .notADirectory
  | 21 => .isADirectory
  | 36 => .nameTooLong
  | _ => ⟨.other, details ++ " (os error " ++ toString code ++ ")"⟩

/-- A failure that the system reports. -/
def systemFault : IO.Error → Fault
  | .noFileOrDirectory _ code details => numberedFault code details
  | .inappropriateType _ code details => numberedFault code details
  | .permissionDenied _ code details => numberedFault code details
  | .invalidArgument _ code details => numberedFault code details
  | .resourceExhausted _ code details => numberedFault code details
  | .illegalOperation code details => numberedFault code details
  | .resourceBusy code details => numberedFault code details
  | .hardwareFault code details => numberedFault code details
  | .otherError code details => numberedFault code details
  | e => ⟨.other, toString e⟩

/-- What reading an open file delivers. A file that opens and cannot be read is
a source whose first read fails. -/
def readOpened (handle : IO.FS.Handle) : IO Source := do
  try
    return Source.ofBytes (← handle.readBinToEnd).toList
  catch e =>
    return ⟨[.fault (systemFault e)], none⟩

/-- Opens a file of the system. -/
def readFile (path : Path) : IO (Except Fault Source) := do
  try
    return .ok (← readOpened (← IO.FS.Handle.mk ⟨path.text⟩ .read))
  catch e =>
    return .error (systemFault e)

/-- Writes a file of the system. -/
def writeFile (path : Path) (text : String) : IO (Except Fault Unit) := do
  try
    IO.FS.writeFile ⟨path.text⟩ text
    return .ok ()
  catch e =>
    return .error (systemFault e)

/-- Access to the files of the system. -/
def systemAccess : FileAccess IO := ⟨readFile, writeFile⟩

end ChomskyForm

open ChomskyForm

/-- The program. -/
def main (arguments : List String) : IO UInt32 := do
  let response ← CommandLine.respond systemAccess arguments
  (← IO.getStdout).putStr response.stdout
  (← IO.getStderr).putStr response.stderr
  return response.exitCode.toUInt32
