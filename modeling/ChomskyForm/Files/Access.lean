/-
Access to files, and a tree of files in memory.

What a conversion needs of a file system is small: open a file for reading, and
write one. `FileAccess` holds the two operations, over any monad. `FileTree` is
a root directory with everything below it as a value, so that what a conversion
does to files can be stated and proved.

A path begins at the root or in the working directory. A name is looked up in
directories only, so a piece behind a file is an error, even an empty one. A name
that is too long is refused by every directory.
-/
import ChomskyForm.Input.Source
import ChomskyForm.Files.Path

set_option autoImplicit false

namespace ChomskyForm

/-- The two operations on files. -/
structure FileAccess (m : Type → Type) where
  /-- Opens a file; what reading it delivers is the source. -/
  read : Path → m (Except Fault Source)
  /-- Makes a file hold this text and nothing else, and creates it if it is not
  there. -/
  write : Path → String → m (Except Fault Unit)

namespace Fault

/-- There is nothing of that name. -/
def notFound : Fault := ⟨.notFound, "No such file or directory (os error 2)"⟩

/-- A file stands where a directory is needed. -/
def notADirectory : Fault := ⟨.notADirectory, "Not a directory (os error 20)"⟩

/-- A directory stands where a file is needed. -/
def isADirectory : Fault := ⟨.isADirectory, "Is a directory (os error 21)"⟩

/-- A name or a path has more bytes than a file system takes. -/
def nameTooLong : Fault := ⟨.invalidName, "File name too long (os error 36)"⟩

/-- A path holds the character that ends names in file systems. -/
def zeroInName : Fault := ⟨.invalidName, "file name contained an unexpected NUL byte"⟩

end Fault

/-- Something in a directory. -/
inductive FileNode where
  | file (content : List UInt8)
  | directory
deriving DecidableEq

/-- Where something is below the root: the names that lead to it, the last one
first. -/
abbrev Location := List String

/-- Where a path leads. -/
inductive Destination where
  /-- To the root, which is a directory. -/
  | root
  /-- To a location below the root; there may be nothing at it. -/
  | inside (location : Location)
deriving DecidableEq

namespace Destination

/-- The names that lead to it, the last one first. -/
def names : Destination → List String
  | root => []
  | inside location => location

/-- Where `..` leads. The root stands above itself. -/
def parent : Destination → Destination
  | inside (_ :: name :: rest) => inside (name :: rest)
  | _ => root

end Destination

/-- Everything below the root. -/
structure FileTree where
  entries : List (Location × FileNode)
  /-- The working directory. -/
  home : Destination

namespace FileTree

/-- An empty working directory, and nothing else. -/
def empty : FileTree := ⟨[(["working directory"], .directory)], .inside ["working directory"]⟩

/-- What is at a location. -/
def node? (tree : FileTree) (location : Location) : Option FileNode := tree.entries.lookup location

/-- What a path leads to. -/
def reached? (tree : FileTree) : Destination → Option FileNode
  | .root => some .directory
  | .inside location => tree.node? location

/-- Puts something at a location. -/
def put (tree : FileTree) (location : Location) (node : FileNode) : FileTree :=
  { tree with
    entries := (location, node) :: tree.entries.filter fun entry => entry.1 != location }

/-- Looks a name up in a directory. The name need not be there. -/
def lookUp (name : String) (here : Destination) : Except Fault Destination :=
  if 255 < name.utf8ByteSize then .error .nameTooLong else .ok (.inside (name :: here.names))

/-- Follows the pieces of a path. Every piece needs a directory to be looked up
in; the last one need not be there. -/
def follow (tree : FileTree) : Destination → List (List Char) → Except Fault Destination
  | here, [] => .ok here
  | here, piece :: rest =>
    match tree.reached? here with
    | none => .error .notFound
    | some (.file _) => .error .notADirectory
    | some .directory =>
      if Path.isVoid piece then tree.follow here rest
      else if piece = ['.', '.'] then tree.follow here.parent rest
      else
        match lookUp (String.ofList piece) here with
        | .error fault => .error fault
        | .ok there => tree.follow there rest

/-- Where a path leads. It begins at the root or in the working directory; an
empty path leads nowhere. -/
def locate (tree : FileTree) (path : Path) : Except Fault Destination :=
  let text := path.text.toList
  if '\x00' ∈ text then .error .zeroInName
  else if 4096 ≤ path.text.utf8ByteSize then .error .nameTooLong
  else if text = [] then .error .notFound
  else tree.follow (if text.head? = some '/' then .root else tree.home) (Path.pieces text)

/-- Opens a file. A directory can be opened too, but reading it fails. -/
def read (tree : FileTree) (path : Path) : Except Fault Source := do
  match tree.reached? (← tree.locate path) with
  | none => .error .notFound
  | some (.file content) => .ok (Source.ofBytes content)
  | some .directory => .ok ⟨[.fault .isADirectory], none⟩

/-- Writes a file. A directory cannot be written. -/
def write (tree : FileTree) (path : Path) (text : String) : Except Fault FileTree := do
  match ← tree.locate path with
  | .root => .error .isADirectory
  | .inside location =>
    match tree.node? location with
    | some .directory => .error .isADirectory
    | _ => .ok (tree.put location (.file text.toUTF8.toList))

/-- Access to the files of a tree. -/
def access : FileAccess (StateM FileTree) where
  read path := do return (← get).read path
  write path text := do
    match (← get).write path text with
    | .ok tree => set tree; return .ok ()
    | .error fault => return .error fault

/-- Makes a directory in the working directory, and those that lead to it. -/
def makeDirectory (tree : FileTree) (path : Path) : FileTree :=
  let names := ((Path.pieces path.text.toList).filter fun piece => !Path.isVoid piece).map
    String.ofList
  (names.foldl (fun (tree, here) name =>
    let here := name :: here
    (if (tree.node? here).isNone then tree.put here .directory else tree, here))
    (tree, tree.home.names)).1

/-- The path of a location: from the working directory if it is in there, else
from the root. -/
def pathOf (tree : FileTree) (location : Location) : String :=
  let home := tree.home.names
  if home <:+ location then
    "/".intercalate (location.take (location.length - home.length)).reverse
  else "/" ++ "/".intercalate location.reverse

/-- The files of `after` that `before` does not have with the same content, by
their path. -/
def changedFiles (before after : FileTree) : List (String × List UInt8) :=
  (after.entries.filterMap fun (location, node) =>
    match node with
    | .directory => none
    | .file content =>
      if before.node? location = some (.file content) then none
      else some (after.pathOf location, content)).mergeSort fun a b => decide (a.1 ≤ b.1)

end FileTree

end ChomskyForm
