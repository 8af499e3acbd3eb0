/-
Paths, and the name of the file beside a file.

A path is a text whose pieces are separated by slashes. Empty pieces and `.`
say nothing, wherever they stand, but a path may begin with a slash or with
`.`, and keeps that beginning. The file that a path names is its last piece
that says something; `..` names none.

The output of a conversion stands beside its input. Its path is the parent of
the input path, cut from the text as it was written, followed by the new name.
-/

set_option autoImplicit false

namespace ChomskyForm

/-- A path as it is written. -/
structure Path where
  text : String
deriving DecidableEq

namespace Path

/-- The pieces of a text between slashes; there is one more than there are
slashes. -/
def pieces : List Char → List (List Char)
  | [] => [[]]
  | c :: rest =>
    if c = '/' then [] :: pieces rest
    else
      match pieces rest with
      | [] => [[c]]
      | piece :: others => (c :: piece) :: others

/-- Whether a piece says nothing. -/
def isVoid (piece : List Char) : Bool := piece == [] || piece == ['.']

/-- The beginning that a path keeps, and the rest: the slash of a path from the
root, or a `.` that is the first piece. -/
def splitAnchor : List Char → List Char × List Char
  | '/' :: rest => (['/'], rest)
  | ['.'] => (['.'], [])
  | '.' :: '/' :: rest => (['.'], '/' :: rest)
  | text => ([], text)

/-- The parent of a path and the name of the file in it, if the path names a
file. What says nothing is cut off behind each of the two. -/
def split? (path : Path) : Option (String × String) :=
  let (anchor, body) := splitAnchor path.text.toList
  match (pieces body).reverse.dropWhile isVoid with
  | [] => none
  | name :: before =>
    if name = ['.', '.'] then none
    else
      let parent := ['/'].intercalate (before.dropWhile isVoid).reverse
      some (String.ofList (anchor ++ parent), String.ofList name)

/-- The name of the file that a path names. -/
def fileName? (path : Path) : Option String := path.split?.map Prod.snd

/-- The path of a name in a directory; the empty path is the working
directory. -/
def join (parent name : String) : Path :=
  if parent = "" then ⟨name⟩
  else if parent.toList.getLast? = some '/' then ⟨parent ++ name⟩
  else ⟨parent ++ "/" ++ name⟩

/-- The beginning of the name of every output. -/
def outputMark : String := "cnf-"

/-- The path of the output for an input: beside it, under its name with a mark
in front. -/
def output? (path : Path) : Option Path :=
  path.split?.map fun (parent, name) => join parent (outputMark ++ name)

/-- Why there is no output for an input. -/
def notAFileMessage (path : Path) : String := "`" ++ path.text ++ "` does not name a file"

end Path

end ChomskyForm
