/-!
# Paths

A path is a text. Slashes divide it into names; repeated slashes, slashes at the end and names that are a single dot
count for nothing, except that a dot in front of a relative path is kept. Two paths are the same if their names are.

The last name may have an extension, what follows its last dot. A dot in front of everything else makes a hidden file,
not an extension.
-/

namespace NanScript

structure Path where
  text : String
  deriving DecidableEq, Repr, Inhabited

namespace Path

/-! ### Names -/

def pieces : List Char → List (List Char)
  | [] => [[]]
  | '/' :: rest => [] :: pieces rest
  | c :: rest =>
    match pieces rest with
    | first :: others => (c :: first) :: others
    | [] => [[c]]

def isAbsolute (path : Path) : Bool := path.text.toList.head? == some '/'

def names (path : Path) : List String :=
  let all := pieces path.text.toList
  let meaningful := all.zipIdx.filter fun (piece, position) => !(piece.isEmpty || (piece == ['.'] && position != 0))
  meaningful.map fun (piece, _) => String.ofList piece

def same (a b : Path) : Bool := a.isAbsolute == b.isAbsolute && a.names == b.names

/-! ### The last name -/

def dropTrailing : List Char → List Char
  | ['/'] => ['/']
  | '/' :: rest => dropTrailing rest
  | '.' :: '/' :: rest => dropTrailing ('/' :: rest)
  | other => other

/-- A path as what stands before its last name, and the last name. -/
def splitLast (path : Path) : List Char × List Char :=
  let backward := dropTrailing path.text.toList.reverse
  ((backward.dropWhile (· != '/')).reverse, (backward.takeWhile (· != '/')).reverse)

/-- The last name, unless it is one that leads elsewhere. -/
def fileName? (path : Path) : Option (List Char) :=
  let name := path.splitLast.2
  if name = [] || name = ['.'] || name = ['.', '.'] then none else some name

def parent? (path : Path) : Option Path :=
  let (before, name) := path.splitLast
  if name = [] then none else some ⟨String.ofList (dropTrailing before.reverse).reverse⟩

/-- A name split at its last dot, unless nothing stands before it. -/
def splitDot (name : List Char) : List Char × Option (List Char) :=
  let backward := name.reverse
  let extension := (backward.takeWhile (· != '.')).reverse
  match backward.dropWhile (· != '.') with
  | [] | [_] => (name, none)
  | _ :: stem => (stem.reverse, some extension)

def extension? (path : Path) : Option (List Char) := path.fileName?.bind fun name => (splitDot name).2

/-! ### New paths -/

def append (path : Path) (suffix : String) : Path := ⟨path.text ++ suffix⟩

/-- Replace what follows the stem of the last name. A path without a last name stays. -/
def setExtension (path : Path) (extension : String) : Path :=
  match path.fileName? with
  | none => path
  | some name =>
    let stem := String.ofList (path.splitLast.1 ++ (splitDot name).1)
    ⟨if extension = "" then stem else stem ++ "." ++ extension⟩

/-- Take as many characters as the extension has from the end, then put another one there. -/
def withExtension (path : Path) (extension : String) : Path :=
  match path.extension? with
  | none => path.setExtension extension
  | some old =>
    let characters := path.text.toList
    setExtension ⟨String.ofList (characters.take (characters.length - old.length))⟩ extension

def join (directory path : Path) : Path :=
  if path.isAbsolute then path
  else if directory.text = "" || directory.text.toList.getLast? == some '/' then directory.append path.text
  else directory.append s!"/{path.text}"

end Path

end NanScript
