import NanScript.Host
import NanScript.Text.Utf8

/-!
# File trees

Files and directories in memory, seen from one working directory. Outside of that directory there are the directories
that lead to it, and the few entries that every system has.
-/

namespace NanScript

inductive FileEntry where
  | directory
  | file (content : List UInt8) (executable : Bool)
  deriving DecidableEq, Repr, Inhabited

/-- The entries below the working directory, each under the list of names that leads to it. -/
structure FileTree where
  root : String := "/"
  entries : List (List String × FileEntry) := []
  deriving Repr, Inhabited

inductive FileTree.Place where
  | inside (names : List String)
  /-- Below a directory that leads to the working directory, by other names than the tree's. -/
  | above (names : List String)
  | system (names : List String)
  deriving DecidableEq, Repr, Inhabited

namespace FileTree

def longestName : Nat := 255

def longestPath : Nat := 4095

def systemDirectories : List (List String) :=
  [[], ["bin"], ["dev"], ["etc"], ["home"], ["lib"], ["opt"], ["proc"], ["root"], ["sbin"], ["sys"], ["tmp"], ["usr"],
    ["usr", "bin"], ["usr", "include"], ["usr", "lib"], ["usr", "local"], ["usr", "local", "bin"], ["usr", "sbin"],
    ["usr", "share"], ["var"]]

def systemPrograms : List String := ["bash", "dash", "echo", "env", "false", "sh", "true"]

/-- What the file of a program begins with: no text. -/
def programContent : List UInt8 := [0x7F, 0x45, 0x4C, 0x46, 0xFF]

def systemEntry? (names : List String) : Option FileEntry :=
  if systemDirectories.contains names then some .directory
  else if names = ["dev", "null"] then some (.file [] false)
  else
    match names with
    | ["bin", name] | ["usr", "bin", name] =>
      if systemPrograms.contains name then some (.file programContent true) else none
    | _ => none

def entry? (tree : FileTree) (names : List String) : Option FileEntry :=
  if names = [] then some .directory else tree.entries.lookup names

def at? (tree : FileTree) : Place → Option FileEntry
  | .inside names => tree.entry? names
  | .above names => if names = [] then some .directory else none
  | .system names => systemEntry? names

def put (tree : FileTree) (names : List String) (entry : FileEntry) : FileTree :=
  if tree.entries.any (·.1 == names) then
    { tree with entries := tree.entries.map fun (other, old) => (other, if other = names then entry else old) }
  else { tree with entries := tree.entries ++ [(names, entry)] }

def makeParents (tree : FileTree) (names : List String) : FileTree :=
  (List.range names.length).foldl (fun tree count =>
    let parent := names.take count
    if (tree.entry? parent).isSome then tree else tree.put parent .directory) tree

/-- Add a file, or a directory if the path ends in a slash. -/
def add (tree : FileTree) (path : Path) (content : List UInt8) : FileTree :=
  let names := path.names
  let isDirectory := path.text.toList.getLast? == some '/'
  let executable := ".sh".toList.isSuffixOf path.text.toList
  (tree.makeParents names).put names (if isDirectory then .directory else .file content executable)

/-! ### Walking -/

def Place.child (name : String) : Place → Place
  | inside names => inside (names ++ [name])
  | above names => above (names ++ [name])
  | system names => system (names ++ [name])

/-- The directory that holds a place. The top of the system holds itself. -/
def Place.parent : Place → Place
  | inside [] => above []
  | inside names => inside names.dropLast
  | above names => above names.dropLast
  | system names => system names.dropLast

/-- Follow names from a place. All but the last must lead through directories, and a name is looked at only where there
is one. -/
def walk (tree : FileTree) (place : Place) : List String → Except HostError Place
  | [] => .ok place
  | name :: rest =>
    match tree.at? place with
    | none => .error .notFound
    | some (.file ..) => .error .notADirectory
    | some .directory =>
      if name = "." then tree.walk place rest
      else if name = ".." then tree.walk place.parent rest
      else if longestName < name.utf8ByteSize then .error .nameTooLong
      else tree.walk (place.child name) rest

def asksForDirectory (path : Path) : Bool :=
  match path.text.toList.reverse with
  | '/' :: _ => true
  | '.' :: '/' :: _ => true
  | _ => false

/-- The place that a path leads to, whether or not there is something. -/
def place (tree : FileTree) (path : Path) : Except HostError Place :=
  if path.text.toList.contains '\x00' then .error .zeroInName
  else if longestPath < path.text.utf8ByteSize then .error .nameTooLong
  else if path.text = "" then .error .notFound
  else tree.walk (if path.isAbsolute then .system [] else .inside []) path.names

def find (tree : FileTree) (path : Path) : Except HostError FileEntry := do
  match tree.at? (← tree.place path) with
  | none => throw .notFound
  | some (.file content executable) =>
    if asksForDirectory path then throw .notADirectory else return .file content executable
  | some .directory => return .directory

/-! ### Files -/

def read (tree : FileTree) (path : Path) : Except HostError (List UInt8) := do
  match ← tree.find path with
  | .directory => throw .isADirectory
  | .file content _ => return content

def readText (tree : FileTree) (path : Path) : Except HostError String := do
  match String.fromUTF8? ⟨(← tree.read path).toArray⟩ with
  | some text => return text
  | none => throw .invalidText

/-- Write a file. An existing one stays executable if it was. What is written outside of the tree is not kept. -/
def write (tree : FileTree) (path : Path) (content : List UInt8) : Except HostError FileTree := do
  let place ← tree.place path
  let executable ← match tree.at? place with
    | some .directory => throw .isADirectory
    | some (.file _ executable) => if asksForDirectory path then throw .notADirectory else pure executable
    | none => if asksForDirectory path then throw .isADirectory else pure false
  match place with
  | .inside names => return tree.put names (.file content executable)
  | _ => return tree

def writeText (tree : FileTree) (path : Path) (text : String) : Except HostError FileTree :=
  tree.write path text.toUTF8.data.toList

def remove (tree : FileTree) (path : Path) : Except HostError FileTree := do
  match ← tree.find path, ← tree.place path with
  | .directory, _ => throw .isADirectory
  | .file .., .inside names => return { tree with entries := tree.entries.filter (·.1 != names) }
  | .file .., _ => return tree

def isFile (tree : FileTree) (path : Path) : Bool :=
  match tree.find path with
  | .ok (.file ..) => true
  | _ => false

def isDirectory (tree : FileTree) (path : Path) : Bool :=
  match tree.find path with
  | .ok .directory => true
  | _ => false

def canonical? (tree : FileTree) (path : Path) : Option Path :=
  match tree.find path, tree.place path with
  | .ok _, .ok (.inside names) => some ⟨names.foldl (fun text name => s!"{text}/{name}") tree.root⟩
  | .ok _, .ok (.system names) => some ⟨"/" ++ "/".intercalate names⟩
  | _, _ => none

/-- The files that are new or changed since an earlier state, with their texts. -/
def changes (tree before : FileTree) : List (String × String) :=
  tree.entries.filterMap fun (names, entry) =>
    match entry, before.entry? names with
    | .directory, _ => none
    | .file content _, some (.file old _) => if old = content then none else some ("/".intercalate names, Text.ofBytes content)
    | .file content _, _ => some ("/".intercalate names, Text.ofBytes content)

/-- A file tree as the host of a build, given what calls of programs do. -/
def host (call : String → List String → FileTree → Except HostError (ToolOutcome × FileTree)) : Host (StateM FileTree) where
  readText path := return (← get).readText path
  writeText path text := modifyGet fun tree =>
    match tree.writeText path text with
    | .ok tree => (.ok (), tree)
    | .error problem => (.error problem, tree)
  isFile path := return (← get).isFile path
  canonical? path := return (← get).canonical? path
  call program arguments := modifyGet fun tree =>
    match call program arguments tree with
    | .ok (outcome, tree) => (.ok outcome, tree)
    | .error problem => (.error problem, tree)

end FileTree

end NanScript
