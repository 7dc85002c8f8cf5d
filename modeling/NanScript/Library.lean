import NanScript.Host

/-!
# The runtime library

Every compiled program is linked with the runtime library. Its directory is the one that was asked for, or one that
lies in a known place relative to the compiler or to a workspace; the first in which the library is a file is taken.
-/

namespace NanScript.Library

def fileName : Path := ⟨"libaria_rt.a"⟩

def inDirectory (directory : Path) : Path := directory.join fileName

def profiles : List Path := [⟨"release"⟩, ⟨"debug"⟩]

/-- Places around the directory of the compiler: that directory, its neighbours for the other profiles, and the
`lib` beside it. -/
def nearCompiler (directory : Path) : List Path :=
  let neighbours := match directory.parent? with
    | some target => (profiles.map target.join).filter (!·.same directory)
    | none => []
  directory :: neighbours ++ [directory.join ⟨"../lib"⟩]

def candidates (explicit compiler workspace : Option Path) : List Path :=
  explicit.toList
    ++ (compiler.bind Path.parent?).toList.flatMap nearCompiler
    ++ workspace.toList.flatMap fun directory => profiles.map fun profile => (directory.join ⟨"target"⟩).join profile

def find? {m : Type → Type} [Monad m] (host : Host m) : List Path → m (Option Path)
  | [] => return none
  | directory :: rest => do
    if ← host.isFile (inDirectory directory) then return some ((← host.canonical? directory).getD directory)
    else find? host rest

def notFoundMessage (searched : List Path) : String :=
  let list := String.join (searched.map fun path => s!"  - {path.text}\n")
  s!"Aria runtime library ({fileName.text}) not found.\n\nSearched paths:\n{list}\n"
    ++ "To fix this, either:\n"
    ++ "  1. Build the runtime: cargo build -p aria_rt --release\n"
    ++ "  2. Specify path: ariac <file> --runtime-path=/path/to/lib"

end NanScript.Library
