import NanScript.Assembly
import NanScript.Tree

/-!
# The outline of a program

What the code of one function has to know of the rest of the program: the top-level variables, the functions and the
classes. Making it checks the names of the functions, which become names in the assembly and must be new there.
-/

namespace NanScript

inductive CodegenError where
  | unknownClass (name : String)
  | undefinedVariable (name : String)
  | reservedName (name : String)
  | duplicateFunction (name : String)
  | unallocated (id : Nat)
  | strayJump (keyword : String)
  deriving DecidableEq, Repr, Inhabited

def CodegenError.message : CodegenError → String
  | unknownClass name => s!"unknown class '{name}'"
  | undefinedVariable name => s!"assignment to undefined variable '{name}'"
  | reservedName name => s!"'{name}' is reserved by the runtime"
  | duplicateFunction name => s!"function '{name}' is defined more than once"
  | unallocated id => s!"no location allocated for local #{id}"
  | strayJump keyword => s!"'{keyword}' outside of a loop"

structure Outline where
  globals : List String := []
  functions : List String := []
  /-- Classes with their methods, the latest first. -/
  classes : List (String × List Tree) := []
  hasMain : Bool := false
  deriving Repr, Inhabited

namespace Outline

def isGlobal (outline : Outline) (name : String) : Bool := outline.globals.contains name

def definesFunction (outline : Outline) (name : String) : Bool := outline.functions.contains name

/-- The methods of a class. Of two classes of one name the later counts. -/
def methods? (outline : Outline) (className : String) : Option (List Tree) := outline.classes.lookup className

def declareGlobal (outline : Outline) (name : String) : Outline :=
  if outline.isGlobal name then outline else { outline with globals := outline.globals ++ [name] }

/-- Enter a function. The entry point and the runtime's exports cannot be redefined, and each name is defined once. -/
def define (outline : Outline) (name : String) : Except CodegenError Outline :=
  if name == "main" || runtimeExports.contains name then .error (.reservedName name)
  else if outline.definesFunction name then .error (.duplicateFunction name)
  else .ok { outline with functions := outline.functions ++ [name] }

def defineMethods (outline : Outline) : List Tree → Except CodegenError Outline
  | [] => .ok outline
  | .funcDecl _ name _ _ _ :: rest => do (← outline.define name).defineMethods rest
  | _ :: rest => outline.defineMethods rest

def declare (outline : Outline) : Tree → Except CodegenError Outline
  | .varDecl _ name _ _ _ => .ok (outline.declareGlobal name)
  | .funcDecl _ name _ _ _ => { outline with hasMain := outline.hasMain || name == "aria_main" }.define name
  | .classDecl _ name methods => { outline with classes := (name, methods) :: outline.classes }.defineMethods methods
  | _ => .ok outline

def ofProgram (program : List Tree) : Except CodegenError Outline := program.foldlM declare {}

end Outline

end NanScript
