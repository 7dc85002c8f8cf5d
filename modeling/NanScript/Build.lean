import NanScript.Compile
import NanScript.Library
import NanScript.Options

/-!
# Builds

A build compiles a source file, writes the assembly beside it, and has an assembler and a linker make a program of it
and the runtime library. Some linkers do not know the flag that asks for code at a fixed address; if the linker
complains in a way that suggests so, it is called once more without.
-/

namespace NanScript

structure Toolchain where
  assembler : String := "nasm"
  linker : String := "cc"
  deriving DecidableEq, Repr, Inhabited

inductive BuildError where
  | usage (problem : UsageError)
  | read (path : Path) (problem : HostError)
  | write (path : Path) (problem : HostError)
  | compile (problem : CompileError)
  | libraryNotFound (searched : List Path)
  | toolNotFound (tool message : String)
  | toolFailed (tool : String) (exitCode : Option Int) (stderr : String)
  deriving DecidableEq, Repr, Inhabited

def BuildError.message : BuildError → String
  | usage problem => problem.message
  | read path problem => s!"could not read {path.text}: {problem.message}"
  | write path problem => s!"could not write {path.text}: {problem.message}"
  | compile problem => problem.message
  | libraryNotFound searched => Library.notFoundMessage searched
  | toolNotFound tool message => s!"{tool} not found: {message}"
  | toolFailed tool (some code) stderr => s!"{tool} failed with exit code {code}:\n{stderr}"
  | toolFailed tool none stderr => s!"{tool} failed:\n{stderr}"

namespace Toolchain

def assembleArguments (asm object : Path) : List String := ["-f", "elf64", asm.text, "-o", object.text]

def linkArguments (object library executable : Path) (fixed : Bool) : List String :=
  (if fixed then ["-no-pie"] else [])
    ++ ["-o", executable.text, object.text, library.text, "-lm", "-lpthread", "-ldl"]

def occursIn (pattern : List Char) : List Char → Bool
  | [] => pattern.isEmpty
  | c :: rest => pattern.isPrefixOf (c :: rest) || occursIn pattern rest

def shouldRetry (stderr : String) : Bool :=
  ["unrecognized option", "unknown option", "-no-pie"].any fun pattern => occursIn pattern.toList stderr.toList

end Toolchain

structure Artifacts where
  asm : Path
  executable : Option Path
  deriving DecidableEq, Repr, Inhabited

/-- What a build may find the library by: the path of the compiler and of a workspace. -/
structure Installation where
  compiler : Option Path := none
  workspace : Option Path := none
  deriving Repr, Inhabited

section

variable {m : Type → Type} [Monad m]

def callTool (host : Host m) (tool : String) (arguments : List String) : ExceptT BuildError m ToolOutcome := do
  match ← host.call tool arguments with
  | .ok outcome => return outcome
  | .error problem => throw (.toolNotFound tool problem.message)

def insist (tool : String) (outcome : ToolOutcome) : ExceptT BuildError m Unit :=
  if outcome.succeeded then return else throw (.toolFailed tool outcome.exitCode outcome.stderr)

def Toolchain.assemble (tools : Toolchain) (host : Host m) (asm object : Path) : ExceptT BuildError m Unit := do
  insist tools.assembler (← callTool host tools.assembler (assembleArguments asm object))

def Toolchain.link (tools : Toolchain) (host : Host m) (object library executable : Path) :
    ExceptT BuildError m Unit := do
  let outcome ← callTool host tools.linker (linkArguments object library executable true)
  if !outcome.succeeded && shouldRetry outcome.stderr then
    insist tools.linker (← callTool host tools.linker (linkArguments object library executable false))
  else insist tools.linker outcome

def writeAssembly (host : Host m) (options : Options) : ExceptT BuildError m Unit := do
  match ← host.readText options.input with
  | .error problem => throw (.read options.input problem)
  | .ok source =>
    match compile source with
    | .error problem => throw (.compile problem)
    | .ok text =>
      match ← host.writeText options.asmPath text with
      | .error problem => throw (.write options.asmPath problem)
      | .ok () => return

def findLibrary (host : Host m) (options : Options) (installation : Installation) : ExceptT BuildError m Path := do
  let candidates := Library.candidates options.runtimePath installation.compiler installation.workspace
  let found : m (Option Path) := Library.find? host candidates
  match ← found with
  | some directory => return directory
  | none => throw (.libraryNotFound candidates)

def build (host : Host m) (options : Options) (tools : Toolchain) (installation : Installation) :
    ExceptT BuildError m Artifacts := do
  writeAssembly host options
  if options.asmOnly then return { asm := options.asmPath, executable := none }
  let directory ← findLibrary host options installation
  tools.assemble host options.asmPath options.objectPath
  tools.link host options.objectPath (Library.inDirectory directory) options.executablePath
  return { asm := options.asmPath, executable := some options.executablePath }

end

end NanScript
