import NanScript.Build
import NanScript.Outcome

/-!
# The command line

The compiler as a program: arguments and environment in, an exit code and two texts out.
-/

namespace NanScript.CommandLine

structure Environment where
  assembler : Option String := none
  linker : Option String := none
  workspace : Option String := none
  deriving Repr, Inhabited

def Environment.toolchain (environment : Environment) : Toolchain :=
  let standard : Toolchain := {}
  { assembler := environment.assembler.getD standard.assembler
    linker := environment.linker.getD standard.linker }

def failed (stderr : String) : Outcome := { exitCode := 1, stderr }

def report : Except BuildError Artifacts → Outcome
  | .ok artifacts =>
    let built := (artifacts.executable.map fun path => s!"Build successful: {path.text}\n").getD ""
    { stdout := s!"Generated assembly: {artifacts.asm.text}\n{built}" }
  | .error (.compile (.parse errors)) => failed (String.join (errors.map fun problem => s!"{problem.render}\n"))
  | .error problem => failed s!"error: {problem.message}\n"

def run {m : Type → Type} [Monad m] (host : Host m) (environment : Environment) (compiler : Option Path)
    (arguments : List String) : m Outcome := do
  match Options.parse arguments with
  | .error problem => return failed s!"error: {problem.message}\n\n{usage}\n"
  | .ok options =>
    let installation := { compiler, workspace := environment.workspace.map Path.mk }
    return report (← build host options environment.toolchain installation)

end NanScript.CommandLine
