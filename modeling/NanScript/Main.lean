import NanScript.CommandLine

/-!
# The compiler as a program

The command line on the real file system. Programs cannot be started from here, so a build stops where the assembler
would be called.
-/

namespace NanScript

def describeFailure (problem : IO.Error) : HostError :=
  match problem with
  | .noFileOrDirectory .. => .notFound
  | .permissionDenied .. => .permissionDenied
  | other => .other (toString other)

def systemHost : Host IO where
  readText path := do
    match ← (IO.FS.readBinFile path.text).toBaseIO with
    | .ok bytes =>
      match String.fromUTF8? bytes with
      | some text => return .ok text
      | none => return .error .invalidText
    | .error problem => return .error (describeFailure problem)
  writeText path text := do
    match ← (IO.FS.writeFile path.text text).toBaseIO with
    | .ok () => return .ok ()
    | .error problem => return .error (describeFailure problem)
  isFile path := do
    match ← (IO.FS.readBinFile path.text).toBaseIO with
    | .ok _ => return true
    | .error _ => return false
  canonical? path := do
    match ← (IO.FS.realPath path.text).toBaseIO with
    | .ok absolute => return some ⟨absolute.toString⟩
    | .error _ => return none
  call _ _ := return .error (.other "programs cannot be started")

end NanScript

def main (arguments : List String) : IO UInt32 := do
  let environment : NanScript.CommandLine.Environment :=
    { assembler := ← IO.getEnv "ARIA_NASM"
      linker := ← IO.getEnv "ARIA_CC"
      workspace := ← IO.getEnv "ARIA_WORKSPACE_DIR" }
  let compiler := (← IO.appPath).toString
  let outcome ← NanScript.CommandLine.run NanScript.systemHost environment (some ⟨compiler⟩) arguments
  IO.print outcome.stdout
  IO.eprint outcome.stderr
  return outcome.exitCode.toUInt32
