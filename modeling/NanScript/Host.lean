import NanScript.Path

/-!
# The host of a build

A build reads and writes files and calls other programs. What it needs of its surroundings is gathered here, so that
the same build runs on a real system and on a file tree in memory.
-/

namespace NanScript

inductive HostError where
  | notFound
  | argumentTooLong
  | badFormat
  | permissionDenied
  | notADirectory
  | isADirectory
  | nameTooLong
  | tooManyLinks
  | invalidText
  | zeroInName
  | zeroInArgument
  | other (text : String)
  deriving DecidableEq, Repr, Inhabited

def HostError.number? : HostError → Option Nat
  | notFound => some 2
  | argumentTooLong => some 7
  | badFormat => some 8
  | permissionDenied => some 13
  | notADirectory => some 20
  | isADirectory => some 21
  | nameTooLong => some 36
  | tooManyLinks => some 40
  | invalidText | zeroInName | zeroInArgument | other _ => none

def HostError.reason : HostError → String
  | notFound => "No such file or directory"
  | argumentTooLong => "Argument list too long"
  | badFormat => "Exec format error"
  | permissionDenied => "Permission denied"
  | notADirectory => "Not a directory"
  | isADirectory => "Is a directory"
  | nameTooLong => "File name too long"
  | tooManyLinks => "Too many levels of symbolic links"
  | invalidText => "stream did not contain valid UTF-8"
  | zeroInName => "file name contained an unexpected NUL byte"
  | zeroInArgument => "nul byte found in provided data"
  | other text => text

def HostError.message (problem : HostError) : String :=
  match problem.number? with
  | some number => s!"{problem.reason} (os error {number})"
  | none => problem.reason

/-- What is left of a program that was called. A signal leaves no exit code. -/
structure ToolOutcome where
  exitCode : Option Int
  stderr : String := ""
  deriving DecidableEq, Repr, Inhabited

def ToolOutcome.succeeded (outcome : ToolOutcome) : Bool := outcome.exitCode == some 0

structure Host (m : Type → Type) where
  readText : Path → m (Except HostError String)
  writeText : Path → String → m (Except HostError Unit)
  isFile : Path → m Bool
  /-- The absolute path of a directory, without detours. -/
  canonical? : Path → m (Option Path)
  call : String → List String → m (Except HostError ToolOutcome)

end NanScript
