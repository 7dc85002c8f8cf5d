import NanScript.Assembly.Program
import NanScript.Parser.Declaration

/-!
# From source text to assembly

A program is compiled only if its parser had nothing to report.
-/

namespace NanScript

inductive CompileError where
  | parse (errors : List ParseError)
  | codegen (problem : CodegenError)
  deriving DecidableEq, Repr, Inhabited

def CompileError.message : CompileError → String
  | parse errors => "\n".intercalate (errors.map ParseError.render)
  | codegen problem => s!"code generation failed: {problem.message}"

def compile (source : String) : Except CompileError String :=
  let parsed := parse source
  if parsed.errors.isEmpty then (generate parsed.program).mapError .codegen else .error (.parse parsed.errors)

end NanScript
