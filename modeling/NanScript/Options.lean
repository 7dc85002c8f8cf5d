import NanScript.Path

/-!
# Command-line options

The arguments of the compiler, and the paths of the files that it makes from them. All of them lie beside the source:
the assembly and the object file differ from it in their extension, or have one more if the source has it already.
-/

namespace NanScript

inductive UsageError where
  | missingOutput
  | unknownOption (argument : String)
  | unexpectedArgument (argument : String)
  | missingInput
  | overwritesInput
  | other (text : String)
  deriving DecidableEq, Repr, Inhabited

def UsageError.message : UsageError → String
  | missingOutput => "-o requires a path"
  | unknownOption argument => s!"unknown option: {argument}"
  | unexpectedArgument argument => s!"unexpected argument: {argument}"
  | missingInput => "missing input file"
  | overwritesInput => "output path would overwrite the input file"
  | other text => text

structure Options where
  input : Path
  output : Option Path := none
  asmOnly : Bool := false
  runtimePath : Option Path := none
  deriving DecidableEq, Repr, Inhabited

namespace Options

structure Draft where
  input : Option Path := none
  output : Option Path := none
  asmOnly : Bool := false
  runtimePath : Option Path := none
  deriving Repr, Inhabited

def runtimePathValue? (argument : String) : Option String :=
  let flag := "--runtime-path=".toList
  if flag.isPrefixOf argument.toList then some (String.ofList (argument.toList.drop flag.length)) else none

def readArguments (draft : Draft) : List String → Except UsageError Draft
  | [] => .ok draft
  | "--asm-only" :: rest => readArguments { draft with asmOnly := true } rest
  | ["-o"] => .error .missingOutput
  | "-o" :: path :: rest => readArguments { draft with output := some ⟨path⟩ } rest
  | argument :: rest =>
    match runtimePathValue? argument with
    | some directory => readArguments { draft with runtimePath := some ⟨directory⟩ } rest
    | none =>
      if argument.toList.head? == some '-' then .error (.unknownOption argument)
      else if draft.input.isSome then .error (.unexpectedArgument argument)
      else readArguments { draft with input := some ⟨argument⟩ } rest

def parse (arguments : List String) : Except UsageError Options := do
  let draft ← readArguments {} arguments
  match draft.input with
  | none => throw .missingInput
  | some input =>
    if draft.output.any (·.same input) then throw .overwritesInput
    return { input, output := draft.output, asmOnly := draft.asmOnly, runtimePath := draft.runtimePath }

/-- The source's path with an extension that it does not have yet. -/
def derived (options : Options) (extension : String) : Path :=
  match options.input.extension? with
  | some current =>
    if current = extension.toList then options.input.append s!".{extension}" else options.input.withExtension extension
  | none => options.input.append s!".{extension}"

def asmPath (options : Options) : Path := options.derived "asm"

def objectPath (options : Options) : Path := options.derived "o"

/-- Where the program goes: where the options say, or to the source's path without its extension. -/
def executablePath (options : Options) : Path :=
  match options.output with
  | some path => path
  | none =>
    if options.input.extension?.isSome then options.input.withExtension "" else options.input.append ".out"

end Options

def usage : String :=
  "\n".intercalate
    ["Usage: ariac <input.aria> [options]",
      "",
      "Options:",
      "  --asm-only              Stop after writing the .asm file",
      "  -o <path>               Output executable (default: input without extension,",
      "                          or <input>.out when the input has none)",
      "  --runtime-path=<dir>    Directory containing libaria_rt.a"]

end NanScript
