import NanScript.Assembly

/-!
# The text of assembly

One line of text for each line of code: labels at the margin, instructions indented by four. In front stand the
declarations of all outer names and the words of the top-level variables.
-/

namespace NanScript

def functionSymbol (name : String) : String := if runtimeExports.contains name then name else s!"${name}"

def globalSymbol (name : String) : String := s!"_aria_global_{name}"

def Label.render : Label → String
  | ret => ".Lret"
  | safe number => s!".Lsafe_{number}"
  | otherwise number => s!".Lelse_{number}"
  | finish number => s!".Lend_{number}"
  | again number => s!".Lloop_{number}"
  | next number => s!".Lcont_{number}"
  | ternary number => s!".Ltern_{number}"
  | ternaryEnd number => s!".Ltern_end_{number}"
  | shortEnd number => s!".Lsc_end_{number}"
  | text number => s!".Lstr_{number}"
  | textEnd number => s!".Lstr_end_{number}"

def Place.render : Place → String
  | register r => r.name
  | frame offset => s!"qword [rbp-{offset}]"
  | incoming offset => s!"[rbp+{offset}]"
  | top => "[rsp]"
  | global name => s!"[rel {globalSymbol name}]"

def Condition.render : Condition → String
  | always => "jmp"
  | zero => "jz"
  | nonzero => "jnz"
  | equal => "je"

def Instruction.render : Instruction → String
  | push source => s!"push {source.name}"
  | pop target => s!"pop {target.name}"
  | move target source => s!"mov {target.render}, {source.render}"
  | argumentInt value => s!"mov rdi, {value}"
  | argumentWord word => s!"mov rdi, 0x{Text.hex64 word}"
  | argumentFlag value => if value then "mov edi, 1" else "mov edi, 0"
  | argumentZero => "xor edi, edi"
  | functionAddress target name => s!"lea {target.name}, [rel {functionSymbol name}]"
  | globalAddress target name => s!"lea {target.name}, [rel {globalSymbol name}]"
  | textAddress target number => s!"lea {target.name}, [rel {(Label.text number).render}]"
  | reserve bytes => s!"sub rsp, {bytes}"
  | release bytes => s!"add rsp, {bytes}"
  | unwind bytes => s!"lea rsp, [rbp-{bytes}]"
  | call name _ => s!"call {functionSymbol name}"
  | callAddress _ => "call r10"
  | pollRequest => "cmp dword [rel gc_suspend_request], 0"
  | testResult => "test rax, rax"
  | jump condition target => s!"{condition.render} {target.render}"
  | ret => "ret"

def Line.render : Line → String
  | instruction i => s!"    {i.render}"
  | label l => s!"{l.render}:"
  | entry => "main:"
  | function name => s!"{functionSymbol name}:"
  | text number bytes =>
    let list := bytes.foldl (fun text byte => text ++ toString byte.toNat ++ ",") ""
    s!"{(Label.text number).render}: db {list}0"
  | blank => ""

def closeLines (lines : List String) : String := lines.foldl (fun text line => text ++ line ++ "\n") ""

def Assembly.externs (assembly : Assembly) : List String := runtimeExports ++ assembly.undefined

def Assembly.render (assembly : Assembly) : String :=
  closeLines <|
    ["bits 64", "default rel", "", "global main"]
      ++ assembly.externs.map (fun name => s!"extern {functionSymbol name}")
      ++ ["", "section .data"]
      ++ assembly.globals.map (fun name => s!"{globalSymbol name}: dq 0")
      ++ ["", "section .text"]
      ++ assembly.code.map Line.render

end NanScript
