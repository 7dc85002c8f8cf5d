import NanScript.Machine.Text

/-!
# The operators of the runtime

The operators that compiled code calls by name.
-/

namespace NanScript

inductive RuntimeOperator where
  | add | sub | mul | div | mod | eq | neq | lt | le | gt | ge
  deriving DecidableEq, Repr, Inhabited

namespace RuntimeOperator

def all : List RuntimeOperator := [add, sub, mul, div, mod, eq, neq, lt, le, gt, ge]

def name : RuntimeOperator → String
  | add => "add"
  | sub => "sub"
  | mul => "mul"
  | div => "div"
  | mod => "mod"
  | eq => "eq"
  | neq => "neq"
  | lt => "lt"
  | le => "le"
  | gt => "gt"
  | ge => "ge"

def ofName? (name : String) : Option RuntimeOperator := all.find? (·.name == name)

def apply (operator : RuntimeOperator) (a b : Value) : Run Value :=
  match operator with
  | add => Run.add a b
  | sub => return a.sub b
  | mul => return a.mul b
  | div => return a.div b
  | mod => Run.mod a b
  | eq => Run.eq a b
  | neq => Run.neq a b
  | lt => return a.lt b
  | le => return a.le b
  | gt => return a.gt b
  | ge => return a.ge b

end RuntimeOperator

end NanScript
