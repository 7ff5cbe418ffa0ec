/-! The nine stack operations. -/
namespace HackStack

inductive Operation
  | add | sub | neg | eq | gt | lt | and | or | not
  deriving DecidableEq, Repr, Inhabited

namespace Operation

def all : List Operation := [.add, .sub, .neg, .eq, .gt, .lt, .and, .or, .not]

def mnemonic : Operation → String
  | .add => "add"
  | .sub => "sub"
  | .neg => "neg"
  | .eq => "eq"
  | .gt => "gt"
  | .lt => "lt"
  | .and => "and"
  | .or => "or"
  | .not => "not"

def ofMnemonic? (text : String) : Option Operation :=
  all.find? fun operation => operation.mnemonic = text

@[simp] theorem ofMnemonic?_mnemonic (operation : Operation) :
    ofMnemonic? operation.mnemonic = some operation := by
  cases operation <;> decide

theorem mnemonic_of_ofMnemonic? {text : String} {operation : Operation}
    (found : ofMnemonic? text = some operation) : operation.mnemonic = text := by
  simpa using List.find?_some found

end Operation
end HackStack
