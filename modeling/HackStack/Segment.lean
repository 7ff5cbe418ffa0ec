/-! The eight memory segments that commands address. -/
namespace HackStack

inductive Segment
  | constant | locals | static | arguments | this | that | pointer | temp
  deriving DecidableEq, Repr, Inhabited

namespace Segment

def all : List Segment :=
  [.constant, .locals, .static, .arguments, .this, .that, .pointer, .temp]

def name : Segment → String
  | .constant => "constant"
  | .locals => "local"
  | .static => "static"
  | .arguments => "argument"
  | .this => "this"
  | .that => "that"
  | .pointer => "pointer"
  | .temp => "temp"

def ofName? (text : String) : Option Segment := all.find? fun segment => segment.name = text

@[simp] theorem ofName?_name (segment : Segment) : ofName? segment.name = some segment := by
  cases segment <;> decide

theorem name_of_ofName? {text : String} {segment : Segment}
    (found : ofName? text = some segment) : segment.name = text := by
  simpa using List.find?_some found

end Segment
end HackStack
