/-! Scopes of labels. -/
namespace HackStack

/-- Where a label is known: in one function, or in the code of a module before any function. -/
inductive Scope
  | function (name : String)
  | module (name : String)
  deriving DecidableEq, Repr, Inhabited

def Scope.resolve (label : String) : Scope → String
  | .function name => name ++ "$" ++ label
  | .module name => name ++ ":" ++ label

end HackStack
