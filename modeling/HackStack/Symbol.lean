/-! Symbols: the names of labels, functions, modules and variables. -/
namespace HackStack

def isSymbolChar (c : Char) : Bool :=
  c.isAlphanum || c == '_' || c == '.' || c == '$' || c == ':'

def isSymbol (text : String) : Bool :=
  match text.toList with
  | [] => false
  | first :: rest => !first.isDigit && (first :: rest).all isSymbolChar

end HackStack
