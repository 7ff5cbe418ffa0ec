import HackStack.Segment
import HackStack.Word

/-! Commands of the stack machine language, and their text. -/
namespace HackStack

/-- One command. An arithmetic command keeps its mnemonic as written: which mnemonics name an
operation is decided when code is generated. -/
inductive Command
  | arithmetic (mnemonic : String)
  | push (segment : Segment) (index : Word)
  | pop (segment : Segment) (index : Word)
  | label (name : String)
  | goto (name : String)
  | ifGoto (name : String)
  | function (name : String) (locals : Word)
  | call (name : String) (arguments : Word)
  | ret
  deriving DecidableEq, Repr, Inhabited

namespace Command

/-- The words that start a command other than an arithmetic one. -/
inductive Keyword
  | push | pop | label | goto | ifGoto | function | call | ret
  deriving DecidableEq, Repr, Inhabited

namespace Keyword

def all : List Keyword := [.push, .pop, .label, .goto, .ifGoto, .function, .call, .ret]

def text : Keyword → String
  | .push => "push"
  | .pop => "pop"
  | .label => "label"
  | .goto => "goto"
  | .ifGoto => "if-goto"
  | .function => "function"
  | .call => "call"
  | .ret => "return"

def arity : Keyword → Nat
  | .push | .pop | .function | .call => 2
  | .label | .goto | .ifGoto => 1
  | .ret => 0

def ofText? (word : String) : Option Keyword := all.find? fun keyword => keyword.text = word

@[simp] theorem ofText?_text (keyword : Keyword) : ofText? keyword.text = some keyword := by
  cases keyword <;> decide

theorem text_of_ofText? {word : String} {keyword : Keyword}
    (found : ofText? word = some keyword) : keyword.text = word := by
  simpa using List.find?_some found

end Keyword

/-- A keyword and its arguments, with one space between words. -/
def spell (keyword : Keyword) (arguments : List String) : String :=
  " ".intercalate (keyword.text :: arguments)

def text : Command → String
  | .arithmetic mnemonic => mnemonic
  | .push segment index => spell .push [segment.name, index.toNat.repr]
  | .pop segment index => spell .pop [segment.name, index.toNat.repr]
  | .label name => spell .label [name]
  | .goto name => spell .goto [name]
  | .ifGoto name => spell .ifGoto [name]
  | .function name locals => spell .function [name, locals.toNat.repr]
  | .call name arguments => spell .call [name, arguments.toNat.repr]
  | .ret => spell .ret []

end Command
end HackStack
