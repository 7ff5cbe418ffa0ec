import HackStack.Command
import HackStack.Error
import HackStack.Files.Path

/-! What a run reports while it goes on. -/
namespace HackStack

/-- How detailed a message is; a more detailed level has the greater number. -/
inductive Level
  | off | error | warn | info | debug | trace
  deriving DecidableEq, Repr, Inhabited

namespace Level

def all : List Level := [.off, .error, .warn, .info, .debug, .trace]

def detail : Level → Nat
  | .off => 0
  | .error => 1
  | .warn => 2
  | .info => 3
  | .debug => 4
  | .trace => 5

def name : Level → String
  | .off => "OFF"
  | .error => "ERROR"
  | .warn => "WARN"
  | .info => "INFO"
  | .debug => "DEBUG"
  | .trace => "TRACE"

def ofName? (text : String) : Option Level := all.find? fun level => level.name = text.toUpper

end Level

inductive Event
  | planned (output : Path) (modules : Nat) (bootstrap : Bool)
  | bootstrapping (entry : String)
  | entering (module : String)
  | compiling (module : String) (command : Command)
  | leftBehind (output : Path) (error : StorageError)
  | finished (output : Path)
  deriving DecidableEq, Repr, Inhabited

namespace Event

def level : Event → Level
  | .planned .. => .info
  | .bootstrapping _ => .debug
  | .entering _ => .debug
  | .compiling .. => .trace
  | .leftBehind .. => .warn
  | .finished _ => .info

def origin : Event → String
  | .planned .. => "vmil_translator::driver"
  | .bootstrapping _ => "vmil_translator::translator"
  | .entering _ => "vmil_translator::translator"
  | .compiling .. => "vmil_translator::translator"
  | .leftBehind .. => "vmil_translator::driver"
  | .finished _ => "vmil_translator"

def message : Event → String
  | .planned output modules bootstrap =>
    "translating output=" ++ Text.shown output ++ " modules=" ++ modules.repr ++ " bootstrap=" ++
      if bootstrap then "true" else "false"
  | .bootstrapping entry => "writing bootstrap entry=\"" ++ entry ++ "\""
  | .entering module => "entering module module=" ++ module
  | .compiling module command =>
    "translating module=" ++ module ++ " command=" ++ command.text
  | .leftBehind output error =>
    "could not remove partial output output=" ++ Text.shown output ++ " error=" ++ error.message
  | .finished output => "done output=" ++ Text.shown output

def line (event : Event) : String :=
  event.level.name ++ " " ++ event.origin ++ ": " ++ event.message

end Event
end HackStack
