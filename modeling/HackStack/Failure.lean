import HackStack.Error
import HackStack.Files.Path

/-! Why a whole run fails: a cause, and what was being done, from the outside in. -/
namespace HackStack

inductive Context
  | usingModule (name : String)
  | atLine (module : String) (line : Nat)
  | reading (path : Path)
  | creating (path : Path)
  | resolving (path : Path)
  | listing (path : Path)
  deriving DecidableEq, Repr, Inhabited

def Context.message : Context → String
  | .usingModule name => "cannot use " ++ name ++ ".vm as a module"
  | .atLine module line => module ++ ".vm:" ++ line.repr
  | .reading path => "cannot read " ++ Text.shown path
  | .creating path => "cannot create " ++ Text.shown path
  | .resolving path => "cannot resolve " ++ Text.shown path
  | .listing path => "cannot list " ++ Text.shown path

inductive Cause
  | compiling (error : Error)
  | storage (error : StorageError)
  | noModules (directory : Path)
  | noDirectoryName (directory : Path)
  | noModuleName (path : Path)
  | notInput (path : Path)
  deriving DecidableEq, Repr, Inhabited

/-- The texts of a cause. A sink's failure is told twice: as what it did to the run, and as what
it was. -/
def Cause.messages : Cause → List String
  | .compiling (.sink cause) => [(Error.sink cause).message, cause.message]
  | .compiling error => [error.message]
  | .storage error => [error.message]
  | .noModules directory => ["no .vm files in " ++ Text.shown directory]
  | .noDirectoryName directory => [Text.shown directory ++ " has no usable name"]
  | .noModuleName path => [Text.shown path ++ " has no usable module name"]
  | .notInput path => [Text.shown path ++ " is neither a .vm file nor a directory"]

structure Failure where
  contexts : List Context := []
  cause : Cause
  deriving DecidableEq, Repr, Inhabited

namespace Failure

/-- What the system refused, as a failure of what was being done. -/
def during (contexts : List Context) : Except StorageError α → Except Failure α
  | .ok value => .ok value
  | .error error => .error { contexts, cause := .storage error }

/-- All texts of a failure, from the outermost context to the root cause. -/
def chain (failure : Failure) : List String :=
  failure.contexts.map Context.message ++ failure.cause.messages

end Failure
end HackStack
