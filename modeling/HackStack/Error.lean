import HackStack.Segment
import HackStack.Word

/-! Why a compilation fails, and the text that says so. -/
namespace HackStack

inductive StorageError
  | notFound
  | isDirectory
  | notDirectory
  | notPermitted
  | permissionDenied
  | unreadable
  | nameTooLong
  | nulInName
  | notUtf8
  | diskFull
  | shortWrite
  | flushFailed
  deriving DecidableEq, Repr, Inhabited

def StorageError.message : StorageError → String
  | .notFound => "No such file or directory (os error 2)"
  | .isDirectory => "Is a directory (os error 21)"
  | .notDirectory => "Not a directory (os error 20)"
  | .notPermitted => "Operation not permitted (os error 1)"
  | .permissionDenied => "Permission denied (os error 13)"
  | .unreadable => "Input/output error (os error 5)"
  | .nameTooLong => "File name too long (os error 36)"
  | .nulInName => "file name contained an unexpected NUL byte"
  | .notUtf8 => "stream did not contain valid UTF-8"
  | .diskFull => "disk full"
  | .shortWrite => "failed to write whole buffer"
  | .flushFailed => "flush failed"

inductive Reason
  | unsplittable
  | noWords
  | tooFew (head : String) (expected found : Nat)
  | trailing (words : List String)
  | notInteger (word : String)
  | notSymbol (word : String)
  deriving DecidableEq, Repr, Inhabited

def Reason.message : Reason → String
  | .unsplittable => "cannot split into words"
  | .noWords => "empty command"
  | .tooFew head expected found =>
    "`" ++ head ++ "` takes " ++ expected.repr ++ " argument(s), found " ++ found.repr
  | .trailing words => "unexpected trailing `" ++ " ".intercalate words ++ "`"
  | .notInteger word => "`" ++ word ++ "` is not a valid non-negative integer"
  | .notSymbol word => "`" ++ word ++ "` is not a valid symbol"

/-- Why a line is refused, a command has no code, or code cannot be written. -/
inductive Error
  | malformed (line : Nat) (text : String) (reason : Reason)
  | unsupportedOperation (mnemonic : String)
  | invalidSegment (name : String)
  | invalidModuleName (name : String)
  | lateBootstrap
  | indexOutOfRange (segment : Segment) (index : Word) (max : Nat)
  | sink (cause : StorageError)
  deriving DecidableEq, Repr, Inhabited

def Error.message : Error → String
  | .malformed line text reason =>
    "line " ++ line.repr ++ ": malformed command `" ++ text ++ "`: " ++ reason.message
  | .unsupportedOperation mnemonic => "unsupported arithmetic operation `" ++ mnemonic ++ "`"
  | .invalidSegment name => "invalid segment `" ++ name ++ "`"
  | .invalidModuleName name => "module name `" ++ name ++ "` is not a valid symbol"
  | .lateBootstrap => "bootstrap must be the first code of a run"
  | .indexOutOfRange segment index max =>
    "index " ++ index.toNat.repr ++ " out of range for segment " ++ segment.name ++
      " (max " ++ max.repr ++ ")"
  | .sink cause => "failed to write output: " ++ cause.message

end HackStack
