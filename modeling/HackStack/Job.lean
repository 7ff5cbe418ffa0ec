import HackStack.Failure
import HackStack.Files.Tree

/-! What a run reads and writes, found out from what the user asks for. -/
namespace HackStack

structure Options where
  /-- A source file, or a directory whose source files make up one program. -/
  input : Path
  /-- Where to write, if not beside the input. -/
  output : Option Path := none
  /-- Whether the program starts by itself; unless told, it does if it comes from a directory. -/
  bootstrap : Option Bool := none
  deriving DecidableEq, Repr, Inhabited

structure Job where
  modules : List Path
  output : Path
  bootstrap : Bool
  deriving DecidableEq, Repr, Inhabited

namespace Job

def isSource (path : Path) : Bool := Path.extension? path = some (Text.bytes "vm")

def moduleName (path : Path) : Except Failure String :=
  match (Path.stem? path).bind Text.ofBytes? with
  | some name => .ok name
  | none => .error { cause := .noModuleName path }

/-- The source files right inside a directory, sorted by name. -/
def sourcesIn (tree : FileTree) (directory : Location) : List FileName :=
  let isModule (name : FileName) :=
    tree.isFile (Location.path (directory ++ [name])) &&
      isSource (Location.path (directory ++ [name]))
  ((tree.entryNames directory).filter isModule).mergeSort fun first second =>
    decide (first ≤ second)

/-- A job for a directory: its sources are known by absolute paths, and the output stands among
them under the directory's name, which has to be a text. -/
def forDirectory (tree : FileTree) (input : Path) : Except Failure Job := do
  let directory ← Failure.during [.resolving input] (tree.resolve input)
  Failure.during [.listing directory.path] (tree.openDirectory directory.path)
  Failure.during [] (tree.ask directory .entries)
  match sourcesIn tree directory, directory.getLast?.bind Text.ofBytes? with
  | [], _ => throw { cause := .noModules directory.path }
  | _, none => throw { cause := .noDirectoryName directory.path }
  | names, some name =>
    return { modules := names.map fun file => Location.path (directory ++ [file]),
             output := Location.path (directory ++ [Text.bytes name ++ Text.bytes ".asm"]),
             bootstrap := true }

def defaults (tree : FileTree) (input : Path) : Except Failure Job :=
  match tree.locate input with
  | .ok location =>
    match tree.node? location with
    | some .directory => forDirectory tree input
    | _ =>
      if isSource input then
        .ok { modules := [input], output := Path.replaceExtension input (Text.bytes "asm"),
              bootstrap := false }
      else .error { cause := .notInput input }
  | .error _ => .error { cause := .notInput input }

def plan (tree : FileTree) (options : Options) : Except Failure Job := do
  let job ← defaults tree options.input
  return { job with
    output := options.output.getD job.output
    bootstrap := options.bootstrap.getD job.bootstrap }

end Job
end HackStack
