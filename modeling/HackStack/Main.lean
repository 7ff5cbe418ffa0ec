import HackStack.CommandLine

/-! The executable. What the paths of the command line lead to is read before the run, and what
the run changed is written after it. -/
namespace HackStack

def Location.text (location : Location) : String := Text.shown location.path

def look (tree : FileTree) (location : Location) : IO FileTree := do
  try
    let _ ← (← IO.FS.realPath location.text).readDir
    return tree.addDirectory location
  catch _ =>
    try
      return tree.setFile location (← IO.FS.readBinFile location.text)
    catch _ => return tree

/-- Adds what the disk has along a path, and says where the path ends. -/
def lookAlong (tree : FileTree) (path : Path) : IO (FileTree × Location) := do
  let start := if path.head? = some Path.slash then [] else tree.workingDirectory
  (Path.names path).foldlM (fun (tree, here) name => do
    let next := if name = [Path.dot, Path.dot] then here.dropLast else here ++ [name]
    return (← look tree next, next)) (tree, start)

def lookInside (tree : FileTree) (directory : Location) : IO FileTree := do
  if tree.node? directory ≠ some .directory then return tree
  (← (← IO.FS.realPath directory.text).readDir).foldlM
    (fun tree entry => look tree (directory ++ [Text.bytes entry.fileName])) tree

/-- The part of the disk that the options may touch. -/
def snapshot (here : Location) (options : Options) : IO FileTree := do
  let tree := FileTree.addDirectory { workingDirectory := here, nodes := [] } here
  let outputs := Path.replaceExtension options.input (Text.bytes "asm") :: options.output.toList
  let tree ← outputs.foldlM (fun tree path => return (← lookAlong tree path).1) tree
  let (tree, input) ← lookAlong tree options.input
  lookInside tree input

def store (before after : FileTree) : IO Unit := do
  for (location, node) in after.nodes do
    if let .file content := node then
      if before.node? location ≠ some node then IO.FS.writeBinFile location.text content
  for (location, _) in before.nodes do
    if (after.node? location).isNone then IO.FS.removeFile location.text

end HackStack

open HackStack in
def main (arguments : List String) : IO UInt32 := do
  let environment : CommandLine.Environment :=
    { output := ← IO.getEnv "VMIL_OUTPUT", logLevel := ← IO.getEnv "RUST_LOG" }
  let here := Path.names (Text.bytes (toString (← IO.currentDir)))
  let tree ← match CommandLine.Arguments.read arguments >>= (·.options environment) with
    | .ok options => snapshot here options
    | .error _ => pure { workingDirectory := here, nodes := [] }
  let answer := CommandLine.answer arguments environment tree
  store tree answer.tree
  for line in answer.log do IO.eprintln line
  IO.eprint answer.report
  IO.print answer.output
  return answer.code.toUInt32
