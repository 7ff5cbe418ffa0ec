import HackStack.Compiler.Compilation
import HackStack.Files.BufferedFile
import HackStack.Job

/-! Whole runs: a job's modules compiled into one program, and the program put into a file. -/
namespace HackStack
namespace Compilation

/-- Reads the text of a module. Its file is looked at when its turn comes, and `read` may depend
on what has been written until then. -/
def readModule (read : σ → Path → Except StorageError String) (path : Path) :
    CompileM σ Failure String := do
  match read (← get).sink path with
  | .ok source => return source
  | .error error => throw { contexts := [.reading path], cause := .storage error }

/-- Compiles the modules of a job in order into one program. -/
def compileProgram [Sink σ] (read : σ → Path → Except StorageError String) (job : Job) :
    CompileM σ Failure Unit := do
  if job.bootstrap then within [] bootstrap
  job.modules.forM fun path => do
    let source ← readModule read path
    compileModule (← accept (Job.moduleName path)) source
  within [] finish

end Compilation

structure Outcome where
  result : Except Failure Path
  tree : FileTree
  log : Array Event := #[]

/-- Makes the output file and writes the program of a job into it. A failed run takes the file
away. Where that is refused, what has been written stays, and the run says so. -/
def execute (tree : FileTree) (job : Job) : Outcome :=
  let planned := #[Event.planned job.output job.modules.length job.bootstrap]
  match tree.create job.output with
  | .error error =>
    { result := .error { contexts := [.creating job.output], cause := .storage error },
      tree, log := planned }
  | .ok (tree, location) =>
    let start : Compilation BufferedFile := { sink := { tree, location }, log := planned }
    match Compilation.compileProgram (fun file path => file.tree.readText path) job start with
    | .ok _ after =>
      { result := .ok job.output, tree := after.sink.tree, log := after.log }
    | .error failure after =>
      -- the buffer is emptied also where nobody asked for it
      let left := after.sink.drain.tree
      match left.remove location with
      | .ok tree => { result := .error failure, tree, log := after.log }
      | .error error =>
        { result := .error failure, tree := left,
          log := after.log.push (.leftBehind job.output error) }

def run (tree : FileTree) (options : Options) : Outcome :=
  match Job.plan tree options with
  | .error failure => { result := .error failure, tree }
  | .ok job => execute tree job

end HackStack
