import HackStack.Compiler.Generator
import HackStack.Compiler.Sink
import HackStack.Failure
import HackStack.Log
import HackStack.Source

/-! A compilation: a generator whose blocks go to a sink, one command after the other. Whatever
fails, the state that it reached is kept. -/
namespace HackStack

structure Compilation (σ : Type) where
  generator : Generator := {}
  sink : σ
  log : Array Event := #[]

/-- An action of a compilation that may fail with `ε`. -/
abbrev CompileM (σ ε : Type) := EStateM ε (Compilation σ)

namespace Compilation

def record (event : Event) : CompileM σ ε Unit
  | ⟨generator, sink, log⟩ => .ok () ⟨generator, sink, log.push event⟩

/-- Takes over a new generator state and writes its block. The state stays also if the sink
fails. -/
def emit [Sink σ] : Generator × Block → CompileM σ Error Unit
  | (generator, block), ⟨_, sink, log⟩ =>
    match Sink.writeAll block.chunks sink with
    | .ok _ sink => .ok () ⟨generator, sink, log⟩
    | .error cause sink => .error (.sink cause) ⟨generator, sink, log⟩

def flush [Sink σ] : CompileM σ Error Unit
  | ⟨generator, sink, log⟩ =>
    match Sink.flush sink with
    | .ok _ sink => .ok () ⟨generator, sink, log⟩
    | .error cause sink => .error (.sink cause) ⟨generator, sink, log⟩

def accept : Except ε α → CompileM σ ε α
  | .ok value, compilation => .ok value compilation
  | .error error, compilation => .error error compilation

def enterModule (name : String) : CompileM σ Error Unit := do
  let generator ← accept ((← get).generator.enterModule name)
  record (.entering name)
  modify fun compilation => { compilation with generator }

/-- Writes the code that sets up the stack and calls the entry function. Only the first code of
a run may do so. -/
def bootstrap [Sink σ] : CompileM σ Error Unit := do
  if (← get).generator.started then throw .lateBootstrap
  record (.bootstrapping Code.entryFunction)
  emit (← get).generator.setStack
  emit (← get).generator.callEntry

def compile [Sink σ] (command : Command) : CompileM σ Error Unit := do
  record (.compiling (← get).generator.module command)
  emit (← accept ((← get).generator.generate command))

def compileAll [Sink σ] (commands : List Command) : CompileM σ Error Unit :=
  commands.forM compile

def finish [Sink σ] : CompileM σ Error Unit := do
  emit (← get).generator.close
  flush

/-- Lifts an action to one that fails as a run does, with what was being done. -/
def within (contexts : List Context) (action : CompileM σ Error α) : CompileM σ Failure α :=
  action.adaptExcept fun error => { contexts, cause := .compiling error }

def compileItem [Sink σ] (name : String) (item : Source.Item) : CompileM σ Failure Unit :=
  within [.atLine name item.line] do compile (← accept item.outcome)

/-- Compiles the source text of a module. Commands before a failing line have been written. -/
def compileModule [Sink σ] (name source : String) : CompileM σ Failure Unit := do
  within [.usingModule name] (enterModule name)
  (Source.items source).forM (compileItem name)

end Compilation
end HackStack
