import HackStack.Proofs.Assembly.Loading
import HackStack.Run
import Mathlib.Data.List.Forall2

/-! The listing of a run: which commands it compiles, and in which state of the generator. A run
that succeeds writes exactly the code of its listing, and that code is read back and, as long as
it fits, loaded. -/
namespace HackStack
open Assembly

structure Module where
  name : String
  commands : List Command
  deriving DecidableEq, Repr, Inhabited

/-- A place of a program: one of the generator's own pieces, or a command with the state of the
generator in which its code is made. -/
inductive Site
  | setStack
  | loop (label : String)
  | compiled (generator : Generator) (command : Command)
  deriving DecidableEq, Repr, Inhabited

namespace Site

/-- The code of a place. A refused command has none. -/
def code : Site → List Statement
  | .setStack => Code.setStack
  | .loop label => Code.loop label
  | .compiled generator command =>
    match generator.code command with
    | .ok code => code
    | .error _ => []

def Accepted : Site → Prop
  | .compiled generator command => ∃ code, generator.code command = .ok code
  | _ => True

end Site

def Command.isFunction : Command → Bool
  | .function .. => true
  | _ => false

namespace Generator

theorem advance_module (generator : Generator) (command : Command) :
    (generator.advance command).module = generator.module := by
  cases command with
  | arithmetic mnemonic =>
    simp only [advance]
    split <;> rfl
  | _ => rfl

theorem advance_scope {generator : Generator} {command : Command}
    (stays : command.isFunction = false) :
    (generator.advance command).scope = generator.scope := by
  cases command with
  | arithmetic mnemonic =>
    simp only [advance]
    split <;> rfl
  | function => cases stays
  | push | pop | label | goto | ifGoto | call | ret => rfl

theorem advance_started (generator : Generator) (command : Command) :
    (generator.advance command).started = true := by
  cases command with
  | arithmetic mnemonic =>
    simp only [advance]
    split <;> rfl
  | _ => rfl

def enter (generator : Generator) (name : String) : Generator :=
  { generator with module := name, scope := .module name }

theorem enterModule_ok_iff {generator entered : Generator} {name : String} :
    generator.enterModule name = .ok entered ↔
      isSymbol name = true ∧ entered = generator.enter name := by
  unfold enterModule enter
  split_ifs with symbol
  · simp [symbol, eq_comm]
  · simp [symbol]

def after (generator : Generator) (commands : List Command) : Generator :=
  commands.foldl Generator.advance generator

def sites (generator : Generator) : List Command → List Site
  | [] => []
  | command :: rest => .compiled generator command :: (generator.advance command).sites rest

def moduleSites (generator : Generator) : List Module → List Site
  | [] => []
  | module :: rest =>
    (generator.enter module.name).sites module.commands ++
      ((generator.enter module.name).after module.commands).moduleSites rest

end Generator

/-- The places before the first module of a program that starts by itself. -/
def startSites : List Site :=
  [.setStack, .compiled { started := true } (.call Code.entryFunction 0), .loop Code.haltLabel]

def startState (bootstrap : Bool) : Generator :=
  if bootstrap then { calls := 1, started := true } else {}

def listing (bootstrap : Bool) (modules : List Module) : List Site :=
  (if bootstrap then startSites else []) ++ (startState bootstrap).moduleSites modules ++
    [.loop Code.endLabel]

def codeOf (sites : List Site) : List Statement := sites.flatMap Site.code

@[simp] theorem codeOf_append (first second : List Site) :
    codeOf (first ++ second) = codeOf first ++ codeOf second := List.flatMap_append

@[simp] theorem codeOf_cons (site : Site) (rest : List Site) :
    codeOf (site :: rest) = site.code ++ codeOf rest := List.flatMap_cons

@[simp] theorem codeOf_nil : codeOf [] = [] := rfl

def compileModules [Sink σ] (bootstrap : Bool) (sources : List (String × String)) :
    CompileM σ Failure Unit := do
  if bootstrap then Compilation.within [] Compilation.bootstrap
  sources.forM fun (name, source) => Compilation.compileModule name source
  Compilation.within [] Compilation.finish

/-- A source is read as the commands of a module of that name. -/
def Module.ReadFrom (module : Module) (name source : String) : Prop :=
  module.name = name ∧ Source.commands source = .ok module.commands

/-- A run over these modules succeeds and leaves this text in an empty, unlimited sink: the run of
a job whose files are these modules, or the modules compiled one by one. -/
inductive Produces (bootstrap : Bool) (modules : List Module) (text : String) : Prop
  | job (files : Path → Except StorageError String) (job : Job)
      (started : job.bootstrap = bootstrap)
      (read : List.Forall₂ (fun path module => ∃ name source, Job.moduleName path = .ok name ∧
        files path = .ok source ∧ module.ReadFrom name source) job.modules modules)
      (final : Compilation MemorySink)
      (run : Compilation.compileProgram (fun _ => files) job { sink := {} } = .ok () final)
      (content : final.sink.content = text.toUTF8)
  | modules (sources : List (String × String))
      (read : List.Forall₂ (fun entry module => module.ReadFrom entry.1 entry.2) sources modules)
      (final : Compilation MemorySink)
      (run : compileModules bootstrap sources { sink := {} } = .ok () final)
      (content : final.sink.content = text.toUTF8)

end HackStack
