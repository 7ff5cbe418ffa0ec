import HackStack.Proofs.Compiler.Listing
import HackStack.Proofs.Reference.Stack

/-! The reference machine: it executes the commands of a listing one by one on a memory, and knows
no instructions. Of a loaded program it takes only the cells of statics and the addresses at which
commands start. -/
namespace HackStack
open Assembly

/-- The address of a place: the number of instructions before it. -/
def address (sites : List Site) (index : Nat) : Nat := size (codeOf (sites.take index))

namespace Site

def declares (scope : Scope) (name : String) : Site → Bool
  | .compiled generator (.label other) => generator.scope = scope && other = name
  | _ => false

def defines (name : String) : Site → Bool
  | .compiled _ (.function other _) => other = name
  | _ => false

def static? : Site → Option String
  | .compiled generator (.push .static index) => some (generator.staticSymbol index)
  | .compiled generator (.pop .static index) => some (generator.staticSymbol index)
  | _ => none

def target? : Site → Option String
  | .compiled generator (.goto name) | .compiled generator (.ifGoto name) =>
    some (generator.scope.resolve name)
  | .compiled _ (.call name _) => some name
  | _ => none

def isCall : Site → Bool
  | .compiled _ (.call ..) => true
  | _ => false

/-- A jump goes to a label of its own scope, a call to a function of the listing. -/
def reaches (sites : List Site) : Site → Bool
  | .compiled generator (.goto name) | .compiled generator (.ifGoto name) =>
    sites.any (Site.declares generator.scope name)
  | .compiled _ (.call name _) => sites.any (Site.defines name)
  | _ => true

theorem eq_of_declares {site : Site} {scope : Scope} {name : String}
    (declares : site.declares scope name = true) :
    ∃ generator, generator.scope = scope ∧ site = .compiled generator (.label name) := by
  unfold Site.declares at declares
  split at declares
  · rename_i generator other
    simp only [Bool.and_eq_true, decide_eq_true_eq] at declares
    exact ⟨generator, declares.1, by rw [declares.2]⟩
  · contradiction

theorem eq_of_defines {site : Site} {name : String} (defines : site.defines name = true) :
    ∃ generator locals, site = .compiled generator (.function name locals) := by
  unfold Site.defines at defines
  split at defines
  · rename_i generator other locals
    simp only [decide_eq_true_eq] at defines
    exact ⟨generator, locals, by rw [defines]⟩
  · contradiction

end Site

def statics (sites : List Site) : List String := sites.filterMap Site.static?

namespace Reference

structure State where
  next : Nat
  memory : Memory

/-- The address to which a call returns: that of the place behind it. -/
def landing (sites : List Site) (index : Nat) : Word :=
  BitVec.ofNat 16 (address sites (index + 1))

/-- The place at which control goes on after a return to an address. -/
def landingIndex? (sites : List Site) (target : Word) : Option Nat :=
  ((List.range sites.length).find? fun index =>
    sites[index]?.any Site.isCall && landing sites index = target).map (· + 1)

/-- The cell that a segment and an index name. A constant has none. -/
def cell? (symbols : String → Word) (generator : Generator) (memory : Memory) (index : Word) :
    Segment → Option Word
  | .constant => none
  | .locals => some (memory.read Cell.locals + index)
  | .arguments => some (memory.read Cell.arguments + index)
  | .this => some (memory.read Cell.this + index)
  | .that => some (memory.read Cell.that + index)
  | .temp => some (5 + index)
  | .pointer => some (Cell.this + index)
  | .static => some (symbols (generator.staticSymbol index))

def value? (symbols : String → Word) (generator : Generator) (memory : Memory)
    (segment : Segment) (index : Word) : Option Word :=
  match segment with
  | .constant => some index
  | _ => (cell? symbols generator memory index segment).map memory.read

def act (sites : List Site) (symbols : String → Word) (next : Nat) (memory : Memory)
    (generator : Generator) : Command → Option State
  | .arithmetic mnemonic =>
    (Operation.ofMnemonic? mnemonic).map fun operation => ⟨next + 1, operation.apply memory⟩
  | .push segment index =>
    (value? symbols generator memory segment index).map fun value =>
      ⟨next + 1, memory.push value⟩
  | .pop segment index =>
    (cell? symbols generator memory index segment).map fun cell =>
      ⟨next + 1, memory.popInto cell⟩
  | .label _ => some ⟨next + 1, memory⟩
  | .goto name =>
    (sites.findIdx? (Site.declares generator.scope name)).map fun target => ⟨target, memory⟩
  | .ifGoto name =>
    if memory.popped ≠ 0 then
      (sites.findIdx? (Site.declares generator.scope name)).map fun target =>
        ⟨target, memory.drop⟩
    else some ⟨next + 1, memory.drop⟩
  | .function _ locals => some ⟨next + 1, memory.pushZeros locals.toNat⟩
  | .call name arguments =>
    (sites.findIdx? (Site.defines name)).map fun target =>
      ⟨target, memory.enter (landing sites next) arguments.toNat⟩
  | .ret =>
    (landingIndex? sites memory.returnAddress).map fun target => ⟨target, memory.leave⟩

/-- Executes one place. There is nothing to execute outside the listing. -/
def step (sites : List Site) (symbols : String → Word) : State → Option State
  | ⟨next, memory⟩ =>
    sites[next]?.bind fun site =>
      match site with
      | .setStack => some ⟨next + 1, memory.write Cell.stack (BitVec.ofNat 16 Code.stackBase)⟩
      | .loop _ => some ⟨next, memory⟩
      | .compiled generator command => act sites symbols next memory generator command

/-- No push lands on the stack pointer, and what a pop or a return moves goes through no scratch
cell. -/
def Safe (memory : Memory) : Site → Prop
  | .compiled _ (.push ..) => memory.Room 1
  | .compiled _ (.pop ..) => ¬ Scratch memory.topCell
  | .compiled _ (.function _ locals) => memory.Room locals.toNat
  | .compiled _ (.call ..) => memory.Room 5
  | .compiled _ .ret => memory.Returns
  | _ => True

/-- The base of a segment that moves. -/
def base? : Segment → Option Word
  | .locals => some Cell.locals
  | .arguments => some Cell.arguments
  | .this => some Cell.this
  | .that => some Cell.that
  | _ => none

/-- No value is taken from a scratch cell, where generated code may have written. -/
def ReadsClear (memory : Memory) : Site → Prop
  | .compiled _ (.push segment index) =>
    ∀ base, base? segment = some base → ¬ Scratch (memory.read base + index)
  | .compiled _ (.arithmetic _) | .compiled _ (.ifGoto _) => ¬ Scratch memory.topCell
  | _ => True

/-- An execution of any length in which every place keeps clear. -/
inductive Run (sites : List Site) (symbols : String → Word) : State → State → Prop
  | refl (state : State) : Run sites symbols state state
  | next {state middle final : State} {site : Site} (here : sites[state.next]? = some site)
      (safe : Safe state.memory site) (clear : ReadsClear state.memory site)
      (taken : step sites symbols state = some middle) (rest : Run sites symbols middle final) :
      Run sites symbols state final

theorem Run.trans {sites : List Site} {symbols : String → Word} {first second third : State}
    (head : Run sites symbols first second) (tail : Run sites symbols second third) :
    Run sites symbols first third := by
  induction head with
  | refl => exact tail
  | next here safe clear taken _ ih => exact .next here safe clear taken (ih tail)

theorem isSome_cell? {symbols : String → Word} {generator : Generator} {segment : Segment}
    {index : Word} {place : Code.Place} (placed : generator.place segment index = .ok place)
    (memory : Memory) : (cell? symbols generator memory index segment).isSome = true := by
  cases segment with
  | constant => cases placed
  | locals | static | arguments | this | that | pointer | temp => rfl

theorem isSome_value? (symbols : String → Word) (generator : Generator) (memory : Memory)
    (segment : Segment) (index : Word) :
    (value? symbols generator memory segment index).isSome = true := by
  cases segment <;> rfl

/-- Inside the listing there is always a next step, except at a return to an address that is not
one behind a call. -/
theorem step_eq_none_iff {sites : List Site} {symbols : String → Word} {state : State}
    (accepted : ∀ site ∈ sites, site.Accepted)
    (targets : ∀ site ∈ sites, site.reaches sites = true) (inside : state.next < sites.length) :
    step sites symbols state = none ↔
      ∃ generator, sites[state.next]? = some (.compiled generator .ret) ∧
        landingIndex? sites state.memory.returnAddress = none := by
  obtain ⟨next, memory⟩ := state
  obtain ⟨site, here⟩ : ∃ site, sites[next]? = some site := ⟨_, List.getElem?_eq_getElem inside⟩
  have member := List.mem_of_getElem? here
  have found : ∀ test : Site → Bool, sites.any test = true →
      (sites.findIdx? test).isSome = true := fun test passed => List.findIdx?_isSome.trans passed
  have total : ∀ {outcome : Option State} {generator : Generator} {command : Command},
      command ≠ .ret → outcome.isSome = true →
        (outcome = none ↔ ∃ other, Site.compiled generator command = .compiled other .ret ∧
          landingIndex? sites memory.returnAddress = none) := by
    intro outcome generator command other some
    constructor
    · intro none
      rw [none] at some
      cases some
    · rintro ⟨_, equal, -⟩
      cases equal
      contradiction
  simp only [step, here, Option.bind_some, Option.some.injEq]
  cases site with
  | setStack | loop => simp
  | compiled generator command =>
    have accept := accepted _ member
    have known := targets _ member
    cases command with
    | arithmetic mnemonic =>
      obtain ⟨code, generated⟩ := accept
      refine total (by simp) ?_
      cases operation : Operation.ofMnemonic? mnemonic with
      | none => simp [Generator.code, operation] at generated
      | some operation => simp [act, operation]
    | push segment index =>
      refine total (by simp) ?_
      simp only [act, Option.isSome_map]
      exact isSome_value? ..
    | pop segment index =>
      obtain ⟨code, generated⟩ := accept
      obtain ⟨place, placed, -⟩ := bind_ok generated
      refine total (by simp) ?_
      simp only [act, Option.isSome_map]
      exact isSome_cell? placed memory
    | label | function => exact total (by simp) rfl
    | goto name =>
      refine total (by simp) ?_
      simp only [act, Option.isSome_map]
      exact found _ known
    | ifGoto name =>
      refine total (by simp) ?_
      simp only [act]
      split
      · rw [Option.isSome_map]
        exact found _ known
      · rfl
    | call name arguments =>
      refine total (by simp) ?_
      simp only [act, Option.isSome_map]
      exact found _ known
    | ret => simp [act]

theorem Safe.agree {first second : Memory} {site : Site} (safe : Safe second site)
    (agree : Agree first second) : Safe first site := by
  have room : ∀ count, second.Room count → first.Room count := by
    intro count room done bound
    rw [agree.stack]
    exact room done bound
  cases site with
  | setStack | loop => trivial
  | compiled generator command =>
    cases command with
    | arithmetic | label | goto | ifGoto => trivial
    | push | function | call => exact room _ safe
    | pop =>
      simp only [Safe, agree.topCell]
      exact safe
    | ret =>
      refine ⟨?_, ?_, ?_⟩
      · rw [agree.topCell]
        exact safe.top
      · rw [agree Cell.arguments (by decide)]
        exact safe.result
      · rw [agree Cell.locals (by decide)]
        exact safe.saved

theorem cell?_agree {symbols : String → Word} {generator : Generator} {first second : Memory}
    (agree : Agree first second) (index : Word) (segment : Segment) :
    cell? symbols generator first index segment = cell? symbols generator second index segment := by
  cases segment with
  | constant | static | pointer | temp => rfl
  | locals => rw [cell?, agree Cell.locals (by decide), cell?]
  | arguments => rw [cell?, agree Cell.arguments (by decide), cell?]
  | this => rw [cell?, agree Cell.this (by decide), cell?]
  | that => rw [cell?, agree Cell.that (by decide), cell?]

/-- A cell that a segment names and that is read is no scratch cell. The segments that do not move
have their cells elsewhere; the others are asked. -/
theorem value?_agree {symbols : String → Word} {generator : Generator} {first second : Memory}
    {segment : Segment} {index : Word} (agree : Agree first second)
    (clear : ReadsClear second (.compiled generator (.push segment index)))
    (still : base? segment = none → ∀ cell,
      cell? symbols generator second index segment = some cell → ¬ Scratch cell) :
    value? symbols generator first segment index =
      value? symbols generator second segment index := by
  have read : ∀ cell, cell? symbols generator second index segment = some cell →
      first.read cell = second.read cell := by
    intro cell found
    apply agree
    cases segment with
    | constant => cases found
    | locals | arguments | this | that =>
      cases found
      exact clear _ rfl
    | static | pointer | temp => exact still rfl cell found
  cases segment with
  | constant => rfl
  | locals | static | arguments | this | that | pointer | temp =>
    simp only [value?, cell?_agree agree]
    simp only [cell?] at read ⊢
    rw [Option.map_some, Option.map_some, read _ rfl]

/-- Memories that agree are taken to memories that agree, by the same way. -/
theorem step_agree {sites : List Site} {symbols : String → Word} {first second : Memory}
    {next : Nat} {site : Site} {result : State} (agree : Agree first second)
    (here : sites[next]? = some site) (safe : Safe second site) (clear : ReadsClear second site)
    (still : ∀ generator segment index, site = .compiled generator (.push segment index) →
      base? segment = none → ∀ cell,
        cell? symbols generator second index segment = some cell → ¬ Scratch cell)
    (taken : step sites symbols ⟨next, second⟩ = some result) :
    ∃ memory, step sites symbols ⟨next, first⟩ = some ⟨result.next, memory⟩ ∧
      Agree memory result.memory := by
  simp only [step, here, Option.bind_some] at taken ⊢
  cases site with
  | setStack =>
    cases taken
    exact ⟨_, rfl, agree.write fun _ => rfl⟩
  | loop =>
    cases taken
    exact ⟨_, rfl, agree⟩
  | compiled generator command =>
    simp only at taken ⊢
    cases command with
    | arithmetic mnemonic =>
      obtain ⟨operation, found, rfl⟩ := Option.map_eq_some_iff.mp taken
      refine ⟨operation.apply first, by simp [act, found], ?_⟩
      cases operation with
      | not | neg => exact agree.rewrite _
      | add | sub | and | or | eq | gt | lt => exact agree.combine clear _
    | push segment index =>
      obtain ⟨value, found, rfl⟩ := Option.map_eq_some_iff.mp taken
      refine ⟨first.push value, ?_, agree.push value⟩
      simp [act, value?_agree agree clear (still generator segment index rfl), found]
    | pop segment index =>
      obtain ⟨cell, found, rfl⟩ := Option.map_eq_some_iff.mp taken
      exact ⟨first.popInto cell, by simp [act, cell?_agree agree, found], agree.popInto safe cell⟩
    | label =>
      cases taken
      exact ⟨_, rfl, agree⟩
    | goto name =>
      obtain ⟨target, found, rfl⟩ := Option.map_eq_some_iff.mp taken
      exact ⟨first, by simp [act, found], agree⟩
    | ifGoto name =>
      simp only [act, agree.popped clear] at taken ⊢
      split at taken
      · rename_i nonzero
        obtain ⟨target, found, rfl⟩ := Option.map_eq_some_iff.mp taken
        rw [if_pos nonzero]
        exact ⟨first.drop, by simp [found], agree.drop⟩
      · rename_i zero
        cases taken
        rw [if_neg zero]
        exact ⟨first.drop, rfl, agree.drop⟩
    | function name locals =>
      cases taken
      exact ⟨_, rfl, agree.pushZeros _⟩
    | call name arguments =>
      obtain ⟨target, found, rfl⟩ := Option.map_eq_some_iff.mp taken
      exact ⟨first.enter (landing sites next) arguments.toNat, by simp [act, found],
        agree.enter _ _⟩
    | ret =>
      obtain ⟨target, found, rfl⟩ := Option.map_eq_some_iff.mp taken
      rw [← agree.returnAddress safe] at found
      exact ⟨first.leave, by simp [act, found], agree.leave safe⟩

end Reference
end HackStack
