import HackStack.Proofs.Compiler.Course
import HackStack.Proofs.Source.Printing

/-! Which programs compile. A run succeeds exactly if the names of its modules are symbols, their
commands are such as a source can give, and the generator has code for all of its places. -/
namespace HackStack
open Assembly

instance : ∀ site : Site, Decidable site.Accepted
  | .setStack | .loop _ => .isTrue trivial
  | .compiled generator command =>
    match generated : generator.code command with
    | .ok code => .isTrue ⟨code, generated⟩
    | .error _ => .isFalse fun ⟨_, accepted⟩ => by cases generated.symm.trans accepted

namespace Course

def Reaches (course : Course Unit) (generator : Generator) : Prop :=
  course.result = .ok () ∧ course.generator = generator

theorem Reaches.andThen {course : Course Unit} {next : Unit → Generator → Course Unit}
    {middle final : Generator} (first : course.Reaches middle)
    (second : (next () middle).Reaches final) : (course.andThen next).Reaches final := by
  obtain ⟨succeeds, rfl⟩ := first
  unfold Course.andThen
  rw [succeeds]
  exact second

theorem reaches_compile {contexts : List Context} {command : Command} {generator : Generator}
    (accepted : (Site.compiled generator command).Accepted) :
    (compile contexts command generator).Reaches (generator.advance command) := by
  obtain ⟨code, generated⟩ := accepted
  unfold compile
  rw [generated]
  exact ⟨rfl, rfl⟩

theorem reaches_items {name : String} {items : List Source.Item} {commands : List Command}
    (read : List.Forall₂ (fun item command => item.outcome = .ok command) items commands)
    {generator : Generator} (accepted : ∀ site ∈ generator.sites commands, site.Accepted) :
    (each (item name) items generator).Reaches (generator.after commands) := by
  induction read generalizing generator with
  | nil => exact ⟨rfl, rfl⟩
  | @cons entry command items commands outcome _ ih =>
    have first : (item name entry generator).Reaches (generator.advance command) := by
      unfold item
      rw [outcome]
      exact reaches_compile (accepted _ List.mem_cons_self)
    exact first.andThen (ih fun site member => accepted site (List.mem_cons_of_mem _ member))

theorem reaches_module {made : Module} {name source : String} (read : made.ReadFrom name source)
    (symbol : isSymbol made.name = true) {generator : Generator}
    (accepted : ∀ site ∈ (generator.enter made.name).sites made.commands, site.Accepted) :
    (module name source generator).Reaches
      ((generator.enter made.name).after made.commands) := by
  obtain ⟨rfl, commands⟩ := read
  have entered : (enter [.usingModule made.name] made.name generator).Reaches
      (generator.enter made.name) := by
    unfold enter Generator.enterModule
    rw [if_pos symbol]
    exact ⟨rfl, rfl⟩
  exact entered.andThen (reaches_items (forall₂_of_mapM commands) accepted)

theorem reaches_modules {sources : List (String × String)} {modules : List Module}
    (read : List.Forall₂ (fun entry made => Module.ReadFrom made entry.1 entry.2) sources modules)
    (symbols : ∀ made ∈ modules, isSymbol made.name = true) {generator : Generator}
    (accepted : ∀ site ∈ generator.moduleSites modules, site.Accepted) :
    ∃ final, (each (fun entry => module entry.1 entry.2) sources generator).Reaches final := by
  induction read generalizing generator with
  | nil => exact ⟨generator, rfl, rfl⟩
  | cons from_ _ ih =>
    have first := reaches_module from_ (symbols _ List.mem_cons_self)
      fun site member => accepted site (List.mem_append_left _ member)
    obtain ⟨final, rest⟩ := ih (fun made member => symbols made (List.mem_cons_of_mem _ member))
      fun site member => accepted site (List.mem_append_right _ member)
    exact ⟨final, first.andThen rest⟩

end Course

theorem exists_produces_of_accepted {bootstrap : Bool} {sources : List (String × String)}
    {modules : List Module}
    (read : List.Forall₂ (fun entry made => Module.ReadFrom made entry.1 entry.2) sources modules)
    (symbols : ∀ made ∈ modules, isSymbol made.name = true)
    (accepted : ∀ site ∈ listing bootstrap modules, site.Accepted) :
    ∃ text, Produces bootstrap modules text := by
  have inside : ∀ site ∈ (startState bootstrap).moduleSites modules, site.Accepted :=
    fun site member => accepted site (List.mem_append_left _ (List.mem_append_right _ member))
  let course := fun entry : String × String => Course.module entry.1 entry.2
  have compiles := @Compilation.follows_run _ _ course
    (fun entry => Compilation.follows_compileModule entry.1 entry.2) bootstrap sources
    { sink := {} } rfl
  obtain ⟨final, entries⟩ := Course.reaches_modules read symbols inside
  have closed : (Course.close final).Reaches final.close.1 := ⟨rfl, rfl⟩
  have rest : (Course.rest course sources (startState bootstrap)).Reaches final.close.1 :=
    entries.andThen closed
  have succeeds : (Course.run bootstrap course sources {}).result = .ok () := by
    cases bootstrap with
    | false => exact rest.1
    | true =>
      have started : (Course.start [] {}).Reaches (startState true) := ⟨rfl, rfl⟩
      exact (@Course.Reaches.andThen _ (fun _ => Course.rest course sources) _ _ started rest).1
  obtain ⟨log, run⟩ := compiles.taken _ (Compilation.writeAll_unlimited _ ⟨rfl, rfl⟩)
  rw [succeeds] at run
  exact exists_produces_of_run read run

/-- Exactly these programs compile: their modules are named by symbols, their commands are
printable, and all of their places are accepted. -/
theorem exists_produces_iff {bootstrap : Bool} {modules : List Module} :
    (∃ text, Produces bootstrap modules text) ↔
      (∀ made ∈ modules, isSymbol made.name = true ∧
        ∀ command ∈ made.commands, command.Printable) ∧
      ∀ site ∈ listing bootstrap modules, site.Accepted := by
  constructor
  · rintro ⟨text, produced⟩
    refine ⟨fun made member => ⟨produced.listed.names made member, ?_⟩, produced.listed.accepted⟩
    obtain ⟨name, source, -, read⟩ := produced.read made member
    exact printable_of_commands read
  · rintro ⟨clean, accepted⟩
    let sources := modules.map fun made => (made.name, Source.ofCommands made.commands)
    refine @exists_produces_of_accepted _ sources _ ?_ (fun made member => (clean made member).1)
      accepted
    refine List.forall₂_map_left_iff.mpr (List.forall₂_same.mpr fun made member => ⟨rfl, ?_⟩)
    exact commands_ofCommands (clean made member).2

end HackStack
