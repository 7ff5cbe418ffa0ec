import HackStack.Proofs.Compiler.Symbols

/-! Names that are safe to choose. If no name holds a mark with which symbols are made up, and none
has the form of one of the generator's own symbols, then all symbols of a run keep apart. -/
namespace HackStack
open Assembly

/-- A name is a word with a number behind it. -/
def Counts (word name : String) : Prop := ∃ count : Nat, name = word ++ count.repr

instance (word name : String) : Decidable (Counts word name) :=
  decidable_of_iff
    (name = word ++ (Nat.ofDigitChars 10 (name.toList.drop word.length) 0).repr)
    ⟨fun same => ⟨_, same⟩, by
      rintro ⟨count, rfl⟩
      simp [← String.length_toList]⟩

/-- The names of a run are clean: modules, functions and labels hold no `$` and no `:`; no function
and no label of a scope is there twice; and neither has the form of another symbol. -/
@[mk_iff]
structure Hygienic (modules : List Module) (sites : List Site) : Prop where
  moduleMarks : ∀ module ∈ modules, ¬ Marked ['$', ':'] module.name
  functionMarks : ∀ name ∈ sites.flatMap Site.functions, ¬ Marked ['$', ':'] name
  labelMarks : ∀ label ∈ sites.flatMap Site.localLabels, ¬ Marked ['$', ':'] label.2
  functions : (sites.flatMap Site.functions).Nodup
  scopes : (sites.flatMap Site.localLabels).Nodup
  predefined : ∀ name ∈ sites.flatMap Site.functions, name ∉ predefined.map Prod.fst
  comparisons : ∀ name ∈ sites.flatMap Site.functions,
    ¬ Counts "TRUE_" name ∧ ¬ Counts "END_" name
  statics : ∀ name ∈ sites.flatMap Site.functions, ∀ module ∈ modules,
    ¬ Counts (module.name ++ ".") name
  returns : ∀ label ∈ sites.flatMap Site.localLabels, ¬ Counts "ret." label.2
  endings : ∀ label ∈ sites.flatMap Site.localLabels,
    label ≠ (.function "VM", "END") ∧ label ≠ (.function "VM", "HALT")

instance (modules : List Module) (sites : List Site) : Decidable (Hygienic modules sites) :=
  decidable_of_iff _ (hygienic_iff modules sites).symm

theorem not_marked_repr (count : Nat) : ¬ Marked ['$', ':'] count.repr := by
  rintro ⟨mark, among, digit⟩
  refine not_mem_repr ?_ count digit
  simp only [List.mem_cons, List.not_mem_nil, or_false] at among
  rcases among with rfl | rfl <;> rfl

theorem not_marked_append {first second : String} (head : ¬ Marked ['$', ':'] first)
    (tail : ¬ Marked ['$', ':'] second) : ¬ Marked ['$', ':'] (first ++ second) := by
  rintro ⟨mark, among, inside⟩
  rw [String.toList_append] at inside
  rcases List.mem_append.mp inside with before | behind
  · exact head ⟨mark, among, before⟩
  · exact tail ⟨mark, among, behind⟩

theorem labelSymbol_inj {first second : Scope × String}
    (head : ¬ Marked ['$', ':'] first.1.name) (tail : ¬ Marked ['$', ':'] first.2)
    (other : ¬ Marked ['$', ':'] second.1.name) (last : ¬ Marked ['$', ':'] second.2)
    (same : labelSymbol first = labelSymbol second) : first = second := by
  obtain ⟨scope, name⟩ := first
  obtain ⟨place, label⟩ := second
  cases place with
  | function function => exact (labelSymbol_eq_iff other last).mp same
  | module module =>
    cases scope with
    | function function => exact ((labelSymbol_eq_iff head tail).mp same.symm).symm
    | module owner =>
      have spelled : module.toList ++ ':' :: label.toList = owner.toList ++ ':' :: name.toList := by
        have texts := congrArg String.toList same.symm
        simpa [labelSymbol, Scope.resolve] using texts
      have front : ':' ∉ module.toList := fun inside => other ⟨':', by simp, inside⟩
      have back : ':' ∉ label.toList := fun inside => last ⟨':', by simp, inside⟩
      obtain ⟨before, -, behind⟩ := (List.append_cons_inj_of_notMem front back).mp spelled
      rw [String.toList_inj.mp before, String.toList_inj.mp behind]

/-- The generator is in one of some modules, and its scope has a name without marks. -/
structure Generator.Belongs (names : List String) (generator : Generator) : Prop where
  module : generator.module ∈ names
  scope : ¬ Marked ['$', ':'] generator.scope.name

namespace Generator

variable {names : List String} {generator state : Generator} {command : Command}

theorem Belongs.advance (belongs : generator.Belongs names)
    (plain : ∀ name ∈ Site.functions (.compiled generator command), ¬ Marked ['$', ':'] name) :
    (generator.advance command).Belongs names := by
  cases command with
  | function name locals => exact ⟨belongs.module, plain name List.mem_cons_self⟩
  | arithmetic mnemonic =>
    simp only [Generator.advance]
    split <;> exact ⟨belongs.module, belongs.scope⟩
  | push | pop | label | goto | ifGoto | call | ret => exact ⟨belongs.module, belongs.scope⟩

theorem sites_belong {commands : List Command} (belongs : generator.Belongs names)
    (plain : ∀ name ∈ (generator.sites commands).flatMap Site.functions, ¬ Marked ['$', ':'] name)
    (member : .compiled state command ∈ generator.sites commands) : state.Belongs names := by
  induction commands generalizing generator with
  | nil => cases member
  | cons first rest ih =>
    rw [sites, List.flatMap_cons] at plain
    rcases List.mem_cons.mp member with same | member
    · cases same
      exact belongs
    · exact ih (belongs.advance fun name inside => plain name (List.mem_append_left _ inside))
        (fun name inside => plain name (List.mem_append_right _ inside)) member

theorem moduleSites_belong {modules : List Module}
    (known : ∀ module ∈ modules, module.name ∈ names ∧ ¬ Marked ['$', ':'] module.name)
    (plain : ∀ name ∈ (generator.moduleSites modules).flatMap Site.functions,
      ¬ Marked ['$', ':'] name)
    (member : .compiled state command ∈ generator.moduleSites modules) : state.Belongs names := by
  induction modules generalizing generator with
  | nil => cases member
  | cons module rest ih =>
    rw [moduleSites, List.flatMap_append] at plain
    obtain ⟨name, clean⟩ := known module List.mem_cons_self
    have entered : (generator.enter module.name).Belongs names := ⟨name, clean⟩
    rcases List.mem_append.mp member with here | there
    · exact sites_belong entered
        (fun other inside => plain other (List.mem_append_left _ inside)) here
    · exact ih (fun other inside => known other (List.mem_cons_of_mem _ inside))
        (fun other inside => plain other (List.mem_append_right _ inside)) there

end Generator

namespace Hygienic

variable {bootstrap : Bool} {modules : List Module}

/-- Each command of a run is compiled in one of its modules, except for the call with which a
program starts by itself. -/
theorem belongs (hygienic : Hygienic modules (listing bootstrap modules))
    {generator : Generator} {command : Command}
    (member : .compiled generator command ∈ listing bootstrap modules) :
    generator.Belongs (modules.map Module.name) ∨
      generator.module = "bootstrap" ∧ ∃ name arguments, command = .call name arguments := by
  rcases List.mem_append.mp member with member | last
  · rcases List.mem_append.mp member with first | inside
    · cases bootstrap with
      | false => cases first
      | true =>
        simp only [startSites, if_true, List.mem_cons, List.not_mem_nil, or_false] at first
        rcases first with first | first | first
        · cases first
        · cases first
          exact .inr ⟨rfl, _, _, rfl⟩
        · cases first
    · refine .inl (Generator.moduleSites_belong (fun module among => ?_)
        (fun name among => ?_) inside)
      · exact ⟨List.mem_map_of_mem among, hygienic.moduleMarks module among⟩
      · refine hygienic.functionMarks name ?_
        rw [listing, List.flatMap_append, List.flatMap_append]
        exact List.mem_append_left _ (List.mem_append_right _ among)
  · cases List.mem_singleton.mp last

theorem not_marked_scope (hygienic : Hygienic modules (listing bootstrap modules))
    {label : Scope × String}
    (member : label ∈ (listing bootstrap modules).flatMap Site.localLabels) :
    ¬ Marked ['$', ':'] label.1.name := by
  obtain ⟨site, place, found⟩ := List.mem_flatMap.mp member
  unfold Site.localLabels at found
  split at found
  · rcases hygienic.belongs place with belongs | ⟨-, _, _, call⟩
    · rw [List.mem_singleton.mp found]
      exact belongs.scope
    · cases call
  · cases found

/-- A static belongs to a module of the run. -/
theorem exists_static (hygienic : Hygienic modules (listing bootstrap modules)) {name : String}
    (member : name ∈ HackStack.statics (listing bootstrap modules)) :
    ∃ module ∈ modules, Counts (module.name ++ ".") name := by
  have owner : ∀ {generator command} (index : Word),
      .compiled generator command ∈ listing bootstrap modules →
      (∀ name arguments, command ≠ .call name arguments) →
      ∃ module ∈ modules, Counts (module.name ++ ".") (generator.staticSymbol index) := by
    intro generator command index place other
    rcases hygienic.belongs place with belongs | ⟨-, name, arguments, call⟩
    · obtain ⟨module, among, same⟩ := List.mem_map.mp belongs.module
      exact ⟨module, among, index.toNat, by rw [Generator.staticSymbol, same]⟩
    · exact absurd call (other name arguments)
  obtain ⟨site, place, found⟩ := List.mem_filterMap.mp member
  unfold Site.static? at found
  split at found
  · cases found
    exact owner _ place (by simp)
  · cases found
    exact owner _ place (by simp)
  · cases found

theorem not_marked_static (hygienic : Hygienic modules (listing bootstrap modules)) {name : String}
    (member : name ∈ HackStack.statics (listing bootstrap modules)) : ¬ Marked ['$', ':'] name := by
  obtain ⟨module, among, index, rfl⟩ := hygienic.exists_static member
  have dotted := not_marked_append (hygienic.moduleMarks module among)
    (by decide : ¬ Marked ['$', ':'] ".")
  exact not_marked_append dotted (not_marked_repr index)

theorem exists_return (hygienic : Hygienic modules (listing bootstrap modules)) {name : String}
    (member : name ∈ returnSymbols (listing bootstrap modules)) :
    ∃ (module : String) (count : Nat), ¬ Marked ['$', ':'] module ∧
      name = module ++ "$" ++ ("ret." ++ count.repr) := by
  obtain ⟨generator, inside, rfl⟩ := List.mem_map.mp member
  obtain ⟨site, place, found⟩ := List.mem_flatMap.mp inside
  refine ⟨generator.module, generator.calls, ?_, ?_⟩
  · unfold Site.calls at found
    split at found
    · rw [List.mem_singleton.mp found]
      rcases hygienic.belongs place with belongs | ⟨start, -⟩
      · obtain ⟨module, among, same⟩ := List.mem_map.mp belongs.module
        rw [← same]
        exact hygienic.moduleMarks module among
      · rw [start]
        decide
    · cases found
  · apply String.toList_inj.mp
    simp [Generator.returnSymbol]

theorem function_not_mem (hygienic : Hygienic modules (listing bootstrap modules)) {name : String}
    (function : name ∈ (listing bootstrap modules).flatMap Site.functions) :
    name ∉ labelSymbols (listing bootstrap modules) ∧
      name ∉ ownSymbols (listing bootstrap modules) := by
  have plain := hygienic.functionMarks name function
  refine ⟨fun label => plain (marked_labelSymbols label), fun own => ?_⟩
  rcases List.mem_append.mp own with behind | own
  · exact plain ((marked_returnSymbols behind).1.mono (by simp))
  · rcases List.mem_append.mp own with branch | ending
    · obtain ⟨count, -, form⟩ := List.mem_flatMap.mp branch
      obtain ⟨yes, done⟩ := hygienic.comparisons name function
      simp only [comparisonSymbols, List.mem_cons, List.not_mem_nil, or_false] at form
      rcases form with form | form
      · exact yes ⟨count, form⟩
      · exact done ⟨count, form⟩
    · exact plain ((marked_endings ending).1.mono (by simp))

/-- Clean names keep apart from each other and from all symbols that are made up. -/
theorem apart (hygienic : Hygienic modules (listing bootstrap modules)) :
    Apart bootstrap (listing bootstrap modules) where
  functions := by
    intro name function taken
    obtain ⟨label, own⟩ := hygienic.function_not_mem function
    rcases List.mem_append.mp taken with known | taken
    · exact hygienic.predefined name function known
    · rcases List.mem_append.mp taken with static | made
      · obtain ⟨module, among, form⟩ := hygienic.exists_static static
        exact hygienic.statics name function module among form
      · exact (List.mem_append.mp made).elim label own
  labels := by
    intro first here second there same
    exact labelSymbol_inj (hygienic.not_marked_scope here) (hygienic.labelMarks first here)
      (hygienic.not_marked_scope there) (hygienic.labelMarks second there) same
  endLabel := fun member => (hygienic.endings _ member).1 rfl
  haltLabel := fun _ member => (hygienic.endings _ member).2 rfl
  returns := by
    intro name label behind
    obtain ⟨module, count, plain, rfl⟩ := hygienic.exists_return behind
    have clean := not_marked_append (by decide : ¬ Marked ['$', ':'] "ret.") (not_marked_repr count)
    rw [mem_labelSymbols_iff plain clean] at label
    exact hygienic.returns _ label ⟨count, rfl⟩
  statics := by
    intro name member static
    refine hygienic.not_marked_static static ?_
    rcases List.mem_append.mp member with label | behind
    · exact marked_labelSymbols label
    · exact (marked_returnSymbols behind).1.mono (by simp)

theorem disjoint (hygienic : Hygienic modules (listing bootstrap modules)) :
    (declaredSymbols (listing bootstrap modules)).Disjoint
      (Assembly.predefined.map Prod.fst ++ HackStack.statics (listing bootstrap modules)) := by
  have apart := hygienic.apart
  refine List.disjoint_append_right.mpr ⟨?_, ?_⟩
  · refine List.disjoint_append_left.mpr ⟨?_, disjoint_predefined bootstrap modules⟩
    exact fun name function => (apart.not_mem function).1
  · refine List.disjoint_append_left.mpr ⟨?_, List.disjoint_append_left.mpr ⟨?_,
      List.disjoint_append_left.mpr ⟨?_, disjoint_statics bootstrap modules⟩⟩⟩
    · exact fun name function => (apart.not_mem function).2.1
    · exact fun name label => apart.statics name (List.mem_append_left _ label)
    · exact fun name behind => apart.statics name (List.mem_append_right _ behind)

theorem unambiguous (hygienic : Hygienic modules (listing bootstrap modules)) {text : String}
    (produced : Produces bootstrap modules text) : Unambiguous text := by
  have perm := perm_declaredSymbols produced.listed.accepted
  rw [← produced.listed.ofSource] at perm
  refine ⟨perm.nodup_iff.mpr (hygienic.apart.nodup hygienic.functions hygienic.scopes), ?_⟩
  intro name declared known
  exact hygienic.disjoint (perm.mem_iff.mp declared) (List.mem_append_left _ known)

theorem undeclared (hygienic : Hygienic modules (listing bootstrap modules)) {text : String}
    (produced : Produces bootstrap modules text) :
    ∀ name ∈ HackStack.statics (listing bootstrap modules),
      name ∉ Assembly.labels (codeOf (listing bootstrap modules)) := by
  intro name static declared
  rw [(perm_declaredSymbols produced.listed.accepted).mem_iff] at declared
  exact hygienic.disjoint declared (List.mem_append_right _ static)

end Hygienic

end HackStack
