import HackStack.Proofs.Compiler.Acceptance
import HackStack.Proofs.Compiler.Resolution
import Mathlib.Data.Finset.Card

/-! Statics and the stack. Nothing bounds how many statics a program uses, and each one takes the
next cell. They lie below the stack as long as there are cells left there, and it is said exactly
which of them do not. -/
namespace HackStack
open Assembly

def staticRoom : Nat := Code.stackBase - firstVariable

/-- The variables of a program are statics, or targets of jumps and calls that reach nothing. -/
theorem variableNames_codeOf {sites : List Site} (accepted : ∀ site ∈ sites, site.Accepted)
    {name : String} (member : name ∈ variableNames (codeOf sites)) :
    name ∈ statics sites ∨ ∃ site ∈ sites, site.target? = some name := by
  obtain ⟨refers, undeclared, unknown⟩ := mem_variableNames.mp member
  obtain ⟨site, inside, among⟩ := mem_references_codeOf.mp refers
  rcases Site.mem_references (accepted site inside) among with known | own | target | static
  · obtain ⟨entry, register, rfl⟩ := List.mem_map.mp known
    exact absurd (List.mem_map_of_mem (registers_predefined register)) unknown
  · refine absurd ?_ undeclared
    exact mem_labels.mpr (List.mem_flatMap.mpr ⟨site, inside, mem_labels.mp own⟩)
  · exact .inr ⟨site, inside, target⟩
  · exact .inl (List.mem_filterMap.mpr ⟨site, inside, static⟩)

theorem length_variableNames_le {sites : List Site} (accepted : ∀ site ∈ sites, site.Accepted)
    (reached : ∀ site ∈ sites, ∀ name, site.target? = some name → name ∈ labels (codeOf sites)) :
    (variableNames (codeOf sites)).length ≤ (statics sites).toFinset.card := by
  have only : variableNames (codeOf sites) ⊆ statics sites := by
    intro name member
    rcases variableNames_codeOf accepted member with static | ⟨site, inside, target⟩
    · exact static
    · exact absurd (reached site inside name target) (mem_variableNames.mp member).2.1
  rw [← List.toFinset_card_of_nodup (nodup_variableNames _)]
  refine Finset.card_le_card fun name member => ?_
  exact List.mem_toFinset.mpr (only (List.mem_toFinset.mp member))

/-- A static that no label is named like has the cell behind those of the variables that are used
before it. -/
theorem symbol_static {bootstrap : Bool} {modules : List Module} {text : String} {program : Program}
    (produced : Produces bootstrap modules text) (loaded : Program.load text = .ok program)
    {name : String} (static : name ∈ statics (listing bootstrap modules))
    (undeclared : name ∉ labels (Statement.ofSource text)) :
    name ∈ variableNames (Statement.ofSource text) ∧
      program.symbol name = .ok (program.value name) ∧
      (program.value name).toNat =
        firstVariable + (variableNames (Statement.ofSource text)).idxOf name := by
  rw [Program.load] at loaded
  rw [produced.listed.ofSource] at loaded undeclared ⊢
  have member := mem_variableNames_of_static static undeclared
  have refers : name ∈ references (codeOf (listing bootstrap modules)) :=
    (mem_variableNames.mp member).1
  exact ⟨member, symbol_of_mem_references loaded refers, value_variableName loaded member⟩

/-- Statics lie below the stack exactly as long as there is room. A static that no label is named
like is below it if and only if the variables that are used before it leave a cell there; so all of
them are if every jump and call reaches something and there are no more different statics than
cells. -/
theorem static_below_stack_iff {modules : List Module} {text : String} {program : Program}
    (produced : Produces true modules text) (loaded : Program.load text = .ok program)
    {name : String} (static : name ∈ statics (listing true modules))
    (undeclared : name ∉ labels (Statement.ofSource text)) :
    ∃ cell : Word, program.symbol name = .ok cell ∧
      cell.toNat = firstVariable + (variableNames (Statement.ofSource text)).idxOf name ∧
      (cell.toNat < Code.stackBase ↔
        (variableNames (Statement.ofSource text)).idxOf name < staticRoom) ∧
      ((∀ site ∈ listing true modules, ∀ target, site.target? = some target →
          target ∈ labels (Statement.ofSource text)) →
        (statics (listing true modules)).toFinset.card ≤ staticRoom →
        cell.toNat < Code.stackBase) := by
  obtain ⟨member, found, cell⟩ := symbol_static produced loaded static undeclared
  have room : Code.stackBase = firstVariable + staticRoom := rfl
  have below : (program.value name).toNat < Code.stackBase ↔
      (variableNames (Statement.ofSource text)).idxOf name < staticRoom := by
    rw [cell, room, Nat.add_lt_add_iff_left]
  refine ⟨program.value name, found, cell, below, fun reached few => below.mpr ?_⟩
  have place := List.idxOf_lt_length_of_mem member
  rw [produced.listed.ofSource] at reached place ⊢
  have count := length_variableNames_le produced.listed.accepted reached
  omega

/-- An entry function that pushes some statics and then pops into one more. -/
def crowded (count : Nat) : List Module :=
  [⟨"Sys", .function "Sys.init" 0 ::
    (List.range count).map (fun index => .push .static (BitVec.ofNat 16 index)) ++
    [.push .constant 0, .pop .static (BitVec.ofNat 16 count), .push .constant 7, .ret]⟩]

theorem exists_produces_crowded {count : Nat}
    (accepted : ∀ site ∈ listing true (crowded count), site.Accepted) :
    ∃ text, Produces true (crowded count) text := by
  have symbol : isSymbol "Sys" = true ∧ isSymbol "Sys.init" = true := by decide
  refine exists_produces_iff.mpr ⟨fun made member => ?_, accepted⟩
  rw [List.mem_singleton.mp member]
  refine ⟨symbol.1, fun command member => ?_⟩
  rcases List.mem_append.mp member with front | back
  · rcases List.mem_cons.mp front with rfl | pushes
    · exact symbol.2
    · obtain ⟨index, -, rfl⟩ := List.mem_map.mp pushes
      trivial
  · simp only [List.mem_cons, List.not_mem_nil, or_false] at back
    rcases back with rfl | rfl | rfl | rfl <;> trivial

/-- One static before it leaves the next one at cell 17. -/
theorem static_below_stack_second : ∃ text program,
    Produces true (crowded 1) text ∧ Program.load text = .ok program ∧
      "Sys.1" ∈ statics (listing true (crowded 1)) ∧
      "Sys.1" ∉ labels (Statement.ofSource text) ∧
      ∃ cell : Word, program.symbol "Sys.1" = .ok cell ∧ cell.toNat = 17 ∧
        cell.toNat < Code.stackBase := by
  obtain ⟨text, produced⟩ := @exists_produces_crowded 1 (by decide +kernel)
  have statements := produced.listed.ofSource
  have fits : size (Statement.ofSource text) ≤ maxConstant := by
    rw [statements]
    decide +kernel
  have static : "Sys.1" ∈ statics (listing true (crowded 1)) := by decide +kernel
  have undeclared : "Sys.1" ∉ labels (Statement.ofSource text) := by
    rw [statements]
    decide +kernel
  obtain ⟨program, loaded⟩ := produced.listed.loads fits
  obtain ⟨cell, found, place, below, -⟩ :=
    static_below_stack_iff produced loaded static undeclared
  have second : (variableNames (Statement.ofSource text)).idxOf "Sys.1" = 1 := by
    rw [statements]
    decide +kernel
  rw [second] at place below
  exact ⟨text, program, produced, loaded, static, undeclared, cell, found, place,
    below.mpr (by decide)⟩

/-- With 240 statics before it, a static is not below the stack. -/
theorem static_reaches_stack : ∃ text program,
    Produces true (crowded 240) text ∧ Program.load text = .ok program ∧
      "Sys.240" ∈ statics (listing true (crowded 240)) ∧
      ∃ cell : Word, program.symbol "Sys.240" = .ok cell ∧ ¬ cell.toNat < Code.stackBase := by
  obtain ⟨text, produced⟩ := @exists_produces_crowded 240 (by decide +kernel)
  have statements := produced.listed.ofSource
  have declared : labels (codeOf (listing true (crowded 240))) =
      ["bootstrap$ret.0", "VM$HALT", "Sys.init", "VM$END"] := by decide +kernel
  have apart : ∀ name ∈ ["bootstrap$ret.0", "VM$HALT", "Sys.init", "VM$END"],
      name ∉ statics (listing true (crowded 240)) := by decide +kernel
  have undeclared : ∀ name ∈ statics (listing true (crowded 240)),
      name ∉ labels (codeOf (listing true (crowded 240))) :=
    fun name static label => apart name (declared ▸ label) static
  have static : "Sys.240" ∈ statics (listing true (crowded 240)) := by decide +kernel
  have fits : size (Statement.ofSource text) ≤ maxConstant := by
    rw [statements]
    decide +kernel
  obtain ⟨program, loaded⟩ := produced.listed.loads fits
  obtain ⟨-, found, place⟩ :=
    symbol_static produced loaded static (statements ▸ undeclared _ static)
  refine ⟨text, program, produced, loaded, static, _, found, ?_⟩
  let front := (listing true (crowded 240)).take 244
  let back := (listing true (crowded 240)).drop 244
  have parts : front ++ back = listing true (crowded 240) := List.take_append_drop _ _
  have pushed : statics front = (List.range 240).map fun index => "Sys." ++ index.repr := by
    decide +kernel
  have distinct : (statics front).Nodup := by
    rw [pushed]
    refine List.nodup_range.map fun first second same => ?_
    have spelled := congrArg String.toList same
    simp only [String.toList_append] at spelled
    exact repr_injective (String.toList_inj.mp (List.append_cancel_left spelled))
  have many : (statics front).length ≤
      (variableNames (codeOf front ++ codeOf back)).idxOf "Sys.240" := by
    refine length_le_idxOf_variableNames (by decide +kernel) distinct fun name member => ?_
    have among : name ∈ statics (listing true (crowded 240)) := by
      rw [← parts, statics, List.filterMap_append]
      exact List.mem_append_left _ member
    rw [← codeOf_append, parts]
    exact mem_variablesIn_of_static member (undeclared name among)
  rw [← codeOf_append, parts, ← statements, pushed, List.length_map, List.length_range] at many
  rw [place]
  simp only [firstVariable, Code.stackBase]
  omega

end HackStack
