import HackStack.Proofs.Assembly.Loading
import Mathlib.Data.List.Perm.Subperm

/-! Where variables are put. A symbol that is neither declared nor predefined gets the next free
cell when it is first met, so that the variables of a program lie side by side in the order of
their first use, and no two of them share a cell. -/
namespace HackStack.Assembly

/-- The symbols that are not in a table, in the order of their first use. -/
def unknownNames (symbols : SymbolTable) (statements : List Statement) : List String :=
  ((references statements).filter fun name => symbols[name]?.isNone).eraseDups

namespace CodePass

/-- What a statement does to the symbols: nothing, unless it refers to one for the first time. -/
theorem visit_cases {pass after : CodePass} {statement : Statement}
    (visited : pass.visit statement = .ok after) :
    (after.symbols = pass.symbols ∧ after.next = pass.next ∧ Known pass.symbols statement) ∨
      ∃ name, statement = .symbol name ∧ pass.symbols[name]? = none ∧ pass.next < maxConstant ∧
        after.symbols = pass.symbols.insert name (BitVec.ofNat 16 pass.next) ∧
        after.next = pass.next + 1 := by
  have silent : ∀ {other : Statement}, other.reference? = none → Known pass.symbols other := by
    intro other none name refers
    rw [none] at refers
    cases refers
  cases statement with
  | label | unclosed | compute =>
    cases visited
    exact .inl ⟨rfl, rfl, silent rfl⟩
  | address operand =>
    cases operand with
    | number =>
      cases visited
      exact .inl ⟨rfl, rfl, silent rfl⟩
    | symbol name =>
      simp only [visit] at visited
      split at visited
      · rename_i value found
        cases visited
        refine .inl ⟨rfl, rfl, ?_⟩
        rintro _ ⟨⟩
        exact ⟨value, found⟩
      · rename_i unknown
        split at visited
        · rename_i room
          cases visited
          exact .inr ⟨name, rfl, unknown, room, rfl, rfl⟩
        · cases visited

end CodePass

theorem unknownNames_of_known {symbols : SymbolTable} {statement : Statement}
    {rest : List Statement} (known : CodePass.Known symbols statement) :
    unknownNames symbols (statement :: rest) = unknownNames symbols rest := by
  unfold unknownNames references
  cases refers : statement.reference? with
  | none => rw [List.filterMap_cons_none refers]
  | some name =>
    obtain ⟨value, found⟩ := known name refers
    rw [List.filterMap_cons_some refers, List.filter_cons_of_neg (by simp [found])]

theorem unknownNames_of_unknown {symbols : SymbolTable} {name : String} {rest : List Statement}
    (unknown : symbols[name]? = none) (value : Word) :
    unknownNames symbols (.symbol name :: rest) =
      name :: unknownNames (symbols.insert name value) rest := by
  have refers : (Statement.symbol name).reference? = some name := rfl
  unfold unknownNames references
  rw [List.filterMap_cons_some refers, List.filter_cons_of_pos (by simp [unknown]),
    List.eraseDups_cons, List.filter_filter]
  congr 3
  funext other
  rw [getElem?_insert]
  by_cases same : name = other
  · simp [same]
  · simp [same, Ne.symm same]

namespace CodePass

/-- The second pass gives the unknown symbols the free cells in the order of their first use. -/
theorem run_unknown {pass after : CodePass} {statements : List Statement}
    (run : statements.foldlM visit pass = .ok after) (room : pass.next ≤ maxConstant) :
    pass.next + (unknownNames pass.symbols statements).length ≤ maxConstant ∧
      ∀ name ∈ unknownNames pass.symbols statements, after.symbols[name]? =
        some (BitVec.ofNat 16 (pass.next + (unknownNames pass.symbols statements).idxOf name)) := by
  induction statements generalizing pass with
  | nil =>
    refine ⟨room, ?_⟩
    intro name member
    cases member
  | cons statement rest ih =>
    rw [List.foldlM_cons] at run
    obtain ⟨middle, first, last⟩ := bind_ok run
    rcases visit_cases first with ⟨symbols, next, known⟩ |
      ⟨fresh, rfl, unknown, below, symbols, next⟩
    · have later := ih last (next ▸ room)
      rwa [symbols, next, ← unknownNames_of_known known] at later
    · obtain ⟨bound, cells⟩ := ih last (by omega)
      have names := @unknownNames_of_unknown _ _ rest unknown (BitVec.ofNat 16 pass.next)
      rw [symbols, next] at bound cells
      rw [names]
      refine ⟨by rw [List.length_cons]; omega, ?_⟩
      intro name member
      by_cases same : fresh = name
      · subst same
        have here : middle.symbols[fresh]? = some (BitVec.ofNat 16 pass.next) := by
          rw [symbols, getElem?_insert, if_pos rfl]
        rw [List.idxOf_cons_self, (run_ok last).1 _ _ here]
        rfl
      · have later := (List.mem_cons.mp member).resolve_left (Ne.symm same)
        rw [List.idxOf_cons_ne _ same, cells name later, Nat.add_assoc, Nat.add_comm 1]

end CodePass

namespace LabelPass

theorem run_isSome_iff {pass after : LabelPass} {statements : List Statement} {name : String}
    (run : statements.foldlM visit pass = .ok after) :
    after.symbols[name]?.isSome = true ↔
      pass.symbols[name]?.isSome = true ∨ name ∈ labels statements := by
  induction statements generalizing pass with
  | nil =>
    cases run
    simp [labels]
  | cons statement rest ih =>
    rw [List.foldlM_cons] at run
    obtain ⟨middle, first, last⟩ := bind_ok run
    have symbols := (visit_ok first).2.2
    have declared := labels_append [statement] rest
    rw [List.singleton_append] at declared
    rw [ih last, symbols, declared, List.mem_append, ← or_assoc]
    refine or_congr_left ?_
    cases found : statement.label? with
    | none => simp [labels, found]
    | some other =>
      rw [getElem?_insert]
      by_cases same : other = name
      · simp [labels, found, same]
      · simp [labels, found, same, Ne.symm same]

theorem start_isSome_iff {name : String} :
    start.symbols[name]?.isSome = true ↔ name ∈ predefined.map Prod.fst := by
  rw [Std.TreeMap.isSome_getElem?_eq_contains, start, Std.TreeMap.contains_ofList,
    List.contains_iff_mem]

end LabelPass

/-- The symbols of a part that a whole program neither declares nor has predefined, use by use. -/
def variablesIn (whole part : List Statement) : List String :=
  (references part).filter fun name => name ∉ labels whole ++ predefined.map Prod.fst

theorem mem_variablesIn {whole part : List Statement} {name : String}
    (member : name ∈ references part) (undeclared : name ∉ labels whole)
    (unknown : name ∉ predefined.map Prod.fst) : name ∈ variablesIn whole part := by
  rw [variablesIn, List.mem_filter]
  refine ⟨member, ?_⟩
  simpa using And.intro undeclared (by simpa using unknown)

/-- The symbols that are neither declared nor predefined, in the order of their first use. -/
def variableNames (statements : List Statement) : List String :=
  ((references statements).filter fun name =>
    name ∉ labels statements ++ predefined.map Prod.fst).eraseDups

theorem nodup_eraseDups {α : Type} [DecidableEq α] (entries : List α) :
    entries.eraseDups.Nodup := by
  induction size : entries.length using Nat.strong_induction_on generalizing entries with
  | _ count ih =>
    cases entries with
    | nil => exact List.nodup_nil
    | cons entry rest =>
      rw [List.eraseDups_cons]
      refine List.nodup_cons.mpr ⟨fun member => ?_, ih _ ?_ _ rfl⟩
      · simp at member
      · rw [← size, List.length_cons]
        exact Nat.lt_succ_of_le (List.length_filter_le _ _)

theorem nodup_variableNames (statements : List Statement) : (variableNames statements).Nodup :=
  nodup_eraseDups _

theorem mem_variableNames {name : String} {statements : List Statement} :
    name ∈ variableNames statements ↔ name ∈ references statements ∧
      name ∉ labels statements ∧ name ∉ predefined.map Prod.fst := by
  rw [variableNames, List.mem_eraseDups, List.mem_filter, decide_eq_true_iff, List.mem_append,
    not_or]

theorem variablesIn_append (whole first second : List Statement) :
    variablesIn whole (first ++ second) = variablesIn whole first ++ variablesIn whole second := by
  rw [variablesIn, references_append, List.filter_append]
  rfl

theorem length_variablesIn_le (whole part : List Statement) :
    (variablesIn whole part).length ≤ size part := by
  refine Nat.le_trans (List.length_filter_le _ _) ?_
  induction part with
  | nil => exact Nat.le_refl _
  | cons statement rest ih =>
    rw [size_cons]
    cases refers : statement.reference? with
    | none =>
      rw [references, List.filterMap_cons_none refers, ← references]
      omega
    | some name =>
      have one : size [statement] = 1 := by
        cases statement with
        | address => rfl
        | label | unclosed | compute => cases refers
      rw [references, List.filterMap_cons_some refers, ← references, List.length_cons]
      omega

theorem variableNames_append (first second : List Statement) :
    variableNames (first ++ second) = (variablesIn (first ++ second) first).eraseDups ++
      ((variablesIn (first ++ second) second).removeAll
        (variablesIn (first ++ second) first)).eraseDups := by
  have parts := variablesIn_append (first ++ second) first second
  rw [variableNames, ← variablesIn, parts, List.eraseDups_append]

/-- A variable comes behind all those that the code before its first use refers to. -/
theorem length_le_idxOf_variableNames {first second : List Statement} {name : String}
    {earlier : List String} (fresh : name ∉ references first) (nodup : earlier.Nodup)
    (met : earlier ⊆ variablesIn (first ++ second) first) :
    earlier.length ≤ (variableNames (first ++ second)).idxOf name := by
  have absent : name ∉ (variablesIn (first ++ second) first).eraseDups := by
    rw [List.mem_eraseDups, variablesIn, List.mem_filter]
    exact fun member => fresh member.1
  have within : earlier ⊆ (variablesIn (first ++ second) first).eraseDups :=
    fun other member => List.mem_eraseDups.mpr (met member)
  rw [variableNames_append, List.idxOf_append, if_neg absent]
  have fits := (List.subperm_of_subset nodup within).length_le
  omega

/-- At its first use a variable comes right behind those that the code before it refers to. -/
theorem idxOf_variableNames {first second : List Statement} {name : String}
    (next : (variablesIn (first ++ second) second).head? = some name)
    (fresh : name ∉ variablesIn (first ++ second) first) :
    (variableNames (first ++ second)).idxOf name =
      (variablesIn (first ++ second) first).eraseDups.length := by
  obtain ⟨rest, later⟩ := List.head?_eq_some_iff.mp next
  have absent : name ∉ (variablesIn (first ++ second) first).eraseDups :=
    fun member => fresh (List.mem_eraseDups.mp member)
  rw [variableNames_append, later, List.idxOf_append, if_neg absent, List.cons_removeAll,
    if_pos (by simpa using fresh), List.eraseDups_cons, List.idxOf_cons_self, Nat.zero_add]

theorem idxOf_variableNames_le {first second : List Statement} {name : String}
    (next : (variablesIn (first ++ second) second).head? = some name) :
    (variableNames (first ++ second)).idxOf name ≤
      (variablesIn (first ++ second) first).length := by
  have few : (variablesIn (first ++ second) first).eraseDups.length ≤
      (variablesIn (first ++ second) first).length :=
    (List.subperm_of_subset (nodup_eraseDups _) fun _ => List.mem_eraseDups.mp).length_le
  by_cases known : name ∈ variablesIn (first ++ second) first
  · have member := List.mem_eraseDups.mpr known
    have place := List.idxOf_lt_length_of_mem member
    rw [variableNames_append, List.idxOf_append, if_pos member]
    omega
  · rw [idxOf_variableNames next known]
    exact few

/-- Variables lie side by side behind the reserved cells, in the order of their first use. -/
theorem value_variableName {statements : List Statement} {name : String} {program : Program}
    (assembled : assemble statements = .ok program) (member : name ∈ variableNames statements) :
    (program.value name).toNat = firstVariable + (variableNames statements).idxOf name := by
  unfold assemble at assembled
  obtain ⟨labelled, first, rest⟩ := bind_ok assembled
  obtain ⟨coded, second, result⟩ := bind_ok rest
  cases result
  have names : unknownNames labelled.symbols statements = variableNames statements := by
    unfold unknownNames variableNames
    congr 2
    funext other
    have known := @LabelPass.run_isSome_iff _ _ _ other first
    rw [LabelPass.start_isSome_iff, or_comm, ← List.mem_append] at known
    rw [← Option.not_isSome, Bool.eq_iff_iff, decide_eq_true_iff, ← known, Bool.not_eq_true',
      Bool.not_eq_true]
  have room : firstVariable ≤ maxConstant := by decide
  obtain ⟨bound, cells⟩ := CodePass.run_unknown second room
  rw [names] at bound cells
  have place := List.idxOf_lt_length_of_mem member
  rw [Program.value, valueIn_of_getElem? (cells name member), BitVec.toNat_ofNat]
  apply Nat.mod_eq_of_lt
  simp only [maxConstant] at bound ⊢
  omega

/-- No two variables share a cell. -/
theorem value_variableName_inj {statements : List Statement} {name other : String}
    {program : Program} (assembled : assemble statements = .ok program)
    (here : name ∈ variableNames statements) (there : other ∈ variableNames statements) :
    program.value name = program.value other ↔ name = other := by
  constructor
  · intro same
    have cells := congrArg BitVec.toNat same
    rw [value_variableName assembled here, value_variableName assembled there] at cells
    exact (List.idxOf_inj here).mp (Nat.add_left_cancel cells)
  · rintro rfl
    rfl

/-- The first variable of some code has no higher cell than the uses of variables before it need. -/
theorem value_le_of_head {first second : List Statement} {name : String} {program : Program}
    (assembled : assemble (first ++ second) = .ok program)
    (next : (variablesIn (first ++ second) second).head? = some name) :
    (program.value name).toNat ≤ firstVariable + (variablesIn (first ++ second) first).length := by
  have member : name ∈ variableNames (first ++ second) := by
    rw [variableNames, ← variablesIn, List.mem_eraseDups, variablesIn_append]
    exact List.mem_append_right _ (List.mem_of_mem_head? next)
  rw [value_variableName assembled member]
  exact Nat.add_le_add_left (idxOf_variableNames_le next) _

end HackStack.Assembly
