import HackStack.Proofs.Compiler.Session
import HackStack.Proofs.Compiler.Symbols

/-! The labels that the generator declares on its own account. A state of the generator says which
of them have been given out; whatever an action writes was not given out before it and is after it.
So they are all different in a session, whatever it does and wherever it fails. -/
namespace HackStack
open Assembly

/-- The labels of a block that no command of a program names: those of comparisons, the symbols
behind calls, and the labels of the two loops. -/
def Emission.ownLabels : Emission → List String
  | .compiled _ (.label _) | .compiled _ (.function _ _) => []
  | emission => labels emission.block.code

def ownLabels (emissions : List Emission) : List String := emissions.flatMap Emission.ownLabels

theorem ownLabels_append (first second : List Emission) :
    ownLabels (first ++ second) = ownLabels first ++ ownLabels second := List.flatMap_append

namespace Generator

/-- The symbols that have been given out before a state. -/
inductive Issued (generator : Generator) : String → Prop
  | branch {count : Nat} (earlier : count < generator.comparisons) {name : String}
      (member : name ∈ comparisonSymbols count) : Issued generator name
  | behind {caller : Generator} (earlier : caller.calls < generator.calls) :
      Issued generator caller.returnSymbol
  | halt (started : generator.started = true) : Issued generator Code.haltLabel

variable {generator : Generator}

/-- No counter is set back, and what has been started stays so. -/
structure Precedes (before after : Generator) : Prop where
  comparisons : before.comparisons ≤ after.comparisons
  calls : before.calls ≤ after.calls
  started : before.started = true → after.started = true

theorem Issued.mono {later : Generator} {name : String} (issued : generator.Issued name)
    (order : generator.Precedes later) : later.Issued name := by
  cases issued with
  | branch earlier member => exact .branch (Nat.lt_of_lt_of_le earlier order.comparisons) member
  | behind earlier => exact .behind (Nat.lt_of_lt_of_le earlier order.calls)
  | halt started => exact .halt (order.started started)

/-- The next comparison's labels are new. -/
theorem not_issued_comparison {name : String}
    (member : name ∈ comparisonSymbols generator.comparisons) : ¬ generator.Issued name := by
  intro issued
  cases issued with
  | branch earlier other =>
    exact Nat.ne_of_lt earlier (eq_of_mem_comparisonSymbols other member)
  | behind earlier =>
    exact (marked_comparisonSymbols member).2 ((marked_returnSymbol _).1.mono (by simp))
  | halt started =>
    exact (marked_loops _ (by simp)).2 ((marked_comparisonSymbols member).1.mono (by simp))

/-- The symbol behind the next call is new, whatever the modules of the other calls are called. -/
theorem not_issued_returnSymbol (generator : Generator) :
    ¬ generator.Issued generator.returnSymbol := by
  generalize same : generator.returnSymbol = name
  intro issued
  have marked := marked_returnSymbol generator
  rw [same] at marked
  cases issued with
  | branch earlier member =>
    exact (marked_comparisonSymbols member).2 (marked.1.mono (by simp))
  | behind earlier => exact Nat.ne_of_gt earlier (calls_of_returnSymbol same)
  | halt started => exact (marked_loops _ (by simp)).2 (marked.2.mono (by simp))

theorem not_issued_loop {name : String} (loop : name ∈ [Code.haltLabel, Code.endLabel])
    (waiting : name = Code.haltLabel → generator.started = false) : ¬ generator.Issued name := by
  intro issued
  cases issued with
  | branch earlier member =>
    exact (marked_loops _ loop).2 ((marked_comparisonSymbols member).1.mono (by simp))
  | behind earlier => exact (marked_loops _ loop).2 ((marked_returnSymbol _).2.mono (by simp))
  | halt started => exact absurd started (by rw [waiting rfl]; decide)

end Generator

/-- The own labels of blocks are different from each other and from those that have been given out
before a state. -/
structure New (before : Generator) (emissions : List Emission) : Prop where
  nodup : (ownLabels emissions).Nodup
  fresh : ∀ name ∈ ownLabels emissions, ¬ before.Issued name

/-- From a state to a later one, blocks are written whose own labels are new, and all of them are
given out in the later state. -/
structure Issues (before : Generator) (emissions : List Emission) (after : Generator) : Prop
    extends New before emissions where
  kept : ∀ name, before.Issued name → after.Issued name
  issued : ∀ name ∈ ownLabels emissions, after.Issued name

namespace Issues

variable {before middle after : Generator} {first second : List Emission}

theorem append_new (head : Issues before first middle) (tail : New middle second) :
    New before (first ++ second) := by
  have apart : (ownLabels first).Disjoint (ownLabels second) :=
    fun name here there => tail.fresh name there (head.issued name here)
  constructor
  · rw [ownLabels_append]
    exact List.nodup_append'.mpr ⟨head.nodup, tail.nodup, apart⟩
  · intro name member given
    rcases List.mem_append.mp (ownLabels_append first second ▸ member) with here | there
    · exact head.fresh name here given
    · exact tail.fresh name there (head.kept name given)

theorem trans (head : Issues before first middle) (tail : Issues middle second after) :
    Issues before (first ++ second) after where
  toNew := head.append_new tail.toNew
  kept name given := tail.kept name (head.kept name given)
  issued name member := by
    rcases List.mem_append.mp (ownLabels_append first second ▸ member) with here | there
    · exact tail.kept name (head.issued name here)
    · exact tail.issued name there

theorem give {names : List String} (own : ownLabels first = names) (order : before.Precedes after)
    (nodup : names.Nodup) (fresh : ∀ name ∈ names, ¬ before.Issued name)
    (issued : ∀ name ∈ names, after.Issued name) : Issues before first after := by
  subst own
  exact ⟨⟨nodup, fresh⟩, fun name given => given.mono order, issued⟩

theorem silent (none : ownLabels first = []) (order : before.Precedes after) :
    Issues before first after :=
  give none order List.nodup_nil (by simp) (by simp)

theorem start (waiting : before.started = false) :
    Issues before [.setStack, .callEntry before.setStack.1] before.setStack.1.callEntry.1 := by
  have own : ownLabels [.setStack, .callEntry before.setStack.1] =
      [before.returnSymbol, Code.haltLabel] := rfl
  have dotted := (marked_returnSymbol before).2
  refine give own ⟨Nat.le_refl _, Nat.le_succ _, fun _ => rfl⟩ ?_ ?_ ?_
  · refine List.nodup_cons.mpr ⟨fun member => ?_, List.nodup_singleton _⟩
    rw [List.mem_singleton.mp member] at dotted
    exact (marked_loops _ (by simp)).2 (dotted.mono (by simp))
  · refine List.forall_mem_cons.mpr ⟨before.not_issued_returnSymbol, ?_⟩
    exact List.forall_mem_singleton.mpr (Generator.not_issued_loop (by simp) fun _ => waiting)
  · exact List.forall_mem_cons.mpr ⟨.behind (Nat.lt_succ_self _),
      List.forall_mem_singleton.mpr (.halt rfl)⟩

theorem comparison (own : ownLabels first = comparisonSymbols before.comparisons)
    (comparisons : after.comparisons = before.comparisons + 1) (calls : after.calls = before.calls)
    (started : after.started = true) : Issues before first after :=
  give own ⟨by omega, by omega, fun _ => started⟩ (nodup_comparisonSymbols _)
    (fun _ => Generator.not_issued_comparison) fun _ => .branch (by omega)

theorem call (own : ownLabels first = [before.returnSymbol])
    (comparisons : after.comparisons = before.comparisons) (calls : after.calls = before.calls + 1)
    (started : after.started = true) : Issues before first after :=
  give own ⟨by omega, by omega, fun _ => started⟩ (List.nodup_singleton _)
    (List.forall_mem_singleton.mpr before.not_issued_returnSymbol)
    (List.forall_mem_singleton.mpr (.behind (by omega)))

end Issues

/-- An accepted command gives out what its code declares for itself. -/
theorem issues_compiled {generator : Generator} {command : Command} {code : List Statement}
    (generated : generator.code command = .ok code) :
    Issues generator [.compiled generator command] (generator.advance command) := by
  have accepted : (Site.compiled generator command).Accepted := ⟨code, generated⟩
  have declared : labels (Emission.compiled generator command).block.code =
      declaredSymbols [.compiled generator command] := Site.labels_code accepted
  cases command with
  | label | function => exact .silent rfl ⟨Nat.le_refl _, Nat.le_refl _, fun _ => rfl⟩
  | push | pop | goto | ifGoto | ret =>
    refine .silent ?_ ⟨Nat.le_refl _, Nat.le_refl _, fun _ => rfl⟩
    exact (List.flatMap_singleton _ _).trans declared
  | call name arguments =>
    refine .call ?_ rfl rfl rfl
    exact (List.flatMap_singleton _ _).trans declared
  | arithmetic mnemonic =>
    cases found : Operation.ofMnemonic? mnemonic with
    | none => simp [Generator.code, found] at generated
    | some operation =>
      have own : ownLabels [.compiled generator (.arithmetic mnemonic)] =
          (Site.comparisons (.compiled generator (.arithmetic mnemonic))).flatMap
            comparisonSymbols := by
        refine (List.flatMap_singleton _ _).trans (declared.trans ?_)
        simp [declaredSymbols, ownSymbols, labelSymbols, returnSymbols, branchSymbols,
          Site.functions, Site.localLabels, Site.calls, Site.endings]
      simp only [Site.comparisons, found] at own
      simp only [Generator.advance, found]
      cases operation with
      | eq | gt | lt => exact .comparison (own.trans (List.flatMap_singleton _ _)) rfl rfl rfl
      | _ => exact .silent own ⟨Nat.le_refl _, Nat.le_refl _, fun _ => rfl⟩

theorem carried_issues : Carried Issues where
  still generator := .silent rfl ⟨Nat.le_refl _, Nat.le_refl _, id⟩
  append := Issues.trans
  enter := by
    intro generator name entered entering
    obtain ⟨-, rfl⟩ := Generator.enterModule_ok_iff.mp entering
    exact .silent rfl ⟨Nat.le_refl _, Nat.le_refl _, id⟩
  start := Issues.start
  compile := issues_compiled

/-- A session gives out no label of its own twice, and none that has been given out before it. -/
theorem session_new (actions : List Action) (generator : Generator) :
    New generator (sessionEmissions actions generator) := by
  induction actions generalizing generator with
  | nil =>
    refine ⟨List.nodup_singleton _, fun name member => ?_⟩
    rw [List.mem_singleton.mp member]
    exact Generator.not_issued_loop (by simp) fun same => absurd same (by decide)
  | cons action rest ih => exact (carried_issues.along_action action generator).append_new (ih _)

/-- The generator's own labels are different in a whole output. Whatever is asked of a compilation
over a sink that never fails, and whatever of it is refused, the session ends with the blocks of its
courses in the sink, and all labels that these declare on the generator's own account are
different. -/
theorem own_labels_differ {σ : Type} [Sink σ] {content : σ → ByteArray} {usable : σ → Prop}
    (unfailing : Unfailing content usable) (actions : List Action) {sink : σ}
    (ready : usable sink) :
    ∃ final, Compilation.finish (Compilation.session actions { sink }) = .ok () final ∧
      content final.sink = content sink ++ (outputOf (sessionEmissions actions {})).toUTF8 ∧
      (ownLabels (sessionEmissions actions {})).Nodup := by
  obtain ⟨final, finished, stored⟩ :=
    @Unfailing.session σ _ content usable unfailing actions { sink } ready
  exact ⟨final, finished, stored, (session_new actions {}).nodup⟩

/-- A session with refusals, a module that is entered twice and one whose name looks like the symbol
behind a call. -/
def restlessSession : List Action :=
  [.bootstrap, .enterModule "M", .compile (.call "M.f" 0), .enterModule "not a name",
    .compile (.call "M.f" 65535), .enterModule "M",
    .compileAll [.arithmetic "eq", .pop .constant 0], .bootstrap,
    .compileModule "M$ret.1" "call M.f 0\nlt\ncall\ngt"]

theorem own_labels_differ_restless :
    ∃ final,
      Compilation.finish (Compilation.session restlessSession { sink := ({} : MemorySink) }) =
        .ok () final ∧
      final.sink.content =
        .empty ++ (outputOf (sessionEmissions restlessSession {})).toUTF8 ∧
      (ownLabels (sessionEmissions restlessSession {})).Nodup :=
  own_labels_differ unfailing_unlimited restlessSession ⟨rfl, rfl⟩

end HackStack
