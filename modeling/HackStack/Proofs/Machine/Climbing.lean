import HackStack.Proofs.Machine.Execution

/-! Climbs: executions in which every step moves the counter up. They take no more steps than there
are addresses between their ends, so whoever climbs arrives. Straight code climbs whatever memory
holds, and so does a jump to an address further up. -/
namespace HackStack.Machine
open Assembly

variable {code : Array Instruction} {symbols : String → Word}

/-- Steps of which each moves the counter up. -/
inductive Climbs (code : Array Instruction) : Machine → Machine → Prop
  | refl (machine : Machine) : Climbs code machine machine
  | next {before middle after : Machine} (taken : step code before = .ok middle)
      (up : before.counter < middle.counter) (rest : Climbs code middle after) :
      Climbs code before after

namespace Climbs

variable {before middle after machine : Machine}

theorem trans (first : Climbs code before middle) (second : Climbs code middle after) :
    Climbs code before after := by
  induction first with
  | refl => exact second
  | next taken up _ ih => exact .next taken up (ih second)

theorem counter_le (climbs : Climbs code before after) : before.counter ≤ after.counter := by
  induction climbs with
  | refl => exact Nat.le_refl _
  | next _ up _ ih => exact Nat.le_trans (Nat.le_of_lt up) ih

/-- A climb takes at most one step for each address on the way. -/
theorem steps (climbs : Climbs code before after) :
    ∃ count, before.counter + count ≤ after.counter ∧
      Machine.steps code count before = .ok after := by
  induction climbs with
  | refl => exact ⟨0, Nat.le_refl _, rfl⟩
  | @next before middle after taken up _ ih =>
    obtain ⟨count, bound, rest⟩ := ih
    refine ⟨count + 1, by omega, ?_⟩
    rw [Machine.steps, taken]
    exact rest

theorem straight {statements : List Statement}
    (held : Holds code symbols machine.counter statements)
    (straight : ∀ statement ∈ statements, isStraight statement = true) :
    Climbs code machine (statements.foldl (perform symbols) machine) := by
  induction statements generalizing machine with
  | nil => exact .refl machine
  | cons statement others ih =>
    have one := straight statement List.mem_cons_self
    have counter := @counter_perform symbols machine statement one
    have later : Holds code symbols (machine.perform symbols statement).counter others := by
      rw [counter]
      exact held.2
    have rest := ih later fun other member => straight other (List.mem_cons_of_mem _ member)
    by_cases taken : 0 < size [statement]
    · exact .next (step_perform held one taken) (by omega) rest
    · rw [List.foldl_cons]
      rwa [perform_silent one (by omega)] at rest ⊢

theorem jump {computation : Computation} {jump : Jump} {rest : List Statement}
    (held : Holds code symbols machine.counter (.jump computation jump :: rest))
    (aim : machine.counter < machine.a.toNat) :
    Climbs code machine (machine.transfer .none computation jump) := by
  refine .next (step_transfer held) ?_ (.refl _)
  simp only [transfer]
  split
  · exact aim
  · exact Nat.lt_succ_self _

end Climbs

/-- From one address, execution climbs to another, whatever the registers and the memory hold. -/
def Ascends (code : Array Instruction) (first last : Nat) : Prop :=
  ∀ machine : Machine, machine.counter = first →
    ∃ result, Climbs code machine result ∧ result.counter = last

theorem Ascends.trans {first middle last : Nat} (lower : Ascends code first middle)
    (upper : Ascends code middle last) : Ascends code first last := by
  intro machine start
  obtain ⟨between, climbs, reached⟩ := lower machine start
  obtain ⟨result, further, arrived⟩ := upper between reached
  exact ⟨result, climbs.trans further, arrived⟩

theorem ascends_straight {first : Nat} {statements : List Statement}
    (held : Holds code symbols first statements) (straight : statements.all isStraight = true) :
    Ascends code first (first + size statements) := by
  rintro machine rfl
  have all := List.all_eq_true.mp straight
  exact ⟨_, .straight held all, counter_foldl all⟩

/-- Straight code that loads a symbol and jumps there, or goes on. It climbs if the symbol has an
address further up. -/
theorem climbs_branch {first : Nat} {body rest : List Statement} {name : String}
    {computation : Computation} {jump : Jump} {machine : Machine}
    (held : Holds code symbols first (body ++ .symbol name :: .jump computation jump :: rest))
    (straight : body.all isStraight = true)
    (further : first + size body + 1 < (symbols name).toNat) (start : machine.counter = first) :
    ∃ result, Climbs code machine result ∧ (result.counter = (symbols name).toNat ∨
      jump ≠ .always ∧ result.counter = first + size body + 2) := by
  obtain ⟨lower, upper⟩ := holds_append.mp held
  have loading : (body ++ [Statement.symbol name]).all isStraight = true := by
    rw [List.all_append, straight]
    rfl
  have all := List.all_eq_true.mp loading
  have loaded : Holds code symbols machine.counter (body ++ [.symbol name]) := by
    rw [start]
    exact holds_append.mpr ⟨lower, upper.1, trivial⟩
  have counter := @counter_foldl symbols machine _ all
  have climbs := Climbs.straight loaded all
  have aim : ((body ++ [Statement.symbol name]).foldl (perform symbols) machine).a =
      symbols name := by
    rw [List.foldl_append]
    rfl
  generalize (body ++ [Statement.symbol name]).foldl (perform symbols) machine = middle at *
  have place : middle.counter = first + size body + 1 := by
    rw [counter, start, size_append]
    rfl
  have jumped := @Climbs.jump code symbols middle computation jump rest (place ▸ upper.2)
    (by rw [place, aim]; exact further)
  refine ⟨_, climbs.trans jumped, ?_⟩
  simp only [transfer]
  split
  · exact .inl (congrArg BitVec.toNat aim)
  · rename_i stays
    refine .inr ⟨?_, congrArg (· + 1) place⟩
    rintro rfl
    exact stays rfl

end HackStack.Machine
