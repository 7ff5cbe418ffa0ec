import HackStack.Proofs.Reference.Stack

/-! Frames. What saving and restoring a caller's frame does to each cell, and which cells a command
of the callee leaves as they are: those below its frame. -/
namespace HackStack
namespace Memory

variable {memory : Memory} {pointer : Word}

def pushAll (memory : Memory) (values : List Word) : Memory := values.foldl push memory

theorem read_push (points : memory.read Cell.stack = pointer) (apart : pointer ≠ Cell.stack)
    (value cell : Word) :
    (memory.push value).read cell =
      if cell = Cell.stack then pointer + 1
      else if cell = pointer then value else memory.read cell := by
  subst points
  rw [push_eq apart, read_write, read_write]
  by_cases stack : cell = Cell.stack
  · rw [if_pos stack, if_pos stack, if_neg (stack ▸ apart.symm)]
  · rw [if_neg stack, if_neg stack]

/-- Pushes, as long as the stack pointer does not wrap around, put the values above all else. -/
theorem read_pushAll {values : List Word} (points : memory.read Cell.stack = pointer)
    (positive : 0 < pointer.toNat) (room : pointer.toNat + values.length < 65536) :
    ((memory.pushAll values).read Cell.stack).toNat = pointer.toNat + values.length ∧
      (∀ cell, cell ≠ Cell.stack → cell.toNat < pointer.toNat →
        (memory.pushAll values).read cell = memory.read cell) ∧
      ∀ (index : Nat) (value : Word), values[index]? = some value →
        (memory.pushAll values).read (pointer + BitVec.ofNat 16 index) = value := by
  induction values generalizing memory pointer with
  | nil => exact ⟨by rw [pushAll, List.foldl_nil, points]; rfl, fun _ _ _ => rfl, nofun⟩
  | cons first rest ih =>
    have apart : pointer ≠ Cell.stack := by
      rintro rfl
      exact absurd positive (by decide)
    rw [List.length_cons] at room
    have next : (memory.push first).read Cell.stack = pointer + 1 := by
      rw [read_push points apart, if_pos rfl]
    have above : (pointer + 1).toNat = pointer.toNat + 1 := by bv_omega
    obtain ⟨stack, low, high⟩ := ih next (by omega) (by omega)
    refine ⟨?_, ?_, ?_⟩
    · rw [List.length_cons]
      exact stack.trans (by omega)
    · intro cell other below
      refine (low cell other (by omega)).trans ?_
      rw [read_push points apart, if_neg other, if_neg]
      rintro rfl
      omega
    · intro index value found
      cases index with
      | zero =>
        cases found
        have same : pointer + BitVec.ofNat 16 0 = pointer := by bv_omega
        rw [same]
        refine (low pointer apart (by omega)).trans ?_
        rw [read_push points apart, if_neg apart, if_pos rfl]
      | succ index =>
        have shifted : pointer + BitVec.ofNat 16 (index + 1) =
            pointer + 1 + BitVec.ofNat 16 index := by
          rw [BitVec.add_assoc, Nat.add_comm, BitVec.ofNat_add]
          rfl
        rw [shifted]
        exact high index value found

theorem pushZeros_eq_pushAll (memory : Memory) (count : Nat) :
    memory.pushZeros count = memory.pushAll (List.replicate count 0) := by
  induction count with
  | zero => rfl
  | succ count ih =>
    rw [pushZeros, ih, List.replicate_succ', pushAll, pushAll, List.foldl_append]
    rfl

theorem save_pushAll {values : List Word} {cell : Word}
    (points : memory.read Cell.stack = pointer) (other : cell ≠ Cell.stack)
    (below : cell.toNat < pointer.toNat) (room : pointer.toNat + values.length < 65536) :
    (memory.pushAll values).save cell = memory.pushAll (values ++ [memory.read cell]) := by
  rw [save, (read_pushAll points (by omega) room).2.1 cell other below, pushAll, pushAll,
    List.foldl_append]
  rfl

def frameCells (memory : Memory) (landing : Word) : List Word :=
  [landing, memory.read Cell.locals, memory.read Cell.arguments, memory.read Cell.this,
   memory.read Cell.that]

theorem saveFrame_eq (points : memory.read Cell.stack = pointer) (low : 5 ≤ pointer.toNat)
    (room : pointer.toNat + 5 < 65536) (landing : Word) :
    memory.saveFrame landing = memory.pushAll (memory.frameCells landing) := by
  have save : ∀ (values : List Word) {cell : Word}, values.length < 5 → cell ≠ Cell.stack →
      cell.toNat < 5 →
      (memory.pushAll values).save cell = memory.pushAll (values ++ [memory.read cell]) :=
    fun values cell few other below => save_pushAll points other (by omega) (by omega)
  have start : memory.push landing = memory.pushAll [landing] := rfl
  rw [saveFrame, start, save _ (by simp) (by decide) (by decide),
    save _ (by simp) (by decide) (by decide), save _ (by simp) (by decide) (by decide),
    save _ (by simp) (by decide) (by decide)]
  rfl

/-- What a call has done when it jumps: the frame is saved, the bases are set, and nothing below the
frame has changed. -/
structure Entered (before after : Memory) (pointer landing : Word) (arguments : Nat) : Prop where
  stack : after.read Cell.stack = pointer + 5
  locals : after.read Cell.locals = pointer + 5
  arguments : after.read Cell.arguments = pointer - BitVec.ofNat 16 arguments
  saved : ∀ (index : Nat) (value : Word), (before.frameCells landing)[index]? = some value →
    after.read (pointer + BitVec.ofNat 16 index) = value
  below : ∀ cell, cell ∉ [Cell.stack, Cell.locals, Cell.arguments] → ¬ Scratch cell →
    cell.toNat < pointer.toNat → after.read cell = before.read cell

theorem Entered.agree {before after other : Memory} {landing : Word} {arguments : Nat}
    (entered : Entered before after pointer landing arguments) (agree : Agree other after)
    (low : 256 ≤ pointer.toNat) (room : pointer.toNat + 5 < 65536) :
    Entered before other pointer landing arguments := by
  refine ⟨agree.stack.trans entered.stack, (agree _ (by decide)).trans entered.locals,
    (agree _ (by decide)).trans entered.arguments, fun index value found => ?_,
    fun cell others clear below => (agree cell clear).trans (entered.below cell others clear below)⟩
  have bound : index < 5 := (List.getElem?_eq_some_iff.mp found).1
  refine (agree _ (not_scratch_of_le ?_)).trans (entered.saved index value found)
  bv_omega

theorem entered_enter (points : memory.read Cell.stack = pointer) (low : 5 ≤ pointer.toNat)
    (room : pointer.toNat + 5 < 65536) (landing : Word) (arguments : Nat) :
    Entered memory (memory.enter landing arguments) pointer landing arguments := by
  have whole : pointer.toNat + (memory.frameCells landing).length < 65536 := room
  obtain ⟨stack, kept, saved⟩ := read_pushAll points (by omega) whole
  rw [← saveFrame_eq points low room] at stack kept saved
  have top : (memory.saveFrame landing).read Cell.stack = pointer + 5 := by
    apply BitVec.eq_of_toNat_eq
    rw [stack]
    simp only [frameCells, List.length_cons, List.length_nil]
    bv_omega
  have high : ∀ cell : Word, pointer.toNat ≤ cell.toNat →
      cell ≠ Cell.stack ∧ cell ≠ Cell.locals ∧ cell ≠ Cell.arguments := by
    intro cell above
    refine ⟨?_, ?_, ?_⟩ <;> rintro rfl <;> exact absurd (Nat.le_trans low above) (by decide)
  refine ⟨?_, ?_, ?_, ?_, ?_⟩
  · rw [enter, read_write_of_ne _ _ (by decide), read_write_of_ne _ _ (by decide), top]
  · rw [enter, read_write_self, read_write_of_ne _ _ (by decide), top]
  · rw [enter, read_write_of_ne _ _ (by decide), read_write_self, top, Nat.add_comm,
      BitVec.ofNat_add]
    bv_omega
  · intro index value found
    have bound : index < 5 := (List.getElem?_eq_some_iff.mp found).1
    obtain ⟨-, locals, arguments⟩ := high (pointer + BitVec.ofNat 16 index) (by bv_omega)
    rw [enter, read_write_of_ne _ _ locals, read_write_of_ne _ _ arguments]
    exact saved index value found
  · intro cell others _ below
    simp only [List.mem_cons, List.not_mem_nil, or_false, not_or] at others
    rw [enter, read_write_of_ne _ _ others.2.1, read_write_of_ne _ _ others.2.2]
    exact kept cell others.1 below

/-- What a return has done when it jumps: the result is where the first argument was, the stack ends
behind it, the bases are those of the frame, and no other cell has changed. -/
structure Left (before after : Memory) (frame argument result : Word) : Prop where
  stack : after.read Cell.stack = argument + 1
  result : after.read argument = result
  that : after.read Cell.that = before.read (frame - 1)
  this : after.read Cell.this = before.read (frame - 2)
  arguments : after.read Cell.arguments = before.read (frame - 3)
  locals : after.read Cell.locals = before.read (frame - 4)
  others : ∀ cell,
    cell ∉ [Cell.stack, Cell.locals, Cell.arguments, Cell.this, Cell.that, argument] →
    after.read cell = before.read cell

theorem read_handOver {argument : Word} (arguments : memory.read Cell.arguments = argument)
    (points : memory.read Cell.stack = pointer) (low : 5 ≤ argument.toNat)
    (operand : 2 ≤ pointer.toNat) (cell : Word) :
    memory.handOver.read cell =
      if cell = Cell.stack then argument + 1
      else if cell = argument then memory.read (pointer - 1) else memory.read cell := by
  have top : memory.topCell = pointer - 1 := by rw [topCell, points]
  have apart : memory.topCell ≠ Cell.stack := by
    rw [top]
    simp only [Cell.stack]
    bv_omega
  have register : Cell.arguments ≠ argument := by
    rintro rfl
    exact absurd low (by decide)
  have base : (memory.popInto argument).read Cell.arguments = argument := by
    rw [popInto, read_write_of_ne _ _ register, drop, read_write_of_ne _ _ (by decide), arguments]
  simp only [handOver, arguments, base]
  rw [read_write]
  by_cases stack : cell = Cell.stack
  · rw [if_pos stack, if_pos stack]
  · rw [if_neg stack, if_neg stack, popInto, read_write, popped_eq apart, top, drop,
      read_write_of_ne _ _ stack]

theorem left_leave {frame argument : Word} (locals : memory.read Cell.locals = frame)
    (arguments : memory.read Cell.arguments = argument)
    (points : memory.read Cell.stack = pointer) (low : 5 ≤ argument.toNat)
    (order : argument.toNat + 5 ≤ frame.toNat) (operand : frame.toNat + 1 ≤ pointer.toNat) :
    Left memory memory.leave frame argument (memory.read (pointer - 1)) := by
  have hand := read_handOver arguments points low (by omega)
  have large : ∀ {cell register : Word}, 5 ≤ cell.toNat → register.toNat < 5 →
      cell ≠ register := by
    rintro cell register above small rfl
    omega
  have saved : ∀ {cell : Word}, argument.toNat < cell.toNat →
      memory.handOver.read cell = memory.read cell := by
    intro cell above
    rw [hand, if_neg (large (by omega) (by decide)), if_neg]
    rintro rfl
    omega
  have one : argument.toNat < (frame - 1).toNat := by bv_omega
  have two : argument.toNat < (frame - 2).toNat := by bv_omega
  have three : argument.toNat < (frame - 3).toNat := by bv_omega
  have four : argument.toNat < (frame - 4).toNat := by bv_omega
  constructor
  case stack =>
    simp only [leave, restore, locals]
    rw [read_write_of_ne _ _ (by decide), read_write_of_ne _ _ (by decide),
      read_write_of_ne _ _ (by decide), read_write_of_ne _ _ (by decide), hand, if_pos rfl]
  case result =>
    simp only [leave, restore, locals]
    rw [read_write_of_ne _ _ (large low (by decide)), read_write_of_ne _ _ (large low (by decide)),
      read_write_of_ne _ _ (large low (by decide)), read_write_of_ne _ _ (large low (by decide)),
      hand, if_neg (large low (by decide)), if_pos rfl]
  case that =>
    simp only [leave, restore, locals]
    rw [read_write_of_ne _ _ (by decide), read_write_of_ne _ _ (by decide),
      read_write_of_ne _ _ (by decide), read_write_self, saved one]
  case this =>
    simp only [leave, restore, locals]
    rw [read_write_of_ne _ _ (by decide), read_write_of_ne _ _ (by decide), read_write_self,
      read_write_of_ne _ _ (large (by omega) (by decide)), saved two]
  case arguments =>
    simp only [leave, restore, locals]
    rw [read_write_of_ne _ _ (by decide), read_write_self,
      read_write_of_ne _ _ (large (by omega) (by decide)),
      read_write_of_ne _ _ (large (by omega) (by decide)), saved three]
  case locals =>
    simp only [leave, restore, locals]
    rw [read_write_self, read_write_of_ne _ _ (large (by omega) (by decide)),
      read_write_of_ne _ _ (large (by omega) (by decide)),
      read_write_of_ne _ _ (large (by omega) (by decide)), saved four]
  case others =>
    intro cell other
    simp only [List.mem_cons, List.not_mem_nil, or_false, not_or] at other
    simp only [leave, restore, locals]
    rw [read_write_of_ne _ _ other.2.1, read_write_of_ne _ _ other.2.2.1,
      read_write_of_ne _ _ other.2.2.2.1, read_write_of_ne _ _ other.2.2.2.2.1, hand,
      if_neg other.1, if_neg other.2.2.2.2.2]

end Memory

/-- A stretch of execution inside a frame: the stack stays above the frame, and cells below it are
kept unless a pop stored to them. -/
structure Keeps (frame : Nat) (stored : List Word) (before after : Memory) : Prop where
  low : frame ≤ (after.read Cell.stack).toNat
  cells : ∀ cell, cell.toNat < frame → cell ≠ Cell.stack → ¬ Scratch cell → cell ∉ stored →
    after.read cell = before.read cell

namespace Keeps

variable {frame : Nat} {stored later : List Word} {first second third : Memory}

theorem trans (head : Keeps frame stored first second) (tail : Keeps frame later second third) :
    Keeps frame (stored ++ later) first third := by
  refine ⟨tail.low, fun cell below other clear apart => ?_⟩
  rw [List.mem_append, not_or] at apart
  exact (tail.cells cell below other clear apart.2).trans
    (head.cells cell below other clear apart.1)

theorem agree (kept : Keeps frame stored first second) (agree : Agree third second) :
    Keeps frame stored first third := by
  refine ⟨agree.stack ▸ kept.low, fun cell below other clear apart => ?_⟩
  exact (agree cell clear).trans (kept.cells cell below other clear apart)

end Keeps

section
variable {frame : Nat} {memory : Memory}

theorem keeps_drop (operand : frame + 1 ≤ (memory.read Cell.stack).toNat) :
    Keeps frame [] memory memory.drop := by
  refine ⟨?_, fun cell _ other _ _ => ?_⟩
  · rw [Memory.read_stack_drop]
    bv_omega
  · rw [Memory.drop, Memory.read_write_of_ne _ _ other]

theorem keeps_popInto {target : Word} (operand : frame + 1 ≤ (memory.read Cell.stack).toNat)
    (other : target ≠ Cell.stack) : Keeps frame [target] memory (memory.popInto target) := by
  have dropped := keeps_drop operand
  refine ⟨?_, fun cell below apart clear untouched => ?_⟩
  · rw [Memory.popInto, Memory.read_write_of_ne _ _ other.symm]
    exact dropped.low
  · rw [Memory.popInto, Memory.read_write_of_ne _ _ fun equal =>
      untouched (List.mem_singleton.mpr equal)]
    exact dropped.cells cell below apart clear List.not_mem_nil

theorem keeps_rewrite (positive : 0 < frame)
    (operand : frame + 1 ≤ (memory.read Cell.stack).toNat) (change : Word → Word) :
    Keeps frame [] memory (memory.rewrite change) := by
  have above : frame ≤ memory.topCell.toNat := by
    rw [Memory.topCell]
    bv_omega
  refine ⟨?_, fun cell below _ _ _ => ?_⟩
  · have apart : Cell.stack ≠ memory.topCell := by
      intro equal
      rw [← equal] at above
      exact absurd (Nat.lt_of_lt_of_le positive above) (by decide)
    rw [Memory.rewrite, Memory.read_write_of_ne _ _ apart]
    omega
  · have apart : cell ≠ memory.topCell := by
      rintro rfl
      omega
    rw [Memory.rewrite, Memory.read_write_of_ne _ _ apart]

theorem keeps_combine (positive : 0 < frame)
    (operands : frame + 2 ≤ (memory.read Cell.stack).toNat) (operate : Word → Word → Word) :
    Keeps frame [] memory (memory.combine operate) := by
  have dropped := @keeps_drop (frame + 1) memory operands
  have weaker : Keeps frame [] memory memory.drop :=
    ⟨by have := dropped.low; omega, fun cell below => dropped.cells cell (by omega)⟩
  exact weaker.trans (keeps_rewrite positive dropped.low _)

theorem keeps_pushAll {values : List Word} (positive : 0 < frame)
    (low : frame ≤ (memory.read Cell.stack).toNat)
    (room : (memory.read Cell.stack).toNat + values.length < 65536) :
    Keeps frame [] memory (memory.pushAll values) := by
  obtain ⟨stack, kept, -⟩ := Memory.read_pushAll rfl (by omega) room
  refine ⟨by omega, fun cell below other _ _ => ?_⟩
  exact kept cell other (by omega)

end
end HackStack
