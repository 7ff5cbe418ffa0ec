import HackStack.Machine.Memory
import HackStack.Operation

/-! What commands do to memory, written as the order of reads and writes and nothing else. No
instruction and no scratch cell appears here. -/
namespace HackStack

/-! The cells with a meaning. -/
namespace Cell

/-- The address of the first free cell of the stack. -/
def stack : Word := 0

/-- The bases of the four segments that move. -/
def locals : Word := 1
def arguments : Word := 2
def this : Word := 3
def that : Word := 4

/-- The two scratch cells of generated code. -/
def frame : Word := 13
def landing : Word := 14

end Cell

namespace Memory

/-- Writes a value, then increments the stack pointer. -/
def push (memory : Memory) (value : Word) : Memory :=
  let stored := memory.write (memory.read Cell.stack) value
  stored.write Cell.stack (stored.read Cell.stack + 1)

def drop (memory : Memory) : Memory :=
  memory.write Cell.stack (memory.read Cell.stack - 1)

def topCell (memory : Memory) : Word := memory.read Cell.stack - 1

/-- The value that the stack pointer is on once it has been decremented. -/
def popped (memory : Memory) : Word := memory.drop.read memory.topCell

def rewrite (memory : Memory) (change : Word → Word) : Memory :=
  memory.write memory.topCell (change (memory.read memory.topCell))

def combine (memory : Memory) (operate : Word → Word → Word) : Memory :=
  memory.drop.rewrite fun under => operate under memory.popped

def popInto (memory : Memory) (target : Word) : Memory :=
  memory.drop.write target memory.popped

def pushZeros (memory : Memory) : Nat → Memory
  | 0 => memory
  | count + 1 => (memory.pushZeros count).push 0

def save (memory : Memory) (cell : Word) : Memory := memory.push (memory.read cell)

/-- Pushes the return address and the four bases. -/
def saveFrame (memory : Memory) (landing : Word) : Memory :=
  ((((memory.push landing).save Cell.locals).save Cell.arguments).save Cell.this).save Cell.that

/-- Saves the caller's frame, then puts the arguments' base below it and the arguments, and the
locals' base above it. -/
def enter (memory : Memory) (landing : Word) (arguments : Nat) : Memory :=
  let saved := memory.saveFrame landing
  let based := saved.write Cell.arguments
    (saved.read Cell.stack - BitVec.ofNat 16 (arguments + 5))
  based.write Cell.locals (based.read Cell.stack)

def returnAddress (memory : Memory) : Word := memory.read (memory.read Cell.locals - 5)

/-- Pops the result into the first argument's cell and cuts the stack behind it. -/
def handOver (memory : Memory) : Memory :=
  let stored := memory.popInto (memory.read Cell.arguments)
  stored.write Cell.stack (stored.read Cell.arguments + 1)

def restore (memory : Memory) (base cell : Word) : Memory := memory.write base (memory.read cell)

def leave (memory : Memory) : Memory :=
  let frame := memory.read Cell.locals
  ((((memory.handOver.restore Cell.that (frame - 1)).restore Cell.this (frame - 2)).restore
    Cell.arguments (frame - 3)).restore Cell.locals (frame - 4))

@[simp] theorem read_stack_drop (memory : Memory) :
    memory.drop.read Cell.stack = memory.read Cell.stack - 1 := read_write_self ..

theorem read_stack_push {memory : Memory} (free : memory.read Cell.stack ≠ Cell.stack)
    (value : Word) : (memory.push value).read Cell.stack = memory.read Cell.stack + 1 := by
  simp only [push, read_write_self]
  rw [read_write_of_ne _ _ free.symm]

/-- A push is the same in either order unless it lands on the stack pointer. -/
theorem push_eq {memory : Memory} (free : memory.read Cell.stack ≠ Cell.stack) (value : Word) :
    memory.push value =
      (memory.write Cell.stack (memory.read Cell.stack + 1)).write (memory.read Cell.stack)
        value := by
  apply ext_read
  intro cell
  simp only [push, read_write]
  by_cases pointer : cell = Cell.stack
  · simp [pointer, free.symm]
  · simp [pointer]

theorem popped_eq {memory : Memory} (apart : memory.topCell ≠ Cell.stack) :
    memory.popped = memory.read memory.topCell := read_write_of_ne _ _ apart

theorem read_combine {memory : Memory} {pointer : Word} (operate : Word → Word → Word)
    (points : memory.read Cell.stack = pointer) (room : 3 ≤ pointer.toNat) :
    (memory.combine operate).read Cell.stack = pointer - 1 ∧
      (memory.combine operate).read (pointer - 2) =
        operate (memory.read (pointer - 2)) (memory.read (pointer - 1)) := by
  have top : memory.topCell = pointer - 1 := by rw [topCell, points]
  have under : memory.drop.topCell = pointer - 2 := by
    rw [topCell, read_stack_drop, points]
    bv_omega
  have first : pointer - 1 ≠ Cell.stack := by
    simp only [Cell.stack]
    bv_omega
  have second : pointer - 2 ≠ Cell.stack := by
    simp only [Cell.stack]
    bv_omega
  have value : memory.popped = memory.read (pointer - 1) := by
    rw [popped_eq (top ▸ first), top]
  simp only [combine, rewrite, under, value]
  constructor
  · rw [read_write_of_ne _ _ second.symm, read_stack_drop, points]
  · rw [read_write_self, drop, read_write_of_ne _ _ second]

/-- Pushes, as many as that, do not land on the stack pointer. -/
def Room (memory : Memory) (count : Nat) : Prop :=
  ∀ done < count, memory.read Cell.stack + BitVec.ofNat 16 done ≠ Cell.stack

theorem room_of_fits {memory : Memory} {pointer : Word} {count : Nat}
    (points : memory.read Cell.stack = pointer) (positive : 0 < pointer.toNat)
    (fits : pointer.toNat + count ≤ 65536) : memory.Room count := by
  intro done less
  rw [points]
  simp only [Cell.stack]
  bv_omega

theorem Room.free {memory : Memory} {count : Nat} (room : memory.Room (count + 1)) :
    memory.read Cell.stack ≠ Cell.stack := by
  simpa using room 0 (Nat.succ_pos count)

theorem Room.push {memory : Memory} {count : Nat} (room : memory.Room (count + 1))
    (value : Word) : (memory.push value).Room count := by
  intro done bound
  have later := room (done + 1) (by omega)
  rw [read_stack_push room.free, BitVec.add_assoc]
  rwa [Nat.add_comm, BitVec.ofNat_add] at later

theorem Room.save {memory : Memory} {count : Nat} (room : memory.Room (count + 1)) (cell : Word) :
    (memory.save cell).Room count := room.push _

theorem read_stack_pushZeros {memory : Memory} {count : Nat} (room : memory.Room count) :
    (memory.pushZeros count).read Cell.stack = memory.read Cell.stack + BitVec.ofNat 16 count := by
  induction count with
  | zero => simp [pushZeros]
  | succ count ih =>
    have before := ih fun done bound => room done (by omega)
    have free := room count (Nat.lt_succ_self count)
    rw [← before] at free
    rw [pushZeros, read_stack_push free, before, BitVec.add_assoc, BitVec.ofNat_add]
    rfl

end Memory

def truth (condition : Bool) : Word := if condition then -1 else 0

/-- What an operation does. A comparison looks at the sign of the difference, modulo `2 ^ 16`. -/
def Operation.apply (memory : Memory) : Operation → Memory
  | .not => memory.rewrite (~~~ ·)
  | .neg => memory.rewrite (- ·)
  | .add => memory.combine (· + ·)
  | .sub => memory.combine (· - ·)
  | .and => memory.combine (· &&& ·)
  | .or => memory.combine (· ||| ·)
  | .eq => memory.combine fun under top => truth ((under - top).toInt = 0)
  | .gt => memory.combine fun under top => truth (0 < (under - top).toInt)
  | .lt => memory.combine fun under top => truth ((under - top).toInt < 0)

/-- A cell that generated code uses for its own purposes. -/
def Scratch (cell : Word) : Prop := cell = Cell.frame ∨ cell = Cell.landing

instance : DecidablePred Scratch := fun _ => inferInstanceAs (Decidable (_ ∨ _))

theorem not_scratch_of_le {cell : Word} (high : 256 ≤ cell.toNat) : ¬ Scratch cell := by
  rintro (rfl | rfl)
  · exact absurd high (by decide)
  · exact absurd high (by decide)

/-- A return neither finds its result or the caller's frame in a scratch cell nor puts the result
into one. -/
structure Memory.Returns (memory : Memory) : Prop where
  top : ¬ Scratch memory.topCell
  result : ¬ Scratch (memory.read Cell.arguments)
  saved : ∀ offset ∈ ([1, 2, 3, 4, 5] : List Word), ¬ Scratch (memory.read Cell.locals - offset)

/-- The memories are equal outside the scratch cells. -/
def Agree (first second : Memory) : Prop :=
  ∀ cell, ¬ Scratch cell → first.read cell = second.read cell

namespace Agree

variable {first second third : Memory}

theorem refl (memory : Memory) : Agree memory memory := fun _ _ => rfl

theorem trans (left : Agree first second) (right : Agree second third) : Agree first third :=
  fun cell clear => (left cell clear).trans (right cell clear)

theorem write (agree : Agree first second) {cell left right : Word}
    (same : ¬ Scratch cell → left = right) :
    Agree (first.write cell left) (second.write cell right) := by
  intro other clear
  rw [Memory.read_write, Memory.read_write]
  split
  · rename_i equal
    exact same (equal ▸ clear)
  · exact agree other clear

theorem write_scratch (agree : Agree first second) {cell : Word} (scratch : Scratch cell)
    (value : Word) : Agree (first.write cell value) second := by
  intro other clear
  have different : other ≠ cell := by
    rintro rfl
    exact clear scratch
  rw [Memory.read_write_of_ne _ _ different]
  exact agree other clear

theorem stack (agree : Agree first second) : first.read Cell.stack = second.read Cell.stack :=
  agree _ (by decide)

theorem topCell (agree : Agree first second) : first.topCell = second.topCell := by
  rw [Memory.topCell, Memory.topCell, agree.stack]

theorem push (agree : Agree first second) (value : Word) :
    Agree (first.push value) (second.push value) := by
  have stored : Agree (first.write (first.read Cell.stack) value)
      (second.write (second.read Cell.stack) value) := by
    rw [agree.stack]
    exact agree.write fun _ => rfl
  exact stored.write fun _ => by rw [stored.stack]

theorem drop (agree : Agree first second) : Agree first.drop second.drop := by
  unfold Memory.drop
  rw [agree.stack]
  exact agree.write fun _ => rfl

theorem popped (agree : Agree first second) (clear : ¬ Scratch second.topCell) :
    first.popped = second.popped := by
  unfold Memory.popped
  rw [agree.topCell]
  exact agree.drop _ clear

theorem rewrite (agree : Agree first second) (change : Word → Word) :
    Agree (first.rewrite change) (second.rewrite change) := by
  unfold Memory.rewrite
  rw [agree.topCell]
  exact agree.write fun clear => by rw [agree _ clear]

theorem combine (agree : Agree first second) (clear : ¬ Scratch second.topCell)
    (operate : Word → Word → Word) :
    Agree (first.combine operate) (second.combine operate) := by
  unfold Memory.combine
  rw [agree.popped clear]
  exact agree.drop.rewrite _

theorem popInto (agree : Agree first second) (clear : ¬ Scratch second.topCell) (target : Word) :
    Agree (first.popInto target) (second.popInto target) := by
  unfold Memory.popInto
  rw [agree.popped clear]
  exact agree.drop.write fun _ => rfl

theorem pushZeros (agree : Agree first second) (count : Nat) :
    Agree (first.pushZeros count) (second.pushZeros count) := by
  induction count with
  | zero => exact agree
  | succ count ih => exact ih.push 0

theorem save (agree : Agree first second) {cell : Word} (clear : ¬ Scratch cell) :
    Agree (first.save cell) (second.save cell) := by
  unfold Memory.save
  rw [agree cell clear]
  exact agree.push _

theorem saveFrame (agree : Agree first second) (landing : Word) :
    Agree (first.saveFrame landing) (second.saveFrame landing) :=
  ((((agree.push landing).save (by decide)).save (by decide)).save (by decide)).save (by decide)

theorem enter (agree : Agree first second) (landing : Word) (arguments : Nat) :
    Agree (first.enter landing arguments) (second.enter landing arguments) := by
  have saved := agree.saveFrame landing
  have based : Agree
      ((first.saveFrame landing).write Cell.arguments
        ((first.saveFrame landing).read Cell.stack - BitVec.ofNat 16 (arguments + 5)))
      ((second.saveFrame landing).write Cell.arguments
        ((second.saveFrame landing).read Cell.stack - BitVec.ofNat 16 (arguments + 5))) :=
    saved.write fun _ => by rw [saved.stack]
  exact based.write fun _ => by rw [based.stack]

theorem handOver (agree : Agree first second) (clear : ¬ Scratch second.topCell) :
    Agree first.handOver second.handOver := by
  have target : first.read Cell.arguments = second.read Cell.arguments := agree _ (by decide)
  have stored := agree.popInto clear (second.read Cell.arguments)
  unfold Memory.handOver
  rw [target]
  exact stored.write fun _ => by rw [stored Cell.arguments (by decide)]

theorem restore (agree : Agree first second) {cell : Word} (clear : ¬ Scratch cell)
    (base : Word) : Agree (first.restore base cell) (second.restore base cell) :=
  agree.write fun _ => agree cell clear

theorem leave (agree : Agree first second) (clear : second.Returns) :
    Agree first.leave second.leave := by
  have frame : first.read Cell.locals = second.read Cell.locals := agree _ (by decide)
  have saved := clear.saved
  unfold Memory.leave
  rw [frame]
  exact ((((agree.handOver clear.top).restore (saved 1 (by decide)) _).restore
    (saved 2 (by decide)) _).restore (saved 3 (by decide)) _).restore (saved 4 (by decide)) _

theorem returnAddress (agree : Agree first second) (clear : second.Returns) :
    first.returnAddress = second.returnAddress := by
  have frame : first.read Cell.locals = second.read Cell.locals := agree _ (by decide)
  unfold Memory.returnAddress
  rw [frame]
  exact agree _ (clear.saved 5 (by decide))

end Agree
end HackStack
