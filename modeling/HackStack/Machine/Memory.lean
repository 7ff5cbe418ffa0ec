import HackStack.Word

/-! Memory: one word at each of the 65536 addresses. -/
namespace HackStack

structure Memory where
  cells : Vector Word 65536
  deriving DecidableEq

namespace Memory

def zero : Memory := ⟨Vector.replicate 65536 0⟩

def read (memory : Memory) (address : Word) : Word := memory.cells[address.toFin]

def write (memory : Memory) (address value : Word) : Memory :=
  ⟨memory.cells.set address.toNat value address.isLt⟩

@[simp] theorem read_zero (address : Word) : zero.read address = 0 := by
  simp [zero, read]

@[simp] theorem read_write_self (memory : Memory) (address value : Word) :
    (memory.write address value).read address = value := by
  simp [read, write]

theorem read_write_of_ne (memory : Memory) {address other : Word} (value : Word)
    (different : other ≠ address) :
    (memory.write address value).read other = memory.read other := by
  have apart : address.toNat ≠ other.toNat := fun equal =>
    different (BitVec.eq_of_toNat_eq equal).symm
  simp [read, write, Vector.getElem_set_ne, apart]

theorem read_write (memory : Memory) (address value other : Word) :
    (memory.write address value).read other =
      if other = address then value else memory.read other := by
  split
  · subst other; exact read_write_self ..
  · exact read_write_of_ne memory value ‹_›

theorem ext_read {first second : Memory}
    (equal : ∀ address, first.read address = second.read address) : first = second := by
  obtain ⟨first⟩ := first
  obtain ⟨second⟩ := second
  congr
  apply Vector.ext
  intro i bound
  simpa [read] using equal (BitVec.ofNatLT i bound)

end Memory
end HackStack
