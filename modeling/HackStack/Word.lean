/-! Sixteen-bit words, the only numbers of the machine and of its commands. -/
namespace HackStack

/-- A register, a memory cell, an address or a command's index. -/
abbrev Word := BitVec 16

/-- The largest value that an address instruction can load, and the largest ROM address. -/
def maxConstant : Nat := 32767

end HackStack
