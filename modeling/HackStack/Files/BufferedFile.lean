import HackStack.Compiler.Sink
import HackStack.Files.Tree

/-! A file that is written through a buffer. Until the buffer is emptied, who reads the file sees
only what was written before. -/
namespace HackStack

structure BufferedFile where
  tree : FileTree
  location : Location
  pending : ByteArray := .empty

namespace BufferedFile

def capacity : Nat := 8192

def drain : BufferedFile → BufferedFile
  | ⟨tree, location, pending⟩ => ⟨tree.append location pending, location, .empty⟩

/-- Empties the buffer before a piece that does not fit. A piece as large as the buffer goes past
it. -/
def write (chunk : String) : EStateM StorageError BufferedFile Unit := fun file =>
  let bytes := chunk.toUTF8
  let ⟨tree, location, pending⟩ :=
    if capacity - file.pending.size < bytes.size then file.drain else file
  if capacity ≤ bytes.size then .ok () ⟨tree.append location bytes, location, pending⟩
  else .ok () ⟨tree, location, pending ++ bytes⟩

def flush : EStateM StorageError BufferedFile Unit := fun file => .ok () file.drain

instance : Sink BufferedFile := ⟨write, flush⟩

end BufferedFile
end HackStack
