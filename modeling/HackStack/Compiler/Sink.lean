import HackStack.Error

/-! Sinks: where code is written, and how writing fails. -/
namespace HackStack

/-- A sink takes pieces of text. A failing operation may have taken a part of its piece. -/
class Sink (σ : Type) where
  write : String → EStateM StorageError σ Unit
  flush : EStateM StorageError σ Unit

def Sink.writeAll [Sink σ] (chunks : List String) : EStateM StorageError σ Unit :=
  chunks.forM Sink.write

/-- A sink in memory that may be limited. -/
structure MemorySink where
  /-- All bytes taken so far. -/
  content : ByteArray := .empty
  /-- The number of bytes that fit. -/
  limit : Option Nat := none
  /-- How a write fails of which nothing fits. -/
  overflow : StorageError := .diskFull
  /-- How flushing fails. -/
  flushFailure : Option StorageError := none

namespace MemorySink

/-- Takes as many bytes of a piece as fit, and fails if that is not all of them. -/
def write (chunk : String) : EStateM StorageError MemorySink Unit
  | ⟨content, limit, overflow, flushFailure⟩ =>
    let bytes := chunk.toUTF8
    match limit with
    | none => .ok () ⟨content ++ bytes, limit, overflow, flushFailure⟩
    | some size =>
      let room := size - content.size
      if bytes.size ≤ room then .ok () ⟨content ++ bytes, limit, overflow, flushFailure⟩
      else .error overflow ⟨content ++ bytes.extract 0 room, limit, overflow, flushFailure⟩

def flush : EStateM StorageError MemorySink Unit := fun sink =>
  match sink.flushFailure with
  | none => .ok () sink
  | some failure => .error failure sink

instance : Sink MemorySink := ⟨write, flush⟩

end MemorySink
end HackStack
