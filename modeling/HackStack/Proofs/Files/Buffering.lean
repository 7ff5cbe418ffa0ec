import HackStack.Proofs.Compiler.Session
import HackStack.Proofs.Files.Walks

/-! A buffered file as a sink. What is pending belongs to the bytes that it has taken, so emptying
the buffer changes none of them, and no write reaches any other file. -/
namespace HackStack

namespace FileTree

theorem append_setFile (tree : FileTree) {location : Location} (below : location ≠ [])
    (stored bytes : ByteArray) :
    (tree.setFile location stored).append location bytes =
      tree.setFile location (stored ++ bytes) := by
  have file : (tree.setFile location stored).node? location = some (.file stored) := by
    rw [node?_setFile tree location stored below, if_pos rfl]
  simp only [append, file, setFile_setFile]

theorem rewritten_setFile {tree : FileTree} {location : Location} {content : ByteArray}
    (below : location ≠ []) (file : tree.node? location = some (.file content))
    (stored : ByteArray) : Rewritten location (tree.setFile location stored) tree where
  toBeside := (beside_setFile below (by simp [file]) stored).symm
  firstFile := ⟨stored, by rw [tree.node?_setFile location stored below, if_pos rfl]⟩
  secondFile := ⟨content, file⟩

end FileTree

namespace BufferedFile

def content (file : BufferedFile) : ByteArray :=
  match file.tree.node? file.location with
  | some (.file stored) => stored ++ file.pending
  | _ => file.pending

/-- A buffered file at a place of a tree, in which this file has been given some content and nothing
else has been done. -/
def Fills (made : FileTree) (location : Location) (file : BufferedFile) : Prop :=
  ∃ stored pending, file = ⟨made.setFile location stored, location, pending⟩

variable {made : FileTree} {location : Location} {file : BufferedFile}

theorem fills_of_made {tree : FileTree} {path : Path} (new : tree.Made path made location) :
    Fills made location { tree := made, location } :=
  ⟨.empty, .empty, by rw [new.unfilled]⟩

theorem content_eq (made : FileTree) (below : location ≠ []) (stored pending : ByteArray) :
    content ⟨made.setFile location stored, location, pending⟩ = stored ++ pending := by
  simp only [content, made.node?_setFile location stored below, if_true]

theorem drain_eq (made : FileTree) (below : location ≠ []) (stored pending : ByteArray) :
    drain ⟨made.setFile location stored, location, pending⟩ =
      ⟨made.setFile location (stored ++ pending), location, .empty⟩ := by
  simp only [drain, made.append_setFile below]

/-- Emptying the buffer gives the file all bytes that it has taken. -/
theorem Fills.drain (fills : Fills made location file) (below : location ≠ []) :
    file.drain = ⟨made.setFile location file.content, location, .empty⟩ := by
  obtain ⟨stored, pending, rfl⟩ := fills
  rw [drain_eq made below, content_eq made below]

/-- What a write does first: it makes room, and for a large piece it leaves the buffer empty. -/
theorem Fills.room (fills : Fills made location file) (below : location ≠ []) (size : Nat) :
    ∃ stored pending, (if capacity - file.pending.size < size then file.drain else file) =
        ⟨made.setFile location stored, location, pending⟩ ∧
      stored ++ pending = file.content ∧ (capacity ≤ size → pending = .empty) := by
  by_cases full : capacity - file.pending.size < size
  · rw [if_pos full, fills.drain below]
    exact ⟨_, _, rfl, ByteArray.append_empty, fun _ => rfl⟩
  · -- a piece that fits and is as large as the buffer leaves no room for anything pending
    obtain ⟨stored, pending, rfl⟩ := fills
    rw [if_neg full]
    refine ⟨_, _, rfl, (content_eq made below stored pending).symm, fun large => ?_⟩
    refine ByteArray.size_eq_zero_iff.mp ?_
    simp only [capacity] at full large
    omega

/-- However a write uses the buffer, it adds its bytes to the file. -/
theorem Fills.write (fills : Fills made location file) (below : location ≠ []) (chunk : String) :
    ∃ after, BufferedFile.write chunk file = .ok () after ∧ Fills made location after ∧
      after.content = file.content ++ chunk.toUTF8 := by
  obtain ⟨stored, pending, ready, same, empty⟩ := fills.room below chunk.toUTF8.size
  unfold BufferedFile.write
  simp only [ready, ← same]
  by_cases large : capacity ≤ chunk.toUTF8.size
  · rw [if_pos large, empty large, made.append_setFile below]
    refine ⟨_, rfl, ⟨_, _, rfl⟩, ?_⟩
    simp only [content_eq made below, ByteArray.append_empty]
  · rw [if_neg large]
    refine ⟨_, rfl, ⟨_, _, rfl⟩, ?_⟩
    simp only [content_eq made below, ByteArray.append_assoc]

theorem unfailing_fills (made : FileTree) (below : location ≠ []) :
    Unfailing content (Fills made location) where
  write chunk _ fills := fills.write below chunk
  flush file fills := by
    refine ⟨file.drain, rfl, ?_⟩
    rw [fills.drain below, content_eq made below, ByteArray.append_empty]

end BufferedFile
end HackStack
