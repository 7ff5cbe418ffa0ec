import HackStack.Text.Bytes

/-! Paths: the names between slashes, and the stem and extension of a file name. -/
namespace HackStack

/-- A path is made of bytes. Only the slash and the dot mean something in it, and it need not be
UTF-8. -/
abbrev Path := List UInt8

abbrev FileName := List UInt8

instance coeText : Coe String (List UInt8) := ⟨Text.bytes⟩

namespace Path

abbrev slash : UInt8 := 0x2F

abbrev dot : UInt8 := 0x2E

/-- The names between slashes. Empty names and single dots name nothing and are left out. -/
def names (path : Path) : List FileName :=
  (path.splitOn slash).filter fun name => name ≠ [] ∧ name ≠ [dot]

/-- The last name, unless it goes up. -/
def fileName? (path : Path) : Option FileName :=
  match (names path).getLast? with
  | some name => if name = [dot, dot] then none else some name
  | none => none

/-- A file name as stem and extension. The last dot divides them, unless it starts the name. -/
def divide (name : FileName) : FileName × Option FileName :=
  let reversed := name.reverse
  match reversed.dropWhile (· ≠ dot) with
  | [] | [_] => (name, none)
  | _ :: stem => (stem.reverse, some (reversed.takeWhile (· ≠ dot)).reverse)

def stem? (path : Path) : Option FileName := (fileName? path).map fun name => (divide name).1

def extension? (path : Path) : Option FileName :=
  (fileName? path).bind fun name => (divide name).2

/-- Puts another extension in the place of the one at the end of a path. If what stands before it
names no file, as two dots do, then no extension is put. -/
def replaceExtension (path : Path) (extension : FileName) : Path :=
  let kept := path.take (path.length - ((extension? path).getD []).length)
  if (fileName? kept).isSome then kept ++ extension else kept

end Path
end HackStack
