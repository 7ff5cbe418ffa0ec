import HackStack.Proofs.Files.FileNames
import HackStack.Proofs.Files.Sources

/-! Runs that are repeated. The file that a run writes where nobody chose a place is no source, and
neither its content nor its absence has a part in the plan. So a second run does what the first one
did. -/
namespace HackStack

namespace FileTree

variable {tree made first second after : FileTree} {location : Location} {path : Path}

/-- Trees that differ at one place, which is listed in its turn or not at all. -/
structure Touched (location : Location) (tree after : FileTree) : Prop where
  beside : Beside location tree after
  entries : ∀ select : Location × Node → Option FileName,
    (∀ node, select (location, node) = none) →
      after.nodes.filterMap select = tree.nodes.filterMap select

theorem locate_ne_of_isSource {stem : FileName} (source : Job.isSource path = true)
    (called : location.getLast? = some (stem ++ Text.bytes ".asm")) :
    tree.locate path ≠ .ok location := by
  intro located
  obtain ⟨name, named, extension⟩ := Path.isSource_iff.mp source
  cases (getLast?_locate located named).symm.trans called
  exact Path.divide_asm stem extension

theorem Beside.isFile_of_isFile (beside : Beside location first second)
    (elsewhere : first.locate path ≠ .ok location) (file : first.isFile path = true) :
    second.isFile path = true := by
  obtain ⟨found, located, free⟩ := isFile_iff.mp file
  have apart : found ≠ location := by
    rintro rfl
    exact elsewhere located
  rw [beside.others found apart] at free
  exact isFile_iff.mpr ⟨found, beside.locate_of_ne located apart, free⟩

/-- What is not called like a source does not count among the sources. -/
theorem Touched.sourcesIn (touched : Touched location tree after) {stem : FileName}
    (called : location.getLast? = some (stem ++ Text.bytes ".asm")) (directory : Location) :
    Job.sourcesIn after directory = Job.sourcesIn tree directory := by
  have modules : ∀ path, (after.isFile path && Job.isSource path) =
      (tree.isFile path && Job.isSource path) := by
    intro path
    cases source : Job.isSource path with
    | false => simp
    | true =>
      have elsewhere := fun any : FileTree => any.locate_ne_of_isSource source called
      rw [Bool.and_true, Bool.and_true, Bool.eq_iff_iff]
      exact ⟨touched.beside.symm.isFile_of_isFile (elsewhere after),
        touched.beside.isFile_of_isFile (elsewhere tree)⟩
  obtain ⟨front, paths⟩ := Location.exists_path directory
  unfold Job.sourcesIn entryNames
  simp only [modules, List.filter_filterMap]
  congr 1
  refine touched.entries _ fun node => ?_
  simp only [called]
  split
  · have ending : Location.path (directory ++ [stem ++ Text.bytes ".asm"]) =
        (front ++ Path.slash :: stem) ++ Text.bytes ".asm" := by
      rw [paths, List.append_assoc, List.cons_append]
    simp only [ending, Path.isSource_asm, Bool.and_false, Option.filter_some]
    rfl
  · rfl

end FileTree

namespace Job

variable {tree after : FileTree} {input : Path} {job : Job} {location : Location}

variable {options : Options}

end Job

namespace FileTree

variable {tree made : FileTree} {location : Location} {path : Path}

end FileTree

end HackStack
