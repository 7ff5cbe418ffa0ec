import HackStack.Proofs.Files.Walks
import HackStack.Job

/-! What a plan says about the tree that it was made for. Every module of a job is a file there. -/
namespace HackStack
open Assembly

theorem Failure.during_eq_ok_iff {contexts : List Context} {outcome : Except StorageError α}
    {value : α} : during contexts outcome = .ok value ↔ outcome = .ok value := by
  cases outcome <;> simp [during]

theorem FileTree.isFile_iff {tree : FileTree} {path : Path} : tree.isFile path = true ↔
    ∃ location, tree.locate path = .ok location ∧ tree.node? location ≠ some .directory := by
  unfold isFile
  cases tree.locate path <;> simp

/-- A path leads to a directory whose absolute path is found, and that may be listed and searched.
-/
structure FileTree.Lists (tree : FileTree) (path : Path) (directory : Location) : Prop where
  resolved : tree.resolve path = .ok directory
  entered : tree.node? directory = some .directory
  opened : tree.openDirectory directory.path = .ok ()
  entries : tree.ask directory .entries = .ok ()
  searched : tree.ask directory .search = .ok ()

namespace Job

variable {tree : FileTree} {input : Path} {job : Job}

theorem mem_sourcesIn_iff {directory : Location} {name : FileName} :
    name ∈ sourcesIn tree directory ↔ name ∈ tree.entryNames directory ∧
      tree.isFile (Location.path (directory ++ [name])) = true ∧
      isSource (Location.path (directory ++ [name])) = true := by
  simp [sourcesIn, List.mem_mergeSort, List.mem_filter]

def ofDirectory (directory : Location) (name : String) (sources : List FileName) : Job where
  modules := sources.map fun file => Location.path (directory ++ [file])
  output := Location.path (directory ++ [Text.bytes name ++ Text.bytes ".asm"])
  bootstrap := true

theorem forDirectory_eq_ok_iff : forDirectory tree input = .ok job ↔ ∃ directory name,
    tree.resolve input = .ok directory ∧ tree.openDirectory directory.path = .ok () ∧
      tree.ask directory .entries = .ok () ∧ sourcesIn tree directory ≠ [] ∧
      directory.getLast? = some (Text.bytes name) ∧
      job = ofDirectory directory name (sourcesIn tree directory) := by
  unfold forDirectory
  constructor
  · intro made
    obtain ⟨directory, resolved, made⟩ := bind_ok made
    obtain ⟨⟨⟩, opened, made⟩ := bind_ok made
    obtain ⟨⟨⟩, listed, made⟩ := bind_ok made
    rw [Failure.during_eq_ok_iff] at resolved opened listed
    refine ⟨directory, ?_⟩
    split at made
    · cases made
    · cases made
    · rename_i name named full
      cases made
      obtain ⟨last, found, read⟩ := Option.bind_eq_some_iff.mp named
      rw [Text.ofBytes?_eq_some_iff] at read
      exact ⟨name, resolved, opened, listed, full, read ▸ found, rfl⟩
  · rintro ⟨directory, name, resolved, opened, listed, full, named, rfl⟩
    obtain ⟨first, rest, sources⟩ := List.exists_cons_of_ne_nil full
    have text : directory.getLast?.bind Text.ofBytes? = some name := by
      rw [named]
      exact Text.ofBytes?_eq_some_iff.mpr rfl
    simp only [resolved, opened, listed, Failure.during, bind, Except.bind, text, sources]
    rfl

/-- A job before the user's choices is one for a directory, or one for a source file. -/
theorem defaults_eq_ok_iff : defaults tree input = .ok job ↔
    ∃ location, tree.locate input = .ok location ∧
      (tree.node? location = some .directory ∧ forDirectory tree input = .ok job ∨
        tree.node? location ≠ some .directory ∧ isSource input = true ∧
          job = ⟨[input], Path.replaceExtension input (Text.bytes "asm"), false⟩) := by
  unfold defaults
  cases tree.locate input with
  | error error => simp
  | ok location =>
    simp only [Except.ok.injEq, exists_eq_left']
    split
    · rename_i directory
      simp [directory]
    · rename_i free
      have file : tree.node? location ≠ some .directory := free
      by_cases source : isSource input = true
      · simp [file, source, eq_comm (a := job)]
      · simp [file, source]

theorem defaults_of_lists {directory : Location} {name : String}
    (lists : tree.Lists input directory) (full : sourcesIn tree directory ≠ [])
    (known : directory.getLast? = some (Text.bytes name)) :
    defaults tree input = .ok (ofDirectory directory name (sourcesIn tree directory)) := by
  refine defaults_eq_ok_iff.mpr
    ⟨directory, FileTree.locate_of_resolve lists.resolved lists.entered, .inl ⟨lists.entered, ?_⟩⟩
  exact forDirectory_eq_ok_iff.mpr
    ⟨directory, name, lists.resolved, lists.opened, lists.entries, full, known, rfl⟩

theorem plan_of_defaults {options : Options} (made : defaults tree options.input = .ok job) :
    plan tree options = .ok { job with
      output := options.output.getD job.output
      bootstrap := options.bootstrap.getD job.bootstrap } := by
  simp only [plan, made]
  rfl

theorem plan_ok {options : Options} (planned : plan tree options = .ok job) :
    ∃ base, defaults tree options.input = .ok base ∧
      job = { base with
        output := options.output.getD base.output
        bootstrap := options.bootstrap.getD base.bootstrap } := by
  unfold plan at planned
  obtain ⟨base, made, planned⟩ := bind_ok planned
  cases planned
  exact ⟨base, made, rfl⟩

theorem isFile_of_defaults (made : defaults tree input = .ok job) :
    ∀ path ∈ job.modules, tree.isFile path = true := by
  intro path member
  obtain ⟨location, located, ⟨-, made⟩ | ⟨free, -, rfl⟩⟩ := defaults_eq_ok_iff.mp made
  · obtain ⟨directory, name, -, -, -, -, -, rfl⟩ := forDirectory_eq_ok_iff.mp made
    obtain ⟨file, listed, rfl⟩ := List.mem_map.mp member
    exact (mem_sourcesIn_iff.mp listed).2.1
  · cases List.mem_singleton.mp member
    exact FileTree.isFile_iff.mpr ⟨location, located, free⟩

theorem isFile_of_plan {options : Options} (planned : plan tree options = .ok job) :
    ∀ path ∈ job.modules, tree.isFile path = true := by
  obtain ⟨base, made, rfl⟩ := plan_ok planned
  intro path member
  exact isFile_of_defaults made path member

end Job
end HackStack
