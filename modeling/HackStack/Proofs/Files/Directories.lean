import HackStack.Proofs.Files.FileNames
import Mathlib.Data.List.Nodup
import Mathlib.Tactic.MkIffOfInductiveProp

/-! Jobs for directories. Their modules are the source files right inside, in the order of the bytes
of their names, in whatever order the tree lists its nodes. Different files are different modules.
Files whose absolute path is too long are left out, and a directory has to be called by a text. -/
namespace HackStack
open Assembly

@[mk_iff]
structure Path.IsName (name : FileName) : Prop where
  full : name ≠ []
  slashless : slash ∉ name
  plain : 0 ∉ name
  moves : name ≠ [dot] ∧ name ≠ [dot, dot]
  short : name.length ≤ FileTree.nameLimit

namespace Path

instance (name : FileName) : Decidable (IsName name) := decidable_of_iff _ (isName_iff name).symm

variable {name stem : FileName}

theorem IsName.fileName? (valid : IsName name) : fileName? name = some name := by
  have piece : name.splitOn slash = [] ++ [name] := List.splitOn_eq_singleton valid.slashless
  exact fileName?_eq_some_iff.mpr
    ⟨names_of_pieces piece valid.full valid.moves.1, valid.moves.2⟩

theorem IsName.extension?_path (valid : IsName name) (directory : Location) :
    extension? (Location.path (directory ++ [name])) = extension? name := by
  obtain ⟨front, paths⟩ := Location.exists_path directory
  simp only [extension?, paths, fileName?_append valid.fileName?, valid.fileName?]

theorem divide_source (full : stem ≠ []) :
    divide (stem ++ Text.bytes ".vm") = (stem, some (Text.bytes "vm")) := by
  obtain ⟨last, rest, split⟩ := List.exists_cons_of_ne_nil (List.reverse_ne_nil_iff.mpr full)
  have reversed : (stem ++ Text.bytes ".vm").reverse = 109 :: 118 :: dot :: last :: rest := by
    rw [List.reverse_append, split]
    rfl
  have whole : (last :: rest).reverse = stem := by rw [← split, List.reverse_reverse]
  have extension : Text.bytes "vm" = [118, 109] := rfl
  unfold divide
  simp only [reversed]
  simpa [dot, extension] using whole

/-- The extension of a name is that of sources if and only if the name ends with it and has more
before it. -/
theorem IsName.extension?_eq_vm_iff (valid : IsName name) :
    extension? name = some (Text.bytes "vm") ↔
      ∃ stem, stem ≠ [] ∧ name = stem ++ Text.bytes ".vm" := by
  simp only [extension?, valid.fileName?, Option.bind_some]
  constructor
  · intro extension
    obtain ⟨stem, rfl⟩ := exists_stem extension
    refine ⟨stem, ?_, rfl⟩
    rintro rfl
    revert extension
    decide
  · rintro ⟨stem, full, rfl⟩
    rw [divide_source full]

end Path

namespace FileTree

variable {tree other : FileTree} {location directory start found : Location} {name : FileName}
  {node : Node}

theorem mem_intercalate {mark : UInt8} {names : List FileName} {byte : UInt8}
    (member : byte ∈ [mark].intercalate names) : byte = mark ∨ ∃ name ∈ names, byte ∈ name := by
  induction names with
  | nil => simp [List.intercalate] at member
  | cons first rest ih =>
    cases rest with
    | nil => exact .inr ⟨first, by simp, by simpa [List.intercalate] using member⟩
    | cons second rest =>
      simp only [List.intercalate, List.intersperse_cons_cons, List.flatten_cons, List.mem_append,
        List.mem_singleton] at member ih
      rcases member with inside | same | later
      · exact .inr ⟨first, by simp, inside⟩
      · exact .inl same
      · rcases ih later with same | ⟨name, listed, inside⟩
        · exact .inl same
        · exact .inr ⟨name, List.mem_cons_of_mem _ listed, inside⟩

theorem readPath_path (named : ∀ name ∈ location, Path.IsName name)
    (short : location.path.length < pathLimit) :
    tree.readPath location.path = .ok ([], location) := by
  have plain : 0 ∉ location.path := by
    intro member
    rcases List.mem_cons.mp member with same | inside
    · revert same
      decide
    · rcases mem_intercalate inside with same | ⟨name, listed, inside⟩
      · revert same
        decide
      · exact (named name listed).plain inside
  have pieces : (location.path.splitOn Path.slash).filter (· ≠ []) = location := by
    have split : location.path.splitOn Path.slash =
        [] :: ([Path.slash].intercalate location).splitOn Path.slash := by
      change ([] ++ Path.slash :: _).splitOn Path.slash = _
      rw [List.splitOn_append_cons_self]
      rfl
    cases location with
    | nil => rfl
    | cons first rest =>
      have slashless : ∀ name ∈ first :: rest, Path.slash ∉ name :=
        fun name listed => (named name listed).slashless
      rw [split, List.splitOn_intercalate Path.slash slashless (by simp)]
      refine (List.filter_cons_of_neg (by simp)).trans ?_
      refine List.filter_eq_self.mpr fun name listed => ?_
      simpa using (named name listed).full
  have full : location.path ≠ [] := by simp [Location.path]
  simp only [readPath, if_neg plain, if_neg full, if_neg (Nat.not_le.mpr short), pieces]
  rfl

theorem enter_of_isName (valid : Path.IsName name) (entered : tree.node? location = some .directory)
    (searched : tree.ask location .search = .ok ()) :
    tree.enter location name = .ok (location ++ [name]) := by
  simp only [enter, entered, searched, bind, Except.bind, if_neg valid.moves.1,
    if_neg valid.moves.2, if_neg (Nat.not_lt.mpr valid.short)]

theorem eq_of_walk {names : List FileName} (named : ∀ name ∈ names, Path.IsName name)
    (walked : names.foldlM tree.enter start = .ok found) : found = start ++ names := by
  induction names generalizing start with
  | nil =>
    cases walked
    simp
  | cons name rest ih =>
    have valid := named name List.mem_cons_self
    obtain ⟨next, entered, walked⟩ := bind_ok walked
    have later := ih (fun other member => named other (List.mem_cons_of_mem _ member)) walked
    rw [eq_of_enter entered valid.moves.2, if_neg valid.moves.1] at later
    rw [later, List.append_assoc]
    rfl

/-- The absolute path of a place leads nowhere else. -/
theorem locate_path (named : ∀ name ∈ location, Path.IsName name)
    (located : tree.locate location.path = .ok found) :
    found = location ∧ location.path.length < pathLimit ∧
      location.foldlM tree.enter [] = .ok location := by
  obtain ⟨start, names, node, read, walked, -, -⟩ := locate_eq_ok_iff.mp located
  have short := (readPath_ok read).2.1
  rw [readPath_path named short] at read
  cases read
  obtain rfl := eq_of_walk named walked
  exact ⟨rfl, short, walked⟩

/-- A tree as a file system has it: no place is taken twice, and all names are names. -/
structure Proper (tree : FileTree) : Prop where
  once : (tree.nodes.map Prod.fst).Nodup
  named : ∀ entry ∈ tree.nodes, ∀ name ∈ entry.1, Path.IsName name

/-- What is at a place below the root is what is listed with it. -/
theorem Proper.node?_eq_some_iff (proper : tree.Proper) (below : location ≠ []) :
    tree.node? location = some node ↔ (location, node) ∈ tree.nodes := by
  rw [node?, if_neg below, List.lookup_eq_some_iff]
  constructor
  · rintro ⟨before, behind, listed, -⟩
    simp [listed]
  · intro listed
    obtain ⟨before, behind, parts⟩ := List.append_of_mem listed
    refine ⟨before, behind, parts, fun entry earlier => ?_⟩
    have once := proper.once
    rw [parts, List.map_append, List.map_cons, List.nodup_middle, List.nodup_cons] at once
    have apart : location ≠ entry.1 := by
      intro same
      exact once.1 (List.mem_append_left _ (List.mem_map.mpr ⟨entry, earlier, same.symm⟩))
    simpa using apart

theorem Proper.of_perm (proper : tree.Proper) (listing : other.nodes.Perm tree.nodes) :
    other.Proper where
  once := (listing.map Prod.fst).nodup_iff.mpr proper.once
  named entry member := proper.named entry (listing.mem_iff.mp member)

theorem Proper.node?_perm (proper : tree.Proper) (listing : other.nodes.Perm tree.nodes) :
    other.node? = tree.node? := by
  funext location
  by_cases root : location = []
  · simp [node?, root]
  · ext node
    rw [(proper.of_perm listing).node?_eq_some_iff root, proper.node?_eq_some_iff root,
      listing.mem_iff]

theorem Proper.named_of_node? (proper : tree.Proper) (present : tree.node? location = some node) :
    ∀ name ∈ location, Path.IsName name := by
  by_cases root : location = []
  · simp [root]
  · exact proper.named _ ((proper.node?_eq_some_iff root).mp present)

theorem entryName_eq_some_iff :
    (if location.dropLast = directory then location.getLast? else none) = some name ↔
      location = directory ++ [name] := by
  rw [Option.ite_none_right_eq_some]
  constructor
  · rintro ⟨rfl, last⟩
    exact (List.dropLast_append_getLast? name last).symm
  · rintro rfl
    simp

theorem mem_entryNames_iff : name ∈ tree.entryNames directory ↔
    ∃ node, (directory ++ [name], node) ∈ tree.nodes := by
  rw [entryNames, List.mem_filterMap]
  constructor
  · rintro ⟨⟨location, node⟩, listed, named⟩
    cases entryName_eq_some_iff.mp named
    exact ⟨node, listed⟩
  · rintro ⟨node, listed⟩
    exact ⟨_, listed, entryName_eq_some_iff.mpr rfl⟩

theorem Proper.nodup_entryNames (proper : tree.Proper) (directory : Location) :
    (tree.entryNames directory).Nodup := by
  refine List.Pairwise.filterMap _ ?_ (List.pairwise_map.mp proper.once)
  intro first second apart name named name' named'
  rintro rfl
  exact apart ((entryName_eq_some_iff.mp named).trans (entryName_eq_some_iff.mp named').symm)

/-- A place in a directory is a file by its absolute path if it is one and the path is not too long.
-/
theorem Lists.isFile_iff {path : Path} (lists : tree.Lists path directory)
    (named : ∀ name ∈ directory, Path.IsName name) (valid : Path.IsName name) :
    tree.isFile (Location.path (directory ++ [name])) = true ↔
      (∃ content, tree.node? (directory ++ [name]) = some (.file content)) ∧
        (Location.path (directory ++ [name])).length < pathLimit := by
  have all : ∀ other ∈ directory ++ [name], Path.IsName other := by
    intro other member
    rcases List.mem_append.mp member with above | last
    · exact named other above
    · cases List.mem_singleton.mp last
      exact valid
  rw [FileTree.isFile_iff]
  constructor
  · rintro ⟨found, located, free⟩
    obtain ⟨rfl, short, -⟩ := locate_path all located
    obtain ⟨node, present⟩ := Option.isSome_iff_exists.mp (isSome_of_locate located)
    cases node with
    | directory => exact absurd present free
    | file content => exact ⟨⟨content, present⟩, short⟩
  · rintro ⟨⟨content, file⟩, short⟩
    obtain ⟨place, found, -⟩ := bind_ok lists.opened
    obtain ⟨-, -, walked⟩ := locate_path named (locateDirectory_eq_ok_iff.mp found).1
    have reached : (directory ++ [name]).foldlM tree.enter [] = .ok (directory ++ [name]) := by
      rw [List.foldlM_append, walked]
      change (tree.enter directory name >>= pure) = _
      rw [enter_of_isName valid lists.entered lists.searched]
      rfl
    obtain ⟨front, paths⟩ := Location.exists_path directory
    have ends : asksDirectory (Location.path (directory ++ [name])) ≠ true := by
      intro asks
      rw [paths, List.append_cons, asksDirectory, decide_eq_true_eq,
        List.getLast?_append_of_ne_nil _ valid.full] at asks
      exact valid.slashless (List.mem_of_getLast? asks)
    exact ⟨_, locate_eq_ok_iff.mpr ⟨[], _, _, readPath_path all short, reached, file,
      fun asks => absurd asks ends⟩, by simp [file]⟩

/-- A name in a directory is that of a file with the extension of sources, and the absolute path of
the file is not too long. -/
def HasSource (tree : FileTree) (directory : Location) (name : FileName) : Prop :=
  Path.extension? name = some (Text.bytes "vm") ∧
    (∃ content, tree.node? (directory ++ [name]) = some (.file content)) ∧
    (Location.path (directory ++ [name])).length < pathLimit

end FileTree

namespace Job

variable {tree other : FileTree} {directory : Location} {name stem : FileName}

theorem moduleName_eq_ok_iff (valid : Path.IsName (stem ++ Text.bytes ".vm")) (full : stem ≠ [])
    {text : String} :
    moduleName (Location.path (directory ++ [stem ++ Text.bytes ".vm"])) = .ok text ↔
      stem = Text.bytes text := by
  obtain ⟨front, paths⟩ := Location.exists_path directory
  rw [← Text.ofBytes?_eq_some_iff]
  simp only [moduleName, Path.stem?, paths, Path.fileName?_append valid.fileName?, Option.map_some,
    Path.divide_source full, Option.bind_some]
  cases Text.ofBytes? stem <;> simp

variable {path : Path}

theorem mem_sourcesIn_iff_hasSource (proper : tree.Proper) (lists : tree.Lists path directory) :
    name ∈ sourcesIn tree directory ↔ tree.HasSource directory name := by
  have below : directory ++ [name] ≠ [] := by simp
  have named := proper.named_of_node? lists.entered
  rw [mem_sourcesIn_iff, FileTree.mem_entryNames_iff, FileTree.HasSource]
  constructor
  · rintro ⟨⟨node, listed⟩, file, source⟩
    have valid := proper.named _ listed name (by simp)
    rw [isSource, decide_eq_true_eq, valid.extension?_path] at source
    exact ⟨source, (lists.isFile_iff named valid).mp file⟩
  · rintro ⟨extension, ⟨content, file⟩, short⟩
    have listed := (proper.node?_eq_some_iff below).mp file
    have valid := proper.named _ listed name (by simp)
    refine ⟨⟨_, listed⟩, (lists.isFile_iff named valid).mpr ⟨⟨content, file⟩, short⟩, ?_⟩
    rw [isSource, decide_eq_true_eq, valid.extension?_path, extension]

/-- A source is called by a stem and the extension, and its module by the stem. -/
theorem moduleName_of_hasSource (proper : tree.Proper) (source : tree.HasSource directory name) :
    ∃ stem, stem ≠ [] ∧ name = stem ++ Text.bytes ".vm" ∧
      ∀ text, moduleName (Location.path (directory ++ [name])) = .ok text ↔
        stem = Text.bytes text := by
  obtain ⟨extension, ⟨content, file⟩, -⟩ := source
  have valid := proper.named_of_node? file name (by simp)
  obtain ⟨stem, full, rfl⟩ := valid.extension?_eq_vm_iff.mp extension
  exact ⟨stem, full, rfl, fun text => moduleName_eq_ok_iff valid full⟩

theorem eq_of_moduleName (proper : tree.Proper) {second : FileName} {text : String}
    (source : tree.HasSource directory name) (another : tree.HasSource directory second)
    (called : moduleName (Location.path (directory ++ [name])) = .ok text)
    (alike : moduleName (Location.path (directory ++ [second])) = .ok text) : name = second := by
  obtain ⟨stem, -, rfl, texts⟩ := moduleName_of_hasSource proper source
  obtain ⟨_, -, rfl, texts'⟩ := moduleName_of_hasSource proper another
  rw [(texts text).mp called, (texts' text).mp alike]

theorem sourcesIn_pairwise_le (tree : FileTree) (directory : Location) :
    (sourcesIn tree directory).Pairwise (· ≤ ·) := by
  have sorted : (sourcesIn tree directory).Pairwise fun first second =>
      decide (first ≤ second) = true := by
    refine List.pairwise_mergeSort (fun first second third before behind => ?_)
      (fun first second => ?_) _
    · rw [decide_eq_true_eq] at before behind ⊢
      exact List.le_trans before behind
    · simpa using List.le_total first second
  exact sorted.imp of_decide_eq_true

/-- The sources in a directory stand in the order of the bytes of their names, each once. -/
theorem sourcesIn_pairwise_lt (proper : tree.Proper) (directory : Location) :
    (sourcesIn tree directory).Pairwise (· < ·) := by
  have once : (sourcesIn tree directory).Nodup :=
    (List.mergeSort_perm ..).nodup_iff.mpr ((proper.nodup_entryNames directory).filter _)
  refine ((sourcesIn_pairwise_le tree directory).and once).imp fun ⟨order, apart⟩ => ?_
  exact Std.lt_of_le_of_ne order apart

/-- The sources in a directory do not depend on the order in which its entries are listed. -/
theorem sourcesIn_eq_of_perm (files : other.isFile = tree.isFile)
    (listing : other.nodes.Perm tree.nodes) (directory : Location) :
    sourcesIn other directory = sourcesIn tree directory := by
  have entries : (other.entryNames directory).Perm (tree.entryNames directory) :=
    listing.filterMap _
  have same : (sourcesIn other directory).Perm (sourcesIn tree directory) := by
    refine (List.mergeSort_perm ..).trans (.trans ?_ (List.mergeSort_perm ..).symm)
    rw [files]
    exact entries.filter _
  exact same.eq_of_pairwise (fun _ _ _ _ => List.le_antisymm)
    (sourcesIn_pairwise_le other directory) (sourcesIn_pairwise_le tree directory)

/-- The same tree with its nodes listed in another order has the same plans. -/
theorem plan_of_perm {options : Options} (proper : tree.Proper)
    (start : other.workingDirectory = tree.workingDirectory)
    (refusals : other.refusals = tree.refusals) (listing : other.nodes.Perm tree.nodes) :
    plan other options = plan tree options := by
  have nodes := proper.node?_perm listing
  have ask : other.ask = tree.ask := by
    funext location access
    simp only [FileTree.ask, FileTree.refusal?, refusals]
  have locate : other.locate = tree.locate := by
    refine FileTree.locate_congr start nodes ?_
    funext location access
    simp only [FileTree.refusal?, refusals]
  have files : other.isFile = tree.isFile := by
    funext path
    simp only [FileTree.isFile, locate, nodes]
  have directories : other.locateDirectory = tree.locateDirectory := by
    funext path
    simp only [FileTree.locateDirectory, locate, nodes]
  have resolve : other.resolve = tree.resolve := by
    have enter : other.enter = tree.enter := by
      funext here name
      simp only [FileTree.enter, nodes, ask]
    have step : other.resolveStep = tree.resolveStep := by
      funext here name
      simp only [FileTree.resolveStep, enter, directories]
    funext path
    simp only [FileTree.resolve, FileTree.readPath_congr start, step]
  have opened : other.openDirectory = tree.openDirectory := by
    funext path
    simp only [FileTree.openDirectory, directories, ask]
  have sources : sourcesIn other = sourcesIn tree :=
    funext fun directory => sourcesIn_eq_of_perm files listing directory
  simp only [plan, defaults, forDirectory, locate, nodes, resolve, opened, ask, sources]

/-- A directory that can be listed, that is called by a text and that has a source in it is planned.
The modules of the job are all sources of the directory and nothing else, in the order of the bytes
of their names, each once. Their names are those of modules with the extension behind them, which
are never empty, as far as they are texts; so different files make different modules. And the same
tree with its entries listed in another order has the same job. -/
theorem plan_directory (options : Options) (proper : tree.Proper)
    (lists : tree.Lists options.input directory) {called : String}
    (known : directory.getLast? = some (Text.bytes called))
    (source : ∃ name, tree.HasSource directory name) :
    ∃ (job : Job) (names : List FileName), plan tree options = .ok job ∧
      job.modules = names.map (fun name => Location.path (directory ++ [name])) ∧
      (∀ name, name ∈ names ↔ tree.HasSource directory name) ∧
      names.Pairwise (· < ·) ∧
      (∀ name ∈ names, ∃ stem, stem ≠ [] ∧ name = stem ++ Text.bytes ".vm" ∧
        ∀ text, moduleName (Location.path (directory ++ [name])) = .ok text ↔
          stem = Text.bytes text) ∧
      (∀ first ∈ job.modules, ∀ second ∈ job.modules, ∀ text, moduleName first = .ok text →
        moduleName second = .ok text → first = second) ∧
      ∀ other : FileTree, other.workingDirectory = tree.workingDirectory →
        other.refusals = tree.refusals → other.nodes.Perm tree.nodes →
        plan other options = .ok job := by
  obtain ⟨name, source⟩ := source
  have sources : ∀ name, name ∈ sourcesIn tree directory ↔ tree.HasSource directory name :=
    fun _ => mem_sourcesIn_iff_hasSource proper lists
  have full := List.ne_nil_of_mem ((sources name).mpr source)
  have planned := plan_of_defaults (defaults_of_lists lists full known)
  refine ⟨_, sourcesIn tree directory, planned, rfl, sources,
    sourcesIn_pairwise_lt proper directory, fun name member => ?_, ?_, ?_⟩
  · exact moduleName_of_hasSource proper ((sources name).mp member)
  · rintro first here second there text called alike
    obtain ⟨file, listed, rfl⟩ := List.mem_map.mp here
    obtain ⟨other, member, rfl⟩ := List.mem_map.mp there
    rw [eq_of_moduleName proper ((sources file).mp listed) ((sources other).mp member) called alike]
  · intro other start refusals listing
    rw [← planned]
    exact plan_of_perm proper start refusals listing

end Job
/-- Sources under odd names, among what is no source: a file that is only an extension, a directory
that is called like a source, and a file in it. -/
def cabinet : FileTree where
  workingDirectory := ["Prog"]
  nodes := [(["Prog"], .directory), (["Prog", "..vm"], .file .empty),
    (["Prog", ".vm"], .file .empty), (["Prog", "a.b.vm"], .file .empty),
    (["Prog", "a.vm.asm"], .file .empty), (["Prog", "sub.vm"], .directory),
    (["Prog", "sub.vm", "A.vm"], .file .empty), (["Prog", "é.vm"], .file .empty),
    (["Prog", 0xFF :: Text.bytes ".vm"], .file .empty)]

theorem Job.plan_directory_cabinet :
    Job.plan { cabinet with nodes := cabinet.nodes.reverse } { input := "." } =
      .ok ⟨["/Prog/..vm", "/Prog/a.b.vm", "/Prog/é.vm",
        Text.bytes "/Prog/" ++ 0xFF :: Text.bytes ".vm"], "/Prog/Prog.asm", true⟩ := by
  have sources : Job.sourcesIn cabinet ["Prog"] =
      (["..vm", "a.b.vm", "é.vm", 0xFF :: Text.bytes ".vm"] : List FileName) := by
    unfold Job.sourcesIn
    rw [List.mergeSort_of_pairwise]
    · decide +kernel
    · decide +kernel
  have lists : cabinet.Lists "." ["Prog"] :=
    ⟨by decide +kernel, rfl, by decide +kernel, by decide +kernel, by decide +kernel⟩
  have known : List.getLast? (["Prog"] : Location) = some (Text.bytes "Prog") := rfl
  have planned : Job.plan cabinet { input := "." } = .ok _ :=
    Job.plan_of_defaults (Job.defaults_of_lists lists (by rw [sources]; decide) known)
  obtain ⟨job, -, again, -, -, -, -, -, listing⟩ := Job.plan_directory { input := "." }
    ⟨by decide +kernel, by decide +kernel⟩ lists known
    ⟨"a.b.vm", by decide +kernel, ⟨.empty, rfl⟩, by decide +kernel⟩
  cases planned.symm.trans again
  have reversed := listing { cabinet with nodes := cabinet.nodes.reverse } rfl rfl
    (List.reverse_perm _)
  rw [sources] at reversed
  exact reversed

def attic (name : FileName) : FileTree where
  workingDirectory := []
  nodes := [([name], .directory), ([name, "A.vm"], .file .empty)]

/-- A directory whose absolute path has 4090 bytes. -/
def depth : Location := List.replicate 15 (List.replicate 255 0x61) ++ [List.replicate 249 0x61]

def cellar : FileTree where
  workingDirectory := depth
  nodes := (List.range 16).map (fun above => (depth.take (above + 1), .directory)) ++
    [(depth ++ [Text.bytes "Main.vm"], .file .empty)]

/-- A path of 4096 bytes that goes nowhere for most of its length. -/
def detour : Path := (List.replicate 2046 [Path.dot, Path.slash]).flatten ++ Text.bytes "Prog"

/-- Directories with a source in them that the plan does not have: one that is asked for by too long
a path, one whose name is no text, also if the output is asked for, one that may not be listed, and
one far down in which the path of the source is too long. A source whose stem is no text has no
module name. -/
theorem Job.plan_directory_refused :
    Job.plan (attic "Prog") { input := detour } = .error { cause := .notInput detour } ∧
    Job.plan (attic [0xFF]) { input := [0xFF], output := some "/o.asm" } =
      .error { cause := .noDirectoryName [Path.slash, 0xFF] } ∧
    Job.plan { attic "Prog" with refusals := [((["Prog"], .read), .permissionDenied)] }
        { input := "Prog" } =
      .error { contexts := [.listing "/Prog"], cause := .storage .permissionDenied } ∧
    (cellar.locate "." = .ok depth ∧ cellar.node? depth = some .directory ∧
      cellar.node? (depth ++ [Text.bytes "Main.vm"]) = some (.file .empty) ∧
      ∀ job, Job.plan cellar { input := "." } = .ok job →
        Location.path (depth ++ [Text.bytes "Main.vm"]) ∉ job.modules) ∧
    Job.moduleName (0xFF :: Text.bytes ".vm") =
      .error { cause := .noModuleName (0xFF :: Text.bytes ".vm") } := by
  have long : (attic "Prog").readPath detour = .error .nameTooLong := by decide +kernel
  refine ⟨?_, by decide +kernel, by decide +kernel, ⟨by decide +kernel, by decide +kernel,
    by decide +kernel, fun job planned member => ?_⟩, by decide +kernel⟩
  · simp only [Job.plan, Job.defaults, FileTree.locate, long]
    rfl
  · have file := Job.isFile_of_plan planned _ member
    obtain ⟨_, located, -⟩ := FileTree.isFile_iff.mp file
    obtain ⟨_, _, _, read, -, -, -⟩ := FileTree.locate_eq_ok_iff.mp located
    have short := (FileTree.readPath_ok read).2.1
    revert short
    decide +kernel

end HackStack
