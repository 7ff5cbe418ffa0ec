import HackStack.Error
import HackStack.Files.Path

/-! A tree of files and directories without links, what the system refuses to do in it, and how a
path leads into it. -/
namespace HackStack

/-- The names from the root down to a file or a directory. -/
abbrev Location := List FileName

/-- The absolute path of a location. -/
def Location.path (location : Location) : Path := Path.slash :: [Path.slash].intercalate location

inductive Node
  | directory
  | file (content : ByteArray)
  deriving Inhabited

instance : DecidableEq Node
  | .directory, .directory => .isTrue rfl
  | .directory, .file _ | .file _, .directory => .isFalse Node.noConfusion
  | .file first, .file second =>
    match ByteArray.decEq first second with
    | .isTrue same => .isTrue (congrArg Node.file same)
    | .isFalse different => .isFalse fun same => different (Node.file.inj same)

/-- What the system may refuse to do at a place. -/
inductive Access
  /-- To go on from a directory. -/
  | search
  /-- To read a file, or to open a directory for its entries. -/
  | read
  /-- To get the entries of a directory that is open. -/
  | entries
  /-- To empty a file, or to give a directory an entry or take one from it. -/
  | write
  /-- To take a file out of a directory that may be written. -/
  | remove
  deriving DecidableEq, Repr, Inhabited

/-- Everything below the root, and the directory from which relative paths start. -/
structure FileTree where
  workingDirectory : Location
  nodes : List (Location × Node)
  /-- What the system refuses, and the error that it gives. -/
  refusals : List ((Location × Access) × StorageError) := []
  deriving DecidableEq, Inhabited

namespace FileTree

/-- The root is always a directory. -/
def node? (tree : FileTree) (location : Location) : Option Node :=
  if location = [] then some .directory else tree.nodes.lookup location

def refusal? (tree : FileTree) (location : Location) (access : Access) : Option StorageError :=
  tree.refusals.lookup (location, access)

def ask (tree : FileTree) (location : Location) (access : Access) : Except StorageError Unit :=
  match tree.refusal? location access with
  | some error => .error error
  | none => .ok ()

/-- Binds a location in a list of nodes: in its place, or at the end if it has none. -/
def setNode (location : Location) (node : Node) :
    List (Location × Node) → List (Location × Node)
  | [] => [(location, node)]
  | (other, present) :: rest =>
    if other = location then (location, node) :: rest
    else (other, present) :: setNode location node rest

def setFile (tree : FileTree) (location : Location) (content : ByteArray) : FileTree :=
  { tree with nodes := setNode location (.file content) tree.nodes }

def addDirectory (tree : FileTree) (location : Location) : FileTree :=
  (List.range location.length).foldl (fun tree depth =>
    let above := location.take (depth + 1)
    if (tree.node? above).isSome then tree
    else { tree with nodes := tree.nodes ++ [(above, .directory)] }) tree

/-- What is refused of a file ends with the file. That no file may be taken from its place does
not. -/
def forget (tree : FileTree) (location : Location) : FileTree :=
  { tree with refusals := tree.refusals.filter fun entry =>
      entry.1.1 ≠ location ∨ entry.1.2 = .remove }

def without (tree : FileTree) (location : Location) : FileTree :=
  { tree.forget location with nodes := tree.nodes.filter fun entry => entry.1 ≠ location }

/-- Takes a file out of its directory. -/
def remove (tree : FileTree) (location : Location) : Except StorageError FileTree := do
  tree.ask location.dropLast .write
  tree.ask location .remove
  return tree.without location

private theorem lookup_cons_ite [BEq α] [LawfulBEq α] [DecidableEq α] (key other : α) (value : β)
    (entries : List (α × β)) :
    List.lookup other ((key, value) :: entries) =
      if other = key then some value else entries.lookup other := by
  by_cases same : other = key
  · simp [same]
  · simp [List.lookup_cons, same, beq_eq_false_iff_ne.mpr same]

theorem lookup_setNode (location other : Location) (node : Node) (nodes : List (Location × Node)) :
    (setNode location node nodes).lookup other =
      if other = location then some node else nodes.lookup other := by
  induction nodes with
  | nil => simp [setNode, lookup_cons_ite]
  | cons entry rest ih =>
    obtain ⟨here, present⟩ := entry
    by_cases same : here = location
    · grind [setNode, lookup_cons_ite]
    · grind [setNode, lookup_cons_ite]

theorem lookup_filter [BEq α] [LawfulBEq α] [DecidableEq α] (keep : α → Bool) (key : α)
    (entries : List (α × β)) :
    (entries.filter fun entry => keep entry.1).lookup key =
      if keep key then entries.lookup key else none := by
  induction entries with
  | nil => simp
  | cons entry rest ih =>
    obtain ⟨here, value⟩ := entry
    by_cases kept : keep here = true
    · grind [lookup_cons_ite]
    · grind [lookup_cons_ite]

theorem node?_setFile (tree : FileTree) {location : Location} (other : Location)
    (content : ByteArray) (below : location ≠ []) :
    (tree.setFile location content).node? other =
      if other = location then some (.file content) else tree.node? other := by
  by_cases root : other = []
  · simp [node?, root, below.symm]
  · simp [node?, root, setFile, lookup_setNode]

theorem node?_without (tree : FileTree) {location : Location} (other : Location)
    (below : location ≠ []) :
    (tree.without location).node? other = if other = location then none else tree.node? other := by
  by_cases root : other = []
  · simp [node?, root, below.symm]
  · simp only [node?, root, if_false, without]
    exact (lookup_filter (· ≠ location) other tree.nodes).trans (by simp)

theorem refusal?_forget (tree : FileTree) (location other : Location) (access : Access) :
    (tree.forget location).refusal? other access =
      if other ≠ location ∨ access = .remove then tree.refusal? other access else none := by
  refine (lookup_filter (fun key : Location × Access => key.1 ≠ location ∨ key.2 = .remove)
    (other, access) tree.refusals).trans ?_
  simp [refusal?]

def append (tree : FileTree) (location : Location) (bytes : ByteArray) : FileTree :=
  match tree.node? location with
  | some (.file content) => tree.setFile location (content ++ bytes)
  | _ => tree

/-- The names right inside a directory, in no particular order. -/
def entryNames (tree : FileTree) (directory : Location) : List FileName :=
  tree.nodes.filterMap fun (location, _) =>
    if location.dropLast = directory then location.getLast? else none

def nameLimit : Nat := 255

/-- A path has to be shorter than this number of bytes. -/
def pathLimit : Nat := 4096

/-- Takes one step from a directory, without asking whether something is there. -/
def enter (tree : FileTree) (here : Location) (name : FileName) : Except StorageError Location :=
  match tree.node? here with
  | none => .error .notFound
  | some (.file _) => .error .notDirectory
  | some .directory => do
    tree.ask here .search
    if name = [Path.dot] then .ok here
    else if name = [Path.dot, Path.dot] then .ok here.dropLast
    else if nameLimit < name.length then .error .nameTooLong
    else .ok (here ++ [name])

def asksDirectory (path : Path) : Bool := path.getLast? = some Path.slash

/-- A path as the place where it starts and the names to follow. Single dots are kept: they ask for
a directory. -/
def readPath (tree : FileTree) (path : Path) : Except StorageError (Location × List FileName) :=
  if 0 ∈ path then .error .nulInName
  else if path = [] then .error .notFound
  else if pathLimit ≤ path.length then .error .nameTooLong
  else
    .ok (if path.head? = some Path.slash then [] else tree.workingDirectory,
      (path.splitOn Path.slash).filter (· ≠ []))

/-- Where a path leads. -/
def locate (tree : FileTree) (path : Path) : Except StorageError Location := do
  let (start, names) ← tree.readPath path
  let found ← names.foldlM tree.enter start
  match tree.node? found with
  | none => throw .notFound
  | some .directory => return found
  | some (.file _) => if asksDirectory path then throw .notDirectory else return found

def isFile (tree : FileTree) (path : Path) : Bool :=
  match tree.locate path with
  | .ok location => tree.node? location ≠ some .directory
  | .error _ => false

def readText (tree : FileTree) (path : Path) : Except StorageError String := do
  let location ← tree.locate path
  tree.ask location .read
  match tree.node? location with
  | none => throw .notFound
  | some .directory => throw .isDirectory
  | some (.file content) =>
    match String.fromUTF8? content with
    | some text => return text
    | none => throw .notUtf8

def locateDirectory (tree : FileTree) (path : Path) : Except StorageError Location := do
  let location ← tree.locate path
  if tree.node? location = some .directory then return location else throw .notDirectory

def openDirectory (tree : FileTree) (path : Path) : Except StorageError Unit := do
  tree.ask (← tree.locateDirectory path) .read

/-- Takes one step towards a directory. What a name leads to is looked for by its absolute path
too. -/
def resolveStep (tree : FileTree) (here : Location) (name : FileName) :
    Except StorageError Location := do
  let next ← tree.enter here name
  if name = [Path.dot] ∨ name = [Path.dot, Path.dot] then return next
  let _ ← tree.locateDirectory next.path
  return next

/-- The directory that a path leads to, if its absolute path can be found out. -/
def resolve (tree : FileTree) (path : Path) : Except StorageError Location := do
  let (start, names) ← tree.readPath path
  names.foldlM tree.resolveStep start

/-- Where a file of that path is or would be made. Only its directory has to exist. -/
def placeFor (tree : FileTree) (path : Path) : Except StorageError Location := do
  let (start, names) ← tree.readPath path
  match names.getLast? with
  | none => throw .isDirectory
  | some name =>
    let directory ← names.dropLast.foldlM tree.enter start
    if name = [Path.dot] ∨ name = [Path.dot, Path.dot] ∨ asksDirectory path then
      let _ ← tree.enter directory [Path.dot]
      throw .isDirectory
    let location ← tree.enter directory name
    match tree.node? location with
    | some .directory => throw .isDirectory
    | _ => return location

/-- Makes an empty file; one that is there loses its content. -/
def create (tree : FileTree) (path : Path) : Except StorageError (FileTree × Location) := do
  let location ← tree.placeFor path
  if (tree.node? location).isSome then
    tree.ask location .write
    return (tree.setFile location .empty, location)
  else
    tree.ask location.dropLast .write
    return ((tree.forget location).setFile location .empty, location)

end FileTree
end HackStack
