import HackStack.Files.BufferedFile
import HackStack.Proofs.Assembly.Loading

/-! Walks along paths. A walk takes its steps from directories only, so a file that is made, written
or removed at a place turns no walk that has succeeded. -/
namespace HackStack
open Assembly

namespace FileTree

/-- Two trees that differ at one place at most, where neither has a directory. -/
structure Beside (location : Location) (first second : FileTree) : Prop where
  workingDirectory : first.workingDirectory = second.workingDirectory
  others : ∀ other, other ≠ location → first.node? other = second.node? other
  refusals : ∀ other, other ≠ location → ∀ access,
    first.refusal? other access = second.refusal? other access
  firstFree : first.node? location ≠ some .directory
  secondFree : second.node? location ≠ some .directory

variable {tree first second third : FileTree} {location : Location}

theorem Beside.symm (beside : Beside location first second) : Beside location second first where
  workingDirectory := beside.workingDirectory.symm
  others other apart := (beside.others other apart).symm
  refusals other apart access := (beside.refusals other apart access).symm
  firstFree := beside.secondFree
  secondFree := beside.firstFree

theorem Beside.trans (before : Beside location first second)
    (behind : Beside location second third) : Beside location first third where
  workingDirectory := before.workingDirectory.trans behind.workingDirectory
  others other apart := (before.others other apart).trans (behind.others other apart)
  refusals other apart access :=
    (before.refusals other apart access).trans (behind.refusals other apart access)
  firstFree := before.firstFree
  secondFree := behind.secondFree

theorem ask_congr {place : Location} {access : Access}
    (same : first.refusal? place access = second.refusal? place access) :
    first.ask place access = second.ask place access := by
  simp only [ask, same]

theorem ask_eq_ok_iff {place : Location} {access : Access} :
    tree.ask place access = .ok () ↔ tree.refusal? place access = none := by
  unfold ask
  split <;> simp [*]

theorem directory_of_enter {here found : Location} {name : FileName}
    (entered : tree.enter here name = .ok found) : tree.node? here = some .directory := by
  unfold enter at entered
  split at entered
  · cases entered
  · cases entered
  · assumption

theorem enter_congr {here : Location} (name : FileName)
    (node : first.node? here = second.node? here)
    (refusal : first.refusal? here .search = second.refusal? here .search) :
    first.enter here name = second.enter here name := by
  simp only [enter, node, ask_congr refusal]

theorem readPath_congr (same : first.workingDirectory = second.workingDirectory) (path : Path) :
    first.readPath path = second.readPath path := by
  simp only [readPath, same]

theorem locate_congr (start : first.workingDirectory = second.workingDirectory)
    (nodes : first.node? = second.node?) (refusals : first.refusal? = second.refusal?) :
    first.locate = second.locate := by
  have enter : first.enter = second.enter := by
    funext here name
    exact enter_congr name (congrFun nodes here) (by rw [refusals])
  funext path
  simp only [locate, readPath_congr start, enter, nodes]

theorem Beside.enter (beside : Beside location first second) {here found : Location}
    {name : FileName} (entered : first.enter here name = .ok found) :
    second.enter here name = .ok found := by
  have apart : here ≠ location := by
    rintro rfl
    exact beside.firstFree (directory_of_enter entered)
  rw [← enter_congr name (beside.others here apart) (beside.refusals here apart .search), entered]

/-- A walk succeeds if each of its steps is one of a walk that does. -/
theorem walk_of_steps {step other : Location → FileName → Except StorageError Location}
    (each : ∀ {here name next}, step here name = .ok next → other here name = .ok next)
    {names : List FileName} {start found : Location}
    (walked : names.foldlM step start = .ok found) :
    names.foldlM other start = .ok found := by
  induction names generalizing start with
  | nil => exact walked
  | cons name rest ih =>
    rw [List.foldlM_cons] at walked ⊢
    obtain ⟨next, stepped, walked⟩ := bind_ok walked
    rw [each stepped]
    exact ih walked

/-- What a path leads to is reached by a walk, and is there. -/
theorem locate_eq_ok_iff {path : Path} {found : Location} :
    tree.locate path = .ok found ↔ ∃ start names node,
      tree.readPath path = .ok (start, names) ∧ names.foldlM tree.enter start = .ok found ∧
      tree.node? found = some node ∧ (asksDirectory path = true → node = .directory) := by
  unfold locate
  constructor
  · intro located
    obtain ⟨⟨start, names⟩, read, located⟩ := bind_ok located
    obtain ⟨place, walked, located⟩ := bind_ok located
    split at located
    · cases located
    · rename_i present
      cases located
      exact ⟨start, names, _, read, walked, present, fun _ => rfl⟩
    · rename_i present
      split at located
      · cases located
      · rename_i plain
        cases located
        exact ⟨start, names, _, read, walked, present, fun asks => absurd asks plain⟩
  · rintro ⟨start, names, node, read, walked, present, asks⟩
    cases node with
    | directory => simp [read, walked, present, bind, Except.bind, pure, Except.pure]
    | file content =>
      have plain : asksDirectory path ≠ true := fun slash => nomatch asks slash
      simp [read, walked, present, plain, bind, Except.bind, pure, Except.pure]

theorem isSome_of_locate {path : Path} {found : Location} (located : tree.locate path = .ok found) :
    (tree.node? found).isSome = true := by
  obtain ⟨-, -, node, -, -, present, -⟩ := locate_eq_ok_iff.mp located
  rw [present]
  rfl

/-- A path leads to the same place in both trees, if something is there. -/
theorem Beside.locate (beside : Beside location first second) {path : Path} {found : Location}
    (located : first.locate path = .ok found) (present : (second.node? found).isSome = true) :
    second.locate path = .ok found := by
  obtain ⟨start, names, node, read, walked, there, asks⟩ := locate_eq_ok_iff.mp located
  obtain ⟨other, present⟩ := Option.isSome_iff_exists.mp present
  rw [readPath_congr beside.workingDirectory] at read
  refine locate_eq_ok_iff.mpr
    ⟨start, names, other, read, walk_of_steps beside.enter walked, present, fun slash => ?_⟩
  obtain rfl := asks slash
  have apart : found ≠ location := by
    rintro rfl
    exact beside.firstFree there
  rw [beside.others found apart, present] at there
  exact Option.some.inj there

theorem Beside.locate_of_ne (beside : Beside location first second) {path : Path} {found : Location}
    (located : first.locate path = .ok found) (apart : found ≠ location) :
    second.locate path = .ok found := by
  refine beside.locate located ?_
  rw [← beside.others found apart]
  exact isSome_of_locate located

/-- A path that leads to a place elsewhere is read alike in both trees. -/
theorem Beside.readText (beside : Beside location first second) {path : Path} {found : Location}
    (located : first.locate path = .ok found) (apart : found ≠ location) :
    second.readText path = first.readText path := by
  unfold FileTree.readText
  rw [located, beside.locate_of_ne located apart]
  simp only [bind, Except.bind, beside.others found apart,
    ask_congr (beside.refusals found apart .read)]

theorem locateDirectory_eq_ok_iff {path : Path} {place : Location} :
    tree.locateDirectory path = .ok place ↔
      tree.locate path = .ok place ∧ tree.node? place = some .directory := by
  unfold locateDirectory
  constructor
  · intro found
    obtain ⟨location, located, found⟩ := bind_ok found
    split at found
    · cases found
      exact ⟨located, ‹_›⟩
    · cases found
  · rintro ⟨located, directory⟩
    simp only [located, directory, bind, Except.bind, if_true]
    rfl

theorem Beside.locateDirectory (beside : Beside location first second) {path : Path}
    {place : Location} (found : first.locateDirectory path = .ok place) :
    second.locateDirectory path = .ok place ∧ place ≠ location := by
  obtain ⟨located, directory⟩ := locateDirectory_eq_ok_iff.mp found
  have apart : place ≠ location := by
    rintro rfl
    exact beside.firstFree directory
  refine ⟨locateDirectory_eq_ok_iff.mpr ⟨beside.locate_of_ne located apart, ?_⟩, apart⟩
  rw [← beside.others place apart, directory]

theorem Beside.openDirectory (beside : Beside location first second) {path : Path}
    (opened : first.openDirectory path = .ok ()) : second.openDirectory path = .ok () := by
  obtain ⟨place, found, allowed⟩ := bind_ok opened
  obtain ⟨found, apart⟩ := beside.locateDirectory found
  rw [ask_congr (beside.refusals place apart .read)] at allowed
  simp only [FileTree.openDirectory, found]
  exact allowed

theorem Beside.resolveStep (beside : Beside location first second) {here next : Location}
    {name : FileName} (stepped : first.resolveStep here name = .ok next) :
    second.resolveStep here name = .ok next := by
  unfold FileTree.resolveStep at stepped ⊢
  obtain ⟨found, entered, stepped⟩ := bind_ok stepped
  rw [beside.enter entered]
  split at stepped
  · cases stepped
    exact if_pos ‹_›
  · obtain ⟨place, directory, stepped⟩ := bind_ok stepped
    cases stepped
    refine (if_neg ‹_›).trans ?_
    rw [(beside.locateDirectory directory).1]
    rfl

/-- A directory is resolved alike in both trees. -/
theorem Beside.resolve (beside : Beside location first second) {path : Path} {found : Location}
    (resolved : first.resolve path = .ok found) : second.resolve path = .ok found := by
  obtain ⟨⟨start, names⟩, read, walked⟩ := bind_ok resolved
  rw [readPath_congr beside.workingDirectory] at read
  simp only [FileTree.resolve, read]
  exact walk_of_steps beside.resolveStep walked

theorem enter_of_resolveStep {here next : Location} {name : FileName}
    (stepped : tree.resolveStep here name = .ok next) : tree.enter here name = .ok next := by
  obtain ⟨place, entered, stepped⟩ := bind_ok stepped
  split at stepped
  · cases stepped
    exact entered
  · obtain ⟨-, -, stepped⟩ := bind_ok stepped
    cases stepped
    exact entered

theorem walk_of_resolve {path : Path} {directory : Location}
    (resolved : tree.resolve path = .ok directory) : ∃ start names,
      tree.readPath path = .ok (start, names) ∧ names.foldlM tree.enter start = .ok directory := by
  obtain ⟨⟨start, names⟩, read, resolved⟩ := bind_ok resolved
  exact ⟨start, names, read, walk_of_steps enter_of_resolveStep resolved⟩

theorem locate_of_resolve {path : Path} {directory : Location}
    (resolved : tree.resolve path = .ok directory)
    (entered : tree.node? directory = some .directory) : tree.locate path = .ok directory := by
  obtain ⟨start, names, read, walked⟩ := walk_of_resolve resolved
  exact locate_eq_ok_iff.mpr ⟨start, names, .directory, read, walked, entered, fun _ => rfl⟩

/-- Two trees that have the same nodes up to the content of one file. -/
structure Rewritten (location : Location) (first second : FileTree) : Prop
    extends Beside location first second where
  firstFile : ∃ content, first.node? location = some (.file content)
  secondFile : ∃ content, second.node? location = some (.file content)

namespace Rewritten

theorem enter (rewritten : Rewritten location first second) : first.enter = second.enter := by
  funext here name
  by_cases place : here = location
  · subst place
    obtain ⟨content, file⟩ := rewritten.firstFile
    obtain ⟨other, again⟩ := rewritten.secondFile
    simp only [FileTree.enter, file, again]
  · exact enter_congr name (rewritten.others here place) (rewritten.refusals here place .search)

theorem locate (rewritten : Rewritten location first second) (path : Path) :
    first.locate path = second.locate path := by
  unfold FileTree.locate
  rw [readPath_congr rewritten.workingDirectory, rewritten.enter]
  refine bind_congr fun _ => bind_congr fun found => ?_
  by_cases place : found = location
  · subst place
    obtain ⟨content, file⟩ := rewritten.firstFile
    obtain ⟨other, again⟩ := rewritten.secondFile
    simp only [file, again]
  · rw [rewritten.others found place]

theorem readText (rewritten : Rewritten location first second) {path : Path}
    (elsewhere : second.locate path ≠ .ok location) :
    first.readText path = second.readText path := by
  unfold FileTree.readText
  rw [rewritten.locate path]
  cases located : second.locate path with
  | error error => rfl
  | ok found =>
    have apart : found ≠ location := by
      rintro rfl
      exact elsewhere located
    simp only [bind, Except.bind, rewritten.others found apart,
      ask_congr (rewritten.refusals found apart .read)]

end Rewritten

theorem beside_setFile (below : location ≠ []) (free : tree.node? location ≠ some .directory)
    (content : ByteArray) : Beside location tree (tree.setFile location content) := by
  refine ⟨rfl, fun other apart => ?_, fun _ _ _ => rfl, free, ?_⟩
  · rw [node?_setFile tree other content below, if_neg apart]
  · simp [node?_setFile tree location content below]

theorem beside_forget (free : tree.node? location ≠ some .directory) :
    Beside location tree (tree.forget location) := by
  refine ⟨rfl, fun _ _ => rfl, fun other apart access => ?_, free, free⟩
  rw [refusal?_forget, if_pos (.inl apart)]

theorem beside_without (below : location ≠ []) (free : tree.node? location ≠ some .directory) :
    Beside location tree (tree.without location) := by
  have others := fun other => tree.node?_without other below
  refine ⟨rfl, fun other apart => ?_, (beside_forget free).refusals, free, ?_⟩
  · rw [others, if_neg apart]
  · simp [others]

def SameFile (tree : FileTree) (first second : Path) : Prop :=
  ∃ location, tree.locate first = .ok location ∧ tree.locate second = .ok location

theorem not_sameFile {path other : Path} {here there : Location}
    (located : tree.locate path = .ok here) (elsewhere : tree.locate other = .ok there)
    (apart : here ≠ there) : ¬ tree.SameFile path other := by
  rintro ⟨location, first, second⟩
  cases located.symm.trans first
  cases elsewhere.symm.trans second
  exact apart rfl

/-- The place for a file is reached by a walk whose last step is neither to stay nor to go up, and
no directory is there. -/
theorem placeFor_eq_ok_iff {path : Path} :
    tree.placeFor path = .ok location ↔ ∃ start front name,
      tree.readPath path = .ok (start, front ++ [name]) ∧
      ¬ (name = [Path.dot] ∨ name = [Path.dot, Path.dot] ∨ asksDirectory path = true) ∧
      (front ++ [name]).foldlM tree.enter start = .ok location ∧
      tree.node? location ≠ some .directory := by
  unfold placeFor
  constructor
  · intro placed
    obtain ⟨⟨start, names⟩, read, placed⟩ := bind_ok placed
    cases last : names.getLast? with
    | none =>
      simp only [last] at placed
      cases placed
    | some name =>
      obtain ⟨front, rfl⟩ := List.getLast?_eq_some_iff.mp last
      simp only [last, List.dropLast_concat] at placed
      obtain ⟨directory, walked, placed⟩ := bind_ok placed
      by_cases refused : name = [Path.dot] ∨ name = [Path.dot, Path.dot] ∨ asksDirectory path = true
      · rw [if_pos refused] at placed
        obtain ⟨_, -, placed⟩ := bind_ok placed
        cases placed
      · rw [if_neg refused] at placed
        obtain ⟨found, entered, placed⟩ := bind_ok placed
        have reached : (front ++ [name]).foldlM tree.enter start = .ok found := by
          rw [List.foldlM_append, walked]
          change (tree.enter directory name >>= pure) = _
          rw [entered]
          rfl
        split at placed
        · cases placed
        · rename_i free
          cases placed
          exact ⟨start, front, name, read, refused, reached, free⟩
  · rintro ⟨start, front, name, read, plain, walked, free⟩
    rw [List.foldlM_append] at walked
    obtain ⟨directory, walked, entered⟩ := bind_ok walked
    rw [List.foldlM_cons] at entered
    obtain ⟨found, entered, done⟩ := bind_ok entered
    cases done
    simp only [read, walked, entered, bind, Except.bind, List.getLast?_concat,
      List.dropLast_concat, if_neg plain]
    rfl

theorem placeFor_ok {path : Path} (placed : tree.placeFor path = .ok location) :
    ∃ start names, tree.readPath path = .ok (start, names) ∧ asksDirectory path = false ∧
      names.foldlM tree.enter start = .ok location ∧ location ≠ [] ∧
      tree.node? location ≠ some .directory := by
  obtain ⟨start, front, name, read, plain, walked, free⟩ := placeFor_eq_ok_iff.mp placed
  simp only [not_or, Bool.not_eq_true] at plain
  refine ⟨start, _, read, plain.2.2, walked, ?_, free⟩
  rintro rfl
  exact free (by simp [node?])

theorem Beside.placeFor (beside : Beside location first second) {path : Path}
    (placed : first.placeFor path = .ok location) : second.placeFor path = .ok location := by
  obtain ⟨start, front, name, read, plain, walked, -⟩ := placeFor_eq_ok_iff.mp placed
  rw [readPath_congr beside.workingDirectory] at read
  exact placeFor_eq_ok_iff.mpr
    ⟨start, front, name, read, plain, walk_of_steps beside.enter walked, beside.secondFree⟩

/-- Whatever comes to be at the place for a file, its path leads there, as long as something is
there. -/
theorem Beside.locate_place (beside : Beside location first second) {path : Path}
    (placed : first.placeFor path = .ok location) :
    second.locate path =
      if (second.node? location).isSome then .ok location else .error .notFound := by
  obtain ⟨start, names, read, plain, walked, -, -⟩ := placeFor_ok placed
  rw [readPath_congr beside.workingDirectory] at read
  have reached := walk_of_steps beside.enter walked
  cases there : second.node? location with
  | some node =>
    refine locate_eq_ok_iff.mpr ⟨start, names, node, read, reached, there, fun asks => ?_⟩
    rw [plain] at asks
    cases asks
  | none =>
    simp [FileTree.locate, read, reached, there, bind, Except.bind, throw, throwThe,
      MonadExceptOf.throw]

/-- A tree in which an empty file has been made: at the place for it, without a change elsewhere.
The file may be written once more, and it may be removed if one could be removed there before. -/
structure Made (tree : FileTree) (path : Path) (made : FileTree) (location : Location) : Prop where
  placed : tree.placeFor path = .ok location
  below : location ≠ []
  empty : made.node? location = some (.file .empty)
  beside : Beside location tree made
  nodes : made.nodes = setNode location (.file .empty) tree.nodes
  writable : made.refusal? location .write = none
  removal : made.refusal? location .remove = tree.refusal? location .remove

variable {made : FileTree} {path : Path}

theorem setNode_setNode (location : Location) (first second : Node)
    (nodes : List (Location × Node)) :
    setNode location second (setNode location first nodes) = setNode location second nodes := by
  induction nodes with
  | nil => simp [setNode]
  | cons entry rest ih =>
    obtain ⟨here, present⟩ := entry
    by_cases same : here = location
    · simp [setNode, same]
    · simp [setNode, same, ih]

theorem setFile_setFile (tree : FileTree) (location : Location) (first second : ByteArray) :
    (tree.setFile location first).setFile location second = tree.setFile location second := by
  simp only [setFile, setNode_setNode]

theorem create_ok (created : tree.create path = .ok (made, location)) :
    Made tree path made location := by
  unfold create at created
  obtain ⟨found, placed, created⟩ := bind_ok created
  obtain ⟨-, -, -, -, -, below, free⟩ := placeFor_ok placed
  have filled : ∀ base : FileTree, (base.setFile found .empty).node? found =
      some (.file .empty) := fun base => by rw [base.node?_setFile found .empty below, if_pos rfl]
  split at created
  · obtain ⟨⟨⟩, allowed, created⟩ := bind_ok created
    cases created
    exact ⟨placed, below, filled _, beside_setFile below free .empty, rfl,
      ask_eq_ok_iff.mp allowed, rfl⟩
  · obtain ⟨⟨⟩, -, created⟩ := bind_ok created
    cases created
    have cleared : (tree.forget location).node? location ≠ some .directory := free
    refine ⟨placed, below, filled _,
      (beside_forget free).trans (beside_setFile below cleared .empty), rfl, ?_, ?_⟩
    · exact (tree.refusal?_forget ..).trans (by simp)
    · exact (tree.refusal?_forget ..).trans (by simp)

theorem Made.unfilled (new : Made tree path made location) :
    made.setFile location .empty = made := by
  simp only [setFile, new.nodes, setNode_setNode]
  rw [← new.nodes]

theorem Made.locate (new : Made tree path made location) : made.locate path = .ok location := by
  rw [new.beside.locate_place new.placed, new.empty]
  rfl

theorem Made.filled (new : Made tree path made location) (bytes : ByteArray) :
    Beside location tree (made.setFile location bytes) ∧
      (made.setFile location bytes).node? location = some (.file bytes) ∧
      (made.setFile location bytes).locate path = .ok location := by
  have beside := new.beside.trans (beside_setFile new.below new.beside.secondFree bytes)
  have stored : (made.setFile location bytes).node? location = some (.file bytes) := by
    rw [made.node?_setFile location bytes new.below, if_pos rfl]
  refine ⟨beside, stored, ?_⟩
  rw [beside.locate_place new.placed, stored]
  rfl

theorem Made.removed (new : Made tree path made location) :
    Beside location tree (made.without location) ∧
      (made.without location).node? location = none ∧
      (made.without location).locate path = .error .notFound := by
  have beside := new.beside.trans (beside_without new.below new.beside.secondFree)
  have gone : (made.without location).node? location = none := by
    rw [made.node?_without location new.below, if_pos rfl]
  refine ⟨beside, gone, ?_⟩
  rw [beside.locate_place new.placed, gone]
  rfl

theorem filter_setNode (location : Location) (node : Node) (nodes : List (Location × Node)) :
    (setNode location node nodes).filter (fun entry => entry.1 ≠ location) =
      nodes.filter fun entry => entry.1 ≠ location := by
  induction nodes with
  | nil => simp [setNode]
  | cons entry rest ih =>
    obtain ⟨here, present⟩ := entry
    by_cases same : here = location
    · simp [setNode, same]
    · simpa [setNode, same] using ih

theorem without_setFile (tree : FileTree) (location : Location) (content : ByteArray) :
    (tree.setFile location content).without location = tree.without location := by
  simp only [setFile, without, forget, filter_setNode]

/-- A file that is removed might as well not have been written. -/
theorem remove_setFile (tree : FileTree) (location : Location) (content : ByteArray) :
    (tree.setFile location content).remove location = tree.remove location := by
  unfold remove
  rw [without_setFile]
  rfl

theorem dropLast_ne (below : location ≠ []) : location.dropLast ≠ location := by
  intro same
  have shorter := congrArg List.length same
  have long := List.length_pos_iff.mpr below
  rw [List.length_dropLast] at shorter
  omega

/-- Whether a file may be removed is not changed by making it. -/
theorem Made.remove (new : Made tree path made location) :
    made.remove location = (tree.remove location).map fun _ => made.without location := by
  unfold FileTree.remove
  rw [ask_congr (new.beside.refusals _ (dropLast_ne new.below) .write).symm, ask_congr new.removal]
  cases tree.ask location.dropLast .write <;> cases tree.ask location .remove <;> rfl

end FileTree
end HackStack
