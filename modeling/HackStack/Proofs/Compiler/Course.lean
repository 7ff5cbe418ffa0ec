import HackStack.Proofs.Compiler.Output

/-! The course of an action: which blocks it writes, which state of the generator it reaches and how
it ends. A course knows no sink. An action follows its course as far as the sink takes what is
written, and fails where the sink does. -/
namespace HackStack
open Assembly

/-- A block of the output, by where it comes from and the state in which it is made. -/
inductive Emission
  | setStack
  | callEntry (generator : Generator)
  | compiled (generator : Generator) (command : Command)
  | close
  deriving DecidableEq, Repr, Inhabited

def Emission.block : Emission → Block
  | .setStack => (({} : Generator).setStack).2
  | .callEntry generator => generator.callEntry.2
  | .compiled generator command => (Site.compiled generator command).block
  | .close => (({} : Generator).close).2

def chunksOf (emissions : List Emission) : List String :=
  emissions.flatMap fun emission => emission.block.chunks

theorem chunksOf_append (first second : List Emission) :
    chunksOf (first ++ second) = chunksOf first ++ chunksOf second := List.flatMap_append

def outputOf (emissions : List Emission) : String :=
  String.join (emissions.map fun emission => emission.block.text)

theorem outputOf_append (first second : List Emission) :
    outputOf (first ++ second) = outputOf first ++ outputOf second := by
  rw [outputOf, List.map_append, String.join_append, ← outputOf, ← outputOf]

theorem join_chunksOf (emissions : List Emission) :
    String.join (chunksOf emissions) = outputOf emissions := by
  induction emissions with
  | nil => rfl
  | cons emission rest ih =>
    rw [chunksOf, List.flatMap_cons, ← chunksOf, String.join_append, ih, Block.join_chunks,
      outputOf, outputOf, List.map_cons, String.join_cons]
    rfl

theorem writeAll_append [Sink σ] (first second : List String) (sink : σ) :
    Sink.writeAll (first ++ second) sink =
      match Sink.writeAll first sink with
      | .ok _ middle => Sink.writeAll second middle
      | .error cause middle => .error cause middle := by
  rw [Sink.writeAll, List.forM_eq_forM, List.forM_append, run_bind, ← List.forM_eq_forM,
    ← Sink.writeAll]
  cases Sink.writeAll first sink <;> rfl

structure Course (α : Type) where
  emissions : List Emission := []
  generator : Generator
  result : Except Failure α

namespace Course

def still (generator : Generator) (result : Except Failure α) : Course α := { generator, result }

def andThen (course : Course α) (next : α → Generator → Course β) : Course β :=
  match course.result with
  | .ok value =>
    let rest := next value course.generator
    { rest with emissions := course.emissions ++ rest.emissions }
  | .error failure => { course with result := .error failure }

/-- One course for each entry of a list, up to the first that fails. -/
def each (course : α → Generator → Course Unit) : List α → Generator → Course Unit
  | [], generator => still generator (.ok ())
  | entry :: rest, generator => (course entry generator).andThen fun _ => each course rest

def refuse (contexts : List Context) (error : Error) (generator : Generator) : Course α :=
  still generator (.error { contexts, cause := .compiling error })

def enter (contexts : List Context) (name : String) (generator : Generator) : Course Unit :=
  match generator.enterModule name with
  | .ok entered => still entered (.ok ())
  | .error error => refuse contexts error generator

def start (contexts : List Context) (generator : Generator) : Course Unit :=
  if generator.started then refuse contexts .lateBootstrap generator
  else
    { emissions := [.setStack, .callEntry generator.setStack.1]
      generator := generator.setStack.1.callEntry.1
      result := .ok () }

def compile (contexts : List Context) (command : Command) (generator : Generator) : Course Unit :=
  match generator.code command with
  | .ok _ =>
    { emissions := [.compiled generator command]
      generator := generator.advance command
      result := .ok () }
  | .error error => refuse contexts error generator

def item (name : String) (item : Source.Item) (generator : Generator) : Course Unit :=
  match item.outcome with
  | .ok command => compile [.atLine name item.line] command generator
  | .error error => refuse [.atLine name item.line] error generator

def module (name source : String) (generator : Generator) : Course Unit :=
  (enter [.usingModule name] name generator).andThen fun _ =>
    each (item name) (Source.items source)

def file (files : Path → Except StorageError String) (path : Path) (generator : Generator) :
    Course Unit :=
  match files path, Job.moduleName path with
  | .ok source, .ok name => module name source generator
  | .ok _, .error failure => still generator (.error failure)
  | .error error, _ =>
    still generator (.error { contexts := [.reading path], cause := .storage error })

def close (generator : Generator) : Course Unit :=
  { emissions := [.close], generator := generator.close.1, result := .ok () }

/-- Entries one after the other, and the end. -/
def rest (course : α → Generator → Course Unit) (entries : List α) (generator : Generator) :
    Course Unit :=
  (each course entries generator).andThen fun _ => close

/-- A whole run: an optional start, the entries and the end. -/
def run (bootstrap : Bool) (course : α → Generator → Course Unit) (entries : List α)
    (generator : Generator) : Course Unit :=
  if bootstrap then (start [] generator).andThen fun _ => rest course entries
  else rest course entries generator

theorem andThen_still (course : Course Unit) :
    (course.andThen fun _ generator => still generator (.ok ())) = course := by
  obtain ⟨emissions, generator, result⟩ := course
  cases result <;> simp [andThen, still]

end Course

/-- A result as that of an action that ends in a state. -/
def ending (result : Except ε α) (state : s) : EStateM.Result ε s α :=
  match result with
  | .ok value => .ok value state
  | .error error => .error error state

def resultOf : EStateM.Result ε s α → Except ε α
  | .ok value _ => .ok value
  | .error error _ => .error error

/-- The state that an action leaves, whether it succeeds or fails. -/
def stateOf : EStateM.Result ε s α → s
  | .ok _ state | .error _ state => state

@[simp] theorem resultOf_ending (result : Except ε α) (state : s) :
    resultOf (ending result state) = result := by
  cases result <;> rfl

@[simp] theorem stateOf_ending (result : Except ε α) (state : s) :
    stateOf (ending result state) = state := by
  cases result <;> rfl

namespace Compilation

variable {σ : Type} [Sink σ]

/-- From a state, the action writes the blocks of a course and nothing else. If the sink takes them
all, then it ends as the course does; if not, then it fails for the sink's reason. -/
structure Follows (action : CompileM σ Failure α) (before : Compilation σ) (course : Course α) :
    Prop where
  taken : ∀ sink, Sink.writeAll (chunksOf course.emissions) before.sink = .ok () sink →
    ∃ log, action before = ending course.result ⟨course.generator, sink, log⟩
  hindered : ∀ cause sink,
    Sink.writeAll (chunksOf course.emissions) before.sink = .error cause sink →
      ∃ contexts after, action before =
        .error { contexts, cause := .compiling (.sink cause) } after ∧ after.sink = sink

theorem Follows.noted {action other : CompileM σ Failure α} {before after : Compilation σ}
    {course : Course α} (follows : Follows other after course)
    (same : action before = other after) (sink : after.sink = before.sink) :
    Follows action before course where
  taken final written := same ▸ follows.taken final (sink ▸ written)
  hindered cause final refused := same ▸ follows.hindered cause final (sink ▸ refused)

theorem follows_still {action : CompileM σ Failure α} {before : Compilation σ}
    {generator : Generator} {result : Except Failure α}
    (ends : ∃ log, action before = ending result ⟨generator, before.sink, log⟩) :
    Follows action before (.still generator result) where
  taken sink written := by
    cases written
    exact ends
  hindered cause sink refused := by cases refused

theorem Follows.bind {action : CompileM σ Failure α} {next : α → CompileM σ Failure β}
    {before : Compilation σ} {course : Course α} {rest : α → Generator → Course β}
    (first : Follows action before course)
    (second : ∀ value (middle : Compilation σ), middle.generator = course.generator →
      Sink.writeAll (chunksOf course.emissions) before.sink = .ok () middle.sink →
      Follows (next value) middle (rest value course.generator)) :
    Follows (action >>= next) before (course.andThen rest) := by
  cases result : course.result with
  | error failure =>
    simp only [Course.andThen, result]
    constructor
    · intro sink written
      obtain ⟨log, ended⟩ := first.taken sink written
      rw [run_bind, ended, result]
      exact ⟨log, rfl⟩
    · intro cause sink refused
      obtain ⟨contexts, after, failed, same⟩ := first.hindered cause sink refused
      rw [run_bind, failed]
      exact ⟨contexts, after, rfl, same⟩
  | ok value =>
    have parts : (course.andThen rest).emissions =
        course.emissions ++ (rest value course.generator).emissions := by
      simp only [Course.andThen, result]
    have generator : (course.andThen rest).generator = (rest value course.generator).generator := by
      simp only [Course.andThen, result]
    have last : (course.andThen rest).result = (rest value course.generator).result := by
      simp only [Course.andThen, result]
    constructor
    · intro sink written
      rw [parts, chunksOf_append, writeAll_append] at written
      split at written
      · rename_i middle head
        obtain ⟨log, ended⟩ := first.taken middle head
        obtain ⟨later, finished⟩ :=
          (second value ⟨course.generator, middle, log⟩ rfl head).taken sink written
        rw [run_bind, ended, result, generator, last]
        exact ⟨later, finished⟩
      · cases written
    · intro cause sink refused
      rw [parts, chunksOf_append, writeAll_append] at refused
      split at refused
      · rename_i middle head
        obtain ⟨log, ended⟩ := first.taken middle head
        rw [run_bind, ended, result]
        exact (second value ⟨course.generator, middle, log⟩ rfl head).hindered cause sink refused
      · rename_i head
        cases refused
        obtain ⟨contexts, after, failed, same⟩ := first.hindered _ _ head
        rw [run_bind, failed]
        exact ⟨contexts, after, rfl, same⟩

def Kept (kept : σ → Prop) : Prop :=
  ∀ chunks sink after, kept sink → Sink.writeAll chunks sink = .ok () after → kept after

theorem kept_always : Kept fun _ : σ => True := fun _ _ _ _ _ => trivial

/-- Entries of which each follows its course wherever the sink has a property follow their courses
one after the other. -/
theorem Follows.forM_kept {kept : σ → Prop} (keeps : Kept kept)
    {action : α → CompileM σ Failure Unit} {course : α → Generator → Course Unit} {entries : List α}
    (one : ∀ entry ∈ entries, ∀ before : Compilation σ, kept before.sink →
      Follows (action entry) before (course entry before.generator))
    {before : Compilation σ} (ready : kept before.sink) :
    Follows (entries.forM action) before (Course.each course entries before.generator) := by
  induction entries generalizing before with
  | nil => exact follows_still ⟨_, rfl⟩
  | cons entry rest ih =>
    rw [List.forM_eq_forM, List.forM_cons]
    refine (one entry List.mem_cons_self before ready).bind fun _ middle same written => ?_
    rw [← same]
    exact ih (fun other member => one other (List.mem_cons_of_mem _ member))
      (keeps _ _ _ ready written)

theorem Follows.forM {action : α → CompileM σ Failure Unit} {course : α → Generator → Course Unit}
    (one : ∀ entry (before : Compilation σ),
      Follows (action entry) before (course entry before.generator))
    (entries : List α) (before : Compilation σ) :
    Follows (entries.forM action) before (Course.each course entries before.generator) :=
  .forM_kept kept_always (fun entry _ before _ => one entry before) trivial

omit [Sink σ] in
theorem within_bind (contexts : List Context) (action : CompileM σ Error α)
    (next : α → CompileM σ Error β) :
    within contexts (action >>= next) =
      within contexts action >>= fun value => within contexts (next value) := by
  funext before
  simp only [within, EStateM.adaptExcept, run_bind]
  cases action before <;> rfl

omit [Sink σ] in
theorem within_of_error {action : CompileM σ Error α} {before after : Compilation σ} {error : Error}
    (contexts : List Context) (failed : action before = .error error after) :
    within contexts action before = .error { contexts, cause := .compiling error } after := by
  simp only [within, EStateM.adaptExcept, failed]

omit [Sink σ] in
theorem within_congr {action other : CompileM σ Error α} {before after : Compilation σ}
    (contexts : List Context) (same : action before = other after) :
    within contexts action before = within contexts other after := by
  simp only [within, EStateM.adaptExcept, same]

omit [Sink σ] in
theorem stateOf_within (contexts : List Context) (action : CompileM σ Error α)
    (before : Compilation σ) :
    stateOf (within contexts action before) = stateOf (action before) := by
  simp only [within, EStateM.adaptExcept]
  cases action before <;> rfl

theorem follows_emit (contexts : List Context) {made : Generator × Block} {emission : Emission}
    (block : made.2 = emission.block) (before : Compilation σ) :
    Follows (within contexts (emit made)) before
      { emissions := [emission], generator := made.1, result := .ok () } := by
  obtain ⟨old, sink, log⟩ := before
  have pieces : chunksOf [emission] = made.2.chunks := by
    simp only [chunksOf, List.flatMap_cons, List.flatMap_nil, List.append_nil, block]
  constructor
  · intro final written
    rw [pieces] at written
    simp only [within, EStateM.adaptExcept, emit, written]
    exact ⟨log, rfl⟩
  · intro cause final refused
    rw [pieces] at refused
    simp only [within, EStateM.adaptExcept, emit, refused]
    exact ⟨contexts, ⟨made.1, final, log⟩, rfl, rfl⟩

theorem follows_enterModule (contexts : List Context) (name : String) (before : Compilation σ) :
    Follows (within contexts (enterModule name)) before
      (Course.enter contexts name before.generator) := by
  have same := enterModule_eq name before
  simp only [Course.enter]
  cases entered : before.generator.enterModule name with
  | ok next =>
    simp only [entered] at same
    refine follows_still ⟨before.log.push (.entering name), ?_⟩
    simp only [within, EStateM.adaptExcept, same]
    rfl
  | error error =>
    simp only [entered] at same
    exact follows_still ⟨_, within_of_error contexts same⟩

theorem follows_compile (contexts : List Context) (command : Command) (before : Compilation σ) :
    Follows (within contexts (compile command)) before
      (Course.compile contexts command before.generator) := by
  have same := compile_eq command before
  simp only [Course.compile]
  cases generated : before.generator.code command with
  | ok code =>
    have block : (⟨command.text, code⟩ : Block) =
        (Emission.compiled before.generator command).block := by
      simp only [Emission.block, Site.block, Site.code, generated]
    simp only [generated] at same
    exact (follows_emit contexts block _).noted (within_congr contexts same) rfl
  | error error =>
    simp only [generated] at same
    exact follows_still ⟨_, within_of_error contexts same⟩

theorem bootstrap_eq (before : Compilation σ) :
    bootstrap before =
      if before.generator.started then .error .lateBootstrap before
      else (emit before.generator.setStack >>= fun _ => emit before.generator.setStack.1.callEntry)
        { before with log := before.log.push (.bootstrapping Code.entryFunction) } := by
  obtain ⟨generator, sink, log⟩ := before
  have fetched : ∀ state : Compilation σ,
      (get : CompileM σ Error (Compilation σ)) state = .ok state state := fun _ => rfl
  unfold bootstrap
  by_cases started : generator.started = true
  · simp only [run_bind, fetched, started, if_true]
    rfl
  · simp only [run_bind, fetched, record, started, Bool.false_eq_true, if_false]
    cases written : emit generator.setStack
        ⟨generator, sink, log.push (.bootstrapping Code.entryFunction)⟩ with
    | error error after => rfl
    | ok value after =>
      have reached : after.generator = generator.setStack.1 := by
        simp only [emit, Generator.setStack] at written ⊢
        split at written
        · cases written
          rfl
        · cases written
      simp only [reached]

theorem follows_bootstrap (contexts : List Context) (before : Compilation σ) :
    Follows (within contexts bootstrap) before (Course.start contexts before.generator) := by
  have same := bootstrap_eq before
  simp only [Course.start]
  by_cases started : before.generator.started = true
  · simp only [started, if_true] at same ⊢
    exact follows_still ⟨_, within_of_error contexts same⟩
  · simp only [started, Bool.false_eq_true, if_false] at same ⊢
    refine Follows.noted ?_ (within_congr contexts same) rfl
    rw [within_bind]
    have first : before.generator.setStack.2 = Emission.setStack.block := rfl
    have second : before.generator.setStack.1.callEntry.2 =
        (Emission.callEntry before.generator.setStack.1).block := rfl
    exact @Follows.bind _ _ _ _ _ _ _ _ (fun _ _ => _) (follows_emit contexts first _)
      fun _ middle _ _ => follows_emit contexts second middle

theorem follows_compileItem (name : String) (item : Source.Item) (before : Compilation σ) :
    Follows (compileItem name item) before (Course.item name item before.generator) := by
  simp only [compileItem, Course.item]
  cases item.outcome with
  | ok command =>
    exact (follows_compile [.atLine name item.line] command before).noted rfl rfl
  | error error => exact follows_still ⟨_, within_of_error _ rfl⟩

theorem follows_compileModule (name source : String) (before : Compilation σ) :
    Follows (compileModule name source) before (Course.module name source before.generator) := by
  refine (follows_enterModule _ name before).bind fun _ middle same _ => ?_
  rw [← same]
  exact Follows.forM (follows_compileItem name) _ middle

omit [Sink σ] in
theorem readModule_eq (read : σ → Path → Except StorageError String) (path : Path)
    (before : Compilation σ) :
    readModule read path before =
      match read before.sink path with
      | .ok source => .ok source before
      | .error error => .error { contexts := [.reading path], cause := .storage error } before := by
  unfold readModule
  change (match read before.sink path with
    | .ok source => pure source
    | .error error => throw { contexts := [.reading path], cause := .storage error } :
      CompileM σ Failure String) before = _
  cases read before.sink path <;> rfl

/-- The file of a module is read and compiled. -/
theorem follows_file {read : σ → Path → Except StorageError String}
    {files : Path → Except StorageError String} {path : Path} {before : Compilation σ}
    (agrees : read before.sink path = files path) :
    Follows (do
      let source ← readModule read path
      compileModule (← accept (Job.moduleName path)) source) before
      (Course.file files path before.generator) := by
  simp only [Course.file]
  cases found : files path with
  | error error =>
    refine follows_still ⟨before.log, ?_⟩
    simp only [run_bind, readModule_eq, agrees, found]
    rfl
  | ok source =>
    cases named : Job.moduleName path with
    | error failure =>
      refine follows_still ⟨before.log, ?_⟩
      simp only [run_bind, readModule_eq, agrees, found]
      rfl
    | ok name =>
      refine (follows_compileModule name source before).noted ?_ rfl
      simp only [run_bind, readModule_eq, agrees, found]
      rfl

def writeEnd : CompileM σ Failure Unit := within [] do emit (← get).generator.close

theorem follows_writeEnd (before : Compilation σ) :
    Follows writeEnd before (Course.close before.generator) :=
  have block : before.generator.close.2 = Emission.close.block := rfl
  (follows_emit [] block before).noted rfl rfl

/-- A whole run up to its flush: an optional start, the entries and the last block. -/
def unflushed (bootstrap : Bool) (action : α → CompileM σ Failure Unit) (entries : List α) :
    CompileM σ Failure Unit := do
  if bootstrap then within [] Compilation.bootstrap
  entries.forM action
  writeEnd

/-- A whole run up to its flush follows the course of its entries. -/
theorem follows_unflushed {kept : σ → Prop} (keeps : Kept kept)
    {action : α → CompileM σ Failure Unit} {course : α → Generator → Course Unit} {entries : List α}
    (one : ∀ entry ∈ entries, ∀ before : Compilation σ, kept before.sink →
      Follows (action entry) before (course entry before.generator))
    (bootstrap : Bool) {before : Compilation σ} (ready : kept before.sink) :
    Follows (unflushed bootstrap action entries) before
      (Course.run bootstrap course entries before.generator) := by
  have rest : ∀ before : Compilation σ, kept before.sink →
      Follows (do entries.forM action; writeEnd) before
        (Course.rest course entries before.generator) := by
    intro before ready
    refine (Follows.forM_kept keeps one ready).bind fun _ middle same _ => ?_
    rw [← same]
    exact follows_writeEnd middle
  cases bootstrap with
  | false => exact rest before ready
  | true =>
    refine (follows_bootstrap [] before).bind fun _ middle same written => ?_
    rw [← same]
    exact rest middle (keeps _ _ _ ready written)

theorem run_eq_unflushed (bootstrap : Bool) (action : α → CompileM σ Failure Unit)
    (entries : List α) :
    (do
      if bootstrap then within [] Compilation.bootstrap
      entries.forM action
      within [] finish : CompileM σ Failure Unit) =
      (unflushed bootstrap action entries >>= fun _ => within [] flush) := by
  have parts : (finish : CompileM σ Error Unit) =
      (do emit (← get).generator.close) >>= fun _ => flush := rfl
  rw [parts, within_bind, ← writeEnd]
  cases bootstrap <;> simp [unflushed, bind_assoc]

theorem flushFailure_of_writeAll {chunks : List String} {sink after : MemorySink}
    (written : Sink.writeAll chunks sink = .ok () after) :
    after.flushFailure = sink.flushFailure := by
  induction chunks generalizing sink with
  | nil =>
    cases written
    rfl
  | cons chunk rest ih =>
    rw [writeAll_cons] at written
    split at written
    · rename_i middle first
      have kept : middle.flushFailure = sink.flushFailure := by
        obtain ⟨content, limit, overflow, failure⟩ := sink
        change MemorySink.write chunk _ = _ at first
        simp only [MemorySink.write] at first
        repeat' split at first
        all_goals cases first
        all_goals rfl
      rw [ih written, kept]
    · cases written

theorem follows_flush {before : Compilation MemorySink}
    (quiet : before.sink.flushFailure = none) :
    Follows (within [] flush) before (.still before.generator (.ok ())) := by
  obtain ⟨generator, sink, log⟩ := before
  have flushed : Sink.flush sink = .ok () sink := by
    change MemorySink.flush sink = _
    rw [MemorySink.flush, quiet]
  refine follows_still ⟨log, ?_⟩
  simp only [within, EStateM.adaptExcept, flush, flushed]
  rfl

theorem follows_run {action : α → CompileM MemorySink Failure Unit}
    {course : α → Generator → Course Unit}
    (one : ∀ entry (before : Compilation MemorySink),
      Follows (action entry) before (course entry before.generator))
    (bootstrap : Bool) (entries : List α) {before : Compilation MemorySink}
    (quiet : before.sink.flushFailure = none) :
    Follows (do
      if bootstrap then within [] Compilation.bootstrap
      entries.forM action
      within [] finish) before (Course.run bootstrap course entries before.generator) := by
  rw [run_eq_unflushed, ← Course.andThen_still (Course.run bootstrap course entries _)]
  have body : Follows (unflushed bootstrap action entries) before
      (Course.run bootstrap course entries before.generator) :=
    follows_unflushed kept_always (fun entry _ before _ => one entry before) bootstrap trivial
  refine body.bind fun _ middle same written => ?_
  rw [← same]
  exact follows_flush (by rw [flushFailure_of_writeAll written, quiet])

/-- A whole program follows a course that depends on its job and its files only. -/
theorem follows_compileProgram (files : Path → Except StorageError String) (job : Job)
    {before : Compilation MemorySink} (quiet : before.sink.flushFailure = none) :
    Follows (compileProgram (fun _ => files) job) before
      (Course.run job.bootstrap (Course.file files) job.modules before.generator) :=
  follows_run (fun _ _ => follows_file rfl) job.bootstrap job.modules quiet

end Compilation
end HackStack
