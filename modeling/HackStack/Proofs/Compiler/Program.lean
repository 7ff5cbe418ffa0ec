import HackStack.Proofs.Compiler.Session
import HackStack.Proofs.Source.Grammar

/-! The program of a job. If it has one, then each of its files was read as a module, and it is the
text of their blocks. Any sink that never fails takes it, or what has been written of it when it
fails. -/
namespace HackStack
open Assembly

def Module.LiesAt (files : Path → Except StorageError String) (path : Path) (module : Module) :
    Prop :=
  ∃ name source, Job.moduleName path = .ok name ∧ files path = .ok source ∧
    module.ReadFrom name source

namespace Course

theorem andThen_ok {course : Course α} {next : α → Generator → Course β} {value : β}
    (succeeds : (course.andThen next).result = .ok value) :
    ∃ middle, course.result = .ok middle ∧
      (next middle course.generator).result = .ok value := by
  unfold andThen at succeeds
  split at succeeds
  · rename_i middle first
    exact ⟨middle, first, succeeds⟩
  · cases succeeds

theorem forall₂_of_each {course : α → Generator → Course Unit} {relation : α → β → Prop}
    (one : ∀ entry generator, (course entry generator).result = .ok () →
      ∃ found, relation entry found)
    {entries : List α} {generator : Generator}
    (succeeds : (each course entries generator).result = .ok ()) :
    ∃ found, List.Forall₂ relation entries found := by
  induction entries generalizing generator with
  | nil => exact ⟨[], .nil⟩
  | cons entry rest ih =>
    obtain ⟨⟨⟩, first, others⟩ := andThen_ok succeeds
    obtain ⟨head, related⟩ := one entry generator first
    obtain ⟨tail, all⟩ := ih others
    exact ⟨head :: tail, .cons related all⟩

theorem item_ok {name : String} {entry : Source.Item} {generator : Generator}
    (succeeds : (item name entry generator).result = .ok ()) :
    ∃ command, entry.outcome = .ok command := by
  unfold item at succeeds
  split at succeeds
  · rename_i command outcome
    exact ⟨command, outcome⟩
  · cases succeeds

theorem file_ok {files : Path → Except StorageError String} {path : Path}
    {generator : Generator} (succeeds : (file files path generator).result = .ok ()) :
    ∃ module, Module.LiesAt files path module := by
  unfold file at succeeds
  split at succeeds
  · rename_i source name read named
    obtain ⟨⟨⟩, -, items⟩ := andThen_ok succeeds
    obtain ⟨commands, outcomes⟩ := forall₂_of_each (fun _ _ accepted => item_ok accepted) items
    exact ⟨⟨name, commands⟩, name, source, named, read, rfl, Source.mapM_eq_ok_iff.mpr outcomes⟩
  · cases succeeds
  · cases succeeds

theorem each_of_run {course : α → Generator → Course Unit} {bootstrap : Bool} {entries : List α}
    {generator : Generator} (succeeds : (run bootstrap course entries generator).result = .ok ()) :
    ∃ middle, (each course entries middle).result = .ok () := by
  have entries_of_rest : ∀ generator, (rest course entries generator).result = .ok () →
      (each course entries generator).result = .ok () := by
    intro generator succeeds
    unfold rest at succeeds
    obtain ⟨⟨⟩, all, -⟩ := andThen_ok succeeds
    exact all
  cases bootstrap with
  | false => exact ⟨generator, entries_of_rest generator succeeds⟩
  | true =>
    simp only [run, if_true] at succeeds
    obtain ⟨⟨⟩, -, succeeds⟩ := andThen_ok succeeds
    exact ⟨_, entries_of_rest _ succeeds⟩

/-- A run that succeeds has a module in each of its files. -/
theorem modules_of_run {files : Path → Except StorageError String} {bootstrap : Bool}
    {paths : List Path} {generator : Generator}
    (succeeds : (run bootstrap (file files) paths generator).result = .ok ()) :
    ∃ modules, List.Forall₂ (Module.LiesAt files) paths modules := by
  obtain ⟨middle, all⟩ := each_of_run succeeds
  exact forall₂_of_each (fun _ _ compiled => file_ok compiled) all

theorem each_congr {first second : α → Generator → Course Unit} {entries : List α}
    (same : ∀ entry ∈ entries, first entry = second entry) :
    each first entries = each second entries := by
  induction entries with
  | nil => rfl
  | cons entry rest ih =>
    funext generator
    rw [each, each, same entry List.mem_cons_self,
      ih fun other member => same other (List.mem_cons_of_mem _ member)]

end Course

namespace Job

variable {files : Path → Except StorageError String} {job : Job} {bytes : ByteArray}

/-- The bytes of a job's program, compiled in memory. -/
def program (files : Path → Except StorageError String) (job : Job) : Except Failure ByteArray :=
  match Compilation.compileProgram (fun _ => files) job { sink := ({} : MemorySink) } with
  | .ok _ final => .ok final.sink.content
  | .error failure _ => .error failure

/-- What a job has written when it ends, be it that it succeeds or that it fails. -/
def written (files : Path → Except StorageError String) (job : Job) : ByteArray :=
  (stateOf (Compilation.compileProgram (fun _ => files) job
    { sink := ({} : MemorySink) })).sink.content

def course (files : Path → Except StorageError String) (job : Job) : Course Unit :=
  Course.run job.bootstrap (Course.file files) job.modules {}

theorem compileProgram_eq (files : Path → Except StorageError String) (job : Job) :
    ∃ log, Compilation.compileProgram (fun _ => files) job { sink := ({} : MemorySink) } =
      ending (job.course files).result ⟨(job.course files).generator,
        { content := (outputOf (job.course files).emissions).toUTF8 }, log⟩ := by
  have follows := @Compilation.follows_compileProgram files job { sink := ({} : MemorySink) } rfl
  obtain ⟨log, ended⟩ := follows.taken _ (Compilation.writeAll_unlimited _ ⟨rfl, rfl⟩)
  rw [join_chunksOf, ByteArray.empty_append] at ended
  exact ⟨log, ended⟩

theorem written_eq (files : Path → Except StorageError String) (job : Job) :
    job.written files = (outputOf (job.course files).emissions).toUTF8 := by
  obtain ⟨log, ended⟩ := compileProgram_eq files job
  rw [written, ended, stateOf_ending]

theorem program_eq (files : Path → Except StorageError String) (job : Job) :
    job.program files = (job.course files).result.map fun _ => job.written files := by
  obtain ⟨log, ended⟩ := compileProgram_eq files job
  rw [program, ended, written_eq]
  cases (job.course files).result <;> rfl

theorem program_eq_ok_iff : job.program files = .ok bytes ↔
    (job.course files).result = .ok () ∧ job.written files = bytes := by
  rw [program_eq]
  cases (job.course files).result <;> simp [Except.map]

theorem program_ok (compiled : job.program files = .ok bytes) :
    ∃ modules, List.Forall₂ (Module.LiesAt files) job.modules modules ∧
      bytes = (String.join ((blocks job.bootstrap modules).map Block.text)).toUTF8 := by
  obtain ⟨succeeds, rfl⟩ := program_eq_ok_iff.mp compiled
  obtain ⟨modules, read⟩ := Course.modules_of_run succeeds
  obtain ⟨log, ended⟩ := compileProgram_eq files job
  rw [written_eq]
  rw [succeeds] at ended
  exact ⟨modules, read, congrArg _ (Produces.job files job rfl read _ ended rfl).listed.text_eq⟩

/-- A job does not depend on other files than its modules. -/
theorem course_congr {others : Path → Except StorageError String}
    (agree : ∀ path ∈ job.modules, files path = others path) :
    job.course files = job.course others := by
  have same : ∀ path ∈ job.modules, Course.file files path = Course.file others path := by
    intro path member
    funext generator
    simp only [Course.file, agree path member]
  have rests : Course.rest (Course.file files) job.modules =
      Course.rest (Course.file others) job.modules := by
    funext generator
    simp only [Course.rest, Course.each_congr same]
  simp only [course, Course.run, rests]

end Job

namespace Unfailing

variable {σ : Type} [Sink σ] {content : σ → ByteArray} {usable : σ → Prop}

theorem kept (unfailing : Unfailing content usable) : Compilation.Kept usable := by
  intro chunks sink after ready written
  obtain ⟨other, same, open_, -⟩ := unfailing.writeAll chunks ready
  cases same.symm.trans written
  exact open_

/-- Over a sink that never fails, a program whose files stay as they are takes all of its course. It
is flushed only if it succeeds. -/
theorem program (unfailing : Unfailing content usable)
    {read : σ → Path → Except StorageError String} {files : Path → Except StorageError String}
    {job : Job}
    (agrees : ∀ path ∈ job.modules, ∀ sink, usable sink → read sink path = files path) {sink : σ}
    (ready : usable sink) (log : Array Event) :
    ∃ after later, usable after ∧
      content after = content sink ++ job.written files ∧
      Compilation.compileProgram read job { sink, log } =
        match (job.course files).result with
        | .ok _ => Compilation.within [] Compilation.flush
          ⟨(job.course files).generator, after, later⟩
        | .error failure => .error failure ⟨(job.course files).generator, after, later⟩ := by
  obtain ⟨after, written, open_, taken⟩ :=
    unfailing.writeAll (chunksOf (job.course files).emissions) ready
  have follows := @Compilation.follows_unflushed _ _ _ _ unfailing.kept _ (Course.file files) _
    (fun path member _ usable => Compilation.follows_file (agrees path member _ usable))
    job.bootstrap { sink, log } ready
  obtain ⟨later, ended⟩ := follows.taken after written
  refine ⟨after, later, open_, ?_, ?_⟩
  · rw [taken, join_chunksOf, Job.written_eq]
  · -- up to the flush the run follows its course, whatever flushing does to the sink
    refine (congrFun (Compilation.run_eq_unflushed _ _ _) _).trans ?_
    rw [run_bind, ended, ← Job.course]
    cases (job.course files).result <;> rfl

end Unfailing

end HackStack
