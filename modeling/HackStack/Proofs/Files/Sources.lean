import HackStack.Proofs.Files.OutputFile

/-! Runs and their sources. Whatever a run reads on its way, it gives contents to its output file
only, and takes that file away if it fails. So a source is safe unless the output file is made in
its place; then it is emptied before it is read. -/
namespace HackStack

namespace Compilation

variable {σ : Type} {kept : σ → Prop}

def Preserves (kept : σ → Prop) (action : CompileM σ Failure α) : Prop :=
  ∀ before : Compilation σ, kept before.sink → kept (stateOf (action before)).sink

theorem Preserves.bind {action : CompileM σ Failure α} {next : α → CompileM σ Failure β}
    (first : Preserves kept action) (second : ∀ value, Preserves kept (next value)) :
    Preserves kept (action >>= next) := by
  intro before ready
  have middle := first before ready
  rw [run_bind]
  cases ended : action before with
  | ok value after =>
    rw [ended] at middle
    exact second value after middle
  | error failure after =>
    rw [ended] at middle
    exact middle

theorem Preserves.forM {action : α → CompileM σ Failure Unit}
    (each : ∀ entry, Preserves kept (action entry)) (entries : List α) :
    Preserves kept (entries.forM action) := by
  induction entries with
  | nil => exact fun _ ready => ready
  | cons entry rest ih =>
    rw [List.forM_eq_forM, List.forM_cons]
    exact (each entry).bind fun _ => ih

theorem preserves_accept (result : Except Failure α) :
    Preserves kept (accept result : CompileM σ Failure α) := by
  intro before ready
  cases result <;> exact ready

theorem preserves_readModule (read : σ → Path → Except StorageError String) (path : Path) :
    Preserves kept (readModule read path) := by
  intro before ready
  rw [readModule_eq]
  cases read before.sink path <;> exact ready

variable [Sink σ]

def compileFile (read : σ → Path → Except StorageError String) (path : Path) :
    CompileM σ Failure Unit := do
  let source ← readModule read path
  compileModule (← accept (Job.moduleName path)) source

def opening (read : σ → Path → Except StorageError String) (job : Job) :
    CompileM σ Failure Unit := do
  if job.bootstrap then within [] Compilation.bootstrap
  job.modules.forM (compileFile read)

theorem compileProgram_parts (read : σ → Path → Except StorageError String) (job : Job) :
    compileProgram read job =
      opening read job >>= fun _ => writeEnd >>= fun _ => within [] flush := by
  refine (run_eq_unflushed job.bootstrap (compileFile read) job.modules).trans ?_
  simp only [unflushed, opening]
  cases job.bootstrap <;> simp [bind_assoc]

end Compilation

namespace Unfailing

variable {σ : Type} [Sink σ] {content : σ → ByteArray} {usable : σ → Prop}

theorem preserves (unfailing : Unfailing content usable) {action : CompileM σ Failure α}
    {course : Generator → Course α}
    (follows : ∀ before, Compilation.Follows action before (course before.generator)) :
    Compilation.Preserves usable action := by
  intro before ready
  obtain ⟨after, written, open_, -⟩ :=
    unfailing.writeAll (chunksOf (course before.generator).emissions) ready
  obtain ⟨log, ended⟩ := (follows before).taken after written
  rw [ended, stateOf_ending]
  exact open_

theorem preserves_opening (unfailing : Unfailing content usable)
    (read : σ → Path → Except StorageError String) (job : Job) :
    Compilation.Preserves usable (Compilation.opening read job) := by
  have file : ∀ path, Compilation.Preserves usable (Compilation.compileFile read path) := by
    intro path
    refine (Compilation.preserves_readModule read path).bind fun source => ?_
    refine (Compilation.preserves_accept _).bind fun name => ?_
    exact unfailing.preserves (Compilation.follows_compileModule name source)
  have files := Compilation.Preserves.forM file job.modules
  unfold Compilation.opening
  cases job.bootstrap with
  | false => exact files
  | true => exact (unfailing.preserves (Compilation.follows_bootstrap [])).bind fun _ => files

/-- However its files change while it writes, a program leaves a sink that never fails usable up to
the flush. If it gets there, then the last bytes are those of the end. -/
theorem program_ends (unfailing : Unfailing content usable)
    (read : σ → Path → Except StorageError String) (job : Job) {sink : σ} (ready : usable sink)
    (log : Array Event) :
    ∃ last : Compilation σ, usable last.sink ∧
      ((∃ failure, Compilation.compileProgram read job { sink, log } = .error failure last) ∨
        (∃ front, content last.sink = front ++ Emission.close.block.text.toUTF8) ∧
          Compilation.compileProgram read job { sink, log } =
            Compilation.within [] Compilation.flush last) := by
  have reached := unfailing.preserves_opening read job { sink, log } ready
  rw [Compilation.compileProgram_parts, run_bind]
  cases ended : Compilation.opening read job { sink, log } with
  | error failure last =>
    rw [ended] at reached
    exact ⟨last, reached, .inl ⟨failure, rfl⟩⟩
  | ok value middle =>
    rw [ended] at reached
    obtain ⟨after, written, open_, taken⟩ :=
      unfailing.writeAll (chunksOf (Course.close middle.generator).emissions) reached
    obtain ⟨later, closed⟩ := (Compilation.follows_writeEnd middle).taken after written
    refine ⟨⟨(Course.close middle.generator).generator, after, later⟩, open_, .inr ⟨?_, ?_⟩⟩
    · rw [join_chunksOf] at taken
      exact ⟨_, taken⟩
    · simp only [run_bind, closed]
      rfl

end Unfailing

/-- What a run leaves once its output file is made: it fails and removes that file, or leaves it
with some bytes if that is refused; or it succeeds, and the last bytes of the file are those of the
end. Nothing else is touched, also if the run reads what it writes. -/
theorem execute_leaves {tree made : FileTree} {location : Location} {job : Job}
    (created : tree.create job.output = .ok (made, location)) :
    ∃ bytes, (∃ failure, (execute tree job).result = .error failure ∧
        (execute tree job).tree = match made.remove location with
          | .ok rest => rest
          | .error _ => made.setFile location bytes) ∨
      (execute tree job).result = .ok job.output ∧
        (execute tree job).tree = made.setFile location bytes ∧
        ∃ front, bytes = front ++ Emission.close.block.text.toUTF8 := by
  have new := FileTree.create_ok created
  obtain ⟨last, fills, ended⟩ := (BufferedFile.unfailing_fills made new.below).program_ends
    (fun file path => file.tree.readText path) job (BufferedFile.fills_of_made new)
    #[Event.planned job.output job.modules.length job.bootstrap]
  have drained := fills.drain new.below
  refine ⟨last.sink.content, ?_⟩
  unfold execute
  simp only [created]
  rcases ended with ⟨failure, ended⟩ | ⟨ends, ended⟩
  · left
    refine ⟨failure, ?_⟩
    simp only [ended, drained, FileTree.remove_setFile]
    cases made.remove location <;> exact ⟨rfl, rfl⟩
  · right
    rw [ended]
    exact ⟨rfl, congrArg BufferedFile.tree drained, ends⟩

/-- A run leaves each of its sources as it was, whether it succeeds or fails, unless its output file
is made in the place of that source. Such a source is gone if the run fails, or overwritten if it
may not be removed. If the run succeeds then it holds bytes of which the last are those of the end
of a program. -/
theorem run_keeps_sources {tree : FileTree} {options : Options} {job : Job}
    (planned : Job.plan tree options = .ok job) :
    let outcome := run tree options
    ∀ path ∈ job.modules, ∀ location content, tree.locate path = .ok location →
      tree.node? location = some (.file content) →
      ((∀ made, tree.create job.output ≠ .ok (made, location)) →
        outcome.tree.locate path = .ok location ∧
          outcome.tree.node? location = some (.file content)) ∧
      (∀ made, tree.create job.output = .ok (made, location) →
        (∃ failure, outcome.result = .error failure) ∧
          (∀ rest, tree.remove location = .ok rest → outcome.tree.node? location = none) ∧
          (∀ error, tree.remove location = .error error →
            ∃ stored, outcome.tree.node? location = some (.file stored)) ∨
        outcome.result = .ok job.output ∧ ∃ front, outcome.tree.node? location =
          some (.file (front ++ Emission.close.block.text.toUTF8))) := by
  intro outcome path _ location content located file
  have same : outcome = execute tree job := by
    simp only [outcome, run, planned]
  rw [same]
  cases created : tree.create job.output with
  | error error =>
    have unchanged : (execute tree job).tree = tree := by
      simp only [execute, created]
    rw [unchanged]
    refine ⟨fun _ => ⟨located, file⟩, fun made hit => ?_⟩
    cases hit
  | ok entry =>
    obtain ⟨made, place⟩ := entry
    have new := FileTree.create_ok created
    obtain ⟨bytes, left⟩ := execute_leaves created
    constructor
    · intro elsewhere
      have apart : location ≠ place := by
        rintro rfl
        exact elsewhere made rfl
      have kept : FileTree.Beside place tree (execute tree job).tree := by
        rcases left with ⟨_, -, left⟩ | ⟨-, left, -⟩
        · rw [left, new.remove]
          cases tree.remove place with
          | ok rest => exact new.removed.1
          | error error => exact (new.filled bytes).1
        · rw [left]
          exact (new.filled bytes).1
      refine ⟨kept.locate_of_ne located apart, ?_⟩
      rw [← kept.others location apart, file]
    · intro again hit
      cases hit
      rcases left with ⟨failure, result, left⟩ | ⟨result, left, front, rfl⟩
      · refine .inl ⟨⟨failure, result⟩, fun rest allowed => ?_, fun error refused => ⟨bytes, ?_⟩⟩
        · simp only [left, new.remove, allowed, Except.map]
          exact new.removed.2.1
        · simp only [left, new.remove, refused, Except.map]
          exact (new.filled bytes).2.1
      · refine .inr ⟨result, front, ?_⟩
        rw [left]
        exact (new.filled _).2.1

def studio : FileTree where
  workingDirectory := ["Prog"]
  nodes := [(["Prog"], .directory), (["Prog", "A.vm"], .file "push constant 7\n".toUTF8),
    (["Prog", "B.vm"], .file "pop constant 0\n".toUTF8)]

def studioJob (output : Path) : Job := ⟨["/Prog/A.vm", "/Prog/B.vm"], output, true⟩

theorem studio_plan (output : Option Path) :
    Job.plan studio { input := "/Prog", output } =
      .ok (studioJob (output.getD "/Prog/Prog.asm")) := by
  have sources : Job.sourcesIn studio ["Prog"] = (["A.vm", "B.vm"] : List FileName) := by
    unfold Job.sourcesIn
    rw [List.mergeSort_of_pairwise]
    · decide +kernel
    · decide +kernel
  have lists : studio.Lists "/Prog" ["Prog"] :=
    ⟨by decide +kernel, rfl, by decide +kernel, by decide +kernel, by decide +kernel⟩
  have known : List.getLast? (["Prog"] : Location) = some (Text.bytes "Prog") := rfl
  have made := Job.defaults_of_lists lists (by rw [sources]; decide) known
  rw [Job.plan_of_defaults made, sources]
  rfl

theorem studio_rejected : (run studio { input := "/Prog" }).result = .error
    { contexts := [.atLine "B" 1], cause := .compiling (.invalidSegment "constant") } := by
  simp only [run, studio_plan]
  decide +kernel

/-- A source is safe from a run over its directory that fails, with the output elsewhere. -/
theorem run_keeps_sources_studio :
    (run studio { input := "/Prog" }).result = .error
        { contexts := [.atLine "B" 1], cause := .compiling (.invalidSegment "constant") } ∧
      (run studio { input := "/Prog" }).tree.locate "/Prog/A.vm" = .ok ["Prog", "A.vm"] ∧
      (run studio { input := "/Prog" }).tree.node? ["Prog", "A.vm"] =
        some (.file "push constant 7\n".toUTF8) := by
  obtain ⟨safe, -⟩ := run_keeps_sources (studio_plan none) "/Prog/A.vm" (by simp [studioJob])
    ["Prog", "A.vm"] _ (by decide +kernel) rfl
  refine ⟨studio_rejected, safe fun made hit => ?_⟩
  have elsewhere := (FileTree.create_ok hit).placed
  revert elsewhere
  decide +kernel

/-- An output path that leads to a source: alone, the source is compiled as an empty one and lost in
a run that succeeds; with another that is rejected, it is lost in a run that fails. -/
theorem run_destroys_source :
    ((run studio { input := "A.vm", output := some "A.vm" }).result = .ok "A.vm" ∧
      (run studio { input := "A.vm", output := some "A.vm" }).tree.node? ["Prog", "A.vm"] =
        some (.file "// end\n(VM$END)\n@VM$END\n0;JMP\n".toUTF8)) ∧
    (run studio { input := "/Prog", output := some "A.vm" }).tree.node? ["Prog", "A.vm"] =
      none := by
  refine ⟨by decide +kernel, ?_⟩
  simp only [run, studio_plan]
  decide +kernel

end HackStack
