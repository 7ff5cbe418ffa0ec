import HackStack.Proofs.Compiler.Program
import HackStack.Proofs.Files.Buffering
import HackStack.Proofs.Files.Plans

/-! The output file of a run. It is made before the modules are read and is all that a run changes.
Where it is none of the modules, it ends up with the program that the modules give as they were, or
it is removed. If it may not be removed, it keeps what was written until the run failed. -/
namespace HackStack

/-- What a run does once its output file is made: the file takes the program. It keeps it if the run
succeeds. If the run fails, it is removed, or it keeps what there is of the program. -/
theorem execute_of_create {tree made : FileTree} {location : Location} {job : Job}
    (created : tree.create job.output = .ok (made, location))
    (apart : ∀ path ∈ job.modules, ¬ made.SameFile path job.output) :
    ∃ log, execute tree job =
      match job.program made.readText with
      | .ok bytes => { result := .ok job.output, tree := made.setFile location bytes, log }
      | .error failure =>
        match made.remove location with
        | .ok rest => { result := .error failure, tree := rest, log }
        | .error error =>
          { result := .error failure
            tree := made.setFile location (job.written made.readText)
            log := log.push (.leftBehind job.output error) } := by
  have new := FileTree.create_ok created
  have agrees : ∀ path ∈ job.modules, ∀ file, BufferedFile.Fills made location file →
      file.tree.readText path = made.readText path := by
    rintro path member _ ⟨stored, pending, rfl⟩
    refine (FileTree.rewritten_setFile new.below new.empty stored).readText fun there => ?_
    exact apart path member ⟨location, there, new.locate⟩
  obtain ⟨file, log, fills, taken, ended⟩ :=
    (BufferedFile.unfailing_fills made new.below).program agrees (BufferedFile.fills_of_made new)
      #[Event.planned job.output job.modules.length job.bootstrap]
  have start : BufferedFile.content { tree := made, location } = .empty := by
    simp only [BufferedFile.content, new.empty, ByteArray.append_empty]
  rw [start, ByteArray.empty_append] at taken
  refine ⟨log, ?_⟩
  unfold execute
  rw [Job.program_eq]
  simp only [created, ended]
  cases (job.course made.readText).result with
  | ok value =>
    have drained := congrArg BufferedFile.tree (fills.drain new.below)
    rw [taken] at drained
    exact congrArg (fun tree => Outcome.mk (.ok job.output) tree log) drained
  | error failure =>
    cases removed : made.remove location with
    | ok rest =>
      simp only [Except.map, fills.drain new.below, FileTree.remove_setFile, removed]
    | error reason =>
      simp only [Except.map, fills.drain new.below, taken, FileTree.remove_setFile, removed]

/-- The modules of a plan are read as they were when the output file has been made, unless they are
that file. -/
theorem readText_of_create {tree made : FileTree} {location : Location} {options : Options}
    {job : Job} (planned : Job.plan tree options = .ok job)
    (created : tree.create job.output = .ok (made, location))
    (apart : ∀ path ∈ job.modules, ¬ made.SameFile path job.output) :
    ∀ path ∈ job.modules, made.readText path = tree.readText path := by
  intro path member
  have new := FileTree.create_ok created
  obtain ⟨found, located, -⟩ := FileTree.isFile_iff.mp (Job.isFile_of_plan planned path member)
  refine new.beside.readText located ?_
  rintro rfl
  have present : (made.node? found).isSome = true := by rw [new.empty]; rfl
  exact apart path member ⟨found, new.beside.locate located present, new.locate⟩

/-- A run changes only its output file. If it cannot be planned, or if its output file cannot be
made, then it fails for that reason and the tree stays as it is. Otherwise, if no module's path
leads to the output file once that is made, then nothing but that file changes. The run succeeds
exactly if the modules as they were give a program. Then the file holds that program: the start if
it is asked for, the blocks of each module in order, and the end. If the run fails and the file may
be removed, then there is no file at that path, whatever was there before. If it may not be removed,
then the run says so in its log, and the file holds what was written until the run failed. -/
theorem run_changes_output_only (tree : FileTree) (options : Options) :
    let outcome := run tree options
    (∀ failure, Job.plan tree options = .error failure →
      outcome.result = .error failure ∧ outcome.tree = tree) ∧
    (∀ job error, Job.plan tree options = .ok job → tree.create job.output = .error error →
      outcome.result = .error { contexts := [.creating job.output], cause := .storage error } ∧
        outcome.tree = tree) ∧
    (∀ job made location, Job.plan tree options = .ok job →
      tree.create job.output = .ok (made, location) →
      (∀ path ∈ job.modules, ¬ made.SameFile path job.output) →
      FileTree.Beside location tree outcome.tree ∧
      (∀ bytes, job.program tree.readText = .ok bytes →
        outcome.result = .ok job.output ∧
        outcome.tree.locate job.output = .ok location ∧
        outcome.tree.node? location = some (.file bytes) ∧
        ∃ modules, List.Forall₂ (Module.LiesAt tree.readText) job.modules modules ∧
          bytes = (String.join ((blocks job.bootstrap modules).map Block.text)).toUTF8) ∧
      (∀ failure, job.program tree.readText = .error failure →
        outcome.result = .error failure ∧
        (∀ rest, tree.remove location = .ok rest →
          outcome.tree.locate job.output = .error .notFound ∧
          outcome.tree.node? location = none) ∧
        (∀ error, tree.remove location = .error error →
          outcome.tree.locate job.output = .ok location ∧
          outcome.tree.node? location = some (.file (job.written tree.readText)) ∧
          Event.leftBehind job.output error ∈ outcome.log))) := by
  intro outcome
  refine ⟨fun failure planned => ?_, fun job error planned refused => ?_,
    fun job made location planned created apart => ?_⟩
  · simp only [outcome, run, planned]
    trivial
  · simp only [outcome, run, planned, execute, refused]
    trivial
  · have new := FileTree.create_ok created
    have same := Job.course_congr (readText_of_create planned created apart)
    obtain ⟨log, executed⟩ := execute_of_create created apart
    have ended : outcome = execute tree job := by
      simp only [outcome, run, planned]
    rw [Job.program_eq, Job.written_eq, same, ← Job.written_eq, ← Job.program_eq] at executed
    rw [ended]
    cases compiled : job.program tree.readText with
    | ok bytes =>
      simp only [compiled] at executed
      rw [executed]
      obtain ⟨beside, stored, located⟩ := new.filled bytes
      refine ⟨beside, fun other same => ?_, fun failure refused => ?_⟩
      · cases same
        exact ⟨rfl, located, stored, Job.program_ok compiled⟩
      · cases refused
    | error failure =>
      simp only [compiled, new.remove] at executed
      cases removed : tree.remove location with
      | ok rest =>
        simp only [removed, Except.map] at executed
        rw [executed]
        obtain ⟨beside, gone, lost⟩ := new.removed
        refine ⟨beside, fun bytes same => ?_, fun other same => ?_⟩
        · cases same
        · cases same
          refine ⟨rfl, fun _ _ => ⟨lost, gone⟩, fun reason refused => ?_⟩
          cases refused
      | error error =>
        simp only [removed, Except.map] at executed
        rw [executed]
        obtain ⟨beside, stored, located⟩ := new.filled (job.written tree.readText)
        refine ⟨beside, fun bytes same => ?_, fun other same => ?_⟩
        · cases same
        · cases same
          refine ⟨rfl, fun rest allowed => ?_, fun reason refused => ?_⟩
          · cases allowed
          · cases refused
            exact ⟨located, stored, Array.mem_push_self⟩

def workshop (source : String) : FileTree where
  workingDirectory := []
  nodes := [(["Main.vm"], .file source.toUTF8), (["Main.asm"], .file "old".toUTF8),
    (["notes"], .directory), (["notes", "todo"], .file "test".toUTF8)]

/-- The workshop with a source that is rejected in its second line, in a directory that may not be
written. -/
def guardedWorkshop : FileTree :=
  { workshop "push constant 7\npop constant 0\n" with
    refusals := [(([], .write), .permissionDenied)] }

def workshopJob : Job := { modules := ["Main.vm"], output := "Main.asm", bootstrap := false }

theorem workshop_apart {tree : FileTree} (module : tree.locate "Main.vm" = .ok ["Main.vm"])
    (output : tree.locate "Main.asm" = .ok ["Main.asm"]) :
    ∀ path ∈ workshopJob.modules, ¬ tree.SameFile path workshopJob.output := by
  intro path member
  cases List.mem_singleton.mp member
  exact FileTree.not_sameFile module output (by decide)

/-- An earlier output gives way to the program, or to nothing if the second line is rejected. Where
it may not be removed, it gives way to the code of the first line. -/
theorem run_changes_output_only_workshop :
    ((run (workshop "push constant 7\n") { input := "Main.vm" }).result = .ok "Main.asm" ∧
      (run (workshop "push constant 7\n") { input := "Main.vm" }).tree.node? ["Main.asm"] =
        some (.file ("// push constant 7\n@7\nD=A\n@SP\nM=M+1\nA=M-1\nM=D\n" ++
          "// end\n(VM$END)\n@VM$END\n0;JMP\n").toUTF8) ∧
      (run (workshop "push constant 7\n") { input := "Main.vm" }).tree.node? ["notes", "todo"] =
        some (.file "test".toUTF8)) ∧
    ((run (workshop "push constant 7\npop constant 0\n") { input := "Main.vm" }).tree.locate
        "Main.asm" = .error .notFound ∧
      (run (workshop "push constant 7\npop constant 0\n") { input := "Main.vm" }).tree.node?
        ["notes", "todo"] = some (.file "test".toUTF8)) ∧
    (run guardedWorkshop { input := "Main.vm" }).tree.node? ["Main.asm"] =
        some (.file "// push constant 7\n@7\nD=A\n@SP\nM=M+1\nA=M-1\nM=D\n".toUTF8) ∧
      Event.leftBehind "Main.asm" .permissionDenied ∈
        (run guardedWorkshop { input := "Main.vm" }).log := by
  have program : workshopJob.program (workshop "push constant 7\n").readText =
      .ok ("// push constant 7\n@7\nD=A\n@SP\nM=M+1\nA=M-1\nM=D\n" ++
        "// end\n(VM$END)\n@VM$END\n0;JMP\n").toUTF8 := by decide +kernel
  have rejected : workshopJob.program (workshop "push constant 7\npop constant 0\n").readText =
      .error { contexts := [.atLine "Main" 2],
               cause := .compiling (.invalidSegment "constant") } := by decide +kernel
  have refusal : workshopJob.program guardedWorkshop.readText =
      .error { contexts := [.atLine "Main" 2],
               cause := .compiling (.invalidSegment "constant") } := by decide +kernel
  have kept : workshopJob.written guardedWorkshop.readText =
      "// push constant 7\n@7\nD=A\n@SP\nM=M+1\nA=M-1\nM=D\n".toUTF8 := by decide +kernel
  obtain ⟨-, -, sound⟩ :=
    run_changes_output_only (workshop "push constant 7\n") { input := "Main.vm" }
  obtain ⟨-, -, broken⟩ :=
    run_changes_output_only (workshop "push constant 7\npop constant 0\n") { input := "Main.vm" }
  obtain ⟨-, -, guarded⟩ := run_changes_output_only guardedWorkshop { input := "Main.vm" }
  obtain ⟨others, written, -⟩ := sound workshopJob
    ((workshop "push constant 7\n").setFile ["Main.asm"] .empty) ["Main.asm"]
    (by decide +kernel) (by decide +kernel) (workshop_apart (by decide +kernel) (by decide +kernel))
  obtain ⟨besides, -, failed⟩ := broken workshopJob
    ((workshop "push constant 7\npop constant 0\n").setFile ["Main.asm"] .empty) ["Main.asm"]
    (by decide +kernel) (by decide +kernel) (workshop_apart (by decide +kernel) (by decide +kernel))
  obtain ⟨-, -, refused⟩ := guarded workshopJob
    (guardedWorkshop.setFile ["Main.asm"] .empty) ["Main.asm"]
    (by decide +kernel) (by decide +kernel) (workshop_apart (by decide +kernel) (by decide +kernel))
  obtain ⟨result, -, stored, -⟩ := written _ program
  obtain ⟨-, removed, -⟩ := failed _ rejected
  obtain ⟨-, -, left⟩ := refused _ refusal
  obtain ⟨-, partly, reported⟩ := left .permissionDenied (by decide +kernel)
  rw [kept] at partly
  exact ⟨⟨result, stored, (others.others _ (by decide)).symm⟩,
    ⟨(removed _ rfl).1, (besides.others _ (by decide)).symm⟩, partly, reported⟩

/-- A failed run leaves an output file behind: its directory may not be written, while the file
itself may. The file has lost its content and holds the code of the line before the rejected one. -/
theorem run_leaves_partial_output :
    Job.plan guardedWorkshop { input := "Main.vm" } = .ok workshopJob ∧
    (run guardedWorkshop { input := "Main.vm" }).result = .error
      { contexts := [.atLine "Main" 2], cause := .compiling (.invalidSegment "constant") } ∧
    (run guardedWorkshop { input := "Main.vm" }).tree.locate "Main.asm" = .ok ["Main.asm"] ∧
    (run guardedWorkshop { input := "Main.vm" }).tree.node? ["Main.asm"] =
      some (.file "// push constant 7\n@7\nD=A\n@SP\nM=M+1\nA=M-1\nM=D\n".toUTF8) ∧
    (run guardedWorkshop { input := "Main.vm" }).log.back? =
      some (.leftBehind "Main.asm" .permissionDenied) := by
  refine ⟨by decide +kernel, by decide +kernel, by decide +kernel, by decide +kernel,
    by decide +kernel⟩

end HackStack
