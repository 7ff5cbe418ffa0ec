import HackStack.Proofs.Compiler.Listing

/-! The output of a run that succeeds is the text of its listing. Each action of a compilation gets
one lemma that says what it accepted, which state it reached and which text it appended. -/
namespace HackStack
open Assembly

theorem run_bind (action : EStateM ε s α) (next : α → EStateM ε s β) (state : s) :
    (action >>= next) state = match action state with
      | .ok x middle => next x middle
      | .error error middle => .error error middle := rfl

theorem run_bind_ok {action : EStateM ε s α} {next : α → EStateM ε s β} {before after : s}
    {value : β} (run : (action >>= next) before = .ok value after) :
    ∃ x middle, action before = .ok x middle ∧ next x middle = .ok value after := by
  rw [run_bind] at run
  split at run
  · rename_i x middle first
    exact ⟨x, middle, first, run⟩
  · cases run

theorem writeAll_cons [Sink σ] (chunk : String) (rest : List String) (sink : σ) :
    Sink.writeAll (chunk :: rest) sink =
      match Sink.write chunk sink with
      | .ok _ middle => Sink.writeAll rest middle
      | .error cause middle => .error cause middle := by
  rw [Sink.writeAll, List.forM_eq_forM, List.forM_cons, run_bind, ← List.forM_eq_forM,
    ← Sink.writeAll]
  cases Sink.write chunk sink <;> rfl

theorem forall₂_of_mapM {f : α → Except ε β} {entries : List α} {results : List β}
    (mapped : entries.mapM f = .ok results) :
    List.Forall₂ (fun entry result => f entry = .ok result) entries results := by
  induction entries generalizing results with
  | nil =>
    cases mapped
    exact .nil
  | cons entry rest ih =>
    rw [List.mapM_cons] at mapped
    obtain ⟨first, read, mapped⟩ := bind_ok mapped
    obtain ⟨others, later, mapped⟩ := bind_ok mapped
    cases mapped
    exact .cons read (ih later)

theorem exists_of_forall₂ {relation : α → β → Prop} {left : List α} {right : List β}
    (related : List.Forall₂ relation left right) : ∀ y ∈ right, ∃ x ∈ left, relation x y := by
  induction related with
  | nil => nofun
  | @cons x y _ _ first _ ih =>
    intro z member
    rcases List.mem_cons.mp member with rfl | member
    · exact ⟨x, List.mem_cons_self, first⟩
    · obtain ⟨source, inside, same⟩ := ih z member
      exact ⟨source, List.mem_cons_of_mem _ inside, same⟩

def Site.block : Site → Block
  | .setStack => ⟨"bootstrap", Code.setStack⟩
  | .loop label => ⟨"end", Code.loop label⟩
  | .compiled generator command => ⟨command.text, (Site.compiled generator command).code⟩

/-- The blocks of a run, in order. The call of the entry function and the halt loop behind it are
one block. -/
def blocks (bootstrap : Bool) (modules : List Module) : List Block :=
  (if bootstrap then
    [(({} : Generator).setStack).2, (({ started := true } : Generator).callEntry).2]
   else []) ++
  ((startState bootstrap).moduleSites modules).map Site.block ++ [(({} : Generator).close).2]

theorem code_blocks (bootstrap : Bool) (modules : List Module) :
    (blocks bootstrap modules).flatMap Block.code = codeOf (listing bootstrap modules) := by
  have block : ∀ sites : List Site, (sites.map Site.block).flatMap Block.code = codeOf sites := by
    intro sites
    induction sites with
    | nil => rfl
    | cons site rest ih =>
      rw [List.map_cons, List.flatMap_cons, ih, codeOf_cons]
      cases site <;> rfl
  unfold blocks listing
  rw [List.flatMap_append, List.flatMap_append, block, codeOf_append, codeOf_append]
  cases bootstrap <;> rfl

namespace Compilation

def Unlimited (sink : MemorySink) : Prop := sink.limit = none ∧ sink.flushFailure = none

def Appends (before after : Compilation MemorySink) (text : String) : Prop :=
  Unlimited after.sink ∧ after.sink.content = before.sink.content ++ text.toUTF8

theorem Appends.trans {first second third : Compilation MemorySink} {head tail : String}
    (left : Appends first second head) (right : Appends second third tail) :
    Appends first third (head ++ tail) := by
  refine ⟨right.1, ?_⟩
  rw [right.2, left.2, ByteArray.append_assoc]
  simp only [String.toUTF8_eq_toByteArray, String.toByteArray_append]

theorem writeAll_unlimited (chunks : List String) {sink : MemorySink} (free : Unlimited sink) :
    Sink.writeAll chunks sink =
      .ok () { sink with content := sink.content ++ (String.join chunks).toUTF8 } := by
  induction chunks generalizing sink with
  | nil => simp [Sink.writeAll, String.toUTF8_eq_toByteArray, pure, EStateM.pure]
  | cons chunk rest ih =>
    obtain ⟨content, limit, overflow, failure⟩ := sink
    obtain ⟨rfl, rfl⟩ := free
    have written : (Sink.write chunk : EStateM StorageError MemorySink Unit)
        ⟨content, none, overflow, none⟩ =
        .ok () ⟨content ++ chunk.toUTF8, none, overflow, none⟩ := rfl
    rw [writeAll_cons, written]
    refine (@ih ⟨content ++ chunk.toUTF8, none, overflow, none⟩ ⟨rfl, rfl⟩).trans ?_
    simp only [String.join_cons, String.toUTF8_eq_toByteArray, String.toByteArray_append,
      ByteArray.append_assoc]

theorem emit_ok {before after : Compilation MemorySink} {generator : Generator} {block : Block}
    (run : emit (generator, block) before = .ok () after) (free : Unlimited before.sink) :
    after.generator = generator ∧ Appends before after block.text := by
  obtain ⟨old, sink, log⟩ := before
  simp only [emit, writeAll_unlimited _ free] at run
  cases run
  exact ⟨rfl, free, by rw [Block.join_chunks]; rfl⟩

/-- Compiling a command is emitting its block, once the command is known to be accepted. -/
theorem compile_eq [Sink σ] (command : Command) (before : Compilation σ) :
    compile command before =
      let noted : Compilation σ := { before with
        log := before.log.push (.compiling before.generator.module command) }
      match before.generator.code command with
      | .ok code => emit (before.generator.advance command, ⟨command.text, code⟩) noted
      | .error error => .error error noted := by
  obtain ⟨generator, sink, log⟩ := before
  change EStateM.bind _ _ _ = _
  cases generated : generator.code command with
  | ok code =>
    have made : generator.generate command =
        .ok (generator.advance command, ⟨command.text, code⟩) := by
      simp [Generator.generate, generated, bind, Except.bind, pure, Except.pure]
    simp [EStateM.bind, accept, made]
  | error error =>
    have refused : generator.generate command = .error error := by
      simp [Generator.generate, generated, bind, Except.bind]
    simp [EStateM.bind, accept, refused]

theorem compile_ok {before after : Compilation MemorySink} {command : Command}
    (free : Unlimited before.sink) (run : compile command before = .ok () after) :
    (Site.compiled before.generator command).Accepted ∧
      after.generator = before.generator.advance command ∧
      Appends before after (Site.compiled before.generator command).block.text := by
  rw [compile_eq] at run
  cases generated : before.generator.code command with
  | ok code =>
    simp only [generated] at run
    obtain ⟨state, appended⟩ := emit_ok run free
    refine ⟨⟨code, generated⟩, state, ?_⟩
    simpa [Site.block, Site.code, generated, Appends] using appended
  | error error =>
    simp only [generated] at run
    cases run

theorem within_ok {action : CompileM σ Error α} {contexts : List Context}
    {before after : Compilation σ} {value : α}
    (run : within contexts action before = .ok value after) :
    action before = .ok value after := by
  unfold within EStateM.adaptExcept at run
  split at run
  · cases run
  · rename_i result finished
    cases run
    exact finished

theorem accept_ok {result : Except ε α} {before after : Compilation σ} {value : α}
    (run : accept result before = .ok value after) : result = .ok value ∧ after = before := by
  cases result with
  | ok x => cases run; exact ⟨rfl, rfl⟩
  | error error => cases run

def textOf (sites : List Site) : String := String.join (sites.map fun site => site.block.text)

theorem textOf_append (first second : List Site) :
    textOf (first ++ second) = textOf first ++ textOf second := by
  rw [textOf, List.map_append, String.join_append]
  rfl

theorem textOf_sites (generator : Generator) (command : Command) (rest : List Command) :
    textOf (generator.sites (command :: rest)) =
      (Site.compiled generator command).block.text ++
        textOf ((generator.advance command).sites rest) := by
  rw [textOf, Generator.sites, List.map_cons, String.join_cons]
  rfl

theorem compileAll_ok {before after : Compilation MemorySink} {commands : List Command}
    (run : compileAll commands before = .ok () after) (free : Unlimited before.sink) :
    (∀ site ∈ before.generator.sites commands, site.Accepted) ∧
      after.generator = before.generator.after commands ∧
      Appends before after (textOf (before.generator.sites commands)) := by
  induction commands generalizing before with
  | nil =>
    cases run
    refine ⟨nofun, rfl, free, ?_⟩
    simp [textOf, Generator.sites, String.toUTF8_eq_toByteArray]
  | cons command rest ih =>
    rw [compileAll, List.forM_eq_forM, List.forM_cons] at run
    obtain ⟨_, middle, first, last⟩ := run_bind_ok run
    obtain ⟨accepted, state, head⟩ := compile_ok free first
    obtain ⟨others, final, tail⟩ := ih last head.1
    rw [state] at others final tail
    refine ⟨fun site member => ?_, final, ?_⟩
    · rcases List.mem_cons.mp member with rfl | member
      · exact accepted
      · exact others site member
    · rw [textOf_sites]
      exact head.trans tail

theorem compileItem_ok {before after : Compilation MemorySink} {name : String}
    {item : Source.Item} (run : compileItem name item before = .ok () after)
    (free : Unlimited before.sink) :
    ∃ command, item.outcome = .ok command ∧
      (Site.compiled before.generator command).Accepted ∧
      after.generator = before.generator.advance command ∧
      Appends before after (Site.compiled before.generator command).block.text := by
  obtain ⟨command, middle, accepted, compiled⟩ := run_bind_ok (within_ok run)
  obtain ⟨read, rfl⟩ := accept_ok accepted
  exact ⟨command, read, compile_ok free compiled⟩

theorem compileItems_ok {before after : Compilation MemorySink} {name : String}
    {items : List Source.Item} (run : items.forM (compileItem name) before = .ok () after)
    (free : Unlimited before.sink) :
    ∃ commands, items.mapM (·.outcome) = .ok commands ∧
      (∀ site ∈ before.generator.sites commands, site.Accepted) ∧
      after.generator = before.generator.after commands ∧
      Appends before after (textOf (before.generator.sites commands)) := by
  induction items generalizing before with
  | nil =>
    cases run
    refine ⟨[], rfl, nofun, rfl, free, ?_⟩
    simp [textOf, Generator.sites, String.toUTF8_eq_toByteArray]
  | cons item rest ih =>
    rw [List.forM_eq_forM, List.forM_cons] at run
    obtain ⟨_, middle, first, last⟩ := run_bind_ok run
    obtain ⟨command, read, accepted, state, head⟩ := compileItem_ok first free
    obtain ⟨commands, others, allAccepted, final, tail⟩ := ih last head.1
    rw [state] at allAccepted final tail
    refine ⟨command :: commands, ?_, ?_, final, ?_⟩
    · rw [List.mapM_cons, read, others]
      rfl
    · intro site member
      rcases List.mem_cons.mp member with rfl | member
      · exact accepted
      · exact allAccepted site member
    · rw [textOf_sites]
      exact head.trans tail

theorem enterModule_eq (name : String) (before : Compilation σ) :
    enterModule name before =
      match before.generator.enterModule name with
      | .ok next => .ok () ⟨next, before.sink, before.log.push (.entering name)⟩
      | .error error => .error error before := by
  obtain ⟨generator, sink, log⟩ := before
  change EStateM.bind _ _ _ = _
  cases generator.enterModule name with
  | ok next =>
    simp [EStateM.bind, accept]
    rfl
  | error error => simp [EStateM.bind, accept]

theorem enterModule_ok {before after : Compilation σ} {name : String}
    (run : enterModule name before = .ok () after) :
    isSymbol name = true ∧ after.generator = before.generator.enter name ∧
      after.sink = before.sink := by
  rw [enterModule_eq] at run
  split at run
  · rename_i next result
    cases run
    obtain ⟨symbol, entered⟩ := Generator.enterModule_ok_iff.mp result
    exact ⟨symbol, entered, rfl⟩
  · cases run

theorem compileModule_ok {before after : Compilation MemorySink} {name source : String}
    (run : compileModule name source before = .ok () after) (free : Unlimited before.sink) :
    ∃ commands, isSymbol name = true ∧ Source.commands source = .ok commands ∧
      (∀ site ∈ (before.generator.enter name).sites commands, site.Accepted) ∧
      after.generator = (before.generator.enter name).after commands ∧
      Appends before after (textOf ((before.generator.enter name).sites commands)) := by
  obtain ⟨_, middle, first, last⟩ := run_bind_ok run
  obtain ⟨symbol, state, sink⟩ := enterModule_ok (within_ok first)
  obtain ⟨commands, read, accepted, final, appended⟩ :=
    compileItems_ok last (sink ▸ free)
  rw [state] at accepted final appended
  exact ⟨commands, symbol, read, accepted, final, appended.1, sink ▸ appended.2⟩

def Compiles (action : CompileM MemorySink Failure Unit) (module : Module) : Prop :=
  ∃ name source, module.ReadFrom name source ∧ ∀ before after,
    action before = .ok () after → compileModule name source before = .ok () after

theorem compileModules_ok {before after : Compilation MemorySink}
    {action : α → CompileM MemorySink Failure Unit} {entries : List α} {modules : List Module}
    (each : List.Forall₂ (fun entry module => Compiles (action entry) module) entries modules)
    (run : entries.forM action before = .ok () after) (free : Unlimited before.sink) :
    (∀ module ∈ modules, isSymbol module.name = true) ∧
      (∀ site ∈ before.generator.moduleSites modules, site.Accepted) ∧
      Appends before after (textOf (before.generator.moduleSites modules)) := by
  induction each generalizing before with
  | nil =>
    cases run
    refine ⟨nofun, nofun, free, ?_⟩
    simp [textOf, Generator.moduleSites, String.toUTF8_eq_toByteArray]
  | @cons entry module entries modules compiles each ih =>
    rw [List.forM_eq_forM, List.forM_cons] at run
    obtain ⟨_, middle, first, last⟩ := run_bind_ok run
    obtain ⟨name, source, ⟨rfl, read⟩, compiled⟩ := compiles
    obtain ⟨commands, symbol, same, accepted, state, head⟩ :=
      compileModule_ok (compiled _ _ first) free
    cases read.symm.trans same
    obtain ⟨symbols, others, tail⟩ := ih last head.1
    rw [state] at others tail
    refine ⟨?_, ?_, ?_⟩
    · intro other member
      rcases List.mem_cons.mp member with rfl | member
      · exact symbol
      · exact symbols other member
    · intro site member
      rcases List.mem_append.mp member with here | there
      · exact accepted site here
      · exact others site there
    · rw [Generator.moduleSites, textOf_append]
      exact head.trans tail

theorem bootstrap_ok {before after : Compilation MemorySink}
    (run : bootstrap before = .ok () after) (free : Unlimited before.sink) :
    after.generator =
        { before.generator with calls := before.generator.calls + 1, started := true } ∧
      Appends before after (before.generator.setStack.2.text ++
        before.generator.setStack.1.callEntry.2.text) := by
  obtain ⟨_, _, got, run⟩ := run_bind_ok run
  cases got
  by_cases started : before.generator.started = true
  · simp only [started, if_true] at run
    obtain ⟨_, _, thrown, _⟩ := run_bind_ok run
    cases thrown
  · simp only [started] at run
    obtain ⟨_, noted, recorded, run⟩ := run_bind_ok run
    cases recorded
    obtain ⟨_, _, got, run⟩ := run_bind_ok run
    cases got
    obtain ⟨_, middle, first, run⟩ := run_bind_ok run
    obtain ⟨state, head⟩ := emit_ok first free
    obtain ⟨_, _, got, last⟩ := run_bind_ok run
    cases got
    obtain ⟨final, tail⟩ := emit_ok last head.1
    rw [state] at final tail
    exact ⟨final, head.trans tail⟩

theorem finish_ok {before after : Compilation MemorySink} (run : finish before = .ok () after)
    (free : Unlimited before.sink) : Appends before after before.generator.close.2.text := by
  obtain ⟨_, _, got, run⟩ := run_bind_ok run
  cases got
  obtain ⟨_, middle, emitted, flushed⟩ := run_bind_ok run
  obtain ⟨-, appended⟩ := emit_ok emitted free
  obtain ⟨generator, sink, log⟩ := middle
  have quiet : sink.flushFailure = none := appended.1.2
  have flush : Sink.flush sink = .ok () sink := by
    change MemorySink.flush sink = _
    rw [MemorySink.flush, quiet]
  simp only [Compilation.flush, flush] at flushed
  cases flushed
  exact appended

end Compilation

/-- A command as a line of source can give it: its names are symbols. -/
def Command.Named : Command → Prop
  | .label name | .goto name | .ifGoto name => isSymbol name = true
  | .function name _ | .call name _ => isSymbol name = true
  | _ => True

namespace Source

theorem readSymbol_ok {malformed : Reason → Error} {word name : String}
    (read : readSymbol malformed word = .ok name) : isSymbol name = true := by
  unfold readSymbol at read
  split at read
  · cases read
    assumption
  · cases read

theorem interpret_named {malformed : Reason → Error} {head : String} {arguments : List String}
    {command : Command} (read : interpret malformed head arguments = .ok command) :
    command.Named := by
  unfold interpret at read
  split at read
  · obtain ⟨_, -, read⟩ := bind_ok read
    obtain ⟨_, -, read⟩ := bind_ok read
    cases read
    trivial
  · obtain ⟨_, -, read⟩ := bind_ok read
    obtain ⟨_, -, read⟩ := bind_ok read
    cases read
    trivial
  · obtain ⟨_, symbol, read⟩ := bind_ok read
    cases read
    exact readSymbol_ok symbol
  · obtain ⟨_, symbol, read⟩ := bind_ok read
    cases read
    exact readSymbol_ok symbol
  · obtain ⟨_, symbol, read⟩ := bind_ok read
    cases read
    exact readSymbol_ok symbol
  · obtain ⟨_, symbol, read⟩ := bind_ok read
    obtain ⟨_, -, read⟩ := bind_ok read
    cases read
    exact readSymbol_ok symbol
  · obtain ⟨_, symbol, read⟩ := bind_ok read
    obtain ⟨_, -, read⟩ := bind_ok read
    cases read
    exact readSymbol_ok symbol
  all_goals cases read
  all_goals trivial

theorem items_named (source : String) :
    ∀ item ∈ items source, ∀ command, item.outcome = .ok command → command.Named := by
  intro item member command read
  obtain ⟨⟨code, line⟩, -, rfl⟩ := List.mem_map.mp member
  simp only [readLine] at read
  split at read
  · cases read
  · cases read
  · exact interpret_named read

theorem commands_named {source : String} {commands : List Command}
    (read : Source.commands source = .ok commands) : ∀ command ∈ commands, command.Named := by
  intro command member
  obtain ⟨item, inside, outcome⟩ := exists_of_forall₂ (forall₂_of_mapM read) command member
  exact items_named source item inside command outcome

end Source

/-- What a run that succeeds tells about its modules and its output. -/
structure Listed (bootstrap : Bool) (modules : List Module) (text : String) : Prop where
  names : ∀ module ∈ modules, isSymbol module.name = true
  commands : ∀ module ∈ modules, ∀ command ∈ module.commands, command.Named
  accepted : ∀ site ∈ listing bootstrap modules, site.Accepted
  text_eq : text = String.join ((blocks bootstrap modules).map Block.text)

namespace Compilation

theorem readModule_ok {files : Path → Except StorageError String} {path : Path}
    {source text : String}
    {before after : Compilation σ}
    (run : readModule (fun _ => files) path before = .ok text after)
    (file : files path = .ok source) : text = source ∧ after = before := by
  obtain ⟨_, _, got, run⟩ := run_bind_ok run
  cases got
  simp only [file] at run
  cases run
  exact ⟨rfl, rfl⟩

theorem rest_ok {before after : Compilation MemorySink}
    {action : α → CompileM MemorySink Failure Unit} {entries : List α} {modules : List Module}
    (each : List.Forall₂ (fun entry module => Compiles (action entry) module) entries modules)
    (run : (entries.forM action >>= fun _ => within [] finish) before = .ok () after)
    (free : Unlimited before.sink) :
    (∀ module ∈ modules, isSymbol module.name = true) ∧
      (∀ site ∈ before.generator.moduleSites modules, site.Accepted) ∧
      Appends before after (textOf (before.generator.moduleSites modules) ++
        (({} : Generator).close).2.text) := by
  obtain ⟨_, middle, compiled, finished⟩ := run_bind_ok run
  obtain ⟨names, accepted, head⟩ := compileModules_ok each compiled free
  exact ⟨names, accepted, head.trans (finish_ok (within_ok finished) head.1)⟩

/-- What a run of modules, after an optional start, has accepted and written. -/
theorem run_ok {bootstrap : Bool} {after : Compilation MemorySink}
    {action : α → CompileM MemorySink Failure Unit} {entries : List α} {modules : List Module}
    (each : List.Forall₂ (fun entry module => Compiles (action entry) module) entries modules)
    (run : (if bootstrap then
        within [] Compilation.bootstrap >>= fun _ =>
          entries.forM action >>= fun _ => within [] finish
      else entries.forM action >>= fun _ => within [] finish) { sink := {} } = .ok () after) :
    (∀ module ∈ modules, isSymbol module.name = true) ∧
      (∀ site ∈ (startState bootstrap).moduleSites modules, site.Accepted) ∧
      after.sink.content = (String.join ((blocks bootstrap modules).map Block.text)).toUTF8 := by
  have free : Unlimited ({} : MemorySink) := ⟨rfl, rfl⟩
  have text : ∀ sites : List Site,
      String.join ((sites.map Site.block).map Block.text) = textOf sites := by
    intro sites
    rw [List.map_map]
    rfl
  cases bootstrap with
  | false =>
    obtain ⟨names, accepted, -, content⟩ := rest_ok each run free
    refine ⟨names, accepted, ?_⟩
    rw [content, blocks, List.map_append, List.map_append, String.join_append, String.join_append,
      text]
    simp [startState]
  | true =>
    obtain ⟨_, middle, started, run⟩ := run_bind_ok run
    obtain ⟨state, head⟩ := bootstrap_ok (within_ok started) free
    obtain ⟨names, accepted, tail⟩ := rest_ok each run head.1
    rw [state] at accepted tail
    refine ⟨names, accepted, ?_⟩
    rw [(head.trans tail).2, blocks, List.map_append, List.map_append, String.join_append,
      String.join_append, text]
    have entered : (({} : Generator).setStack).1 = { started := true } := rfl
    simp [startState, String.append_assoc, entered]

end Compilation

theorem Produces.read {bootstrap : Bool} {modules : List Module} {text : String}
    (produced : Produces bootstrap modules text) :
    ∀ module ∈ modules, ∃ name source, module.ReadFrom name source := by
  intro module member
  cases produced with
  | job files job started read final run content =>
    obtain ⟨path, -, name, source, -, -, from_⟩ := exists_of_forall₂ read module member
    exact ⟨name, source, from_⟩
  | modules sources read final run content =>
    obtain ⟨entry, -, from_⟩ := exists_of_forall₂ read module member
    exact ⟨entry.1, entry.2, from_⟩

theorem Produces.listed {bootstrap : Bool} {modules : List Module} {text : String}
    (produced : Produces bootstrap modules text) : Listed bootstrap modules text := by
  have start : ∀ site ∈ startSites, site.Accepted := by
    intro site member
    simp only [startSites, List.mem_cons, List.not_mem_nil, or_false] at member
    rcases member with rfl | rfl | rfl
    · trivial
    · exact ⟨_, rfl⟩
    · trivial
  have sources := produced.read
  have assemble : ∀ {final : Compilation MemorySink}, final.sink.content = text.toUTF8 →
      ((∀ module ∈ modules, isSymbol module.name = true) ∧
        (∀ site ∈ (startState bootstrap).moduleSites modules, site.Accepted) ∧
        final.sink.content = (String.join ((blocks bootstrap modules).map Block.text)).toUTF8) →
      Listed bootstrap modules text := by
    rintro final content ⟨names, accepted, same⟩
    refine ⟨names, ?_, ?_, ?_⟩
    · intro module member
      obtain ⟨name, source, -, read⟩ := sources module member
      exact Source.commands_named read
    · intro site member
      rcases List.mem_append.mp member with member | last
      · rcases List.mem_append.mp member with first | inside
        · cases bootstrap with
          | false => simp at first
          | true => exact start site first
        · exact accepted site inside
      · rw [List.mem_singleton.mp last]
        trivial
    · exact String.toByteArray_inj.mp (content.symm.trans same)
  cases produced with
  | job files job started read final run content =>
    subst started
    refine assemble content (Compilation.run_ok (read.imp fun path module found => ?_) run)
    obtain ⟨name, source, named, file, from_⟩ := found
    refine ⟨name, source, from_, fun before after run => ?_⟩
    obtain ⟨text, middle, loaded, rest⟩ := run_bind_ok run
    obtain ⟨_, _, accepted, compiled⟩ := run_bind_ok rest
    obtain ⟨same, rfl⟩ := Compilation.accept_ok accepted
    cases named.symm.trans same
    obtain ⟨rfl, rfl⟩ := Compilation.readModule_ok loaded file
    exact compiled
  | modules sources read final run content =>
    refine assemble content (Compilation.run_ok (read.imp fun entry module from_ => ?_) run)
    exact ⟨entry.1, entry.2, from_, fun _ _ run => run⟩

def compiles (bootstrap : Bool) (sources : List (String × String)) : Bool :=
  match compileModules bootstrap sources ({ sink := {} } : Compilation MemorySink) with
  | .ok .. => true
  | .error .. => false

def readModules (sources : List (String × String)) : Except Error (List Module) :=
  sources.mapM fun (name, source) => return ⟨name, ← Source.commands source⟩

theorem exists_produces_of_run {bootstrap : Bool} {sources : List (String × String)}
    {modules : List Module} {final : Compilation MemorySink}
    (read : List.Forall₂ (fun entry module => Module.ReadFrom module entry.1 entry.2) sources
      modules) (run : compileModules bootstrap sources { sink := {} } = .ok () final) :
    ∃ text, Produces bootstrap modules text := by
  obtain ⟨-, -, content⟩ := Compilation.run_ok
    (read.imp fun entry module from_ => ⟨entry.1, entry.2, from_, fun _ _ run => run⟩) run
  exact ⟨_, .modules sources read final run content⟩

theorem exists_produces {bootstrap : Bool} {sources : List (String × String)}
    {modules : List Module} (read : readModules sources = .ok modules)
    (compiled : compiles bootstrap sources = true) : ∃ text, Produces bootstrap modules text := by
  have each : List.Forall₂ (fun entry module => Module.ReadFrom module entry.1 entry.2) sources
      modules := by
    refine (forall₂_of_mapM read).imp fun entry module made => ?_
    obtain ⟨commands, read, made⟩ := bind_ok made
    cases made
    exact ⟨rfl, read⟩
  unfold compiles at compiled
  split at compiled
  · rename_i final run
    exact exists_produces_of_run each run
  · cases compiled

end HackStack
