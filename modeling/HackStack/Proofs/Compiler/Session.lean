import HackStack.Proofs.Compiler.Course

/-! Sessions: any actions on one compilation, one after the other. An action that fails does not end
a session, which goes on in the state that the failure left. Over a sink that never fails, what a
session writes is the blocks of its actions' courses. -/
namespace HackStack
open Assembly

inductive Action
  | enterModule (name : String)
  | bootstrap
  | compile (command : Command)
  | compileAll (commands : List Command)
  | compileModule (name source : String)
  deriving DecidableEq, Repr, Inhabited

namespace Action

def run [Sink σ] : Action → CompileM σ Failure Unit
  | .enterModule name => Compilation.within [] (Compilation.enterModule name)
  | .bootstrap => Compilation.within [] Compilation.bootstrap
  | .compile command => Compilation.within [] (Compilation.compile command)
  | .compileAll commands => Compilation.within [] (Compilation.compileAll commands)
  | .compileModule name source => Compilation.compileModule name source

def course : Action → Generator → Course Unit
  | .enterModule name => Course.enter [] name
  | .bootstrap => Course.start []
  | .compile command => Course.compile [] command
  | .compileAll commands => Course.each (Course.compile []) commands
  | .compileModule name source => Course.module name source

end Action

/-- A relation between two states of the generator and the blocks that are written between them. The
steps of all actions keep to it, and it can be put together. -/
structure Carried (related : Generator → List Emission → Generator → Prop) : Prop where
  still : ∀ generator, related generator [] generator
  append : ∀ {before middle after first second}, related before first middle →
    related middle second after → related before (first ++ second) after
  enter : ∀ {generator name entered}, generator.enterModule name = .ok entered →
    related generator [] entered
  start : ∀ {generator}, generator.started = false →
    related generator [.setStack, .callEntry generator.setStack.1] generator.setStack.1.callEntry.1
  compile : ∀ {generator command code}, generator.code command = .ok code →
    related generator [.compiled generator command] (generator.advance command)

namespace Carried

variable {related : Generator → List Emission → Generator → Prop} {generator : Generator}

def Along (related : Generator → List Emission → Generator → Prop) (generator : Generator)
    (course : Course α) : Prop :=
  related generator course.emissions course.generator

theorem andThen (carried : Carried related) {course : Course α} {next : α → Generator → Course β}
    (first : Along related generator course)
    (second : ∀ value generator, Along related generator (next value generator)) :
    Along related generator (course.andThen next) := by
  unfold Course.andThen
  split
  · exact carried.append first (second _ _)
  · exact first

theorem each (carried : Carried related) {course : α → Generator → Course Unit}
    (one : ∀ entry generator, Along related generator (course entry generator)) (entries : List α)
    (generator : Generator) : Along related generator (Course.each course entries generator) := by
  induction entries generalizing generator with
  | nil => exact carried.still generator
  | cons entry rest ih => exact carried.andThen (one entry generator) fun _ => ih

theorem along_enter (carried : Carried related) (contexts : List Context) (name : String)
    (generator : Generator) : Along related generator (Course.enter contexts name generator) := by
  unfold Course.enter
  split
  · exact carried.enter ‹_›
  · exact carried.still generator

theorem along_compile (carried : Carried related) (contexts : List Context) (command : Command)
    (generator : Generator) :
    Along related generator (Course.compile contexts command generator) := by
  unfold Course.compile
  split
  · exact carried.compile ‹_›
  · exact carried.still generator

theorem along_item (carried : Carried related) (name : String) (entry : Source.Item)
    (generator : Generator) : Along related generator (Course.item name entry generator) := by
  unfold Course.item
  split
  · exact carried.along_compile _ _ generator
  · exact carried.still generator

theorem along_action (carried : Carried related) (action : Action) (generator : Generator) :
    Along related generator (action.course generator) := by
  cases action with
  | enterModule name => exact carried.along_enter [] name generator
  | bootstrap =>
    change Along related generator (Course.start [] generator)
    unfold Course.start
    split_ifs with started
    · exact carried.still generator
    · exact carried.start (Bool.eq_false_iff.mpr started)
  | compile command => exact carried.along_compile [] command generator
  | compileAll commands => exact carried.each (carried.along_compile []) commands generator
  | compileModule name source =>
    exact carried.andThen (carried.along_enter _ name generator) fun _ =>
      carried.each (carried.along_item name) _

end Carried

namespace Compilation

variable {σ : Type}

theorem within_forM (contexts : List Context) (action : α → CompileM σ Error Unit)
    (entries : List α) :
    within contexts (entries.forM action) =
      entries.forM fun entry => within contexts (action entry) := by
  induction entries with
  | nil => rfl
  | cons entry rest ih =>
    simp only [List.forM_eq_forM, List.forM_cons] at ih ⊢
    rw [within_bind, ih]

variable [Sink σ]

/-- Every action follows its course, whatever the state and whatever the sink does. -/
theorem follows_action (action : Action) (before : Compilation σ) :
    Follows action.run before (action.course before.generator) := by
  cases action with
  | enterModule name => exact follows_enterModule [] name before
  | bootstrap => exact follows_bootstrap [] before
  | compile command => exact follows_compile [] command before
  | compileAll commands =>
    rw [Action.run, compileAll, within_forM]
    exact Follows.forM (follows_compile []) commands before
  | compileModule name source => exact follows_compileModule name source before

/-- The state that a session leaves. -/
def session (actions : List Action) (start : Compilation σ) : Compilation σ :=
  actions.foldl (fun before action => stateOf (action.run before)) start

end Compilation

/-- The blocks that a session writes up to its end: those of each action's course, in the state that
the courses before it have reached. -/
def sessionEmissions : List Action → Generator → List Emission
  | [], _ => [.close]
  | action :: rest, generator =>
    (action.course generator).emissions ++
      sessionEmissions rest (action.course generator).generator

/-- Sinks that never fail, seen through the bytes that they have taken. -/
structure Unfailing [Sink σ] (content : σ → ByteArray) (usable : σ → Prop) : Prop where
  write : ∀ chunk sink, usable sink → ∃ after, Sink.write chunk sink = .ok () after ∧
    usable after ∧ content after = content sink ++ chunk.toUTF8
  flush : ∀ sink, usable sink → ∃ after, Sink.flush sink = .ok () after ∧
    content after = content sink

theorem unfailing_unlimited : Unfailing MemorySink.content Compilation.Unlimited where
  write := by
    rintro chunk ⟨content, _, overflow, _⟩ ⟨rfl, rfl⟩
    exact ⟨_, rfl, ⟨rfl, rfl⟩, rfl⟩
  flush := by
    rintro ⟨content, _, overflow, _⟩ ⟨rfl, rfl⟩
    exact ⟨_, rfl, rfl⟩

namespace Unfailing

variable {σ : Type} [Sink σ] {content : σ → ByteArray} {usable : σ → Prop}

theorem writeAll (unfailing : Unfailing content usable) (chunks : List String) {sink : σ}
    (ready : usable sink) :
    ∃ after, Sink.writeAll chunks sink = .ok () after ∧ usable after ∧
      content after = content sink ++ (String.join chunks).toUTF8 := by
  induction chunks generalizing sink with
  | nil => exact ⟨sink, rfl, ready, by simp [String.toUTF8_eq_toByteArray]⟩
  | cons chunk rest ih =>
    obtain ⟨middle, written, open_, head⟩ := unfailing.write chunk sink ready
    obtain ⟨after, others, last, tail⟩ := ih open_
    refine ⟨after, ?_, last, ?_⟩
    · rw [writeAll_cons, written]
      exact others
    · rw [tail, head, ByteArray.append_assoc]
      simp only [String.join_cons, String.toUTF8_eq_toByteArray, String.toByteArray_append]

theorem action (unfailing : Unfailing content usable) (action : Action) {before : Compilation σ}
    (ready : usable before.sink) :
    resultOf (action.run before) = (action.course before.generator).result ∧
      (stateOf (action.run before)).generator = (action.course before.generator).generator ∧
      usable (stateOf (action.run before)).sink ∧
      content (stateOf (action.run before)).sink = content before.sink ++
        (outputOf (action.course before.generator).emissions).toUTF8 := by
  obtain ⟨sink, written, open_, taken⟩ :=
    unfailing.writeAll (chunksOf (action.course before.generator).emissions) ready
  obtain ⟨log, ended⟩ := (Compilation.follows_action action before).taken sink written
  rw [ended, resultOf_ending, stateOf_ending, ← join_chunksOf]
  exact ⟨rfl, rfl, open_, taken⟩

/-- Over such a sink a session writes the blocks of its courses, and whatever its actions keep to
holds between its ends. -/
theorem session_carried (unfailing : Unfailing content usable)
    {related : Generator → List Emission → Generator → Prop} (carried : Carried related)
    (actions : List Action) {start : Compilation σ} (ready : usable start.sink) :
    ∃ emissions, sessionEmissions actions start.generator = emissions ++ [.close] ∧
      related start.generator emissions (Compilation.session actions start).generator ∧
      content (Compilation.session actions start).sink =
        content start.sink ++ (outputOf emissions).toUTF8 := by
  induction actions generalizing start with
  | nil =>
    refine ⟨[], rfl, carried.still _, ?_⟩
    simp [Compilation.session, outputOf, String.toUTF8_eq_toByteArray]
  | cons action rest ih =>
    obtain ⟨-, generator, open_, head⟩ := unfailing.action action ready
    obtain ⟨emissions, blocks, later, tail⟩ := ih open_
    rw [generator] at blocks later
    refine ⟨(action.course start.generator).emissions ++ emissions, ?_,
      carried.append (carried.along_action action start.generator) later, ?_⟩
    · rw [sessionEmissions, blocks, List.append_assoc]
    · rw [outputOf_append, String.toUTF8_eq_toByteArray, String.toByteArray_append,
        ← String.toUTF8_eq_toByteArray, ← String.toUTF8_eq_toByteArray, ← ByteArray.append_assoc,
        ← head]
      exact tail

theorem session (unfailing : Unfailing content usable) (actions : List Action)
    {start : Compilation σ} (ready : usable start.sink) :
    ∃ final, Compilation.finish (Compilation.session actions start) = .ok () final ∧
      content final.sink = content start.sink ++
        (outputOf (sessionEmissions actions start.generator)).toUTF8 := by
  induction actions generalizing start with
  | nil =>
    obtain ⟨generator, sink, log⟩ := start
    obtain ⟨middle, written, open_, taken⟩ :=
      unfailing.writeAll generator.close.2.chunks ready
    obtain ⟨after, flushed, same⟩ := unfailing.flush middle open_
    refine ⟨⟨generator.close.1, after, log⟩, ?_, ?_⟩
    · change (Compilation.emit generator.close >>= fun _ => Compilation.flush)
        ⟨generator, sink, log⟩ = _
      simp only at written
      simp only [run_bind, Compilation.emit, Compilation.flush, written, flushed]
    · rw [same, taken, sessionEmissions, Block.join_chunks]
      simp only [outputOf, List.map_cons, List.map_nil, String.join_cons, String.join_nil,
        String.append_empty]
      rfl
  | cons action rest ih =>
    obtain ⟨-, generator, open_, head⟩ := unfailing.action action ready
    obtain ⟨final, finished, tail⟩ := ih open_
    refine ⟨final, finished, ?_⟩
    rw [tail, head, generator, ByteArray.append_assoc, sessionEmissions, outputOf_append]
    simp only [String.toUTF8_eq_toByteArray, String.toByteArray_append]

end Unfailing
end HackStack
