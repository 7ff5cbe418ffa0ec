import HackStack.Proofs.Compiler.Course

/-! Limited sinks. Whatever a program is, a sink that holds a number of bytes ends up with as many
bytes of what an unlimited sink takes, and the run fails exactly if these are not all. -/
namespace HackStack
open Assembly

theorem extract_of_size_le {bytes : ByteArray} {limit : Nat} (fits : bytes.size ≤ limit) :
    bytes.extract 0 limit = bytes := by
  have whole := @ByteArray.extract_zero_max_size bytes limit
  rwa [Nat.max_eq_left fits] at whole

theorem extract_append_of_le_size {first second : ByteArray} {limit : Nat}
    (short : limit ≤ first.size) : (first ++ second).extract 0 limit = first.extract 0 limit := by
  rw [ByteArray.extract_append, Nat.zero_sub, Nat.sub_eq_zero_of_le short, ByteArray.extract_same,
    ByteArray.append_empty]

namespace MemorySink

/-- A limited sink takes pieces up to its limit: all of them if they fit, and else as many of their
first bytes as fit. -/
theorem writeAll_limited (chunks : List String) {sink : MemorySink} {limit : Nat}
    (limited : sink.limit = some limit) (fits : sink.content.size ≤ limit) :
    Sink.writeAll chunks sink =
      if (sink.content ++ (String.join chunks).toUTF8).size ≤ limit then
        .ok () { sink with content := sink.content ++ (String.join chunks).toUTF8 }
      else
        .error sink.overflow { sink with
          content := (sink.content ++ (String.join chunks).toUTF8).extract 0 limit } := by
  induction chunks generalizing sink with
  | nil =>
    have whole : sink.content ++ (String.join []).toUTF8 = sink.content := by
      simp [String.toUTF8_eq_toByteArray]
    rw [whole, if_pos fits]
    rfl
  | cons chunk rest ih =>
    obtain ⟨content, _, overflow, failure⟩ := sink
    cases limited
    have joined : content ++ (String.join (chunk :: rest)).toUTF8 =
        (content ++ chunk.toUTF8) ++ (String.join rest).toUTF8 := by
      simp only [String.join_cons, String.toUTF8_eq_toByteArray, String.toByteArray_append,
        ByteArray.append_assoc]
    simp only at fits ⊢
    rw [writeAll_cons, joined]
    by_cases room : (content ++ chunk.toUTF8).size ≤ limit
    · have written : Sink.write chunk (⟨content, some limit, overflow, failure⟩ : MemorySink) =
          .ok () ⟨content ++ chunk.toUTF8, some limit, overflow, failure⟩ := by
        rw [ByteArray.size_append] at room
        exact if_pos (by omega)
      rw [written]
      exact @ih ⟨content ++ chunk.toUTF8, some limit, overflow, failure⟩ rfl room
    · have cut : content ++ chunk.toUTF8.extract 0 (limit - content.size) =
          (content ++ chunk.toUTF8).extract 0 limit := by
        rw [ByteArray.extract_append, extract_of_size_le fits, Nat.zero_sub]
      have refused : Sink.write chunk (⟨content, some limit, overflow, failure⟩ : MemorySink) =
          .error overflow ⟨content ++ chunk.toUTF8.extract 0 (limit - content.size), some limit,
            overflow, failure⟩ := by
        rw [ByteArray.size_append] at room
        exact if_neg (by omega)
      have longer : ¬ (content ++ chunk.toUTF8 ++ (String.join rest).toUTF8).size ≤ limit := by
        rw [ByteArray.size_append]
        omega
      have same := @extract_append_of_le_size _ (String.join rest).toUTF8 _ (Nat.le_of_not_le room)
      rw [refused, cut, if_neg longer, same]

end MemorySink

open Compilation

/-- A limited sink receives exactly a prefix. Whatever the job and its files are, a run into a sink
that holds a number of bytes stores the first bytes of what a run into an unlimited sink stores, as
many as fit. If that is all of them then it has the same result; else it fails because of its
sink. -/
theorem limited_sink_takes_prefix (files : Path → Except StorageError String) (job : Job)
    (limit : Nat) (overflow : StorageError) :
    let whole := compileProgram (fun _ => files) job { sink := ({} : MemorySink) }
    let cut := compileProgram (fun _ => files) job
      { sink := ({ limit := some limit, overflow } : MemorySink) }
    let bytes := (stateOf whole).sink.content
    (stateOf cut).sink.content = bytes.extract 0 (min limit bytes.size) ∧
      (bytes.size ≤ limit → resultOf cut = resultOf whole) ∧
      (limit < bytes.size → ∃ contexts,
        resultOf cut = .error { contexts, cause := .compiling (.sink overflow) }) := by
  intro whole cut bytes
  obtain ⟨log, complete⟩ :=
    (@follows_compileProgram files job { sink := ({} : MemorySink) } rfl).taken _
      (writeAll_unlimited _ ⟨rfl, rfl⟩)
  have follows := @follows_compileProgram files job
    { sink := ({ limit := some limit, overflow } : MemorySink) } rfl
  let course := Course.run job.bootstrap (Course.file files) job.modules {}
  have limited := @MemorySink.writeAll_limited (chunksOf course.emissions)
    { limit := some limit, overflow } limit rfl (Nat.zero_le _)
  have all : bytes = .empty ++ (String.join (chunksOf course.emissions)).toUTF8 := by
    simp only [bytes, whole, complete, stateOf_ending]
    rfl
  simp only [← all] at limited
  by_cases fits : bytes.size ≤ limit
  · rw [if_pos fits] at limited
    obtain ⟨later, ended⟩ := follows.taken _ limited
    have stored : (stateOf cut).sink.content = bytes := by
      simp only [cut, ended, stateOf_ending]
    refine ⟨?_, fun _ => ?_, fun exceeds => absurd fits (Nat.not_le.mpr exceeds)⟩
    · rw [stored, Nat.min_eq_right fits, ByteArray.extract_zero_size]
    · simp only [cut, ended, whole, complete, resultOf_ending]
  · rw [if_neg fits] at limited
    obtain ⟨contexts, after, failed, sink⟩ := follows.hindered _ _ limited
    have stored : (stateOf cut).sink.content = bytes.extract 0 limit := by
      simp only [cut, failed, stateOf, sink]
    refine ⟨?_, fun within => absurd within fits, fun _ => ⟨contexts, ?_⟩⟩
    · rw [stored, Nat.min_eq_left (Nat.le_of_not_le fits)]
    · simp only [cut, failed, resultOf]

end HackStack
