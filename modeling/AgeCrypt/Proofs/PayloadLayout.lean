import AgeCrypt.Proofs.Calls
import AgeCrypt.Proofs.PayloadWriting

/-!
# The layout of a payload

What is written of a payload is determined by its bytes and not by the calls that bring them: chunk `i` of `n` is the
part of 64 KiB behind the first `i` of them, encrypted under the number `i` and marked if it is the last one
(`PayloadWriter.finish_of_calls`).
-/

namespace AgeCrypt

namespace Chunk

/-- How many chunks a payload has. There is always one. -/
def count (payload : Bytes) : Nat := if payload = [] then 1 else (payload.length + (size - 1)) / size

/-- The bytes of a payload in the chunk with a given number. -/
def content (payload : Bytes) (number : Nat) : Bytes := (payload.drop (number * size)).take size

/-- The chunks of a payload, each encrypted under eleven bytes of its number, highest first, and a byte that marks the
    last one. -/
def numbered (cipher : Cipher) (payload : Bytes) : Bytes :=
  (List.range (count payload)).flatMap fun i =>
    cipher.encrypt ⟨bigEndian 11 i ++ [if i + 1 = count payload then 1 else 0], by simp⟩ (content payload i)

theorem count_of_isCut {full : List Bytes} {last : Bytes} (isCut : IsCut size full last) :
    count (full.flatten ++ last) = full.length + 1 := by
  have total := length_cut_flatten isCut
  have le := isCut.last_length
  unfold count
  by_cases none : last = []
  · rw [isCut.alone none, none]
    rfl
  · have positive : last.length ≠ 0 := fun empty => none (List.length_eq_zero_iff.1 empty)
    rw [if_neg (by simp [none]), total]
    simp only [size] at le ⊢
    omega

theorem content_zero {piece : Bytes} (full : piece.length = size) (rest : Bytes) : content (piece ++ rest) 0 = piece := by
  rw [content, Nat.zero_mul, List.drop_zero, List.take_left' full]

theorem content_succ {piece : Bytes} (full : piece.length = size) (rest : Bytes) (number : Nat) :
    content (piece ++ rest) (number + 1) = content rest number := by
  rw [content, Nat.succ_mul, Nat.add_comm, ← List.drop_drop, List.drop_left' full, content]

/-- The chunks from one with a given number on, by the numbers behind that one. -/
theorem layoutFrom_eq_range (cipher : Cipher) {full : List Bytes} {last : Bytes}
    (full_length : ∀ piece ∈ full, piece.length = size) (last_length : last.length ≤ size) (counter : Nat) :
    layoutFrom cipher counter (full ++ [last]) = (List.range (full.length + 1)).flatMap fun i =>
      cipher.encrypt (ChunkNonce.toBlock ⟨counter + i, i + 1 = full.length + 1⟩) (content (full.flatten ++ last) i) := by
  induction full generalizing counter with
  | nil =>
    have whole : content last 0 = last := by
      rw [content, Nat.zero_mul, List.drop_zero, List.take_of_length_le last_length]
    simp [layoutFrom, whole]
  | cons piece full ih =>
    have first := full_length piece List.mem_cons_self
    have rest := ih (fun other member => full_length other (List.mem_cons_of_mem piece member)) (counter + 1)
    have numbers : List.range (full.length + 1 + 1) = 0 :: (List.range (full.length + 1)).map Nat.succ :=
      List.range_succ_eq_map
    rw [List.cons_append, layoutFrom_cons (by simp), rest, List.length_cons, numbers, List.flatMap_cons, List.flatMap_map,
      List.flatten_cons, List.append_assoc, content_zero first]
    simp [content_succ first, Nat.add_comm 1, Nat.add_assoc]

/-- The layout of a payload is given by the numbers of its chunks. -/
theorem layout_eq_numbered (cipher : Cipher) (payload : Bytes) : layout cipher payload = numbered cipher payload := by
  obtain ⟨full, last, split_eq, isCut, rfl⟩ := exists_cut size_pos payload
  have chunks : split (full.flatten ++ last) = full ++ [last] := split_eq
  rw [layout, chunks, layoutFrom_eq_range cipher isCut.full_length isCut.last_length, numbered, count_of_isCut isCut]
  simp only [Nat.zero_add, ChunkNonce.toBlock, decide_eq_true_eq]

theorem length_split (payload : Bytes) : (split payload).length = count payload := by
  obtain ⟨full, last, chunks, isCut, rfl⟩ := exists_cut size_pos payload
  rw [count_of_isCut isCut, show split _ = _ from chunks, List.length_append, List.length_singleton]

theorem length_le_of_count {payload : Bytes} (few : count payload ≤ ChunkNonce.range) :
    payload.length ≤ ChunkNonce.range * size :=
  length_le_of_split (length_split payload ▸ few)

end Chunk

namespace PayloadWriter
variable {ω : Type} [Writer ω] {recorded : ω → Bytes → Prop} {cipher : Cipher} {before : Bytes}

/-- A call takes all that it offers while there are numbers for the chunks. -/
theorem call_of_recorded (reliable : Writer.Reliable recorded) {w : PayloadWriter ω} {payload : Bytes}
    (holds : Recorded recorded cipher before w payload) (c : Writer.Call)
    (few : (payload ++ c.bytes).length ≤ ChunkNonce.range * Chunk.size) :
    ∃ w', Writer.call w c = (.ok c.bytes.length, w') ∧ Recorded recorded cipher before w' (payload ++ c.bytes) := by
  cases c with
  | write bs =>
    rcases write_of_recorded reliable.recordsAll holds bs with ⟨w', ok, behind⟩ | ⟨_, _, _, full⟩
    · exact ⟨w', ok, behind⟩
    · exact absurd ⟨few, fun _ => trivial⟩ full
  | flush =>
    obtain ⟨w', step, same⟩ := flush_of_recorded reliable.flushes holds
    exact ⟨w', by rw [Writer.call, step]; rfl, by rwa [Writer.Call.bytes, List.append_nil]⟩

theorem callEach_of_recorded (reliable : Writer.Reliable recorded) (calls : List Writer.Call) {w : PayloadWriter ω}
    {payload : Bytes} (holds : Recorded recorded cipher before w payload)
    (few : (payload ++ Writer.offered calls).length ≤ ChunkNonce.range * Chunk.size) :
    ∃ w', Writer.callEach w calls = (calls.map fun c => .ok c.bytes.length, w') ∧
      Recorded recorded cipher before w' (payload ++ Writer.offered calls) := by
  refine @Writer.callEach_of_calls _ _ (fun payload => payload.length ≤ ChunkNonce.range * Chunk.size) _ ?_
    (fun holds c few => call_of_recorded reliable holds c few) calls _ _ holds few
  intro payload bs few
  rw [List.length_append] at few
  omega

/-- Whatever the calls that bring a payload, all of them and finishing succeed, and the chunks of the payload are
    written by their numbers. -/
theorem finish_of_calls (reliable : Writer.Reliable recorded) (cipher : Cipher) {inner : ω} (written : recorded inner before)
    (calls : List Writer.Call) (few : Chunk.count (Writer.offered calls) ≤ ChunkNonce.range) :
    (Writer.callEach (start cipher inner) calls).1 = (calls.map fun c => .ok c.bytes.length) ∧
    ∃ w, (Writer.callEach (start cipher inner) calls).2.finish = (.ok (), w) ∧
      recorded w.output.inner (before ++ Chunk.numbered cipher (Writer.offered calls)) := by
  obtain ⟨w, answers, behind⟩ :=
    callEach_of_recorded reliable calls (recorded_start written) (Chunk.length_le_of_count few)
  rw [answers, ← Chunk.layout_eq_numbered]
  refine ⟨rfl, ?_⟩
  rcases (finish_of_recorded reliable.recordsAll behind).2 with ⟨w', finishes, layout⟩ | ⟨e, w', _, full⟩
  · exact ⟨w', finishes, layout⟩
  · exact absurd trivial full

/-- Two bytes in four calls, into a sink that takes one byte at a time. -/
theorem finish_of_calls_hi :
    let cipher := Cipher.chaCha20Poly1305 (.zeros 32)
    let sink : Sink := { Sink.unlimited with portion? := some 1 }
    ∃ w, (Writer.callEach (start cipher sink) [.write [104], .flush, .write [], .write [105]]).2.finish = (.ok (), w) ∧
      w.output.inner.bytes = Aead.encrypt (.zeros 32) ⟨[0, 0, 0, 0, 0, 0, 0, 0, 0, 0, 0, 1], rfl⟩ [104, 105] := by
  intro cipher sink
  have reliable := sink.reliable (by decide) rfl
  obtain ⟨_, w, finishes, written, _⟩ := finish_of_calls reliable cipher sink.recorded_refl
    [.write [104], .flush, .write [], .write [105]] (by decide +kernel)
  have short : (Writer.offered [.write [104], .flush, .write [], .write [105]]).length ≤ Chunk.size := by decide
  rw [← Chunk.layout_eq_numbered, Chunk.layout, Chunk.split_of_le short] at written
  exact ⟨w, finishes, written⟩

end PayloadWriter

end AgeCrypt
