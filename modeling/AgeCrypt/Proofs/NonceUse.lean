import AgeCrypt.Proofs.Calls
import AgeCrypt.Proofs.Chunks
import AgeCrypt.Payload.Writer

/-!
# The nonces that a payload writer uses

A payload writer encrypts with a function in the place of the cipher (`ChunkOutput.passBy`). When this is the cipher, but
notes down what it is used for, the writer does the same as without that (`PayloadWriter.Noted.run_writer`). Whatever calls
are made, and however the writer behind it fails, the nonces that the cipher is given are numbered from zero on in their
order, and only finishing marks one. Thus no nonce is used twice (`PayloadWriter.nonces_of_run`), not even for a chunk that
has to be encrypted again because it was refused (`PayloadWriter.Noted.call_of_refused`).
-/

namespace AgeCrypt

/-- What a cipher is used for once. -/
structure Cipher.Use where
  nonce : Block 12
  message : Bytes

/-- Encrypts, and notes down under which nonce. -/
def Cipher.noting (cipher : Cipher) (nonce : Block 12) (message : Bytes) : StateM (List Cipher.Use) Bytes := do
  modify fun uses => uses ++ [⟨nonce, message⟩]
  pure (cipher.encrypt nonce message)

namespace Chunk

/-- Noting down changes nothing else, and that one use is noted down. -/
theorem run_encryptBy_noting (cipher : Cipher) (nonce : ChunkNonce) (chunk : Bytes) (last : Bool) (uses : List Cipher.Use) :
    (encryptBy cipher.noting nonce chunk last).run uses =
      (encrypt cipher nonce chunk last, uses ++
        match nonceOf nonce chunk last with
        | .error _ => []
        | .ok used => [⟨used.toBlock, chunk⟩]) := by
  rw [encryptBy_eq, encrypt_eq]
  cases nonceOf nonce chunk last with
  | error e =>
    rw [List.append_nil]
    rfl
  | ok used => rfl

end Chunk

section
variable {σ τ : Type} {size : Nat} {pos : 0 < size} {pass : σ → Bytes → Except ChannelError Unit × σ}
  {pass' : τ → Bytes → Except ChannelError Unit × τ}

/-- Gathering with a part of the state, where passing pieces on depends on that part alone. -/
theorem gather_part (part : σ → τ) (same : ∀ s piece, pass' (part s) piece = ((pass s piece).1, part (pass s piece).2))
    (s : σ) (held bs : Bytes) : gather size pos pass' (part s) held bs =
      ⟨(gather size pos pass s held bs).result, part (gather size pos pass s held bs).state,
        (gather size pos pass s held bs).held⟩ := by
  fun_induction gather size pos pass s held bs with
  | case1 s held => rw [gather, dif_pos rfl]
  | case2 s held bs some whole e s' step =>
    rw [gather, dif_neg some, if_pos whole, same, step]
  | case3 s held bs some whole s' step ih =>
    rw [gather, dif_neg some, if_pos whole, same, step]
    exact ih
  | case4 s held bs some short ih =>
    rw [gather, dif_neg some, if_neg short]
    exact ih

/-- What passing a piece on keeps, gathering keeps, and it fails as passing a piece on does. -/
theorem gather_keeps {kept : σ → Prop} {fails : σ → ChannelError → Prop}
    (step : ∀ s piece, kept s → piece ≠ [] →
      kept (pass s piece).2 ∧ ∀ e, (pass s piece).1 = .error e → fails (pass s piece).2 e)
    {s : σ} (holds : kept s) (held bs : Bytes) :
    kept (gather size pos pass s held bs).state ∧
      ∀ e, (gather size pos pass s held bs).result = .error e → fails (gather size pos pass s held bs).state e := by
  fun_induction gather size pos pass s held bs with
  | case1 s held => exact ⟨holds, fun e none => by cases none⟩
  | case2 s held bs some whole e s' passes =>
    have next := step s held holds (by rintro rfl; simp at whole; omega)
    rw [passes] at next
    exact next
  | case3 s held bs some whole s' passes ih =>
    have next := step s held holds (by rintro rfl; simp at whole; omega)
    rw [passes] at next
    exact ih next.1
  | case4 s held bs some short ih => exact ih holds

/-- Bytes that are no more than a piece with those held before are held. -/
theorem gather_of_le (s : σ) {held bs : Bytes} (le : held.length + bs.length ≤ size) :
    gather size pos pass s held bs = ⟨.ok (), s, held ++ bs⟩ := by
  rw [gather]
  by_cases none : bs = []
  · rw [dif_pos none, none, List.append_nil]
  · have positive := List.length_pos_iff.2 none
    rw [dif_neg none, if_neg (by omega), List.take_of_length_le (by omega), List.drop_eq_nil_of_le (by omega), gather,
      dif_pos rfl]

/-- Nothing is held behind any bytes, unless there were none. -/
theorem held_gather_eq_nil {s : σ} {held bs : Bytes} (none : (gather size pos pass s held bs).held = []) :
    held = [] ∧ bs = [] := by
  fun_induction gather size pos pass s held bs with
  | case1 s held => exact ⟨none, rfl⟩
  | case2 s held bs some whole e s' passes =>
    obtain rfl : held = [] := none
    simp at whole
    omega
  | case3 s held bs some whole s' passes ih => exact absurd (ih none).2 some
  | case4 s held bs some short ih =>
    obtain ⟨first, rest⟩ := ih none
    have cut := List.take_append_drop (size - held.length) bs
    rw [(List.append_eq_nil_iff.1 first).2, rest] at cut
    exact absurd cut.symm some

end

/-- A chunk output with what it has used its cipher for. -/
structure ChunkOutput.Noted (ω : Type) where
  output : ChunkOutput ω
  uses : List Cipher.Use

/-- A payload writer with what it has used its cipher for. -/
structure PayloadWriter.Noted (ω : Type) where
  output : ChunkOutput.Noted ω
  chunk : Bytes

section
variable {ω : Type} [Writer ω]

namespace ChunkOutput.Noted

/-- The nonces that the cipher was given. -/
def nonces (o : Noted ω) : List (Block 12) := o.uses.map Cipher.Use.nonce

/-- Passes a chunk on with the cipher that notes down what it is used for. -/
def pass (o : Noted ω) (chunk : Bytes) (last : Bool) : Except ChannelError Unit × Noted ω :=
  let ((result, output), uses) := (o.output.passBy o.output.cipher.noting chunk last).run o.uses
  (result, ⟨output, uses⟩)

/-- A chunk is passed on as without notes, and the cipher is used under its nonce, even if it is not written then. -/
theorem pass_eq (o : Noted ω) (chunk : Bytes) (last : Bool) :
    o.pass chunk last = ((o.output.pass chunk last).1, ⟨(o.output.pass chunk last).2, o.uses ++
      match Chunk.nonceOf o.output.nonce chunk last with
      | .error _ => []
      | .ok used => [⟨used.toBlock, chunk⟩]⟩) := by
  have noted := Chunk.run_encryptBy_noting o.output.cipher o.output.nonce chunk last o.uses
  rw [pass, ChunkOutput.passBy, StateT.run_bind, noted, ChunkOutput.pass_eq]
  rfl

@[simp] theorem pass_result (o : Noted ω) (chunk : Bytes) (last : Bool) :
    (o.pass chunk last).1 = (o.output.pass chunk last).1 := by rw [pass_eq]

@[simp] theorem pass_output (o : Noted ω) (chunk : Bytes) (last : Bool) :
    (o.pass chunk last).2.output = (o.output.pass chunk last).2 := by rw [pass_eq]

end ChunkOutput.Noted

namespace PayloadWriter

/-- Makes calls on a new payload writer and finishes it or not. -/
def run (cipher : Cipher) (inner : ω) : List Writer.Call → Bool → List (Except ChannelError Nat) × PayloadWriter ω :=
  Writer.run finish (start cipher inner)

namespace Noted

def start (cipher : Cipher) (inner : ω) : Noted ω := ⟨⟨⟨cipher, .first, inner⟩, []⟩, []⟩

/-- The payload writer, without what was noted down. -/
def writer (w : Noted ω) : PayloadWriter ω := ⟨w.output.output, w.chunk⟩

def write (w : Noted ω) (bs : Bytes) : Except ChannelError Nat × Noted ω :=
  let gathered := gather Chunk.size Chunk.size_pos (fun o chunk => o.pass chunk false) w.output w.chunk bs
  (gathered.result.map fun _ => bs.length, ⟨gathered.state, gathered.held⟩)

instance : Writer (Noted ω) where
  write := write
  flush w :=
    let (result, inner) := Writer.flush w.output.output.inner
    (result, { w with output := { w.output with output := { w.output.output with inner } } })

def finish (w : Noted ω) : Except ChannelError Unit × Noted ω :=
  let (result, output) := w.output.pass w.chunk true
  (result, { w with output })

def run (cipher : Cipher) (inner : ω) : List Writer.Call → Bool → List (Except ChannelError Nat) × Noted ω :=
  Writer.run finish (start cipher inner)

theorem call_writer (w : Noted ω) (c : Writer.Call) :
    Writer.call w.writer c = ((Writer.call w c).1, (Writer.call w c).2.writer) := by
  cases c with
  | write bs =>
    have part := @gather_part _ _ Chunk.size Chunk.size_pos (fun o chunk => ChunkOutput.Noted.pass o chunk false)
      (fun o chunk => ChunkOutput.pass o chunk false) (fun o : ChunkOutput.Noted ω => o.output)
      (fun o chunk => by rw [o.pass_eq])
      w.output w.chunk bs
    show w.writer.write bs = _
    rw [PayloadWriter.write, writer, part]
    rfl
  | flush => rfl

theorem finish_writer (w : Noted ω) : w.writer.finish = (w.finish.1, w.finish.2.writer) := by
  rw [finish, ChunkOutput.Noted.pass_eq]
  rfl

theorem callEach_writer (w : Noted ω) (calls : List Writer.Call) :
    Writer.callEach w.writer calls = ((Writer.callEach w calls).1, (Writer.callEach w calls).2.writer) := by
  induction calls generalizing w with
  | nil => rfl
  | cons c calls ih =>
    rw [Writer.callEach_cons (call_writer w c), ih]
    rfl

/-- A writer whose cipher notes down what it is used for answers as one whose cipher does not, and becomes the same. -/
theorem run_writer (cipher : Cipher) (inner : ω) (calls : List Writer.Call) (finishes : Bool) :
    PayloadWriter.run cipher inner calls finishes =
      ((run cipher inner calls finishes).1, (run cipher inner calls finishes).2.writer) := by
  have same := callEach_writer (start cipher inner) calls
  change Writer.callEach (PayloadWriter.start cipher inner) calls = _ at same
  rw [PayloadWriter.run, Writer.run, same, run]
  cases finishes with
  | false => rfl
  | true =>
    dsimp only [if_true]
    rw [finish_writer]
    rfl

end Noted

end PayloadWriter

/-- A nonce has none behind it only if its number is the highest. -/
theorem ChunkNonce.after_ordered (count : Nat) :
    (ChunkNonce.after ⟨count % range, false⟩ false).2 = ⟨(count + 1) % range, false⟩ ∧
      ∀ e, (ChunkNonce.after ⟨count % range, false⟩ false).1 = .error e → range ≤ count + 1 := by
  unfold after
  rw [if_neg Bool.false_ne_true]
  dsimp only
  by_cases highest : count % range + 1 = range
  · rw [if_pos highest]
    have next : (count + 1) % range = 0 := by
      rw [range_eq] at *
      omega
    have le := Nat.mod_le count range
    exact ⟨by rw [next], fun _ _ => by omega⟩
  · rw [if_neg highest]
    have next : (count + 1) % range = count % range + 1 := by
      rw [range_eq] at *
      omega
    exact ⟨by rw [next], fun e none => by cases none⟩

namespace ChunkOutput

/-- Behind a chunk that is encrypted stands the nonce after its own, and what fails is the number or the writer. -/
theorem pass_of_nonceOf {first : ω} {o : ChunkOutput ω} (reached : Writer.Reaches first o.inner) {chunk : Bytes}
    {last : Bool} {used : ChunkNonce} (encrypts : Chunk.nonceOf o.nonce chunk last = .ok used) :
    (o.pass chunk last).2.nonce = (o.nonce.after last).2 ∧ Writer.Reaches first (o.pass chunk last).2.inner ∧
      ∀ e, (o.pass chunk last).1 = .error e →
        Writer.Fails first e ∨ ∃ cause, (o.nonce.after last).1 = .error cause := by
  rw [pass_eq, Chunk.encrypt_eq, encrypts]
  dsimp only
  cases o.nonce.after last with | mk result behind =>
  cases result with
  | error cause => exact ⟨rfl, reached, fun _ _ => .inr ⟨cause, rfl⟩⟩
  | ok done =>
    obtain ⟨next, fails⟩ := Writer.writeAll_of_reaches reached (o.cipher.encrypt used.toBlock chunk)
    exact ⟨rfl, next, fun e failed => .inl (fails e failed)⟩

namespace Noted
variable {first : ω}

/-- The nonces are numbered in their order, beginning again when there are no more numbers, and none is marked. -/
structure Ordered (first : ω) (o : Noted ω) : Prop where
  reached : Writer.Reaches first o.output.inner
  nonces_eq : o.nonces = (List.range o.nonces.length).map fun i => ChunkNonce.toBlock ⟨i % ChunkNonce.range, false⟩
  nonce_eq : o.output.nonce = ⟨o.nonces.length % ChunkNonce.range, false⟩

/-- A chunk that is passed on uses one more nonce, the next one. -/
theorem nonces_pass {o : Noted ω} (ordered : o.Ordered first) (chunk : Bytes) (last : Bool)
    (some : chunk = [] → last = true ∧ o.nonces = []) :
    Chunk.nonceOf o.output.nonce chunk last = .ok ⟨o.nonces.length % ChunkNonce.range, last⟩ ∧
      (o.pass chunk last).2.nonces = o.nonces ++ [ChunkNonce.toBlock ⟨o.nonces.length % ChunkNonce.range, last⟩] := by
  have encrypts : Chunk.nonceOf o.output.nonce chunk last = .ok ⟨o.nonces.length % ChunkNonce.range, last⟩ := by
    rw [ordered.nonce_eq]
    refine Chunk.nonceOf_eq_ok fun empty => ?_
    obtain ⟨finishing, first⟩ := some empty
    rw [first]
    exact ⟨finishing, Nat.zero_mod _⟩
  refine ⟨encrypts, ?_⟩
  rw [pass_eq, nonces, encrypts, List.map_append]
  rfl

theorem nonces_of_few {o : Noted ω} (ordered : o.Ordered first) (few : o.nonces.length < ChunkNonce.range) :
    o.nonces = (List.range o.nonces.length).map fun i => ChunkNonce.toBlock ⟨i, false⟩ := by
  conv => lhs; rw [ordered.nonces_eq]
  refine List.map_congr_left fun i member => ?_
  rw [Nat.mod_eq_of_lt (Nat.lt_trans (List.mem_range.1 member) few)]

/-- Passing a chunk on keeps the order. It fails as the writer does, or for want of numbers. -/
theorem ordered_pass {o : Noted ω} (ordered : o.Ordered first) {chunk : Bytes} (some : chunk ≠ []) :
    (o.pass chunk false).2.Ordered first ∧ o.nonces.length ≤ (o.pass chunk false).2.nonces.length ∧
      ∀ e, (o.pass chunk false).1 = .error e →
        Writer.Fails first e ∨ ChunkNonce.range ≤ (o.pass chunk false).2.nonces.length := by
  obtain ⟨encrypts, nonces⟩ := nonces_pass ordered chunk false fun empty => absurd empty some
  obtain ⟨behind, reached, failure⟩ := pass_of_nonceOf ordered.reached encrypts
  obtain ⟨next, highest⟩ := ChunkNonce.after_ordered o.nonces.length
  rw [ordered.nonce_eq] at behind failure
  have longer : (o.pass chunk false).2.nonces.length = o.nonces.length + 1 := by
    rw [nonces, List.length_append, List.length_singleton]
  refine ⟨⟨?_, ?_, ?_⟩, by omega, fun e fails => ?_⟩
  · rw [pass_output]
    exact reached
  · rw [longer, nonces, List.range_succ, List.map_append, ← ordered.nonces_eq]
    rfl
  · rw [longer, pass_output, behind, next]
  · rw [pass_result] at fails
    rw [longer]
    exact (failure e fails).imp_right fun ⟨cause, exhausted⟩ => highest cause exhausted

end Noted

end ChunkOutput

namespace PayloadWriter.Noted
variable {first : ω}

/-- The nonces are in order, and there are none yet if no bytes are held. -/
structure Ordered (first : ω) (w : Noted ω) : Prop where
  output : w.output.Ordered first
  stocked : w.chunk = [] → w.output.nonces = []

theorem ordered_start (cipher : Cipher) (inner : ω) : (start cipher inner).Ordered inner where
  output := ⟨.start, rfl, rfl⟩
  stocked := fun _ => rfl

/-- A call keeps the order. -/
theorem ordered_call {w : Noted ω} (ordered : w.Ordered first) (c : Writer.Call) :
    (Writer.call w c).2.Ordered first ∧ w.output.nonces.length ≤ (Writer.call w c).2.output.nonces.length ∧
      ∀ e, (Writer.call w c).1 = .error e →
        Writer.Fails first e ∨ ChunkNonce.range ≤ (Writer.call w c).2.output.nonces.length := by
  cases c with
  | write bs =>
    have keeps := @gather_keeps _ Chunk.size Chunk.size_pos (fun o chunk => ChunkOutput.Noted.pass o chunk false)
      (fun o => o.Ordered first ∧ w.output.nonces.length ≤ o.nonces.length)
      (fun o e => Writer.Fails first e ∨ ChunkNonce.range ≤ o.nonces.length)
      (fun o chunk holds some => by
        obtain ⟨ordered, longer, fails⟩ := ChunkOutput.Noted.ordered_pass holds.1 some
        exact ⟨⟨ordered, Nat.le_trans holds.2 longer⟩, fails⟩)
      w.output ⟨ordered.output, Nat.le_refl _⟩ w.chunk bs
    obtain ⟨⟨output, longer⟩, fails⟩ := keeps
    refine ⟨⟨output, fun empty => ?_⟩, longer, fun e failed => fails e ?_⟩
    · obtain ⟨none, rfl⟩ := held_gather_eq_nil empty
      have idle : (Writer.call w (.write [])).2 = w := by
        show (w.write []).2 = w
        rw [write, gather, dif_pos rfl]
      rw [idle]
      exact ordered.stocked none
    · exact Writer.error_of_map failed
  | flush =>
    have reached := ordered.output.reached
    refine ⟨⟨⟨reached.flush, ordered.output.nonces_eq, ordered.output.nonce_eq⟩, ordered.stocked⟩, Nat.le_refl _, ?_⟩
    intro e failed
    have flushes : (Writer.flush w.output.output.inner).1 = .error e := Writer.error_of_map failed
    exact .inl (.flush reached flushes)

theorem ordered_callEach {w : Noted ω} (ordered : w.Ordered first) (calls : List Writer.Call) :
    (Writer.callEach w calls).2.Ordered first ∧
      w.output.nonces.length ≤ (Writer.callEach w calls).2.output.nonces.length ∧
      ∀ e, .error e ∈ (Writer.callEach w calls).1 →
        Writer.Fails first e ∨ ChunkNonce.range ≤ (Writer.callEach w calls).2.output.nonces.length := by
  induction calls generalizing w with
  | nil => exact ⟨ordered, Nat.le_refl _, fun e member => by cases member⟩
  | cons c calls ih =>
    obtain ⟨next, longer, fails⟩ := ordered_call ordered c
    obtain ⟨last, longer', fails'⟩ := ih next
    rw [Writer.callEach_cons (Prod.ext rfl rfl)]
    refine ⟨last, Nat.le_trans longer longer', fun e member => ?_⟩
    rcases List.mem_cons.1 member with same | member
    · exact (fails e same.symm).imp_right fun le => Nat.le_trans le longer'
    · exact fails' e member

/-- Finishing uses the next nonce, and marks it. -/
theorem finish_of_ordered {w : Noted ω} (ordered : w.Ordered first) :
    w.finish.2.output.nonces = w.output.nonces ++ [ChunkNonce.toBlock ⟨w.output.nonces.length % ChunkNonce.range, true⟩] ∧
      ∀ e, w.finish.1 = .error e → Writer.Fails first e := by
  obtain ⟨encrypts, nonces⟩ := ChunkOutput.Noted.nonces_pass ordered.output w.chunk true
    fun empty => ⟨rfl, ordered.stocked empty⟩
  refine ⟨nonces, fun e failed => ?_⟩
  rw [finish, ChunkOutput.Noted.pass_result] at failed
  rcases (ChunkOutput.pass_of_nonceOf ordered.output.reached encrypts).2.2 e failed with fails | ⟨cause, none⟩
  · exact fails
  · cases none

/-- A run uses the nonces of its calls, and one more if it finishes. -/
theorem run_of_ordered (cipher : Cipher) (inner : ω) (calls : List Writer.Call) (finishes : Bool) :
    ∃ before : ChunkOutput.Noted ω, before.Ordered inner ∧
      (run cipher inner calls finishes).2.output.nonces =
        before.nonces ++ (if finishes then [ChunkNonce.toBlock ⟨before.nonces.length % ChunkNonce.range, true⟩] else []) ∧
      ∀ e, .error e ∈ (run cipher inner calls finishes).1 →
        Writer.Fails inner e ∨ ChunkNonce.range ≤ before.nonces.length := by
  obtain ⟨ordered, _, fails⟩ := ordered_callEach (ordered_start cipher inner) calls
  refine ⟨(Writer.callEach (start cipher inner) calls).2.output, ordered.output, ?_⟩
  obtain ⟨nonces, failure⟩ := finish_of_ordered ordered
  cases finishes with
  | false => exact ⟨(List.append_nil _).symm, fails⟩
  | true =>
    refine ⟨nonces, fun e member => ?_⟩
    rcases List.mem_append.1 member with member | member
    · exact fails e member
    · exact .inl (failure e (Writer.error_of_map (List.mem_singleton.1 member).symm))

end PayloadWriter.Noted

section
variable {cipher : Cipher} {counter : Nat} {inner inner' : ω} {uses : List Cipher.Use} {chunk : Bytes}
  {e : ChannelError}

/-- A chunk that the writer behind refuses has used its nonce. -/
theorem ChunkOutput.Noted.pass_of_refused {last : Bool} (some : chunk ≠ []) (few : counter + 1 < ChunkNonce.range)
    (refused : Writer.writeAll inner (cipher.encrypt (ChunkNonce.toBlock ⟨counter, last⟩) chunk) = (.error e, inner')) :
    pass ⟨⟨cipher, ⟨counter, false⟩, inner⟩, uses⟩ chunk last =
      (.error e, ⟨⟨cipher, if last then ⟨counter, true⟩ else ⟨counter + 1, false⟩, inner'⟩,
        uses ++ [⟨ChunkNonce.toBlock ⟨counter, last⟩, chunk⟩]⟩) := by
  have encrypts := @Chunk.nonceOf_eq_ok counter chunk last fun empty => absurd empty some
  have behind : ChunkNonce.after ⟨counter, false⟩ last =
      (.ok (), if last then ⟨counter, true⟩ else ⟨counter + 1, false⟩) := by
    cases last with
    | false => exact if_neg (Nat.ne_of_lt few)
    | true => rfl
  rw [pass_eq, ChunkOutput.pass_eq, Chunk.encrypt_eq, encrypts, behind]
  dsimp only [Except.map, ChunkOutput.passOn]
  rw [refused]

/-- A full chunk that is refused is held, and is encrypted again under the next nonce. -/
theorem PayloadWriter.Noted.call_of_refused {bs : Bytes} (full : chunk.length = Chunk.size) (more : bs ≠ [])
    (few : counter + 1 < ChunkNonce.range)
    (refused : Writer.writeAll inner (cipher.encrypt (ChunkNonce.toBlock ⟨counter, false⟩) chunk) = (.error e, inner')) :
    Writer.call (⟨⟨⟨cipher, ⟨counter, false⟩, inner⟩, uses⟩, chunk⟩ : Noted ω) (.write bs) =
      (.error e, ⟨⟨⟨cipher, ⟨counter + 1, false⟩, inner'⟩, uses ++ [⟨ChunkNonce.toBlock ⟨counter, false⟩, chunk⟩]⟩,
        chunk⟩) := by
  have some : chunk ≠ [] := List.ne_nil_of_length_pos (full ▸ Chunk.size_pos)
  show write _ bs = _
  rw [write, gather, dif_neg more, if_pos (Nat.le_of_eq full.symm), ChunkOutput.Noted.pass_of_refused some few refused]
  rfl

/-- A chunk that is refused when the payload is finished has used its nonce as the last one. -/
theorem PayloadWriter.Noted.finish_of_refused (some : chunk ≠ []) (few : counter + 1 < ChunkNonce.range)
    (refused : Writer.writeAll inner (cipher.encrypt (ChunkNonce.toBlock ⟨counter, true⟩) chunk) = (.error e, inner')) :
    finish (⟨⟨⟨cipher, ⟨counter, false⟩, inner⟩, uses⟩, chunk⟩ : Noted ω) =
      (.error e, ⟨⟨⟨cipher, ⟨counter, true⟩, inner'⟩, uses ++ [⟨ChunkNonce.toBlock ⟨counter, true⟩, chunk⟩]⟩, chunk⟩) := by
  rw [finish, ChunkOutput.Noted.pass_of_refused some few refused]
  rfl

end

/-- Nonces that are numbered in their order differ as nonces of the cipher, as long as there are numbers. -/
theorem ChunkNonce.nodup_toBlock {nonces : List ChunkNonce} (few : nonces.length ≤ range)
    (numbered : nonces.map counter = List.range nonces.length) : (nonces.map toBlock).Nodup := by
  have differ : (nonces.map counter).Nodup := numbered ▸ List.nodup_range
  have small : ∀ nonce ∈ nonces, nonce.counter < range := by
    intro nonce member
    have := List.mem_map_of_mem (f := counter) member
    rw [numbered, List.mem_range] at this
    omega
  rw [List.Nodup, List.pairwise_map] at differ ⊢
  refine differ.imp_of_mem fun first second distinct same => distinct ?_
  rw [toBlock_injective (small _ first) (small _ second) same]

namespace PayloadWriter

/-- Whatever calls are made on a payload writer before it is finished or not, and however the writer behind it fails,
    the cipher is given the numbers from zero on, none of which is used twice, and the nonce is marked only for the
    chunk that finishing writes. No call fails but as the writer behind it does, so that no chunk is ever refused
    as empty or as one behind the last. -/
theorem nonces_of_run (cipher : Cipher) (inner : ω) (calls : List Writer.Call) (finishes : Bool)
    (few : (Noted.run cipher inner calls finishes).2.output.nonces.length < ChunkNonce.range) :
    run cipher inner calls finishes =
      ((Noted.run cipher inner calls finishes).1, (Noted.run cipher inner calls finishes).2.writer) ∧
    (∃ count, (Noted.run cipher inner calls finishes).2.output.nonces =
      (List.range count).map (fun i => ChunkNonce.toBlock ⟨i, false⟩) ++
        if finishes then [ChunkNonce.toBlock ⟨count, true⟩] else []) ∧
    (Noted.run cipher inner calls finishes).2.output.nonces.Nodup ∧
    ∀ e, .error e ∈ (run cipher inner calls finishes).1 → Writer.Fails inner e := by
  obtain ⟨before, ordered, nonces, fails⟩ := Noted.run_of_ordered cipher inner calls finishes
  have shorter : before.nonces.length ≤ (Noted.run cipher inner calls finishes).2.output.nonces.length := by
    rw [nonces, List.length_append]
    exact Nat.le_add_right _ _
  have numbers := ChunkOutput.Noted.nonces_of_few ordered (Nat.lt_of_le_of_lt shorter few)
  rw [Nat.mod_eq_of_lt (Nat.lt_of_le_of_lt shorter few)] at nonces
  refine ⟨Noted.run_writer cipher inner calls finishes, ⟨before.nonces.length, by rw [nonces, ← numbers]⟩, ?_, ?_⟩
  · let used := (List.range before.nonces.length).map (fun i => (⟨i, false⟩ : ChunkNonce)) ++
      if finishes then [⟨before.nonces.length, true⟩] else []
    have blocks : (Noted.run cipher inner calls finishes).2.output.nonces = used.map ChunkNonce.toBlock := by
      rw [nonces, List.map_append, List.map_map]
      exact congr (congrArg HAppend.hAppend numbers) (by cases finishes <;> rfl)
    rw [blocks, List.length_map] at few
    rw [blocks]
    refine ChunkNonce.nodup_toBlock (Nat.le_of_lt few) ?_
    cases finishes <;> simp [used, List.range_succ, Function.comp_def]
  · intro e member
    rw [Noted.run_writer] at member
    exact (fails e member).resolve_right (Nat.not_le.2 (Nat.lt_of_le_of_lt shorter few))

/-- Into a sink that refuses everything, the first chunk is encrypted three times, each time under another nonce. -/
theorem nonces_of_run_refused :
    let cipher := Cipher.chaCha20Poly1305 (.zeros 32)
    let refusing : Sink := { Sink.unlimited with capacity? := some 0 }
    let chunk : Bytes := List.replicate Chunk.size 0
    let w := (Noted.run cipher refusing [.write chunk, .write [1], .write [1]] true).2
    w.output.uses = [⟨ChunkNonce.toBlock ⟨0, false⟩, chunk⟩, ⟨ChunkNonce.toBlock ⟨1, false⟩, chunk⟩,
        ⟨ChunkNonce.toBlock ⟨2, true⟩, chunk⟩] ∧
      w.output.nonces.Nodup ∧ w.chunk = chunk := by
  have length : (List.replicate Chunk.size (0 : UInt8)).length = Chunk.size := List.length_replicate
  generalize List.replicate Chunk.size (0 : UInt8) = chunk at length
  intro cipher refusing chunk w
  have full : chunk ≠ [] := List.ne_nil_of_length_pos (length ▸ Chunk.size_pos)
  have refused (nonce : Block 12) : Writer.writeAll refusing (cipher.encrypt nonce chunk) = (.error Sink.full, refusing) :=
    Sink.writeAll_refused rfl rfl (cipher.encrypt_ne_nil nonce chunk)
  have first : Writer.call (Noted.start cipher refusing) (.write chunk) =
      (.ok chunk.length, ⟨⟨⟨cipher, ⟨0, false⟩, refusing⟩, []⟩, chunk⟩) := by
    show (Noted.start cipher refusing).write chunk = _
    rw [Noted.write, gather_of_le _ (Nat.le_of_eq (length ▸ Nat.zero_add _))]
    rfl
  have second := @Noted.call_of_refused _ _ cipher 0 _ _ [] _ _ [1] length (List.cons_ne_nil _ _) (by decide) (refused _)
  have third := @Noted.call_of_refused _ _ cipher 1 _ _ [⟨ChunkNonce.toBlock ⟨0, false⟩, chunk⟩] _ _ [1] length
    (List.cons_ne_nil _ _) (by decide) (refused _)
  have called : (Writer.callEach (Noted.start cipher refusing) [.write chunk, .write [1], .write [1]]).2 =
      ⟨⟨⟨cipher, ⟨2, false⟩, refusing⟩, [⟨ChunkNonce.toBlock ⟨0, false⟩, chunk⟩, ⟨ChunkNonce.toBlock ⟨1, false⟩, chunk⟩]⟩,
        chunk⟩ := by
    rw [Writer.callEach_cons first, Writer.callEach_cons second]
    dsimp only [Nat.zero_add, List.nil_append]
    rw [Writer.callEach_cons third]
    rfl
  have result : w = ⟨⟨⟨cipher, ⟨2, true⟩, refusing⟩, [⟨ChunkNonce.toBlock ⟨0, false⟩, chunk⟩,
      ⟨ChunkNonce.toBlock ⟨1, false⟩, chunk⟩, ⟨ChunkNonce.toBlock ⟨2, true⟩, chunk⟩]⟩, chunk⟩ := by
    show (Writer.callEach (Noted.start cipher refusing) [.write chunk, .write [1], .write [1]]).2.finish.2 = _
    rw [called, Noted.finish_of_refused full (by decide) (refused _)]
    rfl
  have few : w.output.nonces.length < ChunkNonce.range := by
    rw [result]
    show 3 < ChunkNonce.range
    decide
  obtain ⟨_, _, distinct, _⟩ := nonces_of_run cipher refusing [.write chunk, .write [1], .write [1]] true few
  exact ⟨congrArg (·.output.uses) result, distinct, congrArg (·.chunk) result⟩

end PayloadWriter

end

end AgeCrypt
