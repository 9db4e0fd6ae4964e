import AgeCrypt.Proofs.Calls
import AgeCrypt.Proofs.FileWriting
import AgeCrypt.Proofs.ReadingOut

/-!
# Writers that take less than they are given

What is written through `Writer.writeAll` does not depend on how many bytes a writer takes in one call. Writers that
record what they are given and never fail are alike in this respect, and everything that is built on such writers stays
alike. The texts of a header are the exception: each of them is offered once.

`encrypt_of_reliable` says what becomes of an encryption into a writer that never fails.
-/

namespace AgeCrypt

/-- Two computations give the same result and leave related writers behind. -/
def Alike {α ω ω' : Type} (related : ω → ω' → Prop) (x : α × ω) (y : α × ω') : Prop :=
  ∃ result v v', x = (result, v) ∧ y = (result, v') ∧ related v v'

theorem Alike.intro {α ω ω' : Type} {related : ω → ω' → Prop} (result : α) {v : ω} {v' : ω'} (holds : related v v') :
    Alike related (result, v) (result, v') :=
  ⟨result, v, v', rfl, rfl, holds⟩

section
variable {ω ω' : Type} [Writer ω] [Writer ω'] {related : ω → ω' → Prop} {w : ω} {w' : ω'}

namespace Writer

/-- Related writers are written through alike. -/
def AgreeAll (related : ω → ω' → Prop) : Prop :=
  ∀ ⦃w w'⦄, related w w' → ∀ bs, Alike related (writeAll w bs) (writeAll w' bs)

/-- Related writers answer each call alike. -/
def AgreeEach (related : ω → ω' → Prop) : Prop :=
  ∀ ⦃w w'⦄, related w w' → ∀ bs, Alike related (write w bs) (write w' bs)

theorem AgreeEach.agreeAll (each : AgreeEach related) : AgreeAll related := by
  intro w w' holds bs
  fun_induction writeAll w bs generalizing w' with
  | case1 w =>
    rw [writeAll, dif_pos rfl]
    exact .intro _ holds
  | case2 w bs some e v step =>
    obtain ⟨_, v₁, v', step₁, step', holds⟩ := each holds bs
    rw [step] at step₁
    cases step₁
    rw [writeAll, dif_neg some, step']
    exact .intro _ holds
  | case3 w bs some v step =>
    obtain ⟨_, v₁, v', step₁, step', holds⟩ := each holds bs
    rw [step] at step₁
    cases step₁
    rw [writeAll, dif_neg some, step']
    exact .intro _ holds
  | case4 w bs some n v step ih =>
    obtain ⟨_, v₁, v', step₁, step', holds⟩ := each holds bs
    rw [step] at step₁
    cases step₁
    rw [writeAll.eq_def w', dif_neg some, step']
    exact ih holds

theorem AgreeAll.writeEach (all : AgreeAll related) (holds : related w w') (texts : List Bytes) :
    Alike related (Writer.writeEach w texts) (Writer.writeEach w' texts) := by
  induction texts generalizing w w' with
  | nil => exact .intro _ holds
  | cons bs texts ih =>
    obtain ⟨result, v, v', step, step', holds⟩ := all holds bs
    rw [Writer.writeEach, Writer.writeEach, step, step']
    cases result with
    | error e => exact .intro _ holds
    | ok _ => exact ih holds

end Writer

/-- Gathering passes the same pieces on and holds the same bytes back. -/
theorem gather_alike {σ σ' : Type} {related : σ → σ' → Prop} {size : Nat} (pos : 0 < size)
    {pass : σ → Bytes → Except ChannelError Unit × σ} {pass' : σ' → Bytes → Except ChannelError Unit × σ'}
    (alike : ∀ s s', related s s' → ∀ piece, Alike related (pass s piece) (pass' s' piece)) {s : σ} {s' : σ'}
    (holds : related s s') (held bs : Bytes) :
    ∃ result t t' held', gather size pos pass s held bs = ⟨result, t, held'⟩ ∧
      gather size pos pass' s' held bs = ⟨result, t', held'⟩ ∧ related t t' := by
  fun_induction gather size pos pass s held bs generalizing s' with
  | case1 s held =>
    rw [gather, dif_pos rfl]
    exact ⟨_, s, s', held, rfl, rfl, holds⟩
  | case2 s held bs some whole e t step =>
    obtain ⟨_, t₁, t', step₁, step', holds⟩ := alike s s' holds held
    rw [step] at step₁
    cases step₁
    rw [gather, dif_neg some, if_pos whole, step']
    exact ⟨_, t, t', held, rfl, rfl, holds⟩
  | case3 s held bs some whole t step ih =>
    obtain ⟨_, t₁, t', step₁, step', holds⟩ := alike s s' holds held
    rw [step] at step₁
    cases step₁
    rw [gather.eq_def size pos pass', dif_neg some, if_pos whole, step']
    exact ih holds
  | case4 s held bs some part ih =>
    rw [gather.eq_def size pos pass', dif_neg some, if_neg part]
    exact ih holds

/-- Copying from one reader into related writers. -/
theorem copy_alike {ρ : Type} [Reader ρ] (all : Writer.AgreeAll related) (holds : related w w') (r : ρ) :
    ∃ result r' v v', copy r w = ⟨result, r', v⟩ ∧ copy r w' = ⟨result, r', v'⟩ ∧ related v v' := by
  obtain ⟨parts, ending?, hands⟩ := Reader.exists_handsOut Reader.blockSize r
  induction hands generalizing w w' with
  | ended step =>
    rw [copy_of_end step, copy_of_end step]
    exact ⟨_, _, _, _, rfl, rfl, holds⟩
  | failed step =>
    rw [copy_of_failure step, copy_of_failure step]
    exact ⟨_, _, _, _, rfl, rfl, holds⟩
  | @handed r r' part parts ending? some step _ ih =>
    rw [copy_of_part some step, copy_of_part some step]
    obtain ⟨result, v, v', writes, writes', holds⟩ := all holds part
    rw [writes, writes']
    cases result with
    | error e => exact ⟨_, _, _, _, rfl, rfl, holds⟩
    | ok _ => exact ih holds

namespace Header

/-- Each text of a header gets one call, so that it takes writers who answer each call alike. -/
theorem writeParts_alike (each : Writer.AgreeEach related) (holds : related w w') (parts : List String) :
    Alike related (writeParts w parts) (writeParts w' parts) := by
  induction parts generalizing w w' with
  | nil => exact .intro _ holds
  | cons part parts ih =>
    obtain ⟨answer, v, v', step, step', holds⟩ := each holds (utf8 part)
    rw [writeParts, writeParts, step, step']
    cases answer with
    | error e => exact .intro _ holds
    | ok n =>
      dsimp only
      by_cases short : n < part.utf8ByteSize
      · rw [if_pos short, if_pos short]
        exact .intro _ holds
      · rw [if_neg short, if_neg short]
        exact ih holds

theorem write_alike (each : Writer.AgreeEach related) (holds : related w w') (h : Header) :
    Alike related (h.write w) (h.write w') := by
  obtain ⟨result, v, v', step, step', holds⟩ := writeParts_alike each holds h.parts
  rw [write, write, step, step']
  cases result with
  | error e => exact .intro _ holds
  | ok _ => exact .intro _ holds

end Header

namespace ArmorWriter

/-- Two writers of the same format, with the same line, over related ones. -/
def Related (related : ω → ω' → Prop) (format : Format) (w : ArmorWriter ω) (w' : ArmorWriter ω') : Prop :=
  w.format = format ∧ w'.format = format ∧ w.line = w'.line ∧ related w.inner w'.inner

/-- An armored file is written through, so that each call is answered alike. -/
theorem agreeEach_armored (all : Writer.AgreeAll related) : Writer.AgreeEach (Related related .armored) := by
  rintro ⟨_, inner, line⟩ ⟨_, inner', _⟩ ⟨rfl, rfl, rfl, holds⟩ bs
  have passes : ∀ v v', related v v' → ∀ piece, Alike related (passLine v piece) (passLine v' piece) :=
    fun v v' holds piece => all.writeEach holds [Armor.encodeLine piece, Armor.newline]
  obtain ⟨result, v, v', held, step, step', holds⟩ := gather_alike Armor.lineBytes_pos passes holds line bs
  show Alike _ (write _ bs) (write _ bs)
  unfold write
  dsimp only
  rw [step, step']
  exact .intro _ ⟨rfl, rfl, rfl, holds⟩

/-- Without armor, bytes are written through if the writer behind is. -/
theorem writeAll_binary (inner : ω) (line bs : Bytes) : Writer.writeAll (⟨.binary, inner, line⟩ : ArmorWriter ω) bs =
    ((Writer.writeAll inner bs).1, ⟨.binary, (Writer.writeAll inner bs).2, line⟩) := by
  have write_binary : ∀ v : ω, Writer.write (⟨.binary, v, line⟩ : ArmorWriter ω) bs =
      ((Writer.write v bs).1, ⟨.binary, (Writer.write v bs).2, line⟩) := fun _ => rfl
  fun_induction Writer.writeAll inner bs with
  | case1 inner => rw [Writer.writeAll, dif_pos rfl]
  | case2 inner bs some e v step => rw [Writer.writeAll, dif_neg some, write_binary, step]
  | case3 inner bs some v step => rw [Writer.writeAll, dif_neg some, write_binary, step]
  | case4 inner bs some n v step ih =>
    rw [Writer.writeAll, dif_neg some, write_binary, step]
    exact ih fun _ => rfl

theorem agreeAll (all : Writer.AgreeAll related) (format : Format) : Writer.AgreeAll (Related related format) := by
  cases format with
  | armored => exact (agreeEach_armored all).agreeAll
  | binary =>
    rintro ⟨_, inner, line⟩ ⟨_, inner', _⟩ ⟨rfl, rfl, rfl, holds⟩ bs
    obtain ⟨result, v, v', step, step', holds⟩ := all holds bs
    rw [writeAll_binary, writeAll_binary, step, step']
    exact .intro _ ⟨rfl, rfl, rfl, holds⟩

theorem start_alike (all : Writer.AgreeAll related) (holds : related w w') (format : Format) :
    Alike (Related related format) (start w format) (start w' format) := by
  cases format with
  | binary => exact .intro _ ⟨rfl, rfl, rfl, holds⟩
  | armored =>
    obtain ⟨result, v, v', step, step', holds⟩ := all.writeEach holds [Armor.beginMarker, Armor.newline]
    rw [start, start, step, step']
    exact .intro _ ⟨rfl, rfl, rfl, holds⟩

theorem finish_alike (all : Writer.AgreeAll related) (format : Format) :
    ∀ v v', Related related format v v' → Alike (Related related format) v.finish v'.finish := by
  cases format with
  | binary =>
    intro v v' holds
    unfold finish
    rw [holds.1, holds.2.1]
    exact .intro _ holds
  | armored =>
    rintro ⟨_, inner, line⟩ ⟨_, inner', _⟩ ⟨rfl, rfl, rfl, holds⟩
    obtain ⟨result, v, v', step, step', holds⟩ :=
      all.writeEach holds [Armor.encodeLine line, Armor.newline, Armor.endMarker, Armor.newline]
    unfold finish
    dsimp only
    rw [step, step']
    exact .intro _ ⟨rfl, rfl, rfl, holds⟩

end ArmorWriter

namespace PayloadWriter

/-- The same cipher and nonce over related writers. -/
def RelatedOutput (related : ω → ω' → Prop) (o : ChunkOutput ω) (o' : ChunkOutput ω') : Prop :=
  o.cipher = o'.cipher ∧ o.nonce = o'.nonce ∧ related o.inner o'.inner

/-- The same chunk is held back. -/
def Related (related : ω → ω' → Prop) (w : PayloadWriter ω) (w' : PayloadWriter ω') : Prop :=
  w.chunk = w'.chunk ∧ RelatedOutput related w.output w'.output

theorem pass_alike (all : Writer.AgreeAll related) {o : ChunkOutput ω} {o' : ChunkOutput ω'}
    (holds : RelatedOutput related o o') (chunk : Bytes) (last : Bool) :
    Alike (RelatedOutput related) (o.pass chunk last) (o'.pass chunk last) := by
  obtain ⟨cipher, nonce, inner⟩ := o
  obtain ⟨_, _, inner'⟩ := o'
  obtain ⟨rfl, rfl, holds⟩ := holds
  rw [ChunkOutput.pass_eq, ChunkOutput.pass_eq]
  dsimp only
  cases Chunk.encrypt cipher nonce chunk last with | mk sealed nonce => ?_
  cases sealed with
  | error e => exact .intro _ ⟨rfl, rfl, holds⟩
  | ok sealed =>
    obtain ⟨result, v, v', step, step', holds⟩ := all holds sealed
    rw [ChunkOutput.passOn, ChunkOutput.passOn, step, step']
    exact .intro _ ⟨rfl, rfl, holds⟩

theorem agreeEach (all : Writer.AgreeAll related) : Writer.AgreeEach (Related related) := by
  rintro ⟨output, chunk⟩ ⟨output', _⟩ ⟨rfl, holds⟩ bs
  have passes := fun o o' (holds : RelatedOutput related o o') piece => pass_alike all holds piece false
  obtain ⟨result, o, o', held, step, step', holds⟩ := gather_alike Chunk.size_pos passes holds chunk bs
  show Alike _ (write _ bs) (write _ bs)
  unfold write
  dsimp only
  rw [step, step']
  exact .intro _ ⟨rfl, holds⟩

theorem finish_alike (all : Writer.AgreeAll related) {v : PayloadWriter ω} {v' : PayloadWriter ω'}
    (holds : Related related v v') : Alike (Related related) v.finish v'.finish := by
  obtain ⟨output, chunk⟩ := v
  obtain ⟨output', _⟩ := v'
  obtain ⟨rfl, holds⟩ := holds
  obtain ⟨result, o, o', step, step', holds⟩ := pass_alike all holds chunk true
  unfold finish
  dsimp only
  rw [step, step']
  exact .intro _ ⟨rfl, holds⟩

end PayloadWriter

theorem writePayload_alike {ρ : Type} [Reader ρ] (all : Writer.AgreeAll related) (input : ρ) {v : PayloadWriter ω}
    {v' : PayloadWriter ω'} (holds : PayloadWriter.Related related v v') :
    Alike related (writePayload input v) (writePayload input v') := by
  obtain ⟨result, _, v, v', step, step', holds⟩ := copy_alike (PayloadWriter.agreeEach all).agreeAll holds input
  unfold writePayload
  rw [step, step']
  dsimp only
  cases result with
  | error e => exact .intro _ holds.2.2.2
  | ok _ =>
    obtain ⟨result, v, v', step, step', holds⟩ := PayloadWriter.finish_alike all holds
    dsimp only
    rw [step, step']
    exact .intro _ holds.2.2.2

/-! ## Files -/

theorem writeFile_alike {ρ : Type} [Reader ρ] (all : Writer.AgreeAll related) {format : Format} {v : ArmorWriter ω}
    {v' : ArmorWriter ω'} (p : Prologue)
    (header : Alike (ArmorWriter.Related related format) (p.header.write v) (p.header.write v')) (input : ρ) :
    Alike (ArmorWriter.Related related format) (writeFile p input v) (writeFile p input v') := by
  have armor := ArmorWriter.agreeAll all format
  unfold writeFile Prologue.write
  obtain ⟨result, v, v', step, step', holds⟩ := header
  rw [step, step']
  cases result with
  | error e => exact .intro _ holds
  | ok _ =>
    obtain ⟨result, v, v', step, step', holds⟩ := armor holds p.nonce.bytes
    dsimp only
    rw [step, step']
    cases result with
    | error e => exact .intro _ holds
    | ok _ =>
      have started : PayloadWriter.Related _ (.start p.cipher v) (.start p.cipher v') := ⟨rfl, rfl, rfl, holds⟩
      obtain ⟨result, v, v', step, step', holds⟩ := writePayload_alike armor input started
      dsimp only
      rw [step, step']
      cases result with
      | error e => exact .intro _ holds
      | ok _ => exact ArmorWriter.finish_alike all format _ _ holds

/-- An encryption turns out alike for related writers, if these take its header alike. -/
theorem encrypt_alike {ρ : Type} [Reader ρ] (all : Writer.AgreeAll related) (holds : related w w')
    (recipients : List Recipient) (input : ρ) (format : Format) (randomness : Randomness)
    (header : ∀ p, Prepares recipients randomness p → ∀ v v', ArmorWriter.start w format = (.ok (), v) →
      ArmorWriter.start w' format = (.ok (), v') → ArmorWriter.Related related format v v' →
      Alike (ArmorWriter.Related related format) (p.header.write v) (p.header.write v')) :
    ∃ result later events v v', encrypt recipients input w format randomness = ⟨result, v, later, events⟩ ∧
      encrypt recipients input w' format randomness = ⟨result, v', later, events⟩ ∧ related v v' := by
  unfold encrypt
  cases allowed : Audience.ofRecipients recipients with
  | error e => exact ⟨_, _, _, w, w', rfl, rfl, holds⟩
  | ok audience =>
    obtain ⟨result, v, v', step, step', holds⟩ := ArmorWriter.start_alike all holds format
    dsimp only
    rw [step, step']
    cases result with
    | error e => exact ⟨_, _, _, _, _, rfl, rfl, holds.2.2.2⟩
    | ok _ =>
      dsimp only
      cases drawn : audience.prologue.run randomness with | mk prologue? later => ?_
      cases prologue? with
      | error e => exact ⟨_, _, _, _, _, rfl, rfl, holds.2.2.2⟩
      | ok p =>
        have prepares : Prepares recipients randomness p := ⟨audience, later, allowed, drawn⟩
        have written := header p prepares v v' step step' holds
        obtain ⟨result, v, v', step, step', holds⟩ := writeFile_alike all p written input
        dsimp only
        rw [step, step']
        exact ⟨_, _, _, _, _, rfl, rfl, holds.2.2.2⟩

end

namespace Writer
variable {ω ω' : Type} [Writer ω] [Writer ω'] {recorded : ω → Bytes → Prop} {recorded' : ω' → Bytes → Prop}

/-- Two writers recorded the same bytes, each behind what it held before. -/
def SameRecord (recorded : ω → Bytes → Prop) (recorded' : ω' → Bytes → Prop) (before before' : Bytes) (w : ω)
    (w' : ω') : Prop :=
  ∃ bs, recorded w (before ++ bs) ∧ recorded' w' (before' ++ bs)

/-- Writers that never fail are written through alike, in whatever portions each of them takes the bytes. -/
theorem Reliable.agreeAll (reliable : Reliable recorded) (reliable' : Reliable recorded') (before before' : Bytes) :
    AgreeAll (SameRecord recorded recorded' before before') := by
  rintro w w' ⟨earlier, holds, holds'⟩ bs
  obtain ⟨v, step, behind⟩ := reliable.writeAll holds bs
  obtain ⟨v', step', behind'⟩ := reliable'.writeAll holds' bs
  rw [step, step']
  refine .intro _ ⟨earlier ++ bs, ?_, ?_⟩
  · rwa [← List.append_assoc]
  · rwa [← List.append_assoc]

/-- A single call takes all of these bytes. -/
def TakesWhole (recorded : ω → Bytes → Prop) (bs : Bytes) : Prop :=
  ∀ w before, recorded w before → ∃ w', write w bs = (.ok bs.length, w')

/-- No single call takes all of these bytes. -/
def CutsOff (recorded : ω → Bytes → Prop) (bs : Bytes) : Prop :=
  ∀ w before n w', recorded w before → write w bs = (.ok n, w') → n < bs.length

end Writer

namespace Header
variable {ω : Type} [Writer ω] {recorded : ω → Bytes → Prop} {w : ω} {before : Bytes}

/-- Texts are written one call each, up to the first one that is not taken whole. -/
theorem writeParts_of_reliable (reliable : Writer.Reliable recorded) (parts : List String) (holds : recorded w before) :
    (∃ w', writeParts w parts = (.ok (), w') ∧ recorded w' (before ++ parts.flatMap utf8) ∧
      ¬ ∃ part ∈ parts, Writer.CutsOff recorded (utf8 part)) ∨
    (∃ left w', writeParts w parts = (.error (.partlyTaken left), w') ∧
      ¬ ∀ part ∈ parts, Writer.TakesWhole recorded (utf8 part)) := by
  induction parts generalizing w before with
  | nil => exact .inl ⟨w, rfl, by simpa using holds, by simp⟩
  | cons part parts ih =>
    obtain ⟨n, w', step, behind, _⟩ := reliable.write holds (utf8 part)
    rw [writeParts, step]
    dsimp only
    by_cases short : n < part.utf8ByteSize
    · rw [if_pos short]
      refine .inr ⟨_, w', rfl, fun whole => ?_⟩
      obtain ⟨w'', step'⟩ := whole part List.mem_cons_self w before holds
      rw [step] at step'
      cases step'
      exact Nat.lt_irrefl _ short
    · have all : (utf8 part).take n = utf8 part := List.take_of_length_le (Nat.not_lt.1 short)
      rw [all] at behind
      rw [if_neg short]
      rcases ih behind with ⟨w'', step', behind, whole⟩ | ⟨left, w'', step', cut⟩
      · refine .inl ⟨w'', step', ?_, ?_⟩
        · rwa [List.flatMap_cons, ← List.append_assoc]
        · rintro ⟨other, member, cuts⟩
          rcases List.mem_cons.1 member with rfl | member
          · exact short (cuts w before n w' holds step)
          · exact whole ⟨other, member, cuts⟩
      · exact .inr ⟨left, w'', step', fun all => cut (List.forall_mem_cons.1 all).2⟩

/-- A single call takes each text of the header whole. -/
def IsTakenWhole (recorded : ω → Bytes → Prop) (h : Header) : Prop :=
  ∀ part ∈ h.parts, Writer.TakesWhole recorded (utf8 part)

/-- There is a text in the header that no single call takes whole. -/
def IsCutOff (recorded : ω → Bytes → Prop) (h : Header) : Prop :=
  ∃ part ∈ h.parts, Writer.CutsOff recorded (utf8 part)

/-- A writer that never fails is left with the header, or one of its texts was not taken whole. -/
theorem write_of_reliable (reliable : Writer.Reliable recorded) (h : Header) (holds : recorded w before) :
    (∃ w', h.write w = (.ok (), w') ∧ recorded w' (before ++ h.toBytes) ∧ ¬ h.IsCutOff recorded) ∨
    (∃ left w', h.write w = (.error (PartError.partlyTaken left).report, w') ∧ ¬ h.IsTakenWhole recorded) := by
  rw [write]
  rcases writeParts_of_reliable reliable h.parts holds with ⟨w', step, behind, whole⟩ | ⟨left, w', step, cut⟩
  · rw [step]
    exact .inl ⟨w', rfl, behind, whole⟩
  · rw [step]
    exact .inr ⟨left, w', rfl, cut⟩

end Header

/-! ## Sinks -/

namespace Sink
variable {s : Sink} {bs : Bytes}

/-- A sink without a capacity takes whole what is not longer than its portion. -/
theorem takesWhole (endless : s.capacity? = none) (fits : ∀ portion, s.portion? = some portion → bs.length ≤ portion) :
    Writer.TakesWhole s.Recorded bs := by
  rintro t before ⟨_, portion, capacity⟩
  have taken : t.portion?.elim bs bs.take = bs := by
    rw [portion]
    cases limit : s.portion? with
    | none => rfl
    | some n => exact List.take_of_length_le (fits n limit)
  refine ⟨{ t with contents := t.contents ++ bs }, ?_⟩
  show t.write bs = _
  simp [write, taken, capacity, endless]

/-- A sink cuts off what is longer than its portion. -/
theorem cutsOff {portion : Nat} (limit : s.portion? = some portion) (long : portion < bs.length) :
    Writer.CutsOff s.Recorded bs := by
  rintro t before n t' ⟨_, same, _⟩ step
  change t.write bs = _ at step
  unfold write at step
  dsimp only at step
  split at step
  · cases step
  · cases step
    rw [same, limit, Option.elim, List.length_take]
    omega

theorem unlimited_reliable : Writer.Reliable Sink.unlimited.Recorded :=
  Sink.unlimited.reliable (by simp [unlimited]) rfl

/-- A sink that takes everything is left with a header. -/
theorem write_header (h : Header) : ∃ t, h.write Sink.unlimited = (.ok (), t) ∧ Sink.unlimited.Recorded t h.toBytes := by
  rcases h.write_of_reliable unlimited_reliable Sink.unlimited.recorded_refl with ⟨t, step, behind, _⟩ | ⟨_, _, _, cut⟩
  · exact ⟨t, step, behind⟩
  · refine absurd (fun part _ => takesWhole rfl fun portion limit => ?_) cut
    simp [unlimited] at limit

end Sink

/-- An encryption ended like one into an empty sink that takes everything, and left the same bytes behind `before`. -/
def Encrypted.Matches {ω : Type} (recorded : ω → Bytes → Prop) (before : Bytes) (e : Encrypted ω)
    (whole : Encrypted Sink) : Prop :=
  e.result = whole.result ∧ e.randomness = whole.randomness ∧ e.events = whole.events ∧
    recorded e.output (before ++ whole.output.bytes)

section
variable {ρ ω : Type} [Reader ρ] [Writer ω] {recorded : ω → Bytes → Prop} {input : ρ} {output : ω} {before : Bytes}
  {recipients : List Recipient} {randomness : Randomness} {format : Format}

/-- Without armor, the texts of a header are written through. -/
theorem ArmorWriter.writeParts_binary (parts : List String) (inner : ω) (line : Bytes) :
    Header.writeParts (⟨.binary, inner, line⟩ : ArmorWriter ω) parts =
      ((Header.writeParts inner parts).1, ⟨.binary, (Header.writeParts inner parts).2, line⟩) := by
  induction parts generalizing inner with
  | nil => rfl
  | cons part parts ih =>
    have step : Writer.write (⟨.binary, inner, line⟩ : ArmorWriter ω) (utf8 part) =
        ((Writer.write inner (utf8 part)).1, ⟨.binary, (Writer.write inner (utf8 part)).2, line⟩) := rfl
    rw [Header.writeParts, Header.writeParts, step]
    cases Writer.write inner (utf8 part) with | mk answer v => ?_
    cases answer with
    | error e => rfl
    | ok n =>
      dsimp only
      by_cases short : n < part.utf8ByteSize
      · rw [if_pos short, if_pos short]
      · rw [if_neg short, if_neg short]
        exact ih v

theorem ArmorWriter.header_binary (h : Header) (inner : ω) (line : Bytes) :
    h.write (⟨.binary, inner, line⟩ : ArmorWriter ω) = ((h.write inner).1, ⟨.binary, (h.write inner).2, line⟩) := by
  rw [Header.write, Header.write, writeParts_binary]
  cases Header.writeParts inner h.parts with | mk result v => ?_
  cases result with
  | error e => rfl
  | ok _ => rfl

/-- A file that turns out alike for a writer that never fails and for a sink that takes everything. -/
theorem matches_of_alike (reliable : Writer.Reliable recorded) (holds : recorded output before) (input : ρ)
    (header : ∀ p, Prepares recipients randomness p → ∀ v v', ArmorWriter.start output format = (.ok (), v) →
      ArmorWriter.start Sink.unlimited format = (.ok (), v') →
      ArmorWriter.Related (Writer.SameRecord recorded Sink.unlimited.Recorded before []) format v v' →
      Alike (ArmorWriter.Related (Writer.SameRecord recorded Sink.unlimited.Recorded before []) format)
        (p.header.write v) (p.header.write v')) :
    (encrypt recipients input output format randomness).Matches recorded before
      (encrypt recipients input Sink.unlimited format randomness) := by
  have start : Writer.SameRecord recorded Sink.unlimited.Recorded before [] output Sink.unlimited :=
    ⟨[], by rwa [List.append_nil], Sink.unlimited.recorded_refl⟩
  obtain ⟨result, later, events, v, v', short, whole, earlier, behind, bytes, _⟩ :=
    encrypt_alike (reliable.agreeAll Sink.unlimited_reliable before []) start recipients input format randomness header
  rw [short, whole]
  refine ⟨rfl, rfl, rfl, ?_⟩
  rw [bytes]
  exact behind

/-- Into a sink that takes everything, an encryption that has a prologue succeeds. -/
theorem encrypt_unlimited {plaintext : Bytes} (delivers : Reader.Delivers none input plaintext)
    (few : plaintext.length ≤ ChunkNonce.range * Chunk.size) {p : Prologue} (prepares : Prepares recipients randomness p)
    (format : Format) : (encrypt recipients input Sink.unlimited format randomness).result = .ok () :=
  (encrypt_of_records delivers Sink.unlimited.records Sink.unlimited.recorded_refl prepares format).2 rfl
    ⟨few, Sink.room_unlimited #[]⟩

/-- An armored encryption does not depend on how much its output takes in a call. -/
theorem matches_armored (reliable : Writer.Reliable recorded) (holds : recorded output before) (input : ρ) :
    (encrypt recipients input output .armored randomness).Matches recorded before
      (encrypt recipients input Sink.unlimited .armored randomness) := by
  refine matches_of_alike reliable holds input ?_
  intro p _ v v' _ _ same
  exact Header.write_alike
    (ArmorWriter.agreeEach_armored (reliable.agreeAll Sink.unlimited_reliable before [])) same p.header

/-- Without armor, an encryption fails as writing its header does. -/
theorem encrypt_of_failure (input : ρ) {p : Prologue} (prepares : Prepares recipients randomness p) {e : ChannelError}
    {w' : ω} (fails : p.header.write output = (.error e, w')) :
    (encrypt recipients input output .binary randomness).result = .error (.channel e) := by
  obtain ⟨audience, later, allowed, drawn⟩ := prepares
  unfold encrypt
  rw [allowed]
  dsimp only [ArmorWriter.start]
  rw [drawn]
  dsimp only
  rw [writeFile, Prologue.write, ArmorWriter.header_binary, fails]
  rfl

/-- Without armor, an encryption does not depend on it either, unless a text of its header is not taken whole. -/
theorem matches_binary (reliable : Writer.Reliable recorded) (holds : recorded output before) (input : ρ) :
    ((encrypt recipients input output .binary randomness).Matches recorded before
        (encrypt recipients input Sink.unlimited .binary randomness) ∧
      ∀ p, Prepares recipients randomness p → ¬ p.header.IsCutOff recorded) ∨
    (∃ p left, Prepares recipients randomness p ∧ ¬ p.header.IsTakenWhole recorded ∧
      (encrypt recipients input output .binary randomness).result =
        .error (.channel (Header.PartError.partlyTaken left).report)) := by
  by_cases failing : ∃ p left w', Prepares recipients randomness p ∧ ¬ p.header.IsTakenWhole recorded ∧
      p.header.write output = (.error (Header.PartError.partlyTaken left).report, w')
  · obtain ⟨p, left, w', prepares, cut, fails⟩ := failing
    exact .inr ⟨p, left, prepares, cut, encrypt_of_failure input prepares fails⟩
  · have written : ∀ p, Prepares recipients randomness p → ∃ w', p.header.write output = (.ok (), w') ∧
        recorded w' (before ++ p.header.toBytes) ∧ ¬ p.header.IsCutOff recorded := by
      intro p prepares
      refine (p.header.write_of_reliable reliable holds).resolve_right ?_
      rintro ⟨left, w', fails, cut⟩
      exact failing ⟨p, left, w', prepares, cut, fails⟩
    refine .inl ⟨matches_of_alike reliable holds input ?_, ?_⟩
    · rintro p prepares _ _ ⟨⟩ ⟨⟩ _
      obtain ⟨v, step, behind, _⟩ := written p prepares
      obtain ⟨v', step', behind'⟩ := Sink.write_header p.header
      rw [ArmorWriter.header_binary, ArmorWriter.header_binary, step, step']
      exact .intro _ ⟨rfl, rfl, rfl, p.header.toBytes, behind, behind'⟩
    · intro p prepares
      obtain ⟨_, _, _, whole⟩ := written p prepares
      exact whole

/-- A file in memory is written behind its header if that is. -/
theorem File.write_of_reliable (reliable : Writer.Reliable recorded) (holds : recorded output before) (f : File) :
    (∃ w', f.write output = (.ok (), w') ∧ recorded w' (before ++ f.toBytes) ∧ ¬ f.header.IsCutOff recorded) ∨
    (∃ left w', f.write output = (.error (Header.PartError.partlyTaken left).report, w') ∧
      ¬ f.header.IsTakenWhole recorded) := by
  rw [File.write]
  rcases f.header.write_of_reliable reliable holds with ⟨w', step, behind, whole⟩ | ⟨left, w', step, cut⟩
  · obtain ⟨w'', writes, written⟩ := reliable.writeAll behind f.body
    rw [step]
    refine .inl ⟨w'', writes, ?_, whole⟩
    rwa [List.append_assoc] at written
  · rw [step]
    exact .inr ⟨left, w', rfl, cut⟩

/-- Into a writer that never fails, however little it takes in a call, an armored encryption writes what it writes into a
    sink that takes everything. Without armor, the same holds of an encryption, and of writing a file in memory, or they
    fail because a text of the header is not taken whole. If all texts are taken whole, they do not fail, and if one of
    them is cut off in any case, they do. -/
theorem encrypt_of_reliable (reliable : Writer.Reliable recorded) (holds : recorded output before) (input : ρ) :
    (encrypt recipients input output .armored randomness).Matches recorded before
      (encrypt recipients input Sink.unlimited .armored randomness) ∧
    (((encrypt recipients input output .binary randomness).Matches recorded before
        (encrypt recipients input Sink.unlimited .binary randomness) ∧
      ∀ p, Prepares recipients randomness p → ¬ p.header.IsCutOff recorded) ∨
    (∃ p left, Prepares recipients randomness p ∧ ¬ p.header.IsTakenWhole recorded ∧
      (encrypt recipients input output .binary randomness).result =
        .error (.channel (Header.PartError.partlyTaken left).report))) ∧
    ∀ f : File,
      (∃ w', f.write output = (.ok (), w') ∧ recorded w' (before ++ f.toBytes) ∧ ¬ f.header.IsCutOff recorded) ∨
      (∃ left w', f.write output = (.error (Header.PartError.partlyTaken left).report, w') ∧
        ¬ f.header.IsTakenWhole recorded) :=
  ⟨matches_armored reliable holds input, matches_binary reliable holds input, File.write_of_reliable reliable holds⟩

end

/-- Byte by byte, an armored file is written as it is at once. -/
theorem encrypt_of_reliable_single :
    let recipient : Recipient := ⟨fun _ => pure ([⟨"tag", [], []⟩], .empty), false⟩
    let small : Sink := { Sink.unlimited with portion? := some 1 }
    let whole := encrypt [recipient] (Source.ofBytes [104, 105]) Sink.unlimited .armored ⟨fun _ => 0, 0⟩
    let single := encrypt [recipient] (Source.ofBytes [104, 105]) small .armored ⟨fun _ => 0, 0⟩
    whole.result = .ok () ∧ single.result = .ok () ∧ single.output.bytes = whole.output.bytes := by
  intro recipient small whole single
  obtain ⟨p, prepares⟩ : ∃ p, Prepares [recipient] ⟨fun _ => 0, 0⟩ p := ⟨_, _, _, rfl, rfl⟩
  have ok := encrypt_unlimited (Source.delivers_ofBytes [104, 105]) (by decide) prepares .armored
  have same : single.Matches small.Recorded small.bytes whole :=
    (encrypt_of_reliable (small.reliable (by decide) rfl) small.recorded_refl (Source.ofBytes [104, 105])).1
  obtain ⟨result, _, _, bytes, _⟩ := same
  exact ⟨ok, result.trans ok, bytes⟩

/-- Byte by byte, a file that is not armored is not written, although it is at once. -/
theorem encrypt_binary_single :
    let recipient : Recipient := ⟨fun _ => pure ([⟨"tag", [], []⟩], .empty), false⟩
    let small : Sink := { Sink.unlimited with portion? := some 1 }
    (encrypt [recipient] (Source.ofBytes [104, 105]) Sink.unlimited .binary ⟨fun _ => 0, 0⟩).result = .ok () ∧
      (encrypt [recipient] (Source.ofBytes [104, 105]) small .binary ⟨fun _ => 0, 0⟩).result ≠ .ok () := by
  intro recipient small
  obtain ⟨p, prepares⟩ : ∃ p, Prepares [recipient] ⟨fun _ => 0, 0⟩ p := ⟨_, _, _, rfl, rfl⟩
  have ok := encrypt_unlimited (Source.delivers_ofBytes [104, 105]) (by decide) prepares .binary
  refine ⟨ok, fun same => ?_⟩
  have long : 1 < (utf8 Header.versionLine).length := by decide
  have cut : p.header.IsCutOff small.Recorded :=
    ⟨Header.versionLine, by simp [Header.parts, Header.partsBeforeMac], Sink.cutsOff rfl long⟩
  rcases matches_binary (small.reliable (by decide) rfl) small.recorded_refl (Source.ofBytes [104, 105]) with
    ⟨_, whole⟩ | ⟨_, left, _, _, fails⟩
  · exact whole p prepares cut
  · rw [fails] at same
    cases same

end AgeCrypt
