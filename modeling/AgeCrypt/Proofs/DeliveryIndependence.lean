import AgeCrypt.Encryption
import AgeCrypt.Proofs.Decrypting

/-!
# Ways to hand out the same bytes

A source may cut its bytes into portions and be interrupted between them. Main statement: what is read, decrypted or
encrypted from it is what is read, decrypted or encrypted from a source that hands out the same bytes, up to the same
failure, at once (`Source.readAlike_atOnce`). Readers that deliver the same are read alike already. What is left unread
behind a failure is known of sources, as they fail for good, and bytes that are written into a payload are gathered
into the same chunks however they are cut (`PayloadWriter.writeEach_eq`).
-/

namespace AgeCrypt

open Buffered (takeLine)

namespace Source
variable {s s' : Source} {n : Nat}

theorem portion_read (s : Source) (n : Nat) : (s.read n).2.portion? = s.portion? := by
  rw [read]
  split
  · rfl
  split <;> rfl

/-- A call that fails without being interrupted is followed by no other that succeeds. -/
theorem failed_of_read_error {e : ChannelError} (step : s.read n = (.error e, s')) (final : e.isInterruption = false) :
    e = failure ∧ s'.failsAfter? = some 0 := by
  rw [read] at step
  split at step
  · cases step
    cases final
  split at step
  · rename_i failed
    cases step
    exact ⟨rfl, failed⟩
  · cases step

theorem portion_retry (s : Source) (n : Nat) : (Reader.retry s n).2.portion? = s.portion? := by
  fun_induction Reader.retry s n with
  | case1 s bs s' step =>
    have kept := portion_read s n
    rwa [show s.read n = _ from step] at kept
  | case2 s e s' step again ih =>
    have kept := portion_read s n
    rw [show s.read n = _ from step] at kept
    exact ih.trans kept
  | case3 s e s' step final =>
    have kept := portion_read s n
    rwa [show s.read n = _ from step] at kept

theorem failed_of_retry_error {e : ChannelError} (step : Reader.retry s n = (.error e, s')) :
    e = failure ∧ s'.failsAfter? = some 0 := by
  fun_induction Reader.retry s n with
  | case1 => cases step
  | case2 s e₁ s₁ _ again ih => exact ih step
  | case3 s e₁ s₁ reads final =>
    cases step
    exact failed_of_read_error reads (Bool.eq_false_iff.2 final)

/-- A source that has failed hands out nothing more. -/
theorem delivers_of_failed (portions : s.portion? ≠ some 0) (failed : s.failsAfter? = some 0) :
    Reader.Delivers (some failure) s [] := by
  have delivers := delivers s portions
  rwa [available, stop?, failed] at delivers

end Source

namespace Buffered
variable {r r' : Buffered Source} {limit? : Option Nat}

theorem portion_refill (r : Buffered Source) : r.refill.2.inner.portion? = r.inner.portion? := by
  have portion := Source.portion_retry r.inner capacity
  rw [refill]
  split
  · rfl
  · split <;> simp_all

theorem portion_readLineAfter (before : Array UInt8) (r : Buffered Source) (limit? : Option Nat) :
    (readLineAfter before r limit?).2.inner.portion? = r.inner.portion? := by
  fun_induction readLineAfter before r limit? with
  | case1 => rfl
  | case2 before r limit? more e r' step =>
    have kept := portion_refill r
    rwa [step] at kept
  | case3 before r limit? more r' step ended =>
    have kept := portion_refill r
    rwa [step] at kept
  | case4 before r limit? more r' step some last =>
    have kept := portion_refill r
    rwa [step] at kept
  | case5 before r limit? more r' step some last ih =>
    have kept := portion_refill r
    rw [step] at kept
    exact ih.trans kept

/-- When a line cannot be read because the source fails, nothing is left to be read. -/
theorem holds_of_readLineAfter_error {before : Array UInt8} {e : ChannelError} (portions : r.inner.portion? ≠ some 0)
    (step : readLineAfter before r limit? = (.error e, r')) : e = Source.failure ∧ r'.Holds (some Source.failure) [] := by
  fun_induction readLineAfter before r limit? with
  | case1 => cases step
  | case2 before r limit? more e₁ r₁ refills =>
    cases step
    have kept := portion_refill r
    rw [refills] at kept
    unfold refill at refills
    split at refills
    · cases refills
    split at refills
    · rename_i fails
      cases refills
      obtain ⟨same, failed⟩ := Source.failed_of_retry_error fails
      rw [← kept] at portions
      exact ⟨same, [], Source.delivers_of_failed portions failed, rfl⟩
    · cases refills
  | case3 => cases step
  | case4 => cases step
  | case5 before r limit? more r₁ refills some last ih =>
    have kept := portion_refill r
    rw [refills] at kept
    rw [← kept] at portions
    exact ih portions step

theorem holds_of_readLine_error {stop? : Option ChannelError} {rest : Bytes} {e : ChannelError}
    (portions : r.inner.portion? ≠ some 0) (holds : r.Holds stop? rest) (step : r.readLine limit? = (.error e, r')) :
    r'.Holds stop? [] := by
  obtain ⟨rfl, left⟩ := holds_of_readLineAfter_error portions step
  rcases readLine_of_holds limit? holds with ⟨r₁, reads, _⟩ | ⟨e₁, r₁, reads, stops, _⟩
  · rw [step] at reads
    cases reads
  · rw [step] at reads
    cases reads
    rwa [stops]

end Buffered

namespace HeaderReading
variable {stop? : Option ChannelError} {reading : HeaderReading} {bs line rest : Bytes}

/-- What is left unread of some bytes behind the line that completes a header, or behind the first one that does not
    fit. When the bytes end within a line, nothing is. -/
def leftFrom (stop? : Option ChannelError) (reading : HeaderReading) (bs : Bytes) : Bytes :=
  match _taken : takeLine stop? none bs with
  | .error _ => []
  | .ok (line, rest) =>
    match _text : lineText? line with
    | none => rest
    | some text =>
      match reading.next text with
      | .error _ => rest
      | .ok (.complete _) => rest
      | .ok (.more reading') => leftFrom stop? reading' rest
termination_by bs.length
decreasing_by
  have cut := congrArg List.length (Buffered.append_of_takeLine _taken)
  have some := length_of_lineText? _text
  rw [List.length_append] at cut
  omega

theorem leftFrom_of_failure {e : ChannelError} (fails : takeLine stop? none bs = .error e) :
    leftFrom stop? reading bs = [] := by
  rw [leftFrom]
  split <;> simp_all

theorem leftFrom_of_line (taken : takeLine stop? none bs = .ok (line, rest)) :
    leftFrom stop? reading bs =
      match lineText? line with
      | none => rest
      | some text =>
        match reading.next text with
        | .error _ => rest
        | .ok (.complete _) => rest
        | .ok (.more reading') => leftFrom stop? reading' rest := by
  rw [leftFrom]
  split
  · simp_all
  · rename_i same
    rw [taken] at same
    cases same
    split <;> simp_all

theorem fst_readFrom {ρ : Type} [Reader ρ] {r : Buffered ρ} (holds : r.Holds stop? bs) :
    (readFrom reading r).1 = (takeFrom stop? reading bs).map Prod.fst := by
  rcases @readFrom_eq_takeFrom _ reading _ _ _ _ holds with ⟨h, rest, r', takes, reads, _⟩ | ⟨e, r', takes, reads⟩
  · rw [takes, reads]
    rfl
  · rw [takes, reads]
    rfl

/-- Behind a header, or behind the failure to read one, a source hands out what is left. -/
theorem holds_readFrom {r : Buffered Source} (portions : r.inner.portion? ≠ some 0) (holds : r.Holds stop? bs) :
    (readFrom reading r).2.Holds stop? (leftFrom stop? reading bs) := by
  fun_induction readFrom reading r generalizing bs with
  | case1 reading r e r' reads =>
    have taken := Buffered.takeLine_of_readLine_error holds reads
    rw [leftFrom_of_failure taken]
    exact Buffered.holds_of_readLine_error portions holds reads
  | case2 reading r line r' reads isText =>
    obtain ⟨rest, taken, left⟩ := Buffered.takeLine_of_readLine_ok holds reads
    rw [leftFrom_of_line taken, isText]
    exact left
  | case3 reading r line r' reads text isText e rejected =>
    obtain ⟨rest, taken, left⟩ := Buffered.takeLine_of_readLine_ok holds reads
    rw [leftFrom_of_line taken, isText]
    dsimp only
    rw [rejected]
    exact left
  | case4 reading r line r' reads text isText h complete =>
    obtain ⟨rest, taken, left⟩ := Buffered.takeLine_of_readLine_ok holds reads
    rw [leftFrom_of_line taken, isText]
    dsimp only
    rw [complete]
    exact left
  | case5 reading r line r' reads text isText reading' more ih =>
    obtain ⟨rest, taken, left⟩ := Buffered.takeLine_of_readLine_ok holds reads
    have kept := Buffered.portion_readLineAfter #[] r none
    rw [← Buffered.readLine, reads] at kept
    rw [← kept] at portions
    rw [leftFrom_of_line taken, isText]
    dsimp only
    rw [more]
    exact ih portions left

end HeaderReading

section
variable {σ : Type} {size : Nat} (pos : 0 < size) (pass : σ → Bytes → Except ChannelError Unit × σ) (s : σ)
  {held : Bytes}

theorem gather_of_short (short : held.length < size) (bs : Bytes) :
    gather size pos pass s held bs =
      gather size pos pass s (held ++ bs.take (size - held.length)) (bs.drop (size - held.length)) := by
  by_cases none : bs = []
  · rw [none, List.take_nil, List.drop_nil, List.append_nil]
  · rw [gather, dif_neg none, if_neg (Nat.not_le.2 short)]

/-- Bytes that come in two parts are gathered as if they came together. -/
theorem gather_append (held bs more : Bytes) :
    gather size pos pass s held (bs ++ more) =
      match gather size pos pass s held bs with
      | ⟨.error e, s', held'⟩ => ⟨.error e, s', held'⟩
      | ⟨.ok (), s', held'⟩ => gather size pos pass s' held' more := by
  fun_induction gather size pos pass s held bs with
  | case1 s held => rfl
  | case2 s held bs some whole e s' step =>
    rw [gather, dif_neg (List.append_ne_nil_of_left_ne_nil some more), if_pos whole, step]
  | case3 s held bs some whole s' step ih =>
    rw [gather, dif_neg (List.append_ne_nil_of_left_ne_nil some more), if_pos whole, step]
    exact ih
  | case4 s held bs some short ih =>
    rw [gather_of_short pos pass s (Nat.lt_of_not_le short), ← ih]
    by_cases fits : bs.length < size - held.length
    · -- The piece is not full even with all of the first part, and goes on with the second one.
      have still : (held ++ bs).length < size := by
        rw [List.length_append]
        omega
      have room : size - (held ++ bs).length = size - held.length - bs.length := by
        rw [List.length_append, Nat.sub_sub]
      rw [List.take_of_length_le (Nat.le_of_lt fits), List.drop_eq_nil_of_le (Nat.le_of_lt fits), List.nil_append,
        gather_of_short pos pass s still, room, List.take_append, List.drop_append,
        List.take_of_length_le (Nat.le_of_lt fits), List.drop_eq_nil_of_le (Nat.le_of_lt fits), List.nil_append,
        List.append_assoc]
    · rw [List.take_append_of_le_length (Nat.le_of_not_lt fits), List.drop_append_of_le_length (Nat.le_of_not_lt fits)]

end

namespace PayloadWriter
variable {ω : Type} [Writer ω]

/-- A payload that is written to takes all bytes, unless it fails while they are gathered. -/
theorem writeAll_eq (w : PayloadWriter ω) (bs : Bytes) :
    Writer.writeAll w bs =
      match gather Chunk.size Chunk.size_pos (fun o chunk => o.pass chunk false) w.output w.chunk bs with
      | ⟨result, output, chunk⟩ => (result, ⟨output, chunk⟩) := by
  by_cases none : bs = []
  · rw [none, Writer.writeAll, dif_pos rfl, gather, dif_pos rfl]
  · have call : Writer.write w bs = w.write bs := rfl
    rw [Writer.writeAll, dif_neg none, call, write]
    cases gather Chunk.size Chunk.size_pos (fun o chunk => o.pass chunk false) w.output w.chunk bs with
      | mk result output chunk => ?_
    cases result with
    | error e => rfl
    | ok _ =>
      obtain ⟨n, same⟩ := Nat.exists_eq_succ_of_ne_zero fun zero => none (List.length_eq_zero_iff.1 zero)
      have ended : bs.drop (n + 1) = [] := List.drop_eq_nil_of_le (Nat.le_of_eq same)
      simp only [Except.map, same, Nat.succ_eq_add_one]
      rw [ended, Writer.writeAll, dif_pos rfl]

/-- Parts that are written one after the other come to the same chunks as all of them together. -/
theorem writeEach_eq (w : PayloadWriter ω) (parts : List Bytes) :
    Writer.writeEach w parts = Writer.writeAll w parts.flatten := by
  induction parts generalizing w with
  | nil => rw [Writer.writeEach, List.flatten_nil, Writer.writeAll, dif_pos rfl]
  | cons part parts ih =>
    rw [Writer.writeEach, List.flatten_cons, writeAll_eq w part, writeAll_eq w (part ++ parts.flatten), gather_append]
    cases gather Chunk.size Chunk.size_pos (fun o chunk => o.pass chunk false) w.output w.chunk part with
      | mk result output chunk => ?_
    cases result with
    | error e => rfl
    | ok _ =>
      dsimp only
      rw [ih, writeAll_eq]

/-- Copying into a payload writes what the reader delivers. -/
theorem copy_of_delivers {ρ : Type} [Reader ρ] {r : ρ} {stop? : Option ChannelError} {bs : Bytes}
    (delivers : Reader.Delivers stop? r bs) (w : PayloadWriter ω) :
    ((copy r w).result, (copy r w).writer) = Writer.writeOut w [bs] stop? := by
  obtain ⟨parts, ending?, hands⟩ := Reader.exists_handsOut Reader.blockSize r
  obtain ⟨rfl, rfl⟩ := Reader.eq_of_readsOut delivers (Reader.readsOut_of_handsOut (by decide) hands)
  rw [copy_of_handsOut hands, Writer.writeOut, Writer.writeOut, writeEach_eq, writeEach_eq, List.flatten_singleton]

end PayloadWriter

/-- The payload that is written for an input depends on what the input delivers only. -/
theorem writePayload_of_delivers {ρ ρ' ω : Type} [Reader ρ] [Reader ρ'] [Writer ω] {r : ρ} {r' : ρ'}
    {stop? : Option ChannelError} {bs : Bytes} (delivers : Reader.Delivers stop? r bs)
    (delivers' : Reader.Delivers stop? r' bs) (w : PayloadWriter ω) : writePayload r w = writePayload r' w := by
  have same := (PayloadWriter.copy_of_delivers delivers w).trans (PayloadWriter.copy_of_delivers delivers' w).symm
  injection same with result writer
  rw [writePayload, writePayload, result, writer]

/-- Whatever calls are made of two readers, and repeated when they are interrupted, the same bytes come, and then the
    same failure or the end. -/
def Reader.HandOutAlike {ρ ρ' : Type} [Reader ρ] [Reader ρ'] (r : ρ) (r' : ρ') : Prop :=
  ∃ bs ending?, ∀ bs' ending?', (Reader.ReadsOut r bs' ending?' ↔ bs' = bs ∧ ending?' = ending?) ∧
    (Reader.ReadsOut r' bs' ending?' ↔ bs' = bs ∧ ending?' = ending?)

theorem Reader.handOutAlike_of_delivers {ρ ρ' : Type} [Reader ρ] [Reader ρ'] {r : ρ} {r' : ρ'} {bs : Bytes}
    {stop? : Option ChannelError} (delivers : Delivers stop? r bs) (delivers' : Delivers stop? r' bs) : HandOutAlike r r' :=
  ⟨bs, stop?, fun _ _ => ⟨readsOut_iff_of_delivers delivers, readsOut_iff_of_delivers delivers'⟩⟩

/-- A file is read as its header is taken from what the reader delivers. -/
theorem File.read_of_delivers {ρ : Type} [Reader ρ] {r : ρ} {stop? : Option ChannelError} {bs : Bytes}
    (delivers : Reader.Delivers stop? r bs) :
    File.read r =
      match HeaderReading.takeFrom stop? .version bs with
      | .error e => .error e
      | .ok (header, rest) =>
        let whole := if rest.length < 16 then .error (.header .missingNonce) else .ok ⟨header, rest⟩
        stop?.elim whole fun e => .error (.channel e) := by
  unfold File.read Header.read
  rcases @HeaderReading.readFrom_eq_takeFrom _ .version _ _ _ _ (Buffered.holds_ofReader delivers) with
    ⟨header, rest, r', takes, reads, left⟩ | ⟨e, r', takes, reads⟩
  · obtain ⟨r₂, drained⟩ := Reader.drain_of_delivers (Buffered.delivers_of_holds left)
    rw [takes, reads]
    dsimp only
    rw [drained]
    cases stop? <;> rfl
  · rw [takes, reads]

namespace Source

/-- The source that hands out the same bytes in as few calls as they fit in, up to the same position, and is never
    interrupted. -/
def atOnce (s : Source) : Source := { s with portion? := none, interruptions := .planned [] }

/-- Everything that is done with two sources comes out the same: reading a header and what is left unread, reading a file,
    removing armor, decrypting what they hand out and encrypting it. -/
structure ReadAlike (s t : Source) : Prop where
  header : (Header.read (Buffered.ofReader s)).1 = (Header.read (Buffered.ofReader t)).1
  unread : Reader.HandOutAlike (Header.read (Buffered.ofReader s)).2 (Header.read (Buffered.ofReader t)).2
  file : File.read s = File.read t
  unarmored : Reader.HandOutAlike (ArmorReader.ofReader s) (ArmorReader.ofReader t)
  decrypted : ∀ {ω : Type} [Writer ω] (identities : List Identity) (output : ω),
    decrypt identities s output = decrypt identities t output
  encrypted : ∀ {ω : Type} [Writer ω] (recipients : List Recipient) (output : ω) (format : Format)
    (randomness : Randomness), encrypt recipients s output format randomness = encrypt recipients t output format randomness

theorem readAlike_of_delivers {s t : Source} {stop? : Option ChannelError} {bs : Bytes} (portions : s.portion? ≠ some 0)
    (portions' : t.portion? ≠ some 0) (delivers : Reader.Delivers stop? s bs) (delivers' : Reader.Delivers stop? t bs) :
    ReadAlike s t := by
  have holds := Buffered.holds_ofReader delivers
  have holds' := Buffered.holds_ofReader delivers'
  constructor
  case header => exact (HeaderReading.fst_readFrom holds).trans (HeaderReading.fst_readFrom holds').symm
  case unread =>
    have left := @HeaderReading.holds_readFrom _ .version _ _ portions holds
    have left' := @HeaderReading.holds_readFrom _ .version _ _ portions' holds'
    exact Reader.handOutAlike_of_delivers (Buffered.delivers_of_holds left) (Buffered.delivers_of_holds left')
  case file => rw [File.read_of_delivers delivers, File.read_of_delivers delivers']
  case unarmored => exact Reader.handOutAlike_of_delivers (ArmorReader.delivers delivers) (ArmorReader.delivers delivers')
  case decrypted =>
    intro ω _ identities output
    rw [decrypt_of_delivers delivers, decrypt_of_delivers delivers']
  case encrypted =>
    intro ω _ recipients output format randomness
    have files : ∀ (p : Prologue) (w : ArmorWriter ω), writeFile p s w = writeFile p t w := by
      intro p w
      simp only [writeFile, writePayload_of_delivers delivers delivers']
    simp only [encrypt, files]

/-- How a source cuts its bytes, and how often it is interrupted between them, decides nothing. -/
theorem readAlike_atOnce (s : Source) (portions : s.portion? ≠ some 0) : ReadAlike s s.atOnce := by
  have whole : s.atOnce.portion? ≠ some 0 := by simp [atOnce]
  exact readAlike_of_delivers portions whole (delivers s portions) (delivers s.atOnce whole)

/-- The version line in portions of three bytes with interruptions between them, of which the last byte does not come. -/
theorem readAlike_atOnce_version :
    (some 3 : Option Nat) ≠ some 0 ∧
      ReadAlike ⟨utf8 "age-encryption.org/v1\n", some 3, some 21, .planned [true, false, true, true]⟩
        ⟨utf8 "age-encryption.org/v1\n", none, some 21, .planned []⟩ :=
  ⟨by decide, readAlike_atOnce ⟨_, some 3, some 21, .planned [true, false, true, true]⟩ (by decide)⟩

end Source

end AgeCrypt
