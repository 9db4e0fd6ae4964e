import AgeCrypt.Proofs.PayloadReading

/-!
# How reading a payload ends

However many bytes the calls on a payload reader ask for, they return the chunks before the first one that is rejected,
and then the payload ends, or fails with the reason why that chunk was rejected (`PayloadReader.yields_chunks`). This is
said of any reader by `Reader.Yields`: the first call that returns nothing or fails comes when all was returned, it
comes sooner or later, and all calls behind it are answered in the same way.
-/

namespace AgeCrypt

namespace Reader
variable {ρ : Type} [Reader ρ]

/-- How many of some calls ask for bytes. -/
def asking (sizes : List Nat) : Nat := (sizes.filter (· ≠ 0)).length

/-- The reader hands out `whole`, however many bytes the calls ask for, and then ends with the failure `ending?` or
    without one. -/
structure Yields (r : ρ) (whole : Bytes) (ending? : Option ChannelError) : Prop where
  /-- At all times what was returned comes first in `whole`. -/
  start : ∀ sizes, returned (readEach r sizes).1 <+: whole
  /-- A call for some bytes is answered by none only behind `whole`, and then all calls are. -/
  clean : ∀ sizes n r', n ≠ 0 → read (readEach r sizes).2 n = (.ok [], r') →
    returned (readEach r sizes).1 = whole ∧ ending? = none ∧ ∀ later, (readEach r' later).1 = later.map fun _ => .ok []
  /-- A call fails only behind `whole`, and then all calls do. -/
  failure : ∀ sizes n e r', read (readEach r sizes).2 n = (.error e, r') →
    returned (readEach r sizes).1 = whole ∧ ending? = some e ∧ ∀ later, (readEach r' later).1 = later.map fun _ => .error e
  /-- Behind as many calls for some bytes as there are bytes, the end shows. -/
  ends : ∀ sizes n, whole.length ≤ asking sizes → n ≠ 0 →
    ∃ r', read (readEach r sizes).2 n = (ending?.elim (.ok []) .error, r')
  /-- A call for no bytes changes nothing. -/
  idle : ∀ sizes, (read (readEach r sizes).2 0).2 = (readEach r sizes).2

end Reader

namespace PayloadReader
variable {ρ : Type} [Reader ρ] {stop? ending? : Option ChannelError} {r r' : PayloadReader ρ} {sealed rest : Bytes}

/-- A call for no bytes leaves the reader as it is, whatever became of it. -/
theorem read_zero (r : PayloadReader ρ) : (r.read 0).2 = r := by
  unfold read
  cases r.failed? with
  | none => simp
  | some e => rfl

theorem readEach_of_failed {cause : PayloadError} (failed : r.failed? = some cause) (sizes : List Nat) :
    (Reader.readEach r sizes).1 = sizes.map fun _ => .error (.payload cause) := by
  have step : ∀ n, Reader.read r n = (.error (.payload cause), r) := by
    intro n
    show r.read n = _
    rw [read, failed]
  induction sizes with
  | nil => rfl
  | cons n sizes ih => rw [Reader.readEach_cons (step n), ih, List.map_cons]

theorem readEach_of_finished (expects : Expects none r [] none) (sizes : List Nat) :
    (Reader.readEach r sizes).1 = sizes.map fun _ => .ok [] := by
  induction sizes generalizing r with
  | nil => rfl
  | cons n sizes ih =>
    rcases read_of_expects expects n with ⟨bs, r', rest', reads, cut, left, _⟩ | ⟨e, r', _, _, _, stops, _⟩
    · obtain ⟨rfl, rfl⟩ := List.append_eq_nil_iff.1 cut.symm
      rw [Reader.readEach_cons (show Reader.read r n = _ from reads), ih left, List.map_cons]
    · cases stops

/-- A call fails only with what is wrong with the payload, and then that is known for all calls to come. -/
theorem failed_of_read_error (expects : Expects none r rest ending?) {n : Nat} {e : ChannelError}
    (fails : r.read n = (.error e, r')) : ∃ cause, e = .payload cause ∧ r'.failed? = some cause := by
  cases expects with
  | @failed cause failed =>
    rw [read, failed] at fails
    cases fails
    exact ⟨cause, rfl, failed⟩
  | ended sound last =>
    obtain ⟨bs, s, rest', reads, _⟩ := read_of_ended none sound last n
    rw [reads] at fails
    cases fails
  | @running sealed sound pending open_ stocked delivers =>
    by_cases asked : n = 0
    · rw [read, sound] at fails
      simp [asked] at fails
    cases holds : r.chunk? with
    | some chunk =>
      obtain ⟨s, reads, _⟩ := read_of_chunk asked sound pending open_ holds delivers
      rw [reads] at fails
      cases fails
    | none =>
      rw [read, sound] at fails
      simp only [asked, holds, open_, Option.isNone_none, Bool.false_eq_true, and_false, or_self, if_false, if_true] at fails
      rcases outcome_cases (outcome_nextChunk delivers pending) with
        ⟨chunk, last, inner, _, fetched, _⟩ | ⟨e', s, _, fetched, _, persists⟩
      · rw [fetched] at fails
        cases fails
      · rw [fetched] at fails
        cases fails
        exact persists rfl

/-- Each call for some bytes returns one at least, until all were returned. -/
theorem readEach_asking (expects : Expects none r rest ending?) (sizes : List Nat) :
    ∃ rest', Expects none (Reader.readEach r sizes).2 rest' ending? ∧ rest'.length ≤ rest.length - Reader.asking sizes := by
  induction sizes generalizing r rest with
  | nil => exact ⟨rest, expects, Nat.le_refl _⟩
  | cons n sizes ih =>
    rcases read_of_expects expects n with ⟨bs, r', rest', reads, rfl, left, ended⟩ | ⟨e, r', fails, _, rfl, _, left⟩
    · obtain ⟨rest'', behind, le⟩ := ih left
      rw [Reader.readEach_cons (show Reader.read r n = _ from reads)]
      refine ⟨rest'', behind, ?_⟩
      rw [List.length_append]
      by_cases asked : n = 0
      · have same : Reader.asking (n :: sizes) = Reader.asking sizes := by simp [Reader.asking, asked]
        omega
      have more : Reader.asking (n :: sizes) = Reader.asking sizes + 1 := by simp [Reader.asking, asked]
      cases bs with
      | nil =>
        have none : rest' = [] := (ended rfl asked).1
        rw [none, List.length_nil] at le
        omega
      | cons b bs =>
        rw [List.length_cons]
        omega
    · obtain ⟨rest'', behind, le⟩ := ih (left rfl)
      rw [Reader.readEach_cons (show Reader.read r n = _ from fails)]
      refine ⟨rest'', behind, ?_⟩
      rw [List.length_nil] at le ⊢
      omega

theorem yields_of_expects (expects : Expects none r rest ending?) : Reader.Yields r rest ending? where
  start sizes := by
    obtain ⟨rest', whole, _⟩ := readEach_of_expects expects sizes
    exact ⟨rest', whole.symm⟩
  clean sizes n r' asked reads := by
    obtain ⟨rest', whole, left⟩ := readEach_of_expects expects sizes
    obtain ⟨rfl, ended⟩ := ended_of_expects left asked reads
    rw [List.append_nil] at whole
    refine ⟨whole.symm, ended, ?_⟩
    subst ended
    change PayloadReader.read _ n = _ at reads
    rcases read_of_expects left n with ⟨bs, s, rest'', again, cut, behind, _⟩ | ⟨e, s, fails, _⟩
    · rw [reads] at again
      cases again
      obtain rfl : rest'' = [] := cut.symm
      exact readEach_of_finished behind
    · rw [reads] at fails
      cases fails
  failure sizes n e r' fails := by
    obtain ⟨rest', whole, left⟩ := readEach_of_expects expects sizes
    change PayloadReader.read _ n = _ at fails
    obtain ⟨cause, rfl, failed⟩ := failed_of_read_error left fails
    rcases read_of_expects left n with ⟨bs, s, rest'', reads, _⟩ | ⟨e, s, again, _, rfl, stops, _⟩
    · rw [fails] at reads
      cases reads
    · rw [fails] at again
      cases again
      rw [List.append_nil] at whole
      exact ⟨whole.symm, stops, readEach_of_failed failed⟩
  ends sizes n enough asked := by
    obtain ⟨rest', left, le⟩ := readEach_asking expects sizes
    obtain rfl : rest' = [] := List.length_eq_zero_iff.1 (by omega)
    rcases read_of_expects left n with ⟨bs, s, rest'', reads, cut, _, ended⟩ | ⟨e, s, fails, _, _, stops, _⟩
    · obtain ⟨rfl, _⟩ := List.append_eq_nil_iff.1 cut.symm
      obtain ⟨_, clean⟩ := ended rfl asked
      exact ⟨s, by rw [clean]; exact reads⟩
    · exact ⟨s, by rw [stops]; exact fails⟩
  idle sizes := read_zero _

end PayloadReader

/-- A chunk of a payload with nothing but its end behind it is rejected for what is wrong with the payload. -/
theorem Chunk.payload_of_openFrom {cipher : Cipher} {counter : Nat} {sealed : Bytes} {chunks : List Bytes} {e : ChannelError}
    (opens : openFrom cipher none counter sealed = (chunks, some e)) : ∃ cause, e = .payload cause := by
  fun_induction openFrom cipher none counter sealed generalizing chunks e with
  | case1 counter sealed e' rejected =>
    cases opens
    unfold next settle at rejected
    cases found : verdict cipher counter (sealed.take encryptedSize) (sealed.drop encryptedSize) with
    | error cause =>
      rw [found] at rejected
      cases rejected
      exact ⟨cause, rfl⟩
    | ok opened =>
      rw [found] at rejected
      cases rejected
  | case2 => cases opens
  | case3 counter sealed chunk accepted chunks' ending? tail ih =>
    cases opens
    exact ih tail

namespace PayloadReader
variable {ρ : Type} [Reader ρ]

/-- Calls for any numbers of bytes return the chunks before the first one that is rejected, in order, and nothing of
    that one. Then they end without a failure, or all fail with what is wrong with that chunk. -/
theorem yields_chunks (cipher : Cipher) {inner : ρ} {sealed : Bytes} (delivers : Reader.Delivers none inner sealed) :
    Reader.Yields (start cipher inner) (Chunk.openFrom cipher none 0 sealed).1.flatten
      (Chunk.openFrom cipher none 0 sealed).2 ∧
    ∀ e, (Chunk.openFrom cipher none 0 sealed).2 = some e → ∃ cause, e = .payload cause :=
  ⟨yields_of_expects (expects_start cipher delivers), fun _ stops => Chunk.payload_of_openFrom (Prod.ext rfl stops)⟩

/-- One source has a payload of two bytes and hands out one byte at a time, another a single byte. -/
theorem yields_chunks_hi :
    let cipher := Cipher.chaCha20Poly1305 (.zeros 32)
    Reader.Yields (start cipher { Source.ofBytes (Chunk.layout cipher [104, 105]) with portion? := some 1 }) [104, 105] none ∧
    Reader.Yields (start cipher (Source.ofBytes [0])) [] (some (.payload .undecryptable)) := by
  intro cipher
  have whole : Chunk.openFrom cipher none 0 (Chunk.layout cipher [104, 105]) = ([[104, 105]], none) := by
    have split : Chunk.split [104, 105] = [[104, 105]] := Chunk.split_of_le (by decide)
    rw [← split]
    exact Chunk.openFrom_layout (fun _ _ => Aead.decrypt_eq_some_iff.2 rfl) (Chunk.marked_of_short _ (by decide))
      (by rw [split]; decide)
  have broken : Chunk.openFrom cipher none 0 [0] = ([], some (.payload .undecryptable)) :=
    Chunk.openFrom_of_error rfl
  have first := (yields_chunks cipher (Source.delivers { Source.ofBytes (Chunk.layout cipher [104, 105]) with portion? := some 1 }
    (by decide))).1
  have second := (yields_chunks cipher (Source.delivers_ofBytes [0])).1
  rw [show Source.available _ = Chunk.layout cipher [104, 105] from rfl, whole] at first
  rw [broken] at second
  exact ⟨first, second⟩

end PayloadReader

end AgeCrypt
