import AgeCrypt.Payload.Reader
import AgeCrypt.Proofs.Chunks
import AgeCrypt.Proofs.Delivery

/-!
# What a payload reader delivers

The bytes that a payload reader hands out are the chunks that open, one after the other, and it ends as they do:
with the last one, or because the next one is rejected (`PayloadReader.delivers`). This is one invariant of the
reader, which every call keeps (`PayloadReader.read_of_expects`), also behind a rejected chunk, and so does every
run of calls (`PayloadReader.readEach_of_expects`).
-/

namespace AgeCrypt

namespace PayloadReader
variable {ρ : Type} [Reader ρ] {stop? ending? : Option ChannelError} {r r' : PayloadReader ρ} {sealed rest : Bytes}

omit [Reader ρ] in
theorem decrypt_eq_open? (r : PayloadReader ρ) (encrypted : Bytes) :
    r.decrypt encrypted = Chunk.open? r.cipher r.nonce.counter encrypted := rfl

/-- The reader behind a chunk that was accepted, with another reader of the encrypted bytes. -/
def accepted (r : PayloadReader ρ) (inner : ρ) (chunk : Bytes) (last : Bool) : PayloadReader ρ :=
  { r with
    inner
    pending := []
    nonce := if last then ⟨r.nonce.counter, true⟩ else ⟨r.nonce.counter + 1, false⟩
    chunk? := some chunk }

theorem expectEnd_of_delivers (delivers : Reader.Delivers stop? r.inner rest) :
    (∃ inner, r.expectEnd = (.ok (), { r with inner }) ∧ rest = [] ∧ stop? = none ∧
      Reader.Delivers stop? inner rest) ∨
    (∃ e r', r.expectEnd = (.error e, r') ∧ rest = [] ∧ stop? = some e) ∨
    (∃ r', r.expectEnd = (.error (.payload .trailingData), r') ∧ rest ≠ [] ∧ r'.failed? = some .trailingData) := by
  rcases Reader.retry_of_delivers delivers 1 with ⟨bs, inner, rest', reads, cut, holds, ended⟩ | ⟨e, inner, fails, none, stops⟩
  · cases bs with
    | nil =>
      obtain ⟨none, clean⟩ := ended rfl Nat.one_ne_zero
      obtain rfl : rest = rest' := cut
      exact .inl ⟨inner, by rw [expectEnd, reads], none, clean, holds⟩
    | cons b bs =>
      refine .inr (.inr ⟨({ r with inner }.fail .trailingData).2, ?_, by simp [cut], rfl⟩)
      rw [expectEnd, reads]
      rfl
  · exact .inr (.inl ⟨e, { r with inner }, by rw [expectEnd, fails], none, stops⟩)

/-- How fetching the next chunk turns out: it is accepted, with `rest` behind it, or it is rejected, and then the
    reader fails from now on unless the encrypted bytes fail themselves. -/
def Outcome (stop? : Option ChannelError) (r : PayloadReader ρ) (rest : Bytes) :
    Except ChannelError (Bytes × Bool) → Except ChannelError Unit × PayloadReader ρ → Prop
  | .ok (chunk, last), (.ok (), r') =>
    ∃ inner, r' = r.accepted inner chunk last ∧ Reader.Delivers stop? inner rest
  | .error e, (.error e', r') =>
    e' = e ∧ e.isInterruption = false ∧ (stop? = none → ∃ cause, e = .payload cause ∧ r'.failed? = some cause)
  | _, _ => False

theorem outcome_cases {opened : Except ChannelError (Bytes × Bool)} {answer : Except ChannelError Unit × PayloadReader ρ}
    (outcome : Outcome stop? r rest opened answer) :
    (∃ chunk last inner, opened = .ok (chunk, last) ∧ answer = (.ok (), r.accepted inner chunk last) ∧
      Reader.Delivers stop? inner rest) ∨
    (∃ e r', opened = .error e ∧ answer = (.error e, r') ∧ e.isInterruption = false ∧
      (stop? = none → ∃ cause, e = .payload cause ∧ r'.failed? = some cause)) := by
  unfold Outcome at outcome
  split at outcome
  · obtain ⟨inner, rfl, holds⟩ := outcome
    exact .inl ⟨_, _, inner, rfl, rfl, holds⟩
  · obtain ⟨rfl, final, persists⟩ := outcome
    exact .inr ⟨_, _, rfl, rfl, final, persists⟩
  · exact outcome.elim

theorem outcome_fail (cause : PayloadError) :
    Outcome stop? r rest (.error (.payload cause)) (r'.fail cause) :=
  ⟨rfl, by cases cause <;> rfl, fun _ => ⟨cause, rfl, rfl⟩⟩

theorem outcome_openChunk (delivers : Reader.Delivers stop? r.inner rest) (pending : r.pending = [])
    (encrypted : Bytes) :
    Outcome stop? r rest (Chunk.settle stop? false (Chunk.verdict r.cipher r.nonce.counter encrypted rest))
      (r.openChunk encrypted) := by
  unfold openChunk Chunk.verdict
  by_cases empty : encrypted = []
  · rw [if_pos empty, if_pos empty]
    cases stop? <;> exact outcome_fail .truncated
  by_cases tag : encrypted.length = Aead.tagLength ∧ r.nonce.counter ≠ 0
  · rw [if_neg empty, if_neg empty, if_pos tag, if_pos tag]
    cases stop? <;> exact outcome_fail .emptyLastChunk
  rw [if_neg empty, if_neg empty, if_neg tag, if_neg tag, decrypt_eq_open?]
  cases opened : Chunk.open? r.cipher r.nonce.counter encrypted with
  | none => cases stop? <;> exact outcome_fail .undecryptable
  | some pair =>
    obtain ⟨chunk, last⟩ := pair
    cases last with
    | false =>
      by_cases full : r.nonce.counter + 1 = ChunkNonce.range
      · simp only [if_pos full, accept, ChunkNonce.after, Bool.false_eq_true, if_false]
        cases stop? <;> exact outcome_fail .tooManyChunks
      · simp only [if_neg full, accept, ChunkNonce.after, Bool.false_eq_true, if_false]
        have accepted : { r with nonce := ⟨r.nonce.counter + 1, false⟩, chunk? := some chunk } =
            r.accepted r.inner chunk false := by
          simp [PayloadReader.accepted, ← pending]
        cases stop? <;> exact ⟨r.inner, accepted, delivers⟩
    | true =>
      rcases expectEnd_of_delivers delivers with
        ⟨inner, ends, none, clean, holds⟩ | ⟨e, r', fails, none, stops⟩ | ⟨r', trailing, some, failed⟩
      · simp only [ends, if_pos none, clean, accept, ChunkNonce.after, if_true]
        refine ⟨inner, ?_, clean ▸ holds⟩
        simp [PayloadReader.accepted, ChunkNonce.marked, ← pending]
      · simp only [fails, if_pos none, stops]
        exact ⟨rfl, (bound_expectEnd fails).2 e rfl, fun clean => by cases clean⟩
      · simp only [trailing, if_neg some]
        cases stop? <;> exact ⟨rfl, rfl, fun _ => ⟨.trailingData, rfl, failed⟩⟩

/-- The next chunk that a reader fetches is the next one of the encrypted bytes. -/
theorem outcome_nextChunk (delivers : Reader.Delivers stop? r.inner sealed) (pending : r.pending = []) :
    Outcome stop? r (sealed.drop Chunk.encryptedSize) (Chunk.next r.cipher stop? r.nonce.counter sealed) r.nextChunk := by
  unfold nextChunk Chunk.next
  simp only [pending, List.length_nil, Nat.sub_zero, List.nil_append]
  rcases Reader.fetch_of_delivers delivers Chunk.encryptedSize with
    ⟨inner, fetched, holds, enough⟩ | ⟨e, inner, fetched, short, stops⟩
  · rw [fetched]
    have settled : ∀ verdict, Chunk.settle stop? (sealed.length < Chunk.encryptedSize) verdict =
        Chunk.settle stop? false verdict := by
      intro verdict
      rcases enough with long | clean
      · rw [decide_eq_false (Nat.not_lt.2 long)]
      · rw [clean]
        rfl
    rw [settled]
    exact outcome_openChunk (r := { r with inner, pending := [] }) holds rfl (sealed.take Chunk.encryptedSize)
  · have final := Reader.fetch_failure (congrArg Fetched.failure? fetched)
    rw [fetched, stops, decide_eq_true short]
    exact ⟨rfl, final, fun clean => by cases clean⟩

section
variable {chunk : Bytes} {n : Nat}

/-- A call hands out of a chunk that is there. -/
theorem read_of_some (asked : n ≠ 0) (sound : r.failed? = none) (holds : r.chunk? = some chunk) :
    r.read n = (.ok (chunk.take n), (r.serve n).2) := by
  have busy : ¬ (n = 0 ∨ (r.chunk?.isNone ∧ r.nonce.last)) := by simp [asked, holds]
  have stocked : ¬ r.chunk?.isNone = true := by simp [holds]
  have served : (r.serve n).1 = chunk.take n := by rw [serve, holds, Option.getD_some]
  simp only [read, sound, if_neg busy, if_neg stocked, served]

/-- Behind the last chunk there is nothing. -/
theorem read_of_last (n : Nat) (sound : r.failed? = none) (last : r.nonce.last = true) (empty : r.chunk? = none) :
    r.read n = (.ok [], r) := by
  have idle : n = 0 ∨ (r.chunk?.isNone ∧ r.nonce.last) := .inr ⟨by rw [empty, Option.isNone_none], last⟩
  simp only [read, sound, if_pos idle]

/-- When nothing is left of a chunk, a call goes on as fetching the next one does. -/
theorem read_of_none (asked : n ≠ 0) (sound : r.failed? = none) (open_ : r.nonce.last = false) (empty : r.chunk? = none) :
    r.read n =
      match r.nextChunk with
      | (.error e, r') => (.error e, r')
      | (.ok (), r') => (.ok (r'.serve n).1, (r'.serve n).2) := by
  have busy : ¬ (n = 0 ∨ (r.chunk?.isNone ∧ r.nonce.last)) := by simp [asked, open_]
  have fetches : r.chunk?.isNone = true := by rw [empty, Option.isNone_none]
  cases fetched : r.nextChunk with | mk result r' => ?_
  cases result with
  | error e => simp only [read, sound, if_neg busy, if_pos fetches, fetched]
  | ok _ => simp only [read, sound, if_neg busy, if_pos fetches, fetched]

end

/-- The reader still hands out `rest`, and ends with the failure `ending?` or without one, while the failure
    `stop?` comes behind the encrypted bytes. -/
inductive Expects (stop? : Option ChannelError) : PayloadReader ρ → Bytes → Option ChannelError → Prop
  | running {r : PayloadReader ρ} {sealed : Bytes} (sound : r.failed? = none) (pending : r.pending = [])
      (open_ : r.nonce.last = false) (stocked : r.chunk? ≠ some []) (delivers : Reader.Delivers stop? r.inner sealed) :
      Expects stop? r
        (r.chunk?.getD [] ++ (Chunk.openFrom r.cipher stop? r.nonce.counter sealed).1.flatten)
        (Chunk.openFrom r.cipher stop? r.nonce.counter sealed).2
  | ended {r : PayloadReader ρ} (sound : r.failed? = none) (last : r.nonce.last = true) :
      Expects stop? r (r.chunk?.getD []) none
  | failed {r : PayloadReader ρ} {cause : PayloadError} (failed : r.failed? = some cause) :
      Expects stop? r [] (some (.payload cause))

omit [Reader ρ] in
theorem chunk?_serve (r : PayloadReader ρ) (n : Nat) :
    (r.serve n).2.chunk? ≠ some [] ∧ (r.serve n).2.chunk?.getD [] = (r.chunk?.getD []).drop n := by
  unfold serve
  by_cases empty : (r.chunk?.getD []).drop n = []
  · simp [empty]
  · simp [empty]

/-- Handing out of a chunk before the last. -/
theorem expects_serve_running (sound : r.failed? = none) (pending : r.pending = []) (open_ : r.nonce.last = false)
    (delivers : Reader.Delivers stop? r.inner sealed) (n : Nat) :
    Expects stop? (r.serve n).2
      ((r.chunk?.getD []).drop n ++ (Chunk.openFrom r.cipher stop? r.nonce.counter sealed).1.flatten)
      (Chunk.openFrom r.cipher stop? r.nonce.counter sealed).2 := by
  obtain ⟨stocked, left⟩ := r.chunk?_serve n
  rw [← left]
  exact .running sound pending open_ stocked delivers

/-- Handing out of the last chunk. -/
theorem expects_serve_ended (stop? : Option ChannelError) (sound : r.failed? = none) (last : r.nonce.last = true) (n : Nat) :
    Expects stop? (r.serve n).2 ((r.chunk?.getD []).drop n) none := by
  rw [← (r.chunk?_serve n).2]
  exact .ended sound last

/-- Behind the last chunk a call hands out what is left of it. -/
theorem read_of_ended (stop? : Option ChannelError) (sound : r.failed? = none) (last : r.nonce.last = true) (n : Nat) :
    ∃ bs r' rest', r.read n = (.ok bs, r') ∧ r.chunk?.getD [] = bs ++ rest' ∧ Expects stop? r' rest' none ∧
      (bs = [] → n ≠ 0 → r.chunk?.getD [] = []) := by
  by_cases idle : n = 0 ∨ r.chunk? = none
  · have reads : r.read n = (.ok [], r) := by
      rw [read, sound]
      simp [last, idle]
    refine ⟨[], r, r.chunk?.getD [], reads, rfl, .ended sound last, fun _ asked => ?_⟩
    rw [idle.resolve_left asked]
    rfl
  · obtain ⟨asked, stocked⟩ := not_or.1 idle
    have reads : r.read n = (.ok (r.serve n).1, (r.serve n).2) := by
      rw [read, sound]
      simp [asked, stocked]
    exact ⟨(r.serve n).1, (r.serve n).2, (r.chunk?.getD []).drop n, reads, (List.take_append_drop _ _).symm,
      expects_serve_ended stop? sound last n, fun empty _ => (List.take_eq_nil_iff.1 empty).resolve_left asked⟩

/-- A call hands out what is left of a chunk before the last. -/
theorem read_of_chunk {chunk : Bytes} {n : Nat} (asked : n ≠ 0) (sound : r.failed? = none) (pending : r.pending = [])
    (open_ : r.nonce.last = false) (holds : r.chunk? = some chunk) (delivers : Reader.Delivers stop? r.inner sealed) :
    ∃ r', r.read n = (.ok (chunk.take n), r') ∧ Expects stop? r'
      (chunk.drop n ++ (Chunk.openFrom r.cipher stop? r.nonce.counter sealed).1.flatten)
      (Chunk.openFrom r.cipher stop? r.nonce.counter sealed).2 := by
  have tail := expects_serve_running sound pending open_ delivers n
  rw [holds] at tail
  exact ⟨_, read_of_some asked sound holds, tail⟩

/-- A call reads the next chunk when nothing is left of the one before. -/
theorem read_of_next {n : Nat} (asked : n ≠ 0) (sound : r.failed? = none) (pending : r.pending = [])
    (open_ : r.nonce.last = false) (holds : r.chunk? = none) (delivers : Reader.Delivers stop? r.inner sealed) :
    (∃ bs r' rest', r.read n = (.ok bs, r') ∧
      (Chunk.openFrom r.cipher stop? r.nonce.counter sealed).1.flatten = bs ++ rest' ∧
      Expects stop? r' rest' (Chunk.openFrom r.cipher stop? r.nonce.counter sealed).2 ∧
      (bs = [] → (Chunk.openFrom r.cipher stop? r.nonce.counter sealed) = ([[]], none))) ∨
    (∃ e r', r.read n = (.error e, r') ∧ e.isInterruption = false ∧
      Chunk.openFrom r.cipher stop? r.nonce.counter sealed = ([], some e) ∧
      (stop? = none → Expects stop? r' [] (some e))) := by
  rcases outcome_cases (outcome_nextChunk delivers pending) with
    ⟨chunk, last, inner, opened, fetched, left⟩ | ⟨e, r', opened, fetched, final, persists⟩
  · have reads : r.read n = (.ok (chunk.take n), ((r.accepted inner chunk last).serve n).2) := by
      rw [read_of_none asked sound open_ holds, fetched]
      rfl
    cases last with
    | false =>
      rw [Chunk.openFrom_of_inner opened]
      have tail := expects_serve_running (r := r.accepted inner chunk false) sound rfl rfl left n
      refine .inl ⟨_, _, _, reads, ?_, tail, fun empty => ?_⟩
      · rw [List.flatten_cons, ← List.append_assoc]
        exact congrArg (· ++ _) (List.take_append_drop n chunk).symm
      · have size := Chunk.length_of_inner opened
        rw [(List.take_eq_nil_iff.1 empty).resolve_left asked] at size
        cases size
    | true =>
      rw [Chunk.openFrom_of_last opened]
      have tail := expects_serve_ended stop? (r := r.accepted inner chunk true) sound rfl n
      refine .inl ⟨_, _, _, reads, ?_, tail, fun empty => ?_⟩
      · rw [List.flatten_singleton]
        exact (List.take_append_drop n chunk).symm
      · rw [(List.take_eq_nil_iff.1 empty).resolve_left asked]
  · have reads : r.read n = (.error e, r') := by
      rw [read_of_none asked sound open_ holds, fetched]
    refine .inr ⟨e, r', reads, final, Chunk.openFrom_of_error opened, fun clean => ?_⟩
    obtain ⟨cause, rfl, failed⟩ := persists clean
    exact .failed failed

/-- A call is answered by bytes of the expected ones, of which there are none only at the end, and behind it the
    rest is expected; or it fails as expected. -/
theorem read_of_expects (expects : Expects stop? r rest ending?) (n : Nat) :
    (∃ bs r' rest', r.read n = (.ok bs, r') ∧ rest = bs ++ rest' ∧ Expects stop? r' rest' ending? ∧
      (bs = [] → n ≠ 0 → rest = [] ∧ ending? = none)) ∨
    (∃ e r', r.read n = (.error e, r') ∧ e.isInterruption = false ∧ rest = [] ∧ ending? = some e ∧
      (stop? = none → Expects stop? r' [] ending?)) := by
  cases expects with
  | @failed cause failed =>
    refine .inr ⟨.payload cause, r, by rw [read, failed], ?_, rfl, rfl, fun _ => .failed failed⟩
    cases cause <;> rfl
  | ended sound last =>
    obtain ⟨bs, r', rest', reads, cut, tail, empty⟩ := read_of_ended stop? sound last n
    exact .inl ⟨bs, r', rest', reads, cut, tail, fun none asked => ⟨empty none asked, rfl⟩⟩
  | @running sealed sound pending open_ stocked delivers =>
    by_cases asked : n = 0
    · have reads : r.read n = (.ok [], r) := by
        rw [read, sound]
        simp [asked]
      exact .inl ⟨[], r, _, reads, rfl, .running sound pending open_ stocked delivers, fun _ some => absurd asked some⟩
    cases holds : r.chunk? with
    | some chunk =>
      obtain ⟨r', reads, tail⟩ := read_of_chunk asked sound pending open_ holds delivers
      refine .inl ⟨_, r', _, reads, ?_, tail, fun empty _ => ?_⟩
      · rw [← List.append_assoc]
        exact congrArg (· ++ _) (List.take_append_drop n chunk).symm
      · rw [holds, (List.take_eq_nil_iff.1 empty).resolve_left asked] at stocked
        exact absurd rfl stocked
    | none =>
      rw [Option.getD_none, List.nil_append]
      rcases read_of_next asked sound pending open_ holds delivers with
        ⟨bs, r', rest', reads, cut, tail, empty⟩ | ⟨e, r', reads, final, opened, persists⟩
      · refine .inl ⟨bs, r', rest', reads, cut, tail, fun none _ => ?_⟩
        rw [empty none]
        exact ⟨rfl, rfl⟩
      · rw [opened]
        exact .inr ⟨e, r', reads, final, rfl, rfl, persists⟩

theorem expects_start (cipher : Cipher) {inner : ρ} (delivers : Reader.Delivers stop? inner sealed) :
    Expects stop? (start cipher inner) (Chunk.openFrom cipher stop? 0 sealed).1.flatten
      (Chunk.openFrom cipher stop? 0 sealed).2 :=
  .running (r := start cipher inner) rfl rfl rfl (by simp [start]) delivers

/-- A payload reader hands out the chunks that open, and ends as they do. -/
theorem delivers (cipher : Cipher) {inner : ρ} (delivers : Reader.Delivers stop? inner sealed) :
    Reader.Delivers (Chunk.openFrom cipher stop? 0 sealed).2 (start cipher inner)
      (Chunk.openFrom cipher stop? 0 sealed).1.flatten := by
  refine ⟨fun r rest => Expects stop? r rest (Chunk.openFrom cipher stop? 0 sealed).2, ?_, expects_start cipher delivers⟩
  intro r rest n expects
  change Reader.Answers _ _ _ _ (r.read n)
  rcases read_of_expects expects n with ⟨bs, r', rest', reads, cut, left, ended⟩ | ⟨e, r', fails, final, none, stops, _⟩
  · rw [reads]
    exact ⟨rest', cut, left, ended⟩
  · rw [fails]
    exact .inr ⟨final, none, stops⟩

/-- Whatever calls are made and however they are answered, what they return comes first in what was expected, and
    the rest is expected behind them. -/
theorem readEach_of_expects (expects : Expects none r rest ending?) (sizes : List Nat) :
    ∃ rest', rest = Reader.returned (Reader.readEach r sizes).1 ++ rest' ∧
      Expects none (Reader.readEach r sizes).2 rest' ending? := by
  induction sizes generalizing r rest with
  | nil => exact ⟨rest, rfl, expects⟩
  | cons n sizes ih =>
    rcases read_of_expects expects n with ⟨bs, r', rest', reads, rfl, left, _⟩ | ⟨e, r', fails, _, rfl, _, left⟩
    · obtain ⟨rest'', rfl, behind⟩ := ih left
      have step : Reader.readEach r (n :: sizes) =
          (.ok bs :: (Reader.readEach r' sizes).1, (Reader.readEach r' sizes).2) := by
        rw [Reader.readEach, show Reader.read r n = _ from reads]
      rw [step, Reader.returned_cons]
      exact ⟨rest'', (List.append_assoc bs _ rest'').symm, behind⟩
    · obtain ⟨rest'', none, behind⟩ := ih (left rfl)
      have step : Reader.readEach r (n :: sizes) =
          (.error e :: (Reader.readEach r' sizes).1, (Reader.readEach r' sizes).2) := by
        rw [Reader.readEach, show Reader.read r n = _ from fails]
      rw [step, Reader.returned_cons]
      exact ⟨rest'', none, behind⟩

/-- Calls for one byte each return all bytes if there is no failure behind them, and then comes a clean end. -/
theorem readEach_replicate_of_expects (expects : Expects none r rest none) :
    Reader.returned (Reader.readEach r (List.replicate rest.length 1)).1 = rest ∧
      ∃ r', Reader.read (Reader.readEach r (List.replicate rest.length 1)).2 1 = (.ok [], r') := by
  induction rest generalizing r with
  | nil =>
    rcases read_of_expects expects 1 with ⟨bs, r', rest', reads, cut, _⟩ | ⟨e, r', _, _, _, stops, _⟩
    · obtain ⟨rfl, _⟩ := List.append_eq_nil_iff.1 cut.symm
      exact ⟨rfl, r', reads⟩
    · cases stops
  | cons b rest ih =>
    rcases read_of_expects expects 1 with ⟨bs, r', rest', reads, cut, left, ended⟩ | ⟨e, r', _, _, _, stops, _⟩
    · have one := (Reader.read_ok (show Reader.read r 1 = _ from reads)).1
      obtain ⟨rfl, rfl⟩ : bs = [b] ∧ rest = rest' := by
        cases bs with
        | nil => cases (ended rfl Nat.one_ne_zero).1
        | cons c bs =>
          obtain rfl : bs = [] := List.length_eq_zero_iff.1 (by simpa using one)
          simpa [eq_comm] using cut
      obtain ⟨all, ends⟩ := ih left
      have step : Reader.readEach r (List.replicate (b :: rest).length 1) =
          (.ok [b] :: (Reader.readEach r' (List.replicate rest.length 1)).1,
            (Reader.readEach r' (List.replicate rest.length 1)).2) := by
        rw [List.length_cons, List.replicate_succ, Reader.readEach, show Reader.read r 1 = _ from reads]
      rw [step, Reader.returned_cons, all]
      exact ⟨rfl, ends⟩
    · cases stops

/-- A call for some bytes is answered by none only at the end. -/
theorem ended_of_expects (expects : Expects stop? r rest ending?) {n : Nat} (asked : n ≠ 0)
    (clean : Reader.read r n = (.ok [], r')) : rest = [] ∧ ending? = none := by
  change r.read n = _ at clean
  rcases read_of_expects expects n with ⟨bs, _, _, reads, _, _, ended⟩ | ⟨e, _, fails, _⟩
  · rw [reads] at clean
    cases clean
    exact ended rfl asked
  · rw [fails] at clean
    cases clean

end PayloadReader

end AgeCrypt
