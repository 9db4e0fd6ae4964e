import AgeCrypt.Channel.Copy
import AgeCrypt.Channel.Sink
import AgeCrypt.Header
import AgeCrypt.Proofs.Delivery
import AgeCrypt.Proofs.Pieces

/-!
# What writers record

A writer is described by the bytes that it took so far and by those that it has room for. How the bytes are cut into
calls does not show in this description: every loop over a writer records all of them, or there was no room
(`writeAll_of_records`, `writeEach_of_records`, `copy_of_records`). Gathering passes on full pieces and holds the last one
back (`gather_of_passes`). A sink records what is behind the bytes that it held at first (`Sink.records`).
-/

namespace AgeCrypt

namespace Writer
variable {ω : Type} [Writer ω]

/-- What is known of a writer while it records bytes, of which those with `room` are taken at once. -/
structure Records (room : Bytes → Prop) (recorded : ω → Bytes → Prop) : Prop where
  room_of_append : ∀ {before bs}, room (before ++ bs) → room before
  write_ok : ∀ {w w' before bs n}, recorded w before → write w bs = (.ok n, w') → recorded w' (before ++ bs.take n)
  write_all : ∀ {w before bs}, recorded w before → room (before ++ bs) → ∃ w', write w bs = (.ok bs.length, w')
  flush_ok : ∀ {w before}, recorded w before → ∃ w', flush w = (.ok (), w') ∧ recorded w' before

/-- In as many calls as it takes, all bytes are recorded, or there is no room for them. -/
def RecordsAll (room : Bytes → Prop) (recorded : ω → Bytes → Prop) : Prop :=
  ∀ ⦃w before⦄, recorded w before → ∀ bs,
    (∃ w', writeAll w bs = (.ok (), w') ∧ recorded w' (before ++ bs)) ∨
    (∃ e w', writeAll w bs = (.error e, w') ∧ ¬ room (before ++ bs))

/-- A flush succeeds and leaves what is recorded. -/
def Flushes (recorded : ω → Bytes → Prop) : Prop :=
  ∀ ⦃w before⦄, recorded w before → ∃ w', flush w = (.ok (), w') ∧ recorded w' before

variable {room : Bytes → Prop} {recorded : ω → Bytes → Prop} {w : ω} {before : Bytes}

theorem Records.flushes (records : Records room recorded) : Flushes recorded := fun _ _ => records.flush_ok

/-- All bytes are taken, or there is no room for them. -/
theorem writeAll_of_records (records : Records room recorded) : RecordsAll room recorded := by
  intro w before holds bs
  fun_induction writeAll w bs generalizing before with
  | case1 w => exact .inl ⟨w, rfl, by rwa [List.append_nil]⟩
  | case2 w bs some e w' step =>
    refine .inr ⟨e, w', rfl, fun fits => ?_⟩
    obtain ⟨w₁, taken⟩ := records.write_all holds fits
    rw [step] at taken
    cases taken
  | case3 w bs some w' step =>
    refine .inr ⟨.nothingTaken, w', rfl, fun fits => ?_⟩
    obtain ⟨w₁, taken⟩ := records.write_all holds fits
    rw [step] at taken
    injection taken with taken
    injection taken with taken
    exact some (List.length_eq_zero_iff.1 taken.symm)
  | case4 w bs some n w' step ih =>
    have next := ih (records.write_ok holds step)
    rwa [List.append_assoc, List.take_append_drop] at next

theorem writeAll_ok_of_records (records : Records room recorded) (holds : recorded w before) {bs : Bytes} {w' : ω}
    (step : writeAll w bs = (.ok (), w')) : recorded w' (before ++ bs) := by
  rcases writeAll_of_records records holds bs with ⟨w₁, ok, behind⟩ | ⟨e, w₁, fails, _⟩
  · rw [step] at ok
    cases ok
    exact behind
  · rw [step] at fails
    cases fails

theorem writeAll_error_of_records (records : Records room recorded) (holds : recorded w before) {bs : Bytes} {w' : ω}
    {e : ChannelError} (step : writeAll w bs = (.error e, w')) : ¬ room (before ++ bs) := by
  rcases writeAll_of_records records holds bs with ⟨w₁, ok, _⟩ | ⟨e₁, w₁, _, full⟩
  · rw [step] at ok
    cases ok
  · exact full

theorem writeEach_of_records (records : Records room recorded) (holds : recorded w before) (texts : List Bytes) :
    (∃ w', writeEach w texts = (.ok (), w') ∧ recorded w' (before ++ texts.flatten)) ∨
    (∃ e w', writeEach w texts = (.error e, w') ∧ ¬ room (before ++ texts.flatten)) := by
  induction texts generalizing w before with
  | nil => exact .inl ⟨w, rfl, by simpa using holds⟩
  | cons bs texts ih =>
    rw [writeEach, List.flatten_cons, ← List.append_assoc]
    rcases writeAll_of_records records holds bs with ⟨w₁, step, behind⟩ | ⟨e, w₁, step, full⟩
    · rw [step]
      exact ih behind
    · rw [step]
      exact .inr ⟨e, w₁, rfl, fun fits => full (records.room_of_append fits)⟩

end Writer

section
variable {ρ ω : Type} [Reader ρ] [Writer ω] {stop? : Option ChannelError} {r : ρ} {rest : Bytes}
  {room : Bytes → Prop} {recorded : ω → Bytes → Prop} {w : ω} {before : Bytes}

/-- Copying records all that the reader hands out and ends as the reader does, or there is no room. -/
theorem copy_of_records (delivers : Reader.Delivers stop? r rest) (records : Writer.Records room recorded)
    (holds : recorded w before) :
    (∃ r' w', copy r w = ⟨stop?.elim (.ok ()) .error, r', w'⟩ ∧ recorded w' (before ++ rest)) ∨
    (∃ e r' w', copy r w = ⟨.error e, r', w'⟩ ∧ ¬ room (before ++ rest)) := by
  fun_induction copy r w generalizing rest before with
  | case1 r w e r' step =>
    obtain ⟨rfl, stops⟩ := Reader.retry_error_of_delivers delivers step
    rw [stops, List.append_nil]
    exact .inl ⟨r', w, rfl, holds⟩
  | case2 r w r' step =>
    obtain ⟨_, _, _, ended⟩ := Reader.retry_ok_of_delivers delivers step
    obtain ⟨rfl, clean⟩ := ended rfl (by decide)
    rw [clean, List.append_nil]
    exact .inl ⟨r', w, rfl, holds⟩
  | case3 r w b bs r' step e w' fails =>
    obtain ⟨rest', rfl, _⟩ := Reader.retry_ok_of_delivers delivers step
    refine .inr ⟨e, r', w', rfl, fun fits => ?_⟩
    rw [← List.append_assoc] at fits
    exact Writer.writeAll_error_of_records records holds fails (records.room_of_append fits)
  | case4 r w b bs r' step w' taken ih =>
    obtain ⟨rest', rfl, left, _⟩ := Reader.retry_ok_of_delivers delivers step
    have next := ih left (Writer.writeAll_ok_of_records records holds taken)
    rwa [List.append_assoc] at next

end

/-- How passing pieces on goes: a piece is `passed` with those before, or `refused` as the last of them. -/
def PassesOrRefuses {σ : Type} (passed refused : σ → List Bytes → Prop)
    (pass : σ → Bytes → Except ChannelError Unit × σ) (size : Nat) : Prop :=
  ∀ s full piece, passed s full → piece.length = size →
    (∃ s', pass s piece = (.ok (), s') ∧ passed s' (full ++ [piece])) ∨
    (∃ e s', pass s piece = (.error e, s') ∧ refused s' (full ++ [piece]))

/-- How passing pieces on goes: it is done for pieces that are `allowed`, and `passed` says which ones were. -/
def Passes {σ : Type} (allowed : List Bytes → Prop) (passed : σ → List Bytes → Prop)
    (pass : σ → Bytes → Except ChannelError Unit × σ) (size : Nat) : Prop :=
  ∀ s full piece, passed s full → piece.length = size →
    (∃ s', pass s piece = (.ok (), s') ∧ passed s' (full ++ [piece])) ∨
    (∃ e s', pass s piece = (.error e, s') ∧ ¬ allowed (full ++ [piece]))

section
variable {σ : Type} {size : Nat} {allowed : List Bytes → Prop} {passed refused : σ → List Bytes → Prop}
  {pass : σ → Bytes → Except ChannelError Unit × σ} {s : σ} {full : List Bytes} {held : Bytes}

/-- Gathering cuts the bytes into full pieces, which are passed on, and a last one, which is held. It fails only at
    a piece that is refused and has more bytes behind it, and then that piece is held. -/
theorem gather_of_passesOrRefuses (pos : 0 < size) (passes : PassesOrRefuses passed refused pass size)
    (holds : passed s full) (isCut : IsCut size full held) (bs : Bytes) :
    (∃ s' full' held', gather size pos pass s held bs = ⟨.ok (), s', held'⟩ ∧ passed s' full' ∧
      IsCut size full' held' ∧ full'.flatten ++ held' = full.flatten ++ held ++ bs) ∨
    (∃ e s' held' full' tail, gather size pos pass s held bs = ⟨.error e, s', held'⟩ ∧ refused s' full' ∧
      held'.length = size ∧ (∀ piece ∈ full', piece.length = size) ∧ tail ≠ [] ∧
      full'.flatten ++ tail = full.flatten ++ held ++ bs) := by
  -- Between passing a piece on and taking more bytes, nothing is held although there are full pieces.
  have general : ∀ s held bs full, passed s full → (∀ piece ∈ full, piece.length = size) → held.length ≤ size →
      (held = [] → full = [] ∨ bs ≠ []) →
      (∃ s' full' held', gather size pos pass s held bs = ⟨.ok (), s', held'⟩ ∧ passed s' full' ∧
        IsCut size full' held' ∧ full'.flatten ++ held' = full.flatten ++ held ++ bs) ∨
      (∃ e s' held' full' tail, gather size pos pass s held bs = ⟨.error e, s', held'⟩ ∧ refused s' full' ∧
        held'.length = size ∧ (∀ piece ∈ full', piece.length = size) ∧ tail ≠ [] ∧
        full'.flatten ++ tail = full.flatten ++ held ++ bs) := by
    intro s held bs full holds full_length held_length more
    fun_induction gather size pos pass s held bs generalizing full with
    | case1 s held =>
      have alone : held = [] → full = [] := fun empty => (more empty).resolve_right (fun some => some rfl)
      exact .inl ⟨s, full, held, rfl, holds, ⟨full_length, held_length, alone⟩, (List.append_nil _).symm⟩
    | case2 s held bs some whole e s' step =>
      have size_eq := Nat.le_antisymm held_length whole
      rcases passes s full held holds size_eq with ⟨s₁, ok, _⟩ | ⟨e₁, s₁, fails, left⟩
      · rw [step] at ok
        cases ok
      · rw [step] at fails
        cases fails
        have longer := List.forall_mem_append.2 ⟨full_length, List.forall_mem_singleton.2 size_eq⟩
        exact .inr ⟨e, s', held, full ++ [held], bs, rfl, left, size_eq, longer, some, by simp⟩
    | case3 s held bs some whole s' step ih =>
      have size_eq := Nat.le_antisymm held_length whole
      rcases passes s full held holds size_eq with ⟨s₁, ok, next⟩ | ⟨e₁, s₁, fails, _⟩
      · rw [step] at ok
        cases ok
        have longer := List.forall_mem_append.2 ⟨full_length, List.forall_mem_singleton.2 size_eq⟩
        have rest := ih (full ++ [held]) next longer (Nat.zero_le size) (fun _ => .inr some)
        rwa [show (full ++ [held]).flatten ++ [] ++ bs = full.flatten ++ held ++ bs by simp] at rest
      · rw [step] at fails
        cases fails
    | case4 s held bs some part ih =>
      have rest := ih full holds full_length (by simp only [List.length_append, List.length_take]; omega) ?_
      · rwa [← List.append_assoc, List.append_assoc (full.flatten ++ held), List.take_append_drop] at rest
      · intro none
        have room : size - held.length ≠ 0 := by omega
        exact absurd ((List.take_eq_nil_iff.1 (List.append_eq_nil_iff.1 none).2).resolve_left room) some
  exact general s held bs full holds isCut.full_length isCut.last_length (fun none => .inl (isCut.alone none))

/-- Gathering cuts the bytes into full pieces, which are passed on, and a last one, which is held. It fails only at
    a piece that is not allowed and has more bytes behind it. -/
theorem gather_of_passes (pos : 0 < size) (passes : Passes allowed passed pass size) (holds : passed s full)
    (isCut : IsCut size full held) (bs : Bytes) :
    (∃ s' full' held', gather size pos pass s held bs = ⟨.ok (), s', held'⟩ ∧ passed s' full' ∧
      IsCut size full' held' ∧ full'.flatten ++ held' = full.flatten ++ held ++ bs) ∨
    (∃ e s' held' full' tail, gather size pos pass s held bs = ⟨.error e, s', held'⟩ ∧ ¬ allowed full' ∧
      (∀ piece ∈ full', piece.length = size) ∧ tail ≠ [] ∧ full'.flatten ++ tail = full.flatten ++ held ++ bs) := by
  have outcomes : PassesOrRefuses passed (fun _ full => ¬ allowed full) pass size := passes
  refine (gather_of_passesOrRefuses pos outcomes holds isCut bs).imp_right ?_
  rintro ⟨e, s', held', full', tail, step, left, _, behind⟩
  exact ⟨e, s', held', full', tail, step, left, behind⟩

/-- A piece that is refused is held as before. -/
theorem gather_of_refused {pos : 0 < size} {bs : Bytes} {s' : σ} {e : ChannelError} (some : bs ≠ [])
    (whole : held.length = size) (step : pass s held = (.error e, s')) :
    gather size pos pass s held bs = ⟨.error e, s', held⟩ := by
  rw [gather, dif_neg some, if_pos (Nat.le_of_eq whole.symm), step]

end

namespace Sink

/-- Room in a sink that takes all it is given, as long as it can hold it. -/
def room (s : Sink) (bs : Bytes) : Prop :=
  s.portion? = none ∧ ∀ capacity, s.capacity? = some capacity → s.contents.size + bs.length ≤ capacity

/-- A sink holds bytes besides those of an earlier one. -/
def Recorded (s t : Sink) (bs : Bytes) : Prop :=
  t.bytes = s.bytes ++ bs ∧ t.portion? = s.portion? ∧ t.capacity? = s.capacity?

theorem recorded_refl (s : Sink) : s.Recorded s [] := ⟨(List.append_nil _).symm, rfl, rfl⟩

theorem room_unlimited (contents : Array UInt8) (bs : Bytes) : room { unlimited with contents } bs :=
  ⟨rfl, fun capacity limited => by simp [unlimited] at limited⟩

/-- A sink records what it is given. -/
theorem records (s : Sink) : Writer.Records s.room s.Recorded where
  room_of_append := by
    rintro before bs ⟨whole, fits⟩
    refine ⟨whole, fun capacity limited => ?_⟩
    have := fits capacity limited
    rw [List.length_append] at this
    omega
  write_ok := by
    rintro t t' before bs n ⟨bytes, portion, capacity⟩ step
    refine ⟨?_, ?_⟩
    · rw [bytes_write step, bytes, List.append_assoc]
    · change t.write bs = _ at step
      rw [← portion, ← capacity]
      unfold write at step
      dsimp only at step
      split at step
      · cases step
      · cases step
        exact ⟨rfl, rfl⟩
  write_all := by
    rintro t before bs ⟨bytes, portion, capacity⟩ ⟨whole, fits⟩
    refine ⟨{ t with contents := t.contents ++ bs }, ?_⟩
    change t.write bs = _
    have enough : t.capacity?.any (· < t.contents.size + bs.length) = false := by
      rw [capacity]
      cases limited : s.capacity? with
      | none => rfl
      | some n =>
        have le := fits n limited
        have size : t.contents.size = s.contents.size + before.length := by
          simpa [Sink.bytes] using congrArg List.length bytes
        rw [List.length_append] at le
        simp only [Option.any_some, decide_eq_false_iff_not]
        omega
    simp [write, portion, whole, enough]
  flush_ok := fun holds => ⟨_, rfl, holds⟩

end Sink

namespace Header
variable {ω : Type} [Writer ω] {room : Bytes → Prop} {recorded : ω → Bytes → Prop} {w : ω} {before : Bytes}

/-- Texts are written one by one if each call takes all bytes. `failed` is what is known of the writer when one does not. -/
theorem writeParts_of_calls (failed : ω → Bytes → Prop)
    (calls : ∀ {w before}, recorded w before → ∀ bs,
      (∃ n w', Writer.write w bs = (.ok n, w') ∧ bs.length ≤ n ∧ recorded w' (before ++ bs)) ∨
      (∃ answer w', Writer.write w bs = (answer, w') ∧ (∀ n, answer = .ok n → n < bs.length) ∧ failed w' (before ++ bs)))
    (more : ∀ {w bs bs'}, failed w bs → failed w (bs ++ bs')) (holds : recorded w before) (parts : List String) :
    (∃ w', writeParts w parts = (.ok (), w') ∧ recorded w' (before ++ parts.flatMap utf8)) ∨
    (∃ e w', writeParts w parts = (.error e, w') ∧ failed w' (before ++ parts.flatMap utf8)) := by
  induction parts generalizing w before with
  | nil => exact .inl ⟨w, rfl, by simpa using holds⟩
  | cons part parts ih =>
    rw [writeParts, List.flatMap_cons, ← List.append_assoc]
    rcases calls holds (utf8 part) with ⟨n, w', step, whole, behind⟩ | ⟨answer, w', step, short, fails⟩
    · rw [step]
      dsimp only
      rw [if_neg (show ¬ n < part.utf8ByteSize from Nat.not_lt.2 whole)]
      exact ih behind
    · rw [step]
      cases answer with
      | error e => exact .inr ⟨.refused e, w', rfl, more fails⟩
      | ok n =>
        dsimp only
        rw [if_pos (show n < part.utf8ByteSize from short n rfl)]
        exact .inr ⟨_, w', rfl, more fails⟩

theorem writeParts_of_records (records : Writer.Records room recorded) (holds : recorded w before)
    (parts : List String) :
    (∃ w', writeParts w parts = (.ok (), w') ∧ recorded w' (before ++ parts.flatMap utf8)) ∨
    (∃ e w', writeParts w parts = (.error e, w') ∧ ¬ room (before ++ parts.flatMap utf8)) := by
  refine writeParts_of_calls (fun _ bs => ¬ room bs) (fun {w before} holds bs => ?_)
    (fun full fits => full (records.room_of_append fits)) holds parts
  cases step : Writer.write w bs with | mk answer w' => ?_
  by_cases whole : ∃ n, answer = .ok n ∧ bs.length ≤ n
  · obtain ⟨n, rfl, enough⟩ := whole
    have behind := records.write_ok holds step
    rw [List.take_of_length_le enough] at behind
    exact .inl ⟨n, w', rfl, enough, behind⟩
  · refine .inr ⟨answer, w', rfl, fun n taken => Nat.lt_of_not_le fun enough => whole ⟨n, taken, enough⟩, fun fits => ?_⟩
    obtain ⟨w₁, all⟩ := records.write_all holds fits
    rw [step] at all
    cases all
    exact whole ⟨bs.length, rfl, Nat.le_refl _⟩

/-- A header is written completely, or there is no room for it. -/
theorem write_of_records (records : Writer.Records room recorded) (holds : recorded w before) (h : Header) :
    (∃ w', h.write w = (.ok (), w') ∧ recorded w' (before ++ h.toBytes)) ∨
    (∃ e w', h.write w = (.error e, w') ∧ ¬ room (before ++ h.toBytes)) := by
  unfold write
  rcases writeParts_of_records records holds h.parts with ⟨w', step, behind⟩ | ⟨e, w', step, full⟩
  · rw [step]
    exact .inl ⟨w', rfl, behind⟩
  · rw [step]
    exact .inr ⟨e.report, w', rfl, full⟩

end Header

end AgeCrypt
