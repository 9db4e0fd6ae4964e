import AgeCrypt.Proofs.Recording

/-!
# Calls on writers

Any calls on a writer, one after the other and also behind a failure (`Writer.callEach`, `Writer.run`). A reliable writer takes some
bytes whenever it is offered any and never fails, so that all bytes are recorded in as many calls as it takes
(`Writer.Reliable.recordsAll`). A writer with room for everything is one (`Writer.Records.reliable`), and a sink without
a capacity (`Sink.reliable`). Writing all bytes into any writer fails only as the writer itself does
(`Writer.writeAll_of_reaches`).
-/

namespace AgeCrypt

namespace Writer
variable {ω : Type} [Writer ω]

/-- A call on a writer. -/
inductive Call
  | write (bs : Bytes)
  | flush

/-- The bytes that a call offers. -/
def Call.bytes : Call → Bytes
  | write bs => bs
  | flush => []

/-- The bytes that some calls offer. -/
def offered (calls : List Call) : Bytes := calls.flatMap Call.bytes

/-- Makes a call. A flush takes no bytes. -/
def call (w : ω) : Call → Except ChannelError Nat × ω
  | .write bs => write w bs
  | .flush =>
    let (result, w') := flush w
    (result.map fun () => 0, w')

/-- The answers to calls one after the other, also behind a failure. -/
def callEach (w : ω) : List Call → List (Except ChannelError Nat) × ω
  | [] => ([], w)
  | c :: calls =>
    let (answer, w') := call w c
    let (answers, w'') := callEach w' calls
    (answer :: answers, w'')

theorem callEach_cons {w w' : ω} {c : Call} {answer : Except ChannelError Nat} (step : call w c = (answer, w'))
    (calls : List Call) : callEach w (c :: calls) = (answer :: (callEach w' calls).1, (callEach w' calls).2) := by
  rw [callEach, step]

/-- If each call is answered with all of its bytes as long as there is room, then so are calls one after the other. -/
theorem callEach_of_calls {room : Bytes → Prop} {recorded : ω → Bytes → Prop}
    (room_of_append : ∀ {before bs}, room (before ++ bs) → room before)
    (takes : ∀ {w before}, recorded w before → ∀ c : Call, room (before ++ c.bytes) →
      ∃ w', call w c = (.ok c.bytes.length, w') ∧ recorded w' (before ++ c.bytes))
    (calls : List Call) {w : ω} {before : Bytes} (holds : recorded w before) (fits : room (before ++ offered calls)) :
    ∃ w', callEach w calls = (calls.map fun c => .ok c.bytes.length, w') ∧ recorded w' (before ++ offered calls) := by
  induction calls generalizing w before with
  | nil => exact ⟨w, rfl, by rwa [offered, List.flatMap_nil, List.append_nil]⟩
  | cons c calls ih =>
    have split : before ++ offered (c :: calls) = before ++ c.bytes ++ offered calls := by
      rw [offered, List.flatMap_cons, List.append_assoc]
      rfl
    rw [split] at fits ⊢
    obtain ⟨w₁, step, behind⟩ := takes holds c (room_of_append fits)
    obtain ⟨w₂, rest, written⟩ := ih behind fits
    exact ⟨w₂, by rw [callEach_cons step, rest]; rfl, written⟩

/-- The answers to calls one after the other and then, if the writer is finished, to that. -/
def run (finish : ω → Except ChannelError Unit × ω) (w : ω) (calls : List Call) (finishes : Bool) :
    List (Except ChannelError Nat) × ω :=
  let (answers, w') := callEach w calls
  if finishes then
    let (result, w'') := finish w'
    (answers ++ [result.map fun () => 0], w'')
  else (answers, w')

/-- An answer that says less fails as it did before. -/
theorem error_of_map {α β : Type} {f : α → β} {result : Except ChannelError α} {e : ChannelError}
    (fails : result.map f = .error e) : result = .error e := by
  cases result with
  | error e' =>
    cases fails
    rfl
  | ok value => cases fails

/-- A writer that never fails and takes at least one of the bytes that it is offered, if there are any. -/
structure Reliable (recorded : ω → Bytes → Prop) : Prop where
  write : ∀ {w before}, recorded w before → ∀ bs,
    ∃ n w', Writer.write w bs = (.ok n, w') ∧ recorded w' (before ++ bs.take n) ∧ (n = 0 → bs = [])
  flush : ∀ {w before}, recorded w before → ∃ w', Writer.flush w = (.ok (), w') ∧ recorded w' before

/-- Into a reliable writer, all bytes can be written. -/
theorem Reliable.writeAll {recorded : ω → Bytes → Prop} (reliable : Reliable recorded) {w : ω} {before : Bytes}
    (holds : recorded w before) (bs : Bytes) :
    ∃ w', Writer.writeAll w bs = (.ok (), w') ∧ recorded w' (before ++ bs) := by
  fun_induction Writer.writeAll w bs generalizing before with
  | case1 w => exact ⟨w, rfl, by rwa [List.append_nil]⟩
  | case2 w bs some e w' step =>
    obtain ⟨n, w₁, taken, _⟩ := reliable.write holds bs
    rw [step] at taken
    cases taken
  | case3 w bs some w' step =>
    obtain ⟨n, w₁, taken, _, positive⟩ := reliable.write holds bs
    rw [step] at taken
    cases taken
    exact absurd (positive rfl) some
  | case4 w bs some n w' step ih =>
    obtain ⟨m, w₁, taken, behind, _⟩ := reliable.write holds bs
    rw [step] at taken
    cases taken
    have next := ih behind
    rwa [List.append_assoc, List.take_append_drop] at next

theorem Reliable.recordsEach {recorded : ω → Bytes → Prop} (reliable : Reliable recorded) {w : ω} {before : Bytes}
    (holds : recorded w before) (texts : List Bytes) :
    ∃ w', Writer.writeEach w texts = (.ok (), w') ∧ recorded w' (before ++ texts.flatten) := by
  induction texts generalizing w before with
  | nil => exact ⟨w, rfl, by rwa [List.flatten_nil, List.append_nil]⟩
  | cons bs texts ih =>
    obtain ⟨w', step, behind⟩ := reliable.writeAll holds bs
    rw [Writer.writeEach, step, List.flatten_cons, ← List.append_assoc]
    exact ih behind

theorem Reliable.writeEach {recorded : ω → Bytes → Prop} (reliable : Reliable recorded) {w : ω} {before : Bytes}
    (holds : recorded w before) (texts : List Bytes) : (Writer.writeEach w texts).1 = .ok () := by
  obtain ⟨w', step, _⟩ := reliable.recordsEach holds texts
  rw [step]

theorem Reliable.flushes {recorded : ω → Bytes → Prop} (reliable : Reliable recorded) : Flushes recorded :=
  fun _ _ => reliable.flush

theorem Reliable.recordsAll {recorded : ω → Bytes → Prop} (reliable : Reliable recorded) :
    RecordsAll (fun _ => True) recorded :=
  fun _ _ holds bs => .inl (reliable.writeAll holds bs)

/-- A writer with room for everything is reliable, since it takes everything at once. -/
theorem Records.reliable {room : Bytes → Prop} {recorded : ω → Bytes → Prop} (records : Records room recorded)
    (all : ∀ bs, room bs) : Reliable recorded where
  write := by
    intro w before holds bs
    obtain ⟨w', step⟩ := records.write_all holds (all (before ++ bs))
    exact ⟨bs.length, w', step, records.write_ok holds step, List.length_eq_zero_iff.1⟩
  flush := records.flush_ok

/-- What becomes of a writer by calls on it. -/
inductive Reaches (first : ω) : ω → Prop
  | start : Reaches first first
  | write {w : ω} (before : Reaches first w) (bs : Bytes) : Reaches first (Writer.write w bs).2
  | flush {w : ω} (before : Reaches first w) : Reaches first (Writer.flush w).2

/-- How a writer may fail when it is written through: as it answers a call at some time, or by taking nothing. -/
inductive Fails (first : ω) : ChannelError → Prop
  | write {w : ω} {bs : Bytes} {e : ChannelError} (reached : Reaches first w)
      (answer : (Writer.write w bs).1 = .error e) : Fails first e
  | flush {w : ω} {e : ChannelError} (reached : Reaches first w) (answer : (Writer.flush w).1 = .error e) :
      Fails first e
  | nothingTaken {w : ω} {bs : Bytes} (reached : Reaches first w) (answer : (Writer.write w bs).1 = .ok 0) :
      Fails first .nothingTaken

/-- Writing all bytes is a matter of calls, and fails as they do. -/
theorem writeAll_of_reaches {first w : ω} (reached : Reaches first w) (bs : Bytes) :
    Reaches first (writeAll w bs).2 ∧ ∀ e, (writeAll w bs).1 = .error e → Fails first e := by
  fun_induction writeAll w bs with
  | case1 w => exact ⟨reached, fun e none => by cases none⟩
  | case2 w bs some e w' step =>
    have next := reached.write bs
    rw [step] at next
    refine ⟨next, fun e' same => ?_⟩
    cases same
    exact .write reached (congrArg Prod.fst step)
  | case3 w bs some w' step =>
    have next := reached.write bs
    rw [step] at next
    refine ⟨next, fun e' same => ?_⟩
    cases same
    exact .nothingTaken reached (congrArg Prod.fst step)
  | case4 w bs some n w' step ih =>
    have next := reached.write bs
    rw [step] at next
    exact ih next

end Writer

namespace Sink

theorem eq_nil_of_length_taken {portion? : Option Nat} (portions : portion? ≠ some 0) {bs : Bytes}
    (none : (portion?.elim bs bs.take).length = 0) : bs = [] := by
  cases portion? with
  | none => exact List.length_eq_zero_iff.1 none
  | some n =>
    have unused := List.take_eq_nil_iff.1 (List.length_eq_zero_iff.1 none)
    exact unused.resolve_left fun zero => portions (congrArg some zero)

/-- A sink without a capacity that takes something in each call is reliable. -/
theorem reliable (s : Sink) (portions : s.portion? ≠ some 0) (endless : s.capacity? = none) :
    Writer.Reliable s.Recorded where
  write := by
    rintro t before ⟨bytes, portion, capacity⟩ bs
    have step : Writer.write t bs = (.ok (t.portion?.elim bs bs.take).length,
        { t with contents := t.contents ++ t.portion?.elim bs bs.take }) := by
      show t.write bs = _
      rw [write, capacity, endless]
      rfl
    refine ⟨_, _, step, ⟨?_, portion, capacity⟩, fun none => ?_⟩
    · rw [bytes_write step, bytes, List.append_assoc]
    · rw [portion] at none
      exact eq_nil_of_length_taken portions none
  flush := fun holds => ⟨_, rfl, holds⟩

/-- A sink whose capacity is used up refuses everything. -/
theorem writeAll_refused {s : Sink} {bs : Bytes} (full : s.capacity? = some s.contents.size)
    (portions : s.portion? = none) (some : bs ≠ []) : Writer.writeAll s bs = (.error Sink.full, s) := by
  have step : Writer.write s bs = (.error Sink.full, s) := by
    have exceeds : s.contents.size < s.contents.size + bs.length := Nat.lt_add_of_pos_right (List.length_pos_iff.2 some)
    show s.write bs = _
    rw [write, portions, full]
    exact if_pos (decide_eq_true exceeds)
  rw [Writer.writeAll, dif_neg some, step]

/-- A sink only grows. -/
theorem isPrefix_of_reaches {s t : Sink} (reaches : Writer.Reaches s t) : s.bytes <+: t.bytes := by
  induction reaches with
  | start => exact List.prefix_rfl
  | @write t _ bs ih =>
    cases step : Writer.write t bs with | mk answer t' => ?_
    cases answer with
    | ok n =>
      rw [bytes_write step]
      exact ih.trans (List.prefix_append _ _)
    | error e =>
      rw [eq_of_write_error step]
      exact ih
  | flush _ ih => exact ih

end Sink

end AgeCrypt
