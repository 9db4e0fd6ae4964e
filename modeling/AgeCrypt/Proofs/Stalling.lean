import AgeCrypt.Proofs.Calls

/-!
# Writers that refuse

A writer may refuse a call, as a sink does whose capacity would be exceeded. Once it has, it goes on to refuse all calls
that offer no fewer bytes, so that it took what comes first among the bytes that were meant for it and nothing else
(`Writer.Stalls`). Loops over such a writer record everything or leave it stalled (`Writer.writeAll_of_stalls`,
`Writer.writeEach_of_stalls`), and repeating them does not get further (`Writer.writeAll_of_stalled`). A sink that takes
something in each call stalls in this way, whatever its capacity (`Sink.stalls`).
-/

namespace AgeCrypt

namespace Writer
variable {ω : Type} [Writer ω]

/-- A writer records some of the bytes that it is offered, or refuses the call. It is `stalled` when it refuses all calls
    that offer at least `size` bytes, and what it recorded comes first in `whole`. -/
structure Stalls (recorded : ω → Bytes → Prop) (stalled : Nat → ω → Bytes → Prop) : Prop where
  write : ∀ {w before}, recorded w before → ∀ bs,
    (∃ n w', Writer.write w bs = (.ok n, w') ∧ recorded w' (before ++ bs.take n) ∧ (n = 0 → bs = [])) ∨
    (∃ e w', Writer.write w bs = (.error e, w') ∧ stalled bs.length w' (before ++ bs))
  again : ∀ {size w whole bs}, stalled size w whole → size ≤ bs.length →
    ∃ e w', Writer.write w bs = (.error e, w') ∧ stalled size w' whole
  flush : ∀ {w before}, recorded w before → ∃ w', Writer.flush w = (.ok (), w') ∧ recorded w' before
  flush_stalled : ∀ {size w whole}, stalled size w whole → stalled size (Writer.flush w).2 whole
  mono : ∀ {size size' w whole whole'}, stalled size w whole → size ≤ size' → whole <+: whole' → stalled size' w whole'

/-- A writer that never fails never stalls. -/
theorem Reliable.stalls {recorded : ω → Bytes → Prop} (reliable : Reliable recorded) :
    Stalls recorded fun _ _ _ => False where
  write holds bs := .inl (reliable.write holds bs)
  again stuck := stuck.elim
  flush := reliable.flush
  flush_stalled stuck := stuck
  mono stuck _ _ := stuck

variable {recorded : ω → Bytes → Prop} {stalled : Nat → ω → Bytes → Prop} {w : ω} {before whole : Bytes} {size : Nat}

theorem Stalls.flushes (stalls : Stalls recorded stalled) : Flushes recorded := fun _ _ => stalls.flush

/-- All bytes are recorded, or the writer is stalled. -/
theorem writeAll_of_stalls (stalls : Stalls recorded stalled) (holds : recorded w before) (bs : Bytes) :
    (∃ w', writeAll w bs = (.ok (), w') ∧ recorded w' (before ++ bs)) ∨
    (∃ e w', writeAll w bs = (.error e, w') ∧ stalled bs.length w' (before ++ bs)) := by
  fun_induction writeAll w bs generalizing before with
  | case1 w => exact .inl ⟨w, rfl, by rwa [List.append_nil]⟩
  | case2 w bs some e w' step =>
    rcases stalls.write holds bs with ⟨n, w₁, taken, _⟩ | ⟨e₁, w₁, refuses, stuck⟩
    · rw [step] at taken
      cases taken
    · rw [step] at refuses
      cases refuses
      exact .inr ⟨e, w', rfl, stuck⟩
  | case3 w bs some w' step =>
    rcases stalls.write holds bs with ⟨n, w₁, taken, _, positive⟩ | ⟨e₁, w₁, refuses, _⟩
    · rw [step] at taken
      cases taken
      exact absurd (positive rfl) some
    · rw [step] at refuses
      cases refuses
  | case4 w bs some n w' step ih =>
    rcases stalls.write holds bs with ⟨m, w₁, taken, behind, _⟩ | ⟨e₁, w₁, refuses, _⟩
    · rw [step] at taken
      cases taken
      have next := ih behind
      rw [List.append_assoc, List.take_append_drop] at next
      rcases next with done | ⟨e, w₂, fails, stuck⟩
      · exact .inl done
      · have fewer : (bs.drop (n + 1)).length ≤ bs.length := by
          rw [List.length_drop]
          exact Nat.sub_le _ _
        exact .inr ⟨e, w₂, fails, stalls.mono stuck fewer List.prefix_rfl⟩
    · rw [step] at refuses
      cases refuses

/-- A writer that is stalled does not take as many bytes as were refused. -/
theorem writeAll_of_stalled (stalls : Stalls recorded stalled) (stuck : stalled size w whole) {bs : Bytes}
    (le : size ≤ bs.length) (some : bs ≠ []) : ∃ e w', writeAll w bs = (.error e, w') ∧ stalled size w' whole := by
  obtain ⟨e, w', refuses, stuck'⟩ := stalls.again stuck le
  exact ⟨e, w', by rw [writeAll, dif_neg some, refuses], stuck'⟩

theorem writeEach_of_stalls (stalls : Stalls recorded stalled) (holds : recorded w before) {texts : List Bytes}
    (le : ∀ text ∈ texts, text.length ≤ size) :
    (∃ w', writeEach w texts = (.ok (), w') ∧ recorded w' (before ++ texts.flatten)) ∨
    (∃ e w', writeEach w texts = (.error e, w') ∧ stalled size w' (before ++ texts.flatten)) := by
  induction texts generalizing w before with
  | nil => exact .inl ⟨w, rfl, by simpa using holds⟩
  | cons bs texts ih =>
    obtain ⟨first, others⟩ := List.forall_mem_cons.1 le
    rw [writeEach, List.flatten_cons, ← List.append_assoc]
    rcases writeAll_of_stalls stalls holds bs with ⟨w₁, step, behind⟩ | ⟨e, w₁, step, stuck⟩
    · rw [step]
      exact ih behind others
    · rw [step]
      exact .inr ⟨e, w₁, rfl, stalls.mono stuck first (List.prefix_append _ _)⟩

theorem writeEach_of_stalled (stalls : Stalls recorded stalled) (stuck : stalled size w whole) {bs : Bytes}
    (le : size ≤ bs.length) (some : bs ≠ []) (texts : List Bytes) :
    ∃ e w', writeEach w (bs :: texts) = (.error e, w') ∧ stalled size w' whole := by
  obtain ⟨e, w', fails, stuck'⟩ := writeAll_of_stalled stalls stuck le some
  exact ⟨e, w', by rw [writeEach, fails], stuck'⟩

/-- What the writer recorded comes first in `whole`, whether it is stalled or not. -/
def Within (recorded : ω → Bytes → Prop) (stalled : Nat → ω → Bytes → Prop) (w : ω) (whole : Bytes) : Prop :=
  (∃ bs, bs <+: whole ∧ recorded w bs) ∨ ∃ size, stalled size w whole

omit [Writer ω] in
theorem within_of_recorded (stalled : Nat → ω → Bytes → Prop) (holds : recorded w before) (start : before <+: whole) :
    Within recorded stalled w whole := .inl ⟨before, start, holds⟩

theorem within_of_stalled (stalls : Stalls recorded stalled) (stuck : stalled size w before) (start : before <+: whole) :
    Within recorded stalled w whole := .inr ⟨size, stalls.mono stuck (Nat.le_refl size) start⟩

theorem Within.mono (stalls : Stalls recorded stalled) (within : Within recorded stalled w before)
    (longer : before <+: whole) : Within recorded stalled w whole := by
  rcases within with ⟨bs, start, holds⟩ | ⟨size, stuck⟩
  · exact within_of_recorded stalled holds (start.trans longer)
  · exact within_of_stalled stalls stuck longer

end Writer

namespace Sink

/-- A sink holds bytes behind those of an earlier one that come first in `whole`, and refuses all calls that offer at least
    `size` bytes. -/
def Stalled (s : Sink) (size : Nat) (t : Sink) (whole : Bytes) : Prop :=
  (∃ bs, bs <+: whole ∧ s.Recorded t bs) ∧ ∀ bs : Bytes, size ≤ bs.length → t.write bs = (.error full, t)

theorem length_taken_le (portion? : Option Nat) {bs bs' : Bytes} (le : bs.length ≤ bs'.length) :
    (portion?.elim bs bs.take).length ≤ (portion?.elim bs' bs'.take).length := by
  cases portion? with
  | none => exact le
  | some portion =>
    simp only [Option.elim_some, List.length_take]
    omega

/-- A call that is refused is followed by no other that offers as many bytes and is taken. -/
theorem refuses_longer {t : Sink} {bs bs' : Bytes} {e : ChannelError} (refuses : (t.write bs).1 = .error e)
    (le : bs.length ≤ bs'.length) : t.write bs' = (.error full, t) := by
  have longer := length_taken_le t.portion? le
  unfold write at refuses ⊢
  dsimp only at refuses ⊢
  split at refuses
  · rename_i exceeds
    rw [if_pos]
    cases capacity : t.capacity? with
    | none =>
      rw [capacity] at exceeds
      cases exceeds
    | some n =>
      rw [capacity] at exceeds
      simp only [Option.any_some, decide_eq_true_eq] at exceeds ⊢
      omega
  · cases refuses

/-- A sink that takes something in each call it does not refuse stalls when it refuses one. -/
theorem stalls (s : Sink) (portions : s.portion? ≠ some 0) : Writer.Stalls s.Recorded s.Stalled where
  write := by
    intro t before holds bs
    cases step : Writer.write t bs with | mk answer t' => ?_
    change t.write bs = _ at step
    cases answer with
    | error e =>
      obtain rfl := eq_of_write_error step
      refine .inr ⟨e, t', rfl, ⟨before, List.prefix_append _ _, holds⟩, fun bs' le => ?_⟩
      exact refuses_longer (congrArg Prod.fst step) le
    | ok n =>
      refine .inl ⟨n, t', rfl, s.records.write_ok holds step, fun zero => ?_⟩
      unfold write at step
      dsimp only at step
      split at step
      · cases step
      · cases step
        rw [← holds.2.1] at portions
        exact eq_nil_of_length_taken portions zero
  again := by
    intro size t whole bs stuck le
    exact ⟨full, t, stuck.2 bs le, stuck⟩
  flush := fun holds => ⟨_, rfl, holds⟩
  flush_stalled := fun stuck => stuck
  mono := by
    rintro size size' t whole whole' ⟨⟨bs, start, holds⟩, refuses⟩ le longer
    exact ⟨⟨bs, start.trans longer, holds⟩, fun bs' le' => refuses bs' (Nat.le_trans le le')⟩

theorem isPrefix_of_within {s t : Sink} {whole : Bytes} (within : Writer.Within s.Recorded s.Stalled t whole) :
    t.bytes <+: s.bytes ++ whole := by
  rcases within with ⟨bs, start, bytes, _⟩ | ⟨size, ⟨bs, start, bytes, _⟩, _⟩
  · rw [bytes]
    exact (List.prefix_append_right_inj s.bytes).2 start
  · rw [bytes]
    exact (List.prefix_append_right_inj s.bytes).2 start

end Sink

end AgeCrypt
