import AgeCrypt.Channel.Copy
import AgeCrypt.Proofs.Delivery

/-!
# Reading up to the end

A reader may be called for any numbers of bytes until it is at its end or fails (`Reader.ReadsOut`). All ways to do so
give what the reader delivers (`Reader.readsOut_iff_of_delivers`). With calls for one and the same number of bytes, it
hands out parts (`Reader.HandsOut`), and copying writes just these parts and ends as they do (`copy_of_handsOut`).
-/

namespace AgeCrypt

namespace Reader
variable {ρ : Type} [Reader ρ] {stop? ending? : Option ChannelError} {r r' : ρ} {bs rest : Bytes} {n : Nat}

/-- Calls for any numbers of bytes hand out some bytes together, and then the reader is at its end or fails. A call
    that is interrupted is followed by others. -/
inductive ReadsOut : ρ → Bytes → Option ChannelError → Prop
  | ended {r r' : ρ} {n : Nat} (asked : n ≠ 0) (step : read r n = (.ok [], r')) : ReadsOut r [] none
  | failed {r r' : ρ} {n : Nat} {e : ChannelError} (final : e.isInterruption = false)
      (step : read r n = (.error e, r')) : ReadsOut r [] (some e)
  | interrupted {r r' : ρ} {n : Nat} {e : ChannelError} {bs : Bytes} {ending? : Option ChannelError}
      (again : e.isInterruption = true) (step : read r n = (.error e, r')) (behind : ReadsOut r' bs ending?) :
      ReadsOut r bs ending?
  | handed {r r' : ρ} {n : Nat} {bs rest : Bytes} {ending? : Option ChannelError} (goesOn : bs ≠ [] ∨ n = 0)
      (step : read r n = (.ok bs, r')) (behind : ReadsOut r' rest ending?) : ReadsOut r (bs ++ rest) ending?

/-- Calls for `n` bytes, each repeated until it is not interrupted, hand out these parts one after the other, and then
    the reader is at its end or fails. -/
inductive HandsOut (n : Nat) : ρ → List Bytes → Option ChannelError → Prop
  | ended {r r' : ρ} (step : retry r n = (.ok [], r')) : HandsOut n r [] none
  | failed {r r' : ρ} {e : ChannelError} (step : retry r n = (.error e, r')) : HandsOut n r [] (some e)
  | handed {r r' : ρ} {part : Bytes} {parts : List Bytes} {ending? : Option ChannelError} (some : part ≠ [])
      (step : retry r n = (.ok part, r')) (behind : HandsOut n r' parts ending?) : HandsOut n r (part :: parts) ending?

theorem retry_of_read_ok (reads : read r n = (.ok bs, r')) : retry r n = (.ok bs, r') := by
  rw [retry]
  split <;> simp_all

theorem retry_of_read_error {e : ChannelError} (reads : read r n = (.error e, r')) (final : e.isInterruption = false) :
    retry r n = (.error e, r') := by
  rw [retry]
  split <;> simp_all

/-- The first call that is not interrupted decides. -/
theorem readsOut_of_retry (behind : ∀ r₁, read r₁ n = retry r n → ReadsOut r₁ bs ending?) : ReadsOut r bs ending? := by
  fun_induction retry r n with
  | case1 r part r' step => exact behind r step
  | case2 r e r' step again ih => exact .interrupted again step (ih behind)
  | case3 r e r' step final => exact behind r step

theorem readsOut_of_handsOut (asked : n ≠ 0) {parts : List Bytes} (hands : HandsOut n r parts ending?) :
    ReadsOut r parts.flatten ending? := by
  induction hands with
  | ended step =>
    apply readsOut_of_retry
    intro r₁ same
    exact .ended asked (same.trans step)
  | failed step =>
    apply readsOut_of_retry
    intro r₁ same
    exact .failed (retry_error step).2 (same.trans step)
  | handed some step _ ih =>
    apply readsOut_of_retry
    intro r₁ same
    exact .handed (.inl some) (same.trans step) ih

/-- A reader whose first call is answered as that of another one hands out what that does. -/
theorem handsOut_of_retry (same : retry r n = retry r' n) {parts : List Bytes} (hands : HandsOut n r' parts ending?) :
    HandsOut n r parts ending? := by
  cases hands with
  | ended step => exact .ended (same.trans step)
  | failed step => exact .failed (same.trans step)
  | handed some step behind => exact .handed some (same.trans step) behind

/-- Every reader is at its end or fails at last. -/
theorem exists_handsOut (n : Nat) (r : ρ) : ∃ parts ending?, HandsOut n r parts ending? := by
  cases step : retry r n with | mk result r' => ?_
  cases result with
  | error e => exact ⟨[], some e, .failed step⟩
  | ok part =>
    by_cases empty : part = []
    · rw [empty] at step
      exact ⟨[], none, .ended step⟩
    · have fewer := (retry_ok step).2
      have positive : part.length ≠ 0 := fun zero => empty (List.length_eq_zero_iff.1 zero)
      obtain ⟨parts, ending?, behind⟩ := exists_handsOut n r'
      exact ⟨part :: parts, ending?, .handed empty step behind⟩
termination_by remaining r
decreasing_by omega

/-- Whatever calls are made, they give what the reader delivers. -/
theorem eq_of_readsOut (delivers : Delivers stop? r rest) (reads : ReadsOut r bs ending?) :
    bs = rest ∧ ending? = stop? := by
  induction reads generalizing rest with
  | @ended r r' n asked step =>
    have answers := delivers_read delivers n
    rw [step] at answers
    obtain ⟨_, _, _, ended⟩ := answers
    obtain ⟨rfl, clean⟩ := ended rfl asked
    exact ⟨rfl, clean.symm⟩
  | @failed r r' n e final step =>
    have answers := delivers_read delivers n
    rw [step] at answers
    rcases answers with ⟨again, _⟩ | ⟨_, none, stops⟩
    · rw [final] at again
      cases again
    · exact ⟨none.symm, stops.symm⟩
  | @interrupted r r' n e bs ending? again step _ ih =>
    have answers := delivers_read delivers n
    rw [step] at answers
    rcases answers with ⟨_, holds⟩ | ⟨final, _, _⟩
    · exact ih holds
    · rw [again] at final
      cases final
  | @handed r r' n bs rest' ending? goesOn step _ ih =>
    have answers := delivers_read delivers n
    rw [step] at answers
    obtain ⟨left, rfl, holds, _⟩ := answers
    obtain ⟨rfl, same⟩ := ih holds
    exact ⟨rfl, same⟩

/-- Reading a reader out gives what it delivers, and nothing else. -/
theorem readsOut_iff_of_delivers (delivers : Delivers stop? r rest) :
    ReadsOut r bs ending? ↔ bs = rest ∧ ending? = stop? := by
  constructor
  · intro reads
    exact eq_of_readsOut delivers reads
  · rintro ⟨rfl, rfl⟩
    obtain ⟨parts, ending?, hands⟩ := exists_handsOut 1 r
    have reads := readsOut_of_handsOut Nat.one_ne_zero hands
    obtain ⟨same, ends⟩ := eq_of_readsOut delivers reads
    rwa [same, ends] at reads

end Reader

/-- Writes parts one after the other, and ends as they do unless the writer fails. -/
def Writer.writeOut {ω : Type} [Writer ω] (w : ω) (parts : List Bytes) (ending? : Option ChannelError) :
    Except ChannelError Unit × ω :=
  match Writer.writeEach w parts with
  | (.error e, w') => (.error e, w')
  | (.ok (), w') => (ending?.elim (.ok ()) .error, w')

section
variable {ρ ω : Type} [Reader ρ] [Writer ω] {r r' : ρ}

theorem copy_of_failure {e : ChannelError} (step : Reader.retry r Reader.blockSize = (.error e, r')) (w : ω) :
    copy r w = ⟨.error e, r', w⟩ := by
  rw [copy]
  split <;> simp_all

theorem copy_of_end (step : Reader.retry r Reader.blockSize = (.ok [], r')) (w : ω) : copy r w = ⟨.ok (), r', w⟩ := by
  rw [copy]
  split <;> simp_all

/-- Bytes that the reader hands out are written before any others are asked for. -/
theorem copy_of_part {part : Bytes} (some : part ≠ []) (step : Reader.retry r Reader.blockSize = (.ok part, r')) (w : ω) :
    copy r w =
      match Writer.writeAll w part with
      | (.error e, w') => ⟨.error e, r', w'⟩
      | (.ok (), w') => copy r' w' := by
  rw [copy]
  split
  · simp_all
  · simp_all
  · rename_i same
    rw [step] at same
    cases same
    rfl

/-- Copying writes the parts that the reader hands out. -/
theorem copy_of_handsOut {parts : List Bytes} {ending? : Option ChannelError}
    (hands : Reader.HandsOut Reader.blockSize r parts ending?) (w : ω) :
    ((copy r w).result, (copy r w).writer) = Writer.writeOut w parts ending? := by
  induction hands generalizing w with
  | ended step =>
    rw [copy_of_end step]
    rfl
  | failed step =>
    rw [copy_of_failure step]
    rfl
  | @handed r r' part parts ending? some step _ ih =>
    rw [copy_of_part some step, Writer.writeOut, Writer.writeEach]
    cases Writer.writeAll w part with | mk result w' => ?_
    cases result with
    | error e => rfl
    | ok _ => exact ih w'

end

end AgeCrypt
