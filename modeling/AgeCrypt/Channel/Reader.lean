import AgeCrypt.Bytes
import AgeCrypt.Error

/-!
# Reading bytes

A reader answers a call with at most as many bytes as were asked for, with nothing at the end of its input, or
with a failure. An interruption is a failure after which the call may be repeated. The two bounds of a reader
say that it hands out finitely many bytes and is interrupted only finitely often in a row, so that the loops
here end.
-/

namespace AgeCrypt

/-- What can be read from. -/
class Reader (ρ : Type) where
  /-- One call that asks for at most so many bytes. -/
  read : ρ → Nat → Except ChannelError Bytes × ρ
  /-- How many bytes can still come. -/
  remaining : ρ → Nat
  /-- How often the next calls can be interrupted before one is not. -/
  patience : ρ → Nat
  read_ok : ∀ {r n bs r'}, read r n = (.ok bs, r') →
    bs.length ≤ n ∧ remaining r' + bs.length ≤ remaining r
  read_error : ∀ {r n e r'}, read r n = (.error e, r') →
    remaining r' ≤ remaining r ∧ (e.isInterruption → patience r' < patience r)

/-- What was read until enough was there, the input ended or a call failed. -/
structure Fetched (ρ : Type) where
  bytes : Bytes
  failure? : Option ChannelError
  reader : ρ

namespace Reader
variable {ρ : Type} [Reader ρ]

/-- Repeats a call until it is not interrupted. -/
def retry (r : ρ) (n : Nat) : Except ChannelError Bytes × ρ :=
  match _step : read r n with
  | (.ok bs, r') => (.ok bs, r')
  | (.error e, r') => if _again : e.isInterruption then retry r' n else (.error e, r')
termination_by patience r
decreasing_by exact (read_error _step).2 _again

theorem retry_ok {r r' : ρ} {n : Nat} {bs : Bytes} (reads : retry r n = (.ok bs, r')) :
    bs.length ≤ n ∧ remaining r' + bs.length ≤ remaining r := by
  fun_induction retry r n with
  | case1 r bs₁ r₁ h =>
    simp only [Prod.mk.injEq, Except.ok.injEq] at reads
    obtain ⟨rfl, rfl⟩ := reads
    exact read_ok h
  | case2 r e r₁ h again ih =>
    have := (read_error h).1
    have := ih reads
    omega
  | case3 => simp at reads

theorem retry_error {r r' : ρ} {n : Nat} {e : ChannelError} (fails : retry r n = (.error e, r')) :
    remaining r' ≤ remaining r ∧ e.isInterruption = false := by
  fun_induction retry r n with
  | case1 => simp at fails
  | case2 r e₁ r₁ h again ih =>
    have := (read_error h).1
    obtain ⟨le, final⟩ := ih fails
    exact ⟨by omega, final⟩
  | case3 r e₁ r₁ h final =>
    simp only [Prod.mk.injEq, Except.error.injEq] at fails
    obtain ⟨rfl, rfl⟩ := fails
    exact ⟨(read_error h).1, by simpa using final⟩

/-- Reads until `n` more bytes are there besides those read before. -/
def fetchAfter (before : Array UInt8) (r : ρ) (n : Nat) : Fetched ρ :=
  if n = 0 then ⟨before.toList, none, r⟩
  else
    match retry r n with
    | (.error e, r') => ⟨before.toList, some e, r'⟩
    | (.ok [], r') => ⟨before.toList, none, r'⟩
    | (.ok (b :: bs), r') => fetchAfter (before ++ (b :: bs)) r' (n - (b :: bs).length)
termination_by n
decreasing_by
  simp only [List.length_cons]
  omega

/-- Reads until `n` bytes are there, the input ends or a call fails. -/
def fetch (r : ρ) (n : Nat) : Fetched ρ := fetchAfter #[] r n

def blockSize : Nat := 8192

/-- Reads all that is left, besides what was read before. -/
def drainAfter (before : Array UInt8) (r : ρ) : Fetched ρ :=
  match _step : retry r blockSize with
  | (.error e, r') => ⟨before.toList, some e, r'⟩
  | (.ok [], r') => ⟨before.toList, none, r'⟩
  | (.ok (b :: bs), r') => drainAfter (before ++ (b :: bs)) r'
termination_by remaining r
decreasing_by
  have := (retry_ok _step).2
  simp only [List.length_cons] at this
  omega

def drain (r : ρ) : Fetched ρ := drainAfter #[] r

def readExactly (r : ρ) (n : Nat) : Except ChannelError (Block n) × ρ :=
  let fetched := fetch r n
  match fetched.failure?, Block.ofBytes? n fetched.bytes with
  | some e, _ => (.error e, fetched.reader)
  | none, none => (.error .endOfInput, fetched.reader)
  | none, some block => (.ok block, fetched.reader)

theorem fetchAfter_bound (before : Array UInt8) (r : ρ) (n : Nat) :
    (fetchAfter before r n).bytes.length ≤ before.size + n ∧
      remaining (fetchAfter before r n).reader + (fetchAfter before r n).bytes.length ≤
        remaining r + before.size := by
  fun_induction fetchAfter before r n with
  | case1 before r => simp
  | case2 before r n pos e r' h =>
    have := (retry_error h).1
    simp only [Array.length_toList]
    omega
  | case3 before r n pos r' h =>
    have := (retry_ok h).2
    simp only [Array.length_toList, List.length_nil] at this ⊢
    omega
  | case4 before r n pos b bs r' h ih =>
    have step := retry_ok h
    simp only [size_appendBytes, List.length_cons] at ih step ⊢
    omega

theorem fetchAfter_failure {before : Array UInt8} {r : ρ} {n : Nat} {e : ChannelError}
    (fails : (fetchAfter before r n).failure? = some e) : e.isInterruption = false := by
  fun_induction fetchAfter before r n with
  | case1 => simp at fails
  | case2 before r n pos e r' h =>
    injection fails with fails
    subst fails
    exact (retry_error h).2
  | case3 => simp at fails
  | case4 before r n pos b bs r' h ih => exact ih fails

/-- What ends a fetch is no interruption. -/
theorem fetch_failure {r : ρ} {n : Nat} {e : ChannelError} (fails : (fetch r n).failure? = some e) :
    e.isInterruption = false :=
  fetchAfter_failure fails

theorem remaining_fetch (r : ρ) (n : Nat) :
    remaining (fetch r n).reader + (fetch r n).bytes.length ≤ remaining r := by
  have := (fetchAfter_bound #[] r n).2
  simpa [fetch] using this

end Reader

end AgeCrypt
