import AgeCrypt.Channel.Reader

/-!
# Buffered reading

A reader that fetches blocks from another one ahead of what is asked for, so that lines can be read from it.
-/

namespace AgeCrypt

/-- A reader with the bytes that were fetched from it but not handed out yet. -/
structure Buffered (ρ : Type) where
  inner : ρ
  buffer : Bytes

namespace Buffered
variable {ρ : Type} [Reader ρ]

def ofReader (inner : ρ) : Buffered ρ := ⟨inner, []⟩

def capacity : Nat := 8192

def bound (r : Buffered ρ) : Nat := Reader.remaining r.inner + r.buffer.length

/-- One call that asks for at most `n` bytes. A large request to an empty buffer passes it by. -/
def read (r : Buffered ρ) (n : Nat) : Except ChannelError Bytes × Buffered ρ :=
  if r.buffer ≠ [] then (.ok (r.buffer.take n), { r with buffer := r.buffer.drop n })
  else
    match Reader.read r.inner (max n capacity) with
    | (.error e, inner) => (.error e, ⟨inner, []⟩)
    | (.ok bs, inner) => (.ok (bs.take n), ⟨inner, bs.drop n⟩)

instance : Reader (Buffered ρ) where
  read := read
  remaining := bound
  patience r := Reader.patience r.inner
  read_ok := by
    intro r n bs r' reads
    unfold read at reads
    split at reads
    · simp only [Prod.mk.injEq, Except.ok.injEq] at reads
      obtain ⟨rfl, rfl⟩ := reads
      simp only [bound, List.length_take, List.length_drop]
      omega
    · split at reads
      · simp at reads
      · rename_i fetched
        simp only [Prod.mk.injEq, Except.ok.injEq] at reads
        obtain ⟨rfl, rfl⟩ := reads
        have := Reader.read_ok fetched
        simp only [bound, List.length_take, List.length_drop]
        omega
  read_error := by
    intro r n e r' reads
    unfold read at reads
    split at reads
    · simp at reads
    · split at reads
      · rename_i failed
        simp only [Prod.mk.injEq, Except.error.injEq] at reads
        obtain ⟨rfl, rfl⟩ := reads
        have := Reader.read_error failed
        simp only [bound, List.length_nil]
        exact ⟨by omega, this.2⟩
      · simp at reads

/-- Fetches a block if the buffer is empty. It stays empty only at the end of the input. -/
def refill (r : Buffered ρ) : Except ChannelError Unit × Buffered ρ :=
  if r.buffer ≠ [] then (.ok (), r)
  else
    match Reader.retry r.inner capacity with
    | (.error e, inner) => (.error e, ⟨inner, []⟩)
    | (.ok bs, inner) => (.ok (), ⟨inner, bs⟩)

theorem bound_refill (r : Buffered ρ) : r.refill.2.bound ≤ r.bound := by
  unfold refill
  split
  · exact Nat.le_refl _
  · split
    · rename_i failed
      have := (Reader.retry_error failed).1
      simp only [bound, List.length_nil]
      omega
    · rename_i fetched
      have := (Reader.retry_ok fetched).2
      simp only [bound]
      omega

def newline : UInt8 := 10

/-- The bytes through the first newline, or all of them. -/
def throughNewline (bs : Bytes) : Bytes :=
  bs.takeWhile (· != newline) ++ (bs.dropWhile (· != newline)).take 1

theorem isPrefix_throughNewline (bs : Bytes) : throughNewline bs <+: bs := by
  refine ⟨(bs.dropWhile (· != newline)).drop 1, ?_⟩
  rw [throughNewline, List.append_assoc, List.take_append_drop, List.takeWhile_append_dropWhile]

/-- The part of a line that the buffer holds, at most `limit` bytes of it. -/
def linePart (r : Buffered ρ) (limit? : Option Nat) : Bytes :=
  throughNewline (limit?.elim r.buffer r.buffer.take)

def consume (r : Buffered ρ) (n : Nat) : Buffered ρ := { r with buffer := r.buffer.drop n }

omit [Reader ρ] in
theorem length_linePart (r : Buffered ρ) (limit? : Option Nat) : (r.linePart limit?).length ≤ r.buffer.length := by
  refine Nat.le_trans (isPrefix_throughNewline _).length_le ?_
  cases limit? with
  | none => exact Nat.le_refl _
  | some limit => simp only [Option.elim_some, List.length_take]; omega

theorem bound_consume (r : Buffered ρ) (limit? : Option Nat) :
    (r.consume (r.linePart limit?).length).bound + (r.linePart limit?).length = r.bound := by
  have := r.length_linePart limit?
  simp only [bound, consume, List.length_drop]
  omega

/-- Reads the rest of a line after some bytes of it, but at most `limit` bytes of that rest. -/
def readLineAfter (before : Array UInt8) (r : Buffered ρ) (limit? : Option Nat) :
    Except ChannelError Bytes × Buffered ρ :=
  if limit? = some 0 then (.ok before.toList, r)
  else
    match _step : r.refill with
    | (.error e, r') => (.error e, r')
    | (.ok (), r') =>
      if _end : r'.linePart limit? = [] then (.ok before.toList, r')
      else if (r'.linePart limit?).getLast? = some newline then
        (.ok (before ++ r'.linePart limit?).toList, r'.consume (r'.linePart limit?).length)
      else
        readLineAfter (before ++ r'.linePart limit?) (r'.consume (r'.linePart limit?).length)
          (limit?.map (· - (r'.linePart limit?).length))
termination_by r.bound
decreasing_by
  have le := bound_refill r
  rw [_step] at le
  have total := r'.bound_consume limit?
  have some : (r'.linePart limit?).length ≠ 0 := fun e => _end (List.length_eq_zero_iff.1 e)
  simp only at le
  omega

/-- Reads a line with the newline that ends it. The line has none at the end of the input, or when it is cut
    off after `limit` bytes. -/
def readLine (r : Buffered ρ) (limit? : Option Nat) : Except ChannelError Bytes × Buffered ρ :=
  readLineAfter #[] r limit?

theorem bound_readLineAfter (before : Array UInt8) (r : Buffered ρ) (limit? : Option Nat) :
    (readLineAfter before r limit?).2.bound ≤ r.bound ∧
      ∀ line, (readLineAfter before r limit?).1 = .ok line →
        (readLineAfter before r limit?).2.bound + line.length ≤ r.bound + before.size := by
  fun_induction readLineAfter before r limit? with
  | case1 before r =>
    refine ⟨Nat.le_refl _, ?_⟩
    intro line same
    injection same with same
    simp [← same]
  | case2 before r limit? pos e r' step =>
    have := bound_refill r
    rw [step] at this
    exact ⟨this, by simp⟩
  | case3 before r limit? pos r' step ended =>
    have le := bound_refill r
    rw [step] at le
    refine ⟨le, ?_⟩
    intro line same
    injection same with same
    simp only [← same, Array.length_toList] at le ⊢
    omega
  | case4 before r limit? pos r' step ended last =>
    have le := bound_refill r
    rw [step] at le
    have := r'.bound_consume limit?
    refine ⟨by dsimp only at le ⊢; omega, ?_⟩
    intro line same
    injection same with same
    simp only [← same, Array.length_toList, size_appendBytes] at le ⊢
    omega
  | case5 before r limit? pos r' step ended last ih =>
    have le := bound_refill r
    rw [step] at le
    have := r'.bound_consume limit?
    refine ⟨by simp only at le; omega, ?_⟩
    intro line same
    have := ih.2 line same
    simp only [size_appendBytes] at le this
    omega

theorem readLineAfter_error {before : Array UInt8} {r r' : Buffered ρ} {limit? : Option Nat} {e : ChannelError}
    (fails : readLineAfter before r limit? = (.error e, r')) : e.isInterruption = false := by
  fun_induction readLineAfter before r limit? with
  | case1 => simp at fails
  | case2 before r limit? pos e' s step =>
    simp only [Prod.mk.injEq, Except.error.injEq] at fails
    obtain ⟨rfl, rfl⟩ := fails
    unfold refill at step
    split at step
    · simp at step
    split at step
    · rename_i failed
      simp only [Prod.mk.injEq, Except.error.injEq] at step
      obtain ⟨rfl, rfl⟩ := step
      exact (Reader.retry_error failed).2
    · simp at step
  | case3 => simp at fails
  | case4 => simp at fails
  | case5 before r limit? pos s step ended last ih => exact ih fails

/-- What fails when a line is read is no interruption. -/
theorem readLine_error {r r' : Buffered ρ} {limit? : Option Nat} {e : ChannelError}
    (fails : readLine r limit? = (.error e, r')) : e.isInterruption = false :=
  readLineAfter_error fails

/-- What can come after a line, together with the line. -/
theorem bound_readLine {r r' : Buffered ρ} {limit? : Option Nat} {line : Bytes}
    (reads : readLine r limit? = (.ok line, r')) : r'.bound + line.length ≤ r.bound := by
  have := (bound_readLineAfter #[] r limit?).2 line (by rw [← readLine, reads])
  rw [← readLine, reads] at this
  simpa using this

theorem bound_readLine_le {r r' : Buffered ρ} {limit? : Option Nat} {result : Except ChannelError Bytes}
    (reads : readLine r limit? = (result, r')) : r'.bound ≤ r.bound := by
  have := (bound_readLineAfter #[] r limit?).1
  rw [← readLine, reads] at this
  exact this

end Buffered

end AgeCrypt
