import AgeCrypt.Armor.Line
import AgeCrypt.Channel.Buffered

/-!
# Reading armor

The first line decides whether a file is armored. One that is not is handed out unchanged. The lines of one that
is are decoded one by one, and whitespace may surround it.
-/

namespace AgeCrypt

/-- What is known of a file that may be armored. -/
inductive ArmorState
  /-- Its first line was not read yet. -/
  | unknown
  /-- It is not armored. What was read ahead is still to be handed out. -/
  | binary (ahead : Bytes)
  /-- It is armored. Some decoded bytes are still to be handed out; a short line, or the end, was read. -/
  | armored (decoded : Bytes) (short ended : Bool)

structure ArmorReader (ρ : Type) where
  inner : Buffered ρ
  state : ArmorState

namespace ArmorReader
variable {ρ : Type} [Reader ρ]

def ofReader (r : ρ) : ArmorReader ρ := ⟨.ofReader r, .unknown⟩

/-- The bytes that are still to be handed out before anything else is read. -/
def ready : ArmorState → Bytes
  | .unknown => []
  | .binary ahead => ahead
  | .armored decoded _ _ => decoded

def bound (r : ArmorReader ρ) : Nat := r.inner.bound + (ready r.state).length

/-- The most bytes of a line before or at the beginning. -/
def openingLimit : Nat := Armor.maxWhitespace + 2

/-- The most bytes of a line behind the beginning: a full one with its ending, and one more. -/
def lineLimit : Nat := Armor.columns + 3

/-- Reads on from a line before or at the beginning until behind the beginning. -/
def readBeginning (r : Buffered ρ) (line : Bytes) (whitespace : Nat) : Except ChannelError Unit × Buffered ρ :=
  if _blank : line ≠ [] ∧ Armor.isWhitespace line then
    if Armor.maxWhitespace < whitespace + line.length then (.error (.armor .leadingWhitespace), r)
    else
      match r.readLine (some openingLimit) with
      | (.error e, r') => (.error e, r')
      | (.ok line', r') => readBeginning r' line' (whitespace + line.length)
  else if Armor.stripEnding line = Armor.beginMarker then (.ok (), r)
  else (.error (.armor .beginMarker), r)
termination_by Armor.maxWhitespace - whitespace
decreasing_by
  have : line.length ≠ 0 := fun e => _blank.1 (List.length_eq_zero_iff.1 e)
  omega

/-- Reads the first line, which decides on the state, and the beginning. -/
def detect (r : ArmorReader ρ) : Except ChannelError Unit × ArmorReader ρ :=
  match r.inner.readLine (some openingLimit) with
  | (.error e, inner) => (.error e, { r with inner })
  | (.ok line, inner) =>
    if Armor.opensArmor line then
      match readBeginning inner line 0 with
      | (result, inner) => (result, ⟨inner, .armored [] false false⟩)
    else (.ok (), ⟨inner, .binary line⟩)

/-- Checks that only a little whitespace comes behind the end. -/
def readTrailing (r : Buffered ρ) : Except ChannelError Unit × Buffered ρ :=
  let fetched := Reader.fetch r (Armor.maxWhitespace + 1)
  match fetched.failure? with
  | some e => (.error e, fetched.reader)
  | none =>
    if !Armor.isWhitespace fetched.bytes then (.error (.armor .trailingData), fetched.reader)
    else if Armor.maxWhitespace < fetched.bytes.length then
      (.error (.armor .trailingWhitespace), fetched.reader)
    else (.ok (), fetched.reader)

/-- Reads lines until one gives bytes or the end is reached. -/
def readDecoded (r : Buffered ρ) (short : Bool) : Except ChannelError Unit × ArmorReader ρ :=
  match _line : r.readLine (some lineLimit) with
  | (.error e, r') => (.error e, ⟨r', .armored [] short false⟩)
  | (.ok raw, r') =>
    match _content : Armor.readLine short raw with
    | .error e => (.error (.armor e), ⟨r', .armored [] short false⟩)
    | .ok .ending =>
      match readTrailing r' with
      | (result, r'') => (result, ⟨r'', .armored [] short true⟩)
    | .ok (.data []) => readDecoded r' true
    | .ok (.data (b :: bs)) =>
      (.ok (), ⟨r', .armored (b :: bs) (short || (b :: bs).length < Armor.lineBytes) false⟩)
termination_by r.bound
decreasing_by
  have := Buffered.bound_readLine _line
  have : raw ≠ [] := by
    rintro rfl
    simp [Armor.readLine] at _content
  have : raw.length ≠ 0 := fun e => this (List.length_eq_zero_iff.1 e)
  omega

/-- Hands out at most `n` of the bytes that are ready. -/
def serve (n : Nat) : ArmorState → Bytes × ArmorState
  | .unknown => ([], .unknown)
  | .binary ahead => (ahead.take n, .binary (ahead.drop n))
  | .armored decoded short ended => (decoded.take n, .armored (decoded.drop n) short ended)

/-- One call, once it is known whether the file is armored. -/
def readKnown (r : ArmorReader ρ) (n : Nat) : Except ChannelError Bytes × ArmorReader ρ :=
  match r.state with
  | .unknown => (.ok [], r)
  | .binary [] =>
    match Reader.read r.inner n with
    | (result, inner) => (result, { r with inner })
  | .armored [] short false =>
    match readDecoded r.inner short with
    | (.error e, r') => (.error e, r')
    | (.ok (), r') => (.ok (serve n r'.state).1, { r' with state := (serve n r'.state).2 })
  | state => (.ok (serve n state).1, { r with state := (serve n state).2 })

def read (r : ArmorReader ρ) (n : Nat) : Except ChannelError Bytes × ArmorReader ρ :=
  if n = 0 then (.ok [], r)
  else
    match r.state with
    | .unknown =>
      match r.detect with
      | (.error e, r') => (.error e, r')
      | (.ok (), r') => r'.readKnown n
    | _ => r.readKnown n

theorem bound_readBeginning {r r' : Buffered ρ} {line : Bytes} {whitespace : Nat} {result : Except ChannelError Unit}
    (reads : readBeginning r line whitespace = (result, r')) :
    r'.bound ≤ r.bound ∧ ∀ e, result = .error e → e.isInterruption = false := by
  fun_induction readBeginning r line whitespace with
  | case1 =>
    simp only [Prod.mk.injEq] at reads
    obtain ⟨rfl, rfl⟩ := reads
    exact ⟨Nat.le_refl _, by rintro e ⟨⟩; rfl⟩
  | case2 r line whitespace blank few e s failed =>
    simp only [Prod.mk.injEq] at reads
    obtain ⟨rfl, rfl⟩ := reads
    exact ⟨Buffered.bound_readLine_le failed, by rintro e' ⟨⟩; exact Buffered.readLine_error failed⟩
  | case3 r line whitespace blank few line' s next ih =>
    have := Buffered.bound_readLine_le next
    have rest := ih reads
    exact ⟨by omega, rest.2⟩
  | case4 =>
    simp only [Prod.mk.injEq] at reads
    obtain ⟨rfl, rfl⟩ := reads
    exact ⟨Nat.le_refl _, by simp⟩
  | case5 =>
    simp only [Prod.mk.injEq] at reads
    obtain ⟨rfl, rfl⟩ := reads
    exact ⟨Nat.le_refl _, by rintro e ⟨⟩; rfl⟩

theorem bound_detect {r r' : ArmorReader ρ} {result : Except ChannelError Unit} (reads : r.detect = (result, r')) :
    r'.bound ≤ r.bound ∧ ∀ e, result = .error e → e.isInterruption = false := by
  unfold detect at reads
  split at reads
  · rename_i failed
    simp only [Prod.mk.injEq] at reads
    obtain ⟨rfl, rfl⟩ := reads
    have := Buffered.bound_readLine_le failed
    exact ⟨by simp only [bound]; omega, by rintro e' ⟨⟩; exact Buffered.readLine_error failed⟩
  · rename_i line inner first
    have le := Buffered.bound_readLine first
    split at reads
    · simp only [Prod.mk.injEq] at reads
      obtain ⟨rfl, rfl⟩ := reads
      have := bound_readBeginning
        (rfl : readBeginning inner line 0 = ((readBeginning inner line 0).1, (readBeginning inner line 0).2))
      refine ⟨?_, this.2⟩
      have := this.1
      simp only [bound, ready, List.length_nil]
      omega
    · simp only [Prod.mk.injEq] at reads
      obtain ⟨rfl, rfl⟩ := reads
      exact ⟨by simp only [bound, ready]; omega, by simp⟩

theorem bound_readTrailing {r r' : Buffered ρ} {result : Except ChannelError Unit}
    (reads : readTrailing r = (result, r')) :
    r'.bound ≤ r.bound ∧ ∀ e, result = .error e → e.isInterruption = false := by
  have total := Reader.remaining_fetch r (Armor.maxWhitespace + 1)
  have le : (Reader.fetch r (Armor.maxWhitespace + 1)).reader.bound ≤ r.bound := by
    simp only [Reader.remaining] at total
    omega
  unfold readTrailing at reads
  simp only at reads
  split at reads
  · rename_i failed
    simp only [Prod.mk.injEq] at reads
    obtain ⟨rfl, rfl⟩ := reads
    exact ⟨le, by rintro e' ⟨⟩; exact Reader.fetch_failure failed⟩
  split at reads
  · simp only [Prod.mk.injEq] at reads
    obtain ⟨rfl, rfl⟩ := reads
    exact ⟨le, by rintro e ⟨⟩; rfl⟩
  split at reads
  · simp only [Prod.mk.injEq] at reads
    obtain ⟨rfl, rfl⟩ := reads
    exact ⟨le, by rintro e ⟨⟩; rfl⟩
  · simp only [Prod.mk.injEq] at reads
    obtain ⟨rfl, rfl⟩ := reads
    exact ⟨le, by simp⟩

theorem bound_readDecoded {r : Buffered ρ} {r' : ArmorReader ρ} {short : Bool} {result : Except ChannelError Unit}
    (reads : readDecoded r short = (result, r')) :
    r'.bound ≤ r.bound ∧ ∀ e, result = .error e → e.isInterruption = false := by
  fun_induction readDecoded r short with
  | case1 r short e s failed =>
    simp only [Prod.mk.injEq] at reads
    obtain ⟨rfl, rfl⟩ := reads
    have := Buffered.bound_readLine_le failed
    exact ⟨by simpa [bound, ready] using this, by rintro e' ⟨⟩; exact Buffered.readLine_error failed⟩
  | case2 r short raw s line e content =>
    simp only [Prod.mk.injEq] at reads
    obtain ⟨rfl, rfl⟩ := reads
    have := Buffered.bound_readLine_le line
    exact ⟨by simpa [bound, ready] using this, by rintro e' ⟨⟩; rfl⟩
  | case3 r short raw s line content ended t trailing =>
    simp only [Prod.mk.injEq] at reads
    obtain ⟨rfl, rfl⟩ := reads
    have := Buffered.bound_readLine_le line
    have rest := bound_readTrailing trailing
    exact ⟨by simp only [bound, ready, List.length_nil]; omega, rest.2⟩
  | case4 r short raw s line content ih =>
    have := Buffered.bound_readLine_le line
    have rest := ih reads
    exact ⟨by omega, rest.2⟩
  | case5 r short raw s line b bs content =>
    simp only [Prod.mk.injEq] at reads
    obtain ⟨rfl, rfl⟩ := reads
    have := Buffered.bound_readLine line
    have := Armor.length_of_readLine content
    exact ⟨by simp only [bound, ready]; omega, by simp⟩

theorem bound_serve (n : Nat) (s : ArmorState) :
    (serve n s).1.length ≤ n ∧ (ready (serve n s).2).length + (serve n s).1.length ≤ (ready s).length := by
  cases s <;> simp only [serve, ready, List.length_take, List.length_drop, List.length_nil] <;> omega

/-- How often the next calls can be interrupted. Only calls on a file that is not armored can be. -/
def patience (r : ArmorReader ρ) : Nat :=
  match r.state with
  | .unknown => Reader.patience r.detect.2.inner + 1
  | _ => Reader.patience r.inner

theorem readKnown_ok {r r' : ArmorReader ρ} {n : Nat} {bs : Bytes} (reads : r.readKnown n = (.ok bs, r')) :
    bs.length ≤ n ∧ r'.bound + bs.length ≤ r.bound := by
  obtain ⟨inner, state⟩ := r
  unfold readKnown at reads
  simp only at reads
  split at reads
  · simp only [Prod.mk.injEq, Except.ok.injEq] at reads
    obtain ⟨rfl, rfl⟩ := reads
    simp
  · simp only [Prod.mk.injEq] at reads
    obtain ⟨same, rfl⟩ := reads
    have step : Reader.read inner n = (.ok bs, (Reader.read inner n).2) := Prod.ext same rfl
    have := Reader.read_ok step
    simpa [bound, ready, Reader.remaining] using this
  · split at reads
    · simp at reads
    · rename_i s decoded
      simp only [Prod.mk.injEq, Except.ok.injEq] at reads
      obtain ⟨rfl, rfl⟩ := reads
      have := (bound_readDecoded decoded).1
      have := bound_serve n s.state
      simp only [bound, ready, List.length_nil] at *
      omega
  · simp only [Prod.mk.injEq, Except.ok.injEq] at reads
    obtain ⟨rfl, rfl⟩ := reads
    have := bound_serve n state
    simp only [bound]
    omega

theorem readKnown_error {r r' : ArmorReader ρ} {n : Nat} {e : ChannelError} (reads : r.readKnown n = (.error e, r')) :
    r'.bound ≤ r.bound ∧ (e.isInterruption → r'.patience < Reader.patience r.inner) := by
  obtain ⟨inner, state⟩ := r
  unfold readKnown at reads
  simp only at reads
  split at reads
  · simp at reads
  · simp only [Prod.mk.injEq] at reads
    obtain ⟨same, rfl⟩ := reads
    have step : Reader.read inner n = (.error e, (Reader.read inner n).2) := Prod.ext same rfl
    have := Reader.read_error step
    simpa [bound, ready, Reader.remaining, patience] using this
  · split at reads
    · rename_i decoded
      simp only [Prod.mk.injEq, Except.error.injEq] at reads
      obtain ⟨rfl, rfl⟩ := reads
      obtain ⟨le, final⟩ := bound_readDecoded decoded
      exact ⟨by simpa [bound, ready] using le, fun interruption => by simp [final _ rfl] at interruption⟩
    · simp at reads
  · simp at reads

instance : Reader (ArmorReader ρ) where
  read := read
  remaining := bound
  patience := patience
  read_ok := by
    intro r n bs r' reads
    unfold read at reads
    split at reads
    · simp only [Prod.mk.injEq, Except.ok.injEq] at reads
      obtain ⟨rfl, rfl⟩ := reads
      simp
    split at reads
    · split at reads
      · simp at reads
      · rename_i detected
        have := (bound_detect detected).1
        have := readKnown_ok reads
        omega
    · exact readKnown_ok reads
  read_error := by
    intro r n e r' reads
    unfold read at reads
    split at reads
    · simp at reads
    split at reads
    · rename_i fresh
      split at reads
      · rename_i failed
        simp only [Prod.mk.injEq, Except.error.injEq] at reads
        obtain ⟨rfl, rfl⟩ := reads
        obtain ⟨le, final⟩ := bound_detect failed
        exact ⟨le, fun interruption => by simp [final _ rfl] at interruption⟩
      · rename_i s detected
        have := (bound_detect detected).1
        obtain ⟨le, less⟩ := readKnown_error reads
        refine ⟨by omega, fun interruption => ?_⟩
        have := less interruption
        simp only [patience, fresh, detected] at this ⊢
        omega
    · rename_i known
      obtain ⟨le, less⟩ := readKnown_error reads
      refine ⟨le, fun interruption => ?_⟩
      have := less interruption
      cases state : r.state with
      | unknown => exact absurd state known
      | binary ahead => simpa [patience, state] using this
      | armored decoded short ended => simpa [patience, state] using this

end ArmorReader

end AgeCrypt
