import AgeCrypt.Channel.Reader

/-!
# Sources

A byte string as a reader that may hand out its bytes in small portions, be interrupted, and start to fail at
some position for good.
-/

namespace AgeCrypt

/-- Which of the calls to come are interrupted. -/
inductive Interruptions
  /-- Those of a list, one entry for each call, and none after it. -/
  | planned (calls : List Bool)
  /-- Every other call, beginning with the next one or with the one after it. -/
  | alternating (next : Bool)

namespace Interruptions

/-- Whether the next call is interrupted, and what comes after it. -/
def next : Interruptions → Bool × Interruptions
  | planned [] => (false, planned [])
  | planned (call :: calls) => (call, planned calls)
  | alternating call => (call, alternating (!call))

/-- How many calls in a row are interrupted from the next one on. -/
def run : Interruptions → Nat
  | planned calls => (calls.takeWhile (· == true)).length
  | alternating call => call.toNat

theorem run_next {i : Interruptions} (interrupted : i.next.1 = true) : i.next.2.run < i.run := by
  match i, interrupted with
  | planned (true :: calls), _ => simp [next, run]
  | alternating true, _ => simp [next, run]

end Interruptions

structure Source where
  /-- The bytes that were not handed out yet. -/
  rest : Bytes
  /-- The most bytes that one call hands out. -/
  portion? : Option Nat
  /-- How many more bytes come before every call fails. -/
  failsAfter? : Option Nat
  interruptions : Interruptions

namespace Source

def ofBytes (bs : Bytes) : Source := ⟨bs, none, none, .planned []⟩

def failure : ChannelError := .plain .other "source failed"

/-- The smaller of a number and a bound, if there is one. -/
def atMost (n : Nat) (bound? : Option Nat) : Nat := bound?.elim n (min n)

theorem atMost_le (n : Nat) (bound? : Option Nat) : atMost n bound? ≤ n := by
  cases bound? with
  | none => exact Nat.le_refl n
  | some bound => exact Nat.min_le_left n bound

def read (s : Source) (n : Nat) : Except ChannelError Bytes × Source :=
  let s' := { s with interruptions := s.interruptions.next.2 }
  if s.interruptions.next.1 then (.error .interrupted, s')
  else if s.failsAfter? = some 0 then (.error failure, s')
  else
    let bs := s.rest.take (atMost (atMost n s.portion?) s.failsAfter?)
    (.ok bs, { s' with rest := s.rest.drop bs.length, failsAfter? := s.failsAfter?.map (· - bs.length) })

instance : Reader Source where
  read := read
  remaining s := s.rest.length
  patience s := s.interruptions.run
  read_ok := by
    intro s n bs s' reads
    unfold read at reads
    simp only at reads
    split at reads
    · simp at reads
    · split at reads
      · simp at reads
      · simp only [Prod.mk.injEq, Except.ok.injEq] at reads
        obtain ⟨rfl, rfl⟩ := reads
        have := atMost_le (atMost n s.portion?) s.failsAfter?
        have := atMost_le n s.portion?
        simp only [List.length_take, List.length_drop]
        omega
  read_error := by
    intro s n e s' reads
    unfold read at reads
    simp only at reads
    split at reads
    · rename_i interrupted
      simp only [Prod.mk.injEq, Except.error.injEq] at reads
      obtain ⟨rfl, rfl⟩ := reads
      exact ⟨Nat.le_refl _, fun _ => Interruptions.run_next interrupted⟩
    · split at reads
      · simp only [Prod.mk.injEq, Except.error.injEq] at reads
        obtain ⟨rfl, rfl⟩ := reads
        refine ⟨Nat.le_refl _, fun interruption => ?_⟩
        simp [ChannelError.isInterruption, ChannelError.kind, failure] at interruption
      · simp at reads

end Source

end AgeCrypt
