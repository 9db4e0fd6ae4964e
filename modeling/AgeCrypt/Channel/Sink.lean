import AgeCrypt.Channel.Writer

/-!
# Sinks

A growing byte string as a writer that may take only small portions and refuses what exceeds its capacity.
-/

namespace AgeCrypt

structure Sink where
  contents : Array UInt8
  /-- The most bytes that one call takes. -/
  portion? : Option Nat
  /-- The most bytes that it ever holds. -/
  capacity? : Option Nat

namespace Sink

/-- An empty sink that takes everything. -/
def unlimited : Sink := ⟨#[], none, none⟩

def bytes (s : Sink) : Bytes := s.contents.toList

def full : ChannelError := .plain .other "sink full"

def write (s : Sink) (bs : Bytes) : Except ChannelError Nat × Sink :=
  let taken := s.portion?.elim bs bs.take
  if s.capacity?.any (· < s.contents.size + taken.length) then (.error full, s)
  else (.ok taken.length, { s with contents := s.contents ++ taken })

instance : Writer Sink where
  write := write
  flush s := (.ok (), s)

/-- The bytes that a call took are behind those that were there. -/
theorem bytes_write {s s' : Sink} {bs : Bytes} {n : Nat} (writes : s.write bs = (.ok n, s')) :
    s'.bytes = s.bytes ++ bs.take n := by
  simp only [write] at writes
  split at writes
  · simp at writes
  · simp only [Prod.mk.injEq, Except.ok.injEq] at writes
    obtain ⟨rfl, rfl⟩ := writes
    cases s.portion? with
    | none => simp [bytes]
    | some portion => simp [bytes, ← List.take_eq_take_min]

/-- A call that fails leaves everything as it was. -/
theorem eq_of_write_error {s s' : Sink} {bs : Bytes} {e : ChannelError} (writes : s.write bs = (.error e, s')) :
    s' = s := by
  simp only [write] at writes
  split at writes
  · exact (Prod.mk.inj writes).2.symm
  · simp at writes

end Sink

end AgeCrypt
