import AgeCrypt.Bytes
import AgeCrypt.Error

/-!
# Writing bytes

A writer answers a call with the count of bytes that it took, which may be fewer than it was given, or with a
failure. A call stands for its repetitions when it is interrupted. `writeAll` repeats until all are taken.
`gather` collects bytes into pieces of one size and passes a full piece on only when more bytes come, so that the
last piece is never empty unless there is nothing at all.
-/

namespace AgeCrypt

class Writer (ω : Type) where
  /-- One call that offers these bytes. -/
  write : ω → Bytes → Except ChannelError Nat × ω
  /-- Passes on what may be held back. -/
  flush : ω → Except ChannelError Unit × ω

namespace Writer
variable {ω : Type} [Writer ω]

/-- Repeats calls until all bytes are taken. -/
def writeAll (w : ω) (bs : Bytes) : Except ChannelError Unit × ω :=
  if _none : bs = [] then (.ok (), w)
  else
    match write w bs with
    | (.error e, w') => (.error e, w')
    | (.ok 0, w') => (.error .nothingTaken, w')
    | (.ok (n + 1), w') => writeAll w' (bs.drop (n + 1))
termination_by bs.length
decreasing_by
  have : bs.length ≠ 0 := fun e => _none (List.length_eq_zero_iff.1 e)
  simp only [List.length_drop]
  omega

def writeEach (w : ω) : List Bytes → Except ChannelError Unit × ω
  | [] => (.ok (), w)
  | bs :: rest =>
    match writeAll w bs with
    | (.error e, w') => (.error e, w')
    | (.ok (), w') => writeEach w' rest

end Writer

/-- What passes a piece on, how it stands now and the bytes that are held back. -/
structure Gathered (σ : Type) where
  result : Except ChannelError Unit
  state : σ
  held : Bytes

/-- Takes bytes behind those that are held back. Whenever a whole piece is held and more bytes are there, the
    piece is passed on; when that fails, the piece is still held. -/
def gather {σ : Type} (size : Nat) (pos : 0 < size) (pass : σ → Bytes → Except ChannelError Unit × σ) (s : σ)
    (held bs : Bytes) : Gathered σ :=
  if _none : bs = [] then ⟨.ok (), s, held⟩
  else if size ≤ held.length then
    match pass s held with
    | (.error e, s') => ⟨.error e, s', held⟩
    | (.ok (), s') => gather size pos pass s' [] bs
  else gather size pos pass s (held ++ bs.take (size - held.length)) (bs.drop (size - held.length))
termination_by (bs.length, held.length)
decreasing_by
  · apply Prod.Lex.right
    simp only [List.length_nil]
    omega
  · apply Prod.Lex.left
    have : bs.length ≠ 0 := fun e => _none (List.length_eq_zero_iff.1 e)
    simp only [List.length_drop]
    omega

end AgeCrypt
