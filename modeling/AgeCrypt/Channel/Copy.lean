import AgeCrypt.Channel.Reader
import AgeCrypt.Channel.Writer

/-!
# Copying

Everything that a reader hands out is written to a writer, block by block.
-/

namespace AgeCrypt

/-- How copying ended, and the two ends of it. -/
structure Copied (ρ ω : Type) where
  result : Except ChannelError Unit
  reader : ρ
  writer : ω

/-- Copies until the input ends or one of the two fails. -/
def copy {ρ ω : Type} [Reader ρ] [Writer ω] (r : ρ) (w : ω) : Copied ρ ω :=
  match _step : Reader.retry r Reader.blockSize with
  | (.error e, r') => ⟨.error e, r', w⟩
  | (.ok [], r') => ⟨.ok (), r', w⟩
  | (.ok (b :: bs), r') =>
    match Writer.writeAll w (b :: bs) with
    | (.error e, w') => ⟨.error e, r', w'⟩
    | (.ok (), w') => copy r' w'
termination_by Reader.remaining r
decreasing_by
  have := (Reader.retry_ok _step).2
  simp only [List.length_cons] at this
  omega

end AgeCrypt
