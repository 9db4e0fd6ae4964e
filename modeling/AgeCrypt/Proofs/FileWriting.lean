import AgeCrypt.Proofs.Armoring
import AgeCrypt.Proofs.PayloadWriting
import AgeCrypt.Proofs.Wrapping

/-!
# Files as they are written

Encryption writes the header, the nonce and the layout of the payload, in the format that was asked for
(`encrypt_of_records`). It succeeds when the prologue is there, the input ends without a failure, there are numbers for
all chunks and the output takes everything.
-/

namespace AgeCrypt

namespace Prologue

/-- A file that is not armored, as it is written. -/
def file (p : Prologue) (payload : Bytes) : Bytes := p.header.toBytes ++ (p.nonce.bytes ++ Chunk.layout p.cipher payload)

end Prologue

section
variable {ρ ω : Type} [Reader ρ] [Writer ω] {stop? : Option ChannelError} {input : ρ} {payload : Bytes}
  {room : Bytes → Prop} {recorded : ω → Bytes → Prop} {before : Bytes} {format : Format}

theorem Prologue.write_of_records (records : Writer.Records room recorded) {w : ω} (written : recorded w before)
    (p : Prologue) :
    (∃ w', p.write w = (.ok (), .start p.cipher w') ∧ recorded w' (before ++ p.header.toBytes ++ p.nonce.bytes)) ∨
    (∃ e w', p.write w = (.error e, .start p.cipher w') ∧ ¬ ∀ bs, room bs) := by
  unfold Prologue.write
  rcases Header.write_of_records records written p.header with ⟨w₁, step, behind⟩ | ⟨e, w₁, step, full⟩
  · rw [step]
    dsimp only
    rcases Writer.writeAll_of_records records behind p.nonce.bytes with ⟨w₂, step, behind⟩ | ⟨e, w₂, step, full⟩
    · rw [step]
      exact .inl ⟨w₂, rfl, behind⟩
    · rw [step]
      exact .inr ⟨e, w₂, rfl, fun all => full (all _)⟩
  · rw [step]
    exact .inr ⟨e, w₁, rfl, fun all => full (all _)⟩

/-- A whole file is written behind its beginning, or the input fails, or there is no room. -/
theorem writeFile_of_records (delivers : Reader.Delivers stop? input payload) (records : Writer.Records room recorded)
    {w : ArmorWriter ω} (begun : ArmorWriter.Recorded recorded before format w []) (p : Prologue) :
    (stop? = none ∧ (Chunk.split payload).length ≤ ChunkNonce.range ∧
      ∃ w', writeFile p input w = (.ok (), w') ∧ recorded w'.inner (before ++ format.encode (p.file payload))) ∨
    (∃ e w', writeFile p input w = (.error e, w') ∧ (stop? = some e ∨ ¬ PayloadWriter.Fits room payload)) := by
  have armoring := ArmorWriter.records records before format
  unfold writeFile
  rcases Prologue.write_of_records armoring begun p with ⟨w₁, step, behind⟩ | ⟨e, w₁, step, full⟩
  · rw [step]
    dsimp only
    rcases writePayload_of_records delivers armoring behind with ⟨clean, few, w₂, step, behind⟩ | ⟨e, w₂, step, reason⟩
    · rw [step]
      rw [List.nil_append, List.append_assoc] at behind
      rcases ArmorWriter.finish_of_recorded records behind with ⟨w₃, step, written⟩ | ⟨e, w₃, step, full⟩
      · exact .inl ⟨clean, few, w₃, step, written⟩
      · exact .inr ⟨e, w₃, step, .inr fun fits => full fits.2⟩
    · rw [step]
      exact .inr ⟨e, w₂, rfl, reason.imp_right fun full fits => full ⟨fits.1, fun _ => fits.2⟩⟩
  · rw [step]
    exact .inr ⟨e, w₁, rfl, .inr fun fits => full fun _ => fits.2⟩

/-- What encryption with a prologue writes if it succeeds, and when it does. -/
theorem encrypt_of_records (delivers : Reader.Delivers stop? input payload) (records : Writer.Records room recorded)
    {output : ω} (written : recorded output before) {recipients : List Recipient} {randomness : Randomness} {p : Prologue}
    (prepares : Prepares recipients randomness p) (format : Format) :
    ((encrypt recipients input output format randomness).result = .ok () →
      stop? = none ∧ (Chunk.split payload).length ≤ ChunkNonce.range ∧
        recorded (encrypt recipients input output format randomness).output (before ++ format.encode (p.file payload))) ∧
    (stop? = none → PayloadWriter.Fits room payload →
      (encrypt recipients input output format randomness).result = .ok ()) := by
  obtain ⟨audience, later, allowed, drawn⟩ := prepares
  unfold encrypt
  rw [allowed]
  dsimp only
  rcases @ArmorWriter.start_of_records _ _ _ _ _ format records _ written with ⟨w, step, begun⟩ | ⟨e, w, step, full⟩
  · rw [step]
    dsimp only
    rw [drawn]
    dsimp only
    rcases writeFile_of_records delivers records begun p with ⟨clean, few, w', step, behind⟩ | ⟨e, w', step, reason⟩
    · rw [step]
      exact ⟨fun _ => ⟨clean, few, behind⟩, fun _ _ => rfl⟩
    · rw [step]
      constructor
      · intro ok
        cases ok
      · intro clean fits
        rcases reason with stops | full
        · rw [clean] at stops
          cases stops
        · exact absurd fits full
  · rw [step]
    constructor
    · intro ok
      cases ok
    · intro _ fits
      exact absurd fits.2 full

end

end AgeCrypt
