import AgeCrypt.Proofs.ArmorGrammar
import AgeCrypt.Proofs.Armoring
import AgeCrypt.Proofs.Decrypting

/-!
# Armor makes no difference to decryption

An armor writer gives the same armored file however the bytes are cut into calls (`ArmorWriter.armorEach_of_records`).
Main statement: decrypting it turns out as decrypting the bytes themselves does, with the same result, the same output and
the same events, unless these bytes would be taken for an armored file (`decrypt_armored`). They need not be a file at all.
-/

namespace AgeCrypt

namespace ArmorWriter
variable {ω : Type} [Writer ω]

/-- Writes some parts, one after the other, as one armored file. -/
def armorEach (inner : ω) (parts : List Bytes) : Except ChannelError Unit × ω :=
  match start inner .armored with
  | (.error e, w) => (.error e, w.inner)
  | (.ok (), w) =>
    match Writer.writeEach w parts with
    | (.error e, w) => (.error e, w.inner)
    | (.ok (), w) =>
      match w.finish with
      | (result, w) => (result, w.inner)

/-- The parts are written as the armored form of all of them, or there is no room. -/
theorem armorEach_of_records {room : Bytes → Prop} {recorded : ω → Bytes → Prop} (records : Writer.Records room recorded)
    {inner : ω} {before : Bytes} (written : recorded inner before) (parts : List Bytes) :
    (∃ inner', armorEach inner parts = (.ok (), inner') ∧ recorded inner' (before ++ Armor.encode parts.flatten)) ∨
    (∃ e inner', armorEach inner parts = (.error e, inner') ∧ ¬ ∀ bs, room bs) := by
  unfold armorEach
  rcases @start_of_records _ _ _ _ _ .armored records _ written with ⟨w, step, begun⟩ | ⟨e, w, step, full⟩
  · rw [step]
    dsimp only
    rcases Writer.writeEach_of_records (ArmorWriter.records records before .armored) begun parts with
      ⟨w, step, behind⟩ | ⟨e, w, step, full⟩
    · rw [step]
      dsimp only
      rcases finish_of_recorded records behind with ⟨w, step, finished⟩ | ⟨e, w, step, full⟩
      · rw [step]
        exact .inl ⟨_, rfl, finished⟩
      · rw [step]
        exact .inr ⟨e, _, rfl, full⟩
    · rw [step]
      exact .inr ⟨e, _, rfl, full⟩
  · rw [step]
    exact .inr ⟨e, _, rfl, full⟩

/-- A sink that takes everything is left with the armored form. -/
theorem armorEach_unlimited (parts : List Bytes) :
    ∃ sink, armorEach Sink.unlimited parts = (.ok (), sink) ∧ sink.bytes = Armor.encode parts.flatten := by
  rcases armorEach_of_records Sink.unlimited.records Sink.unlimited.recorded_refl parts with
    ⟨sink, step, bytes, _⟩ | ⟨e, sink, _, full⟩
  · exact ⟨sink, step, bytes⟩
  · exact absurd (Sink.room_unlimited #[]) full

end ArmorWriter

/-- Bytes that are not taken for an armored file are armored without a failure, in whatever parts they are written, and
    decrypting the armored form turns out as decrypting the bytes does, whatever reads the two. -/
theorem decrypt_armored {bs : Bytes} (plain : ¬ Armor.IsArmored bs) {parts : List Bytes} (whole : parts.flatten = bs) :
    (ArmorWriter.armorEach Sink.unlimited parts).1 = .ok () ∧
    ∀ {ρ σ ω : Type} [Reader ρ] [Reader σ] [Writer ω] {armored : ρ} {source : σ},
      Reader.Delivers none armored (ArmorWriter.armorEach Sink.unlimited parts).2.bytes →
      Reader.Delivers none source bs →
      ∀ (identities : List Identity) (output : ω), decrypt identities armored output = decrypt identities source output := by
  obtain ⟨sink, step, bytes⟩ := ArmorWriter.armorEach_unlimited parts
  rw [step]
  refine ⟨rfl, ?_⟩
  intro ρ σ ω _ _ _ armored source armored_delivers source_delivers identities output
  dsimp only at armored_delivers
  rw [bytes, whole] at armored_delivers
  rw [decrypt_of_delivers armored_delivers, decrypt_of_delivers source_delivers, Armor.unarmor_encode,
    Armor.unarmor_of_not_isArmored plain]

/-- The beginning of a file, armored in two parts and read in small pieces. -/
theorem decrypt_armored_sample :
    let bs := utf8 "age-encryption.org/v1\n-> X25519"
    let armored := (ArmorWriter.armorEach Sink.unlimited [bs.take 5, bs.drop 5]).2.bytes
    let stranger : Identity := { unwrap := fun _ => none }
    decrypt [stranger] { Source.ofBytes armored with portion? := some 7 } Sink.unlimited =
      decrypt [stranger] { Source.ofBytes bs with portion? := some 1 } Sink.unlimited := by
  intro bs armored stranger
  have whole : [bs.take 5, bs.drop 5].flatten = bs := by simp
  exact (decrypt_armored (by decide) whole).2 (Source.delivers { Source.ofBytes armored with portion? := some 7 } (by decide))
    (Source.delivers { Source.ofBytes bs with portion? := some 1 } (by decide)) _ _

end AgeCrypt
