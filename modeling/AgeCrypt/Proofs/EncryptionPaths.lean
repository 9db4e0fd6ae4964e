import AgeCrypt.Proofs.ArmorTransparency
import AgeCrypt.Proofs.Rereading
import AgeCrypt.Proofs.ShortWrites

/-!
# Ways to encrypt

A file is encrypted in memory, or it is written while the plaintext is read, with armor or without. Behind the header and
the nonce, both ways write the same payload to writers that never fail (`writeFile_inMemory`). Main statement: all ways
give the same file and fail in the same cases with the same failure, and the armored one is the armored form of that file
(`encryption_agrees`), which is an ASCII text of lines that end in 64 columns (`Armor.laidOut_encode`,
`Armor.exists_ascii`).
-/

namespace AgeCrypt

namespace Armor

/-- The armored form of some bytes: between the marks, lines of unpadded Base64 that hold the bytes one after the other,
    48 of them in 64 columns each but for the last line. -/
def LaidOut (bs text : Bytes) : Prop :=
  ∃ full last, bs = List.flatten full ++ last ∧
    text = beginMarker ++ [10] ++ (full ++ [last]).flatMap (fun part => encodeLine part ++ [10]) ++ endMarker ++ [10] ∧
    (∀ part ∈ full, part.length = 48 ∧ (encodeLine part).length = 64) ∧
    last.length ≤ 48 ∧ (encodeLine last).length ≤ 64 ∧ (last = [] → full = []) ∧
    ∀ part ∈ full ++ [last], (61 : UInt8) ∉ encodeLine part

theorem laidOut_encode (bs : Bytes) : LaidOut bs (encode bs) := by
  obtain ⟨full, last, lines, ⟨full_length, last_length, alone⟩, same⟩ := exists_cut lineBytes_pos bs
  refine ⟨full, last, same, ?_, ?_, last_length, ?_, alone,
    fun part _ member => (visible_of_mem_encodeLine member).2.2.2 rfl⟩
  · rw [encode, lines]
    rfl
  · intro part member
    have size := full_length part member
    refine ⟨size, ?_⟩
    rw [length_encodeLine, size]
    rfl
  · rw [length_encodeLine]
    simp only [lineBytes] at last_length
    omega

theorem ascii_encode (bs : Bytes) : ∀ b ∈ encode bs, b.toNat < 128 := by
  have marks : ∀ b ∈ beginMarker ++ newline ++ (endMarker ++ newline), b.toNat < 128 := by decide +kernel
  obtain ⟨first, last⟩ := List.forall_mem_append.1 marks
  rw [encode, List.append_assoc]
  refine List.forall_mem_append.2 ⟨List.forall_mem_append.2 ⟨first, ?_⟩, last⟩
  intro b member
  obtain ⟨part, _, member⟩ := List.mem_flatMap.1 member
  rcases List.mem_append.1 member with member | member
  · have visible := (visible_of_mem_encodeLine member).2.1
    omega
  · obtain rfl := List.mem_singleton.1 member
    decide

/-- An armored file is an ASCII text. -/
theorem exists_ascii (bs : Bytes) : ∃ text, ofUtf8? (encode bs) = some text ∧ ∀ c ∈ text.toList, c.toNat < 128 := by
  have ascii : ∀ c ∈ (String.ofList (byteChars (encode bs))).toList, c.toNat < 128 := by
    intro c member
    rw [String.toList_ofList] at member
    obtain ⟨b, inside, rfl⟩ := List.mem_map.1 member
    rw [toNat_ofNat_toNat]
    exact ascii_encode bs b inside
  refine ⟨String.ofList (byteChars (encode bs)), ofUtf8?_eq_some_iff.2 ?_, ascii⟩
  rw [utf8_of_ascii fun c member => Nat.le_of_lt_succ (ascii c member), String.toList_ofList, charBytes_byteChars]

end Armor

section
variable {ρ ω : Type} [Reader ρ] [Writer ω] {room : Bytes → Prop} {recorded : ω → Bytes → Prop} {before : Bytes}
  {format : Format}

/-- The payload that is written behind the header and the nonce is the one that is gathered behind the nonce in memory. -/
theorem writeFile_inMemory (records : Writer.Records room recorded) (all : ∀ bs, room bs) {w : ArmorWriter ω}
    (begun : ArmorWriter.Recorded recorded before format w []) (p : Prologue) (input : ρ) :
    ∃ result w' body, writeFile p input w = (result, w') ∧
      writePayload input (PayloadWriter.start p.cipher { Sink.unlimited with contents := p.nonce.bytes.toArray }) =
        (result, body) ∧
      (result = .ok () → recorded w'.inner (before ++ format.encode (p.header.toBytes ++ body.bytes))) := by
  have armoring := ArmorWriter.records records before format
  have reliable := armoring.reliable fun _ => all
  let body : Sink := { Sink.unlimited with contents := p.nonce.bytes.toArray }
  have gathering := body.records.reliable (Sink.room_unlimited _)
  rcases Prologue.write_of_records armoring begun p with ⟨v, begins, behind⟩ | ⟨_, _, _, full⟩
  · have same : Writer.SameRecord (ArmorWriter.Recorded recorded before format) body.Recorded
        (p.header.toBytes ++ p.nonce.bytes) [] v body :=
      ⟨[], by simpa using behind, body.recorded_refl⟩
    have related : PayloadWriter.Related _ (.start p.cipher v) (.start p.cipher body) := ⟨rfl, rfl, rfl, same⟩
    obtain ⟨result, v', body', step, step', payload, written, held, _⟩ :=
      writePayload_alike (reliable.agreeAll gathering _ []) input related
    rw [writeFile, begins]
    dsimp only
    rw [step, step']
    cases result with
    | error e => exact ⟨_, v', body', rfl, rfl, fun ok => by cases ok⟩
    | ok _ =>
      rcases ArmorWriter.finish_of_recorded records written with ⟨w', finishes, file⟩ | ⟨_, _, _, full⟩
      · refine ⟨_, w', body', finishes, rfl, fun _ => ?_⟩
        rw [List.append_assoc] at file
        rw [held, List.nil_append]
        exact file
      · exact absurd all full
  · exact absurd (fun _ => all) full

end

/-- What encryption comes to in memory and into `output`, in either format. All fail alike, draw the same and log the
    same. If they succeed, there is one file: writing the one in memory and the binary format give its bytes, and the
    armored format gives what armoring these bytes gives, in whatever parts they are written. -/
structure SameFile {ω : Type} [Writer ω] (recorded : ω → Bytes → Prop) (before : Bytes) (output : ω)
    (inMemory : Except EncryptError File × Randomness × List Event) (binary armored : Encrypted ω) : Prop where
  results : binary.result = inMemory.1.map (fun _ => ()) ∧ armored.result = inMemory.1.map fun _ => ()
  drawn : binary.randomness = inMemory.2.1 ∧ armored.randomness = inMemory.2.1
  logged : binary.events = inMemory.2.2 ∧ armored.events = inMemory.2.2
  written : ∀ f, inMemory.1 = .ok f → ∃ w, f.write output = (.ok (), w) ∧ recorded w (before ++ f.toBytes)
  plain : ∀ f, inMemory.1 = .ok f → recorded binary.output (before ++ f.toBytes)
  encoded : ∀ f, inMemory.1 = .ok f → recorded armored.output (before ++ Armor.encode f.toBytes) ∧
    ∀ parts, List.flatten parts = f.toBytes → ∃ w, ArmorWriter.armorEach output parts = (.ok (), w) ∧
      recorded w (before ++ Armor.encode f.toBytes)

section
variable {ρ ω : Type} [Reader ρ] [Writer ω] {room : Bytes → Prop} {recorded : ω → Bytes → Prop} {before : Bytes}
  {output : ω}

/-- In either format, encryption turns out as it does in memory, and records the file in that format. -/
theorem encrypt_eq_inMemory (records : Writer.Records room recorded) (all : ∀ bs, room bs) (holds : recorded output before)
    (recipients : List Recipient) (input : ρ) (format : Format) (randomness : Randomness) :
    (encrypt recipients input output format randomness).result =
        (encryptInMemory recipients input randomness).1.map (fun _ => ()) ∧
      (encrypt recipients input output format randomness).randomness = (encryptInMemory recipients input randomness).2.1 ∧
      (encrypt recipients input output format randomness).events = (encryptInMemory recipients input randomness).2.2 ∧
      ∀ f, (encryptInMemory recipients input randomness).1 = .ok f →
        recorded (encrypt recipients input output format randomness).output (before ++ format.encode f.toBytes) := by
  unfold encrypt encryptInMemory
  cases Audience.ofRecipients recipients with
  | error e => exact ⟨rfl, rfl, rfl, fun f ok => by cases ok⟩
  | ok audience =>
    rcases @ArmorWriter.start_of_records _ _ _ _ _ format records _ holds with ⟨w, starts, begun⟩ | ⟨_, _, _, full⟩
    · dsimp only
      rw [starts]
      dsimp only
      cases audience.prologue.run randomness with | mk prologue? later => ?_
      cases prologue? with
      | error e => exact ⟨rfl, rfl, rfl, fun f ok => by cases ok⟩
      | ok p =>
        obtain ⟨result, w', body, writes, gathers, file⟩ := writeFile_inMemory records all begun p input
        dsimp only
        rw [writes, gathers]
        cases result with
        | error e => exact ⟨rfl, rfl, rfl, fun f ok => by cases ok⟩
        | ok _ =>
          refine ⟨rfl, rfl, rfl, fun f ok => ?_⟩
          cases ok
          exact file rfl
    · exact absurd all full

theorem sameFile_of_records (records : Writer.Records room recorded) (all : ∀ bs, room bs) (holds : recorded output before)
    (recipients : List Recipient) (input : ρ) (randomness : Randomness) :
    SameFile recorded before output (encryptInMemory recipients input randomness)
      (encrypt recipients input output .binary randomness) (encrypt recipients input output .armored randomness) := by
  obtain ⟨result, drawn, logged, plain⟩ := encrypt_eq_inMemory records all holds recipients input .binary randomness
  obtain ⟨result', drawn', logged', encoded⟩ := encrypt_eq_inMemory records all holds recipients input .armored randomness
  refine ⟨⟨result, result'⟩, ⟨drawn, drawn'⟩, ⟨logged, logged'⟩, ?_, plain, fun f ok => ⟨encoded f ok, ?_⟩⟩
  · intro f _
    rcases f.write_of_records records holds with ok | ⟨_, _, _, full⟩
    · exact ok
    · exact absurd (all _) full
  · intro parts whole
    rcases ArmorWriter.armorEach_of_records records holds parts with ⟨w, step, written⟩ | ⟨_, _, _, full⟩
    · rw [whole] at written
      exact ⟨w, step, written⟩
    · exact absurd all full

end

/-- All ways to encrypt give the same file, to whatever recipients, from whatever input and randomness. An encryption in
    memory fails as one into an output does that takes everything at once, in either format, and otherwise they hold the
    same file, which the armored format lays out in lines between its marks. This holds as well when bytes are encrypted
    to one recipient, and then the armored form is an ASCII text. -/
theorem encryption_agrees {ρ ω : Type} [Reader ρ] [Writer ω] {room : Bytes → Prop} {recorded : ω → Bytes → Prop}
    {before : Bytes} {output : ω} (records : Writer.Records room recorded) (all : ∀ bs, room bs)
    (holds : recorded output before) (recipients : List Recipient) (input : ρ) (randomness : Randomness) :
    SameFile recorded before output (encryptInMemory recipients input randomness)
      (encrypt recipients input output .binary randomness) (encrypt recipients input output .armored randomness) ∧
    (∀ bs, Armor.LaidOut bs (Armor.encode bs)) ∧
    ∀ recipient plaintext,
      SameFile Sink.unlimited.Recorded [] Sink.unlimited
        (encryptInMemory [recipient] (Source.ofBytes plaintext) randomness)
        (encryptBytes recipient plaintext .binary randomness) (encryptBytes recipient plaintext .armored randomness) ∧
      ((encryptBytes recipient plaintext .armored randomness).result = .ok () →
        ∃ text, ofUtf8? (encryptBytes recipient plaintext .armored randomness).output.bytes = some text ∧
          ∀ c ∈ text.toList, c.toNat < 128) := by
  refine ⟨sameFile_of_records records all holds recipients input randomness, Armor.laidOut_encode, ?_⟩
  intro recipient plaintext
  have same := sameFile_of_records Sink.unlimited.records (Sink.room_unlimited #[]) Sink.unlimited.recorded_refl [recipient]
    (Source.ofBytes plaintext) randomness
  refine ⟨same, fun ok => ?_⟩
  obtain ⟨f, made⟩ : ∃ f, (encryptInMemory [recipient] (Source.ofBytes plaintext) randomness).1 = .ok f := by
    have result : Except.ok () = (encryptInMemory [recipient] (Source.ofBytes plaintext) randomness).1.map fun _ => () :=
      ok.symm.trans same.results.2
    cases made : (encryptInMemory [recipient] (Source.ofBytes plaintext) randomness).1 with
    | error e =>
      rw [made] at result
      cases result
    | ok f => exact ⟨f, rfl⟩
  have bytes : (encryptBytes recipient plaintext .armored randomness).output.bytes = Armor.encode f.toBytes :=
    (same.encoded f made).1.1
  rw [bytes]
  exact Armor.exists_ascii f.toBytes

/-- Two bytes for one recipient, into a sink that holds a byte before. -/
theorem encryption_agrees_hi :
    let recipient : Recipient := ⟨fun _ => pure ([⟨"tag", [], []⟩], .empty), false⟩
    let input := Source.ofBytes [104, 105]
    let started : Sink := { Sink.unlimited with contents := #[10] }
    let zeros : Randomness := ⟨fun _ => 0, 0⟩
    ∃ f, (encryptInMemory [recipient] input zeros).1 = .ok f ∧
      (encrypt [recipient] input started .binary zeros).result = .ok () ∧
      (encrypt [recipient] input started .binary zeros).output.bytes = 10 :: f.toBytes ∧
      (encrypt [recipient] input started .armored zeros).result = .ok () ∧
      (encrypt [recipient] input started .armored zeros).output.bytes = 10 :: Armor.encode f.toBytes := by
  intro recipient input started zeros
  obtain ⟨p, prepares⟩ : ∃ p, Prepares [recipient] zeros p := ⟨_, _, _, rfl, rfl⟩
  have delivers := Source.delivers_ofBytes [104, 105]
  obtain ⟨later, events, ok⟩ := (encryptInMemory_of_prepares delivers prepares).2 rfl (by decide)
  have made : (encryptInMemory [recipient] input zeros).1 = .ok (p.inMemory [104, 105]) := congrArg Prod.fst ok
  obtain ⟨same, _⟩ :=
    encryption_agrees started.records (Sink.room_unlimited #[10]) started.recorded_refl [recipient] input zeros
  have results := same.results
  rw [made] at results
  have held : ∀ bs, started.bytes ++ ([] ++ bs) = 10 :: bs := fun _ => rfl
  exact ⟨_, made, results.1, (same.plain _ made).1.trans (held _), results.2, (same.encoded _ made).1.1.trans (held _)⟩

end AgeCrypt
