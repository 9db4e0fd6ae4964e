import AgeCrypt.Armor.Writer
import AgeCrypt.Channel.Copy
import AgeCrypt.Channel.Sink
import AgeCrypt.Channel.Source
import AgeCrypt.Event
import AgeCrypt.File
import AgeCrypt.Payload.Writer
import AgeCrypt.Recipient

/-!
# Encrypting

A file key is drawn and wrapped for each recipient, in order, and all recipients have to attach the same labels.
Then come the header, a nonce and the payload. `encrypt` writes a file while it reads the plaintext, and
`encryptInMemory` holds the file in memory.
-/

namespace AgeCrypt

/-- Recipients who may share a file: there is one at least, and one who uses a passphrase is the only one. -/
structure Audience where
  recipients : List Recipient
  nonempty : recipients ≠ []
  passphraseAlone : recipients.length = 1 ∨ recipients.all (fun r => !r.isPassphrase)

/-- All that precedes the payload of a file. -/
structure Prologue where
  header : Header
  nonce : PayloadNonce
  payloadKey : Block 32

/-- How encryption ended, what was written to and drawn from, and what is to be logged. -/
structure Encrypted (ω : Type) where
  result : Except EncryptError Unit
  output : ω
  randomness : Randomness
  events : List Event

namespace Audience

/-- Checks which recipients share a file. Nothing is drawn yet. -/
def ofRecipients (recipients : List Recipient) : Except EncryptError Audience :=
  if nonempty : recipients = [] then .error .noRecipients
  else if alone : recipients.length = 1 ∨ recipients.all (fun r => !r.isPassphrase) then
    .ok ⟨recipients, nonempty, alone⟩
  else .error .passphraseNotAlone

/-- The stanzas of recipients. Labels have to be valid, and those of the first recipient. -/
def wrapEach (key : FileKey) : (labels? : Option LabelSet) → List Recipient → Encrypting (List Stanza)
  | _, [] => pure []
  | labels?, recipient :: recipients => do
    let (stanzas, labels) ← recipient.wrap key
    if !labels.labels.all isArbitraryString then
      throw (.invalidLabels labels)
    let first := labels?.getD labels
    if labels ≠ first then
      throw (.conflictingLabels first labels)
    let rest ← wrapEach key (some first) recipients
    pure (stanzas ++ rest)

def wrap (audience : Audience) (key : FileKey) : Encrypting (List Stanza) := wrapEach key none audience.recipients

/-- Draws a file key and a nonce and wraps the file key. -/
def prologue (audience : Audience) : Encrypting Prologue := do
  let key : FileKey ← Randomness.draw 16
  let stanzas ← audience.wrap key
  let nonce : PayloadNonce ← Randomness.draw 16
  pure ⟨.sign key stanzas, nonce, key.payloadKey nonce⟩

/-- What is logged once a file key is wrapped. -/
def event (audience : Audience) (p : Prologue) : Event :=
  .fileKeyWrapped audience.recipients.length p.header.recipients.length

end Audience

namespace Prologue

def cipher (p : Prologue) : Cipher := .chaCha20Poly1305 p.payloadKey

/-- Writes the header and the nonce. The payload is written to the writer that results. -/
def write {ω : Type} [Writer ω] (p : Prologue) (w : ω) : Except ChannelError Unit × PayloadWriter ω :=
  match p.header.write w with
  | (.error e, w') => (.error e, .start p.cipher w')
  | (.ok (), w') =>
    match Writer.writeAll w' p.nonce.bytes with
    | (result, w'') => (result, .start p.cipher w'')

end Prologue

def writePayload {ρ ω : Type} [Reader ρ] [Writer ω] (input : ρ) (w : PayloadWriter ω) :
    Except ChannelError Unit × ω :=
  let copied := copy input w
  match copied.result with
  | .error e => (.error e, copied.writer.output.inner)
  | .ok () =>
    match copied.writer.finish with
    | (result, w') => (result, w'.output.inner)

/-- Writes a whole file for an input, once its prologue is there. -/
def writeFile {ρ ω : Type} [Reader ρ] [Writer ω] (p : Prologue) (input : ρ) (w : ArmorWriter ω) :
    Except ChannelError Unit × ArmorWriter ω :=
  match p.write w with
  | (.error e, s) => (.error e, s.output.inner)
  | (.ok (), s) =>
    match writePayload input s with
    | (.error e, w') => (.error e, w')
    | (.ok (), w') => w'.finish

/-- Encrypts all of an input to recipients and writes the file. Armor begins before anything is drawn. -/
def encrypt {ρ ω : Type} [Reader ρ] [Writer ω] (recipients : List Recipient) (input : ρ) (output : ω)
    (format : Format) (randomness : Randomness) : Encrypted ω :=
  match Audience.ofRecipients recipients with
  | .error e => ⟨.error e, output, randomness, []⟩
  | .ok audience =>
    match ArmorWriter.start output format with
    | (.error e, w) => ⟨.error (.channel e), w.inner, randomness, []⟩
    | (.ok (), w) =>
      match audience.prologue.run randomness with
      | (.error e, randomness) => ⟨.error e, w.inner, randomness, []⟩
      | (.ok prologue, randomness) =>
        match writeFile prologue input w with
        | (result, w) => ⟨result.mapError .channel, w.inner, randomness, [audience.event prologue]⟩

/-- Encrypts all of an input to recipients as a file in memory. -/
def encryptInMemory {ρ : Type} [Reader ρ] (recipients : List Recipient) (input : ρ) (randomness : Randomness) :
    Except EncryptError File × Randomness × List Event :=
  match Audience.ofRecipients recipients with
  | .error e => (.error e, randomness, [])
  | .ok audience =>
    match audience.prologue.run randomness with
    | (.error e, randomness) => (.error e, randomness, [])
    | (.ok prologue, randomness) =>
      let body := { Sink.unlimited with contents := prologue.nonce.bytes.toArray }
      match writePayload input (PayloadWriter.start prologue.cipher body) with
      | (.error e, _) => (.error (.channel e), randomness, [audience.event prologue])
      | (.ok (), body) => (.ok ⟨prologue.header, body.bytes⟩, randomness, [audience.event prologue])

def encryptBytes (recipient : Recipient) (plaintext : Bytes) (format : Format) (randomness : Randomness) :
    Encrypted Sink :=
  encrypt [recipient] (Source.ofBytes plaintext) Sink.unlimited format randomness

end AgeCrypt
