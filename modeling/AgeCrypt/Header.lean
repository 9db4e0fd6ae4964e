import AgeCrypt.Stanza
import AgeCrypt.Crypto.Hmac
import AgeCrypt.Channel.Writer
import AgeCrypt.Message

/-!
# Headers

A header is the version line, the stanzas and a footer with a MAC over all that stands before the MAC. Here are
the header as it is written, its MAC, and writing it text by text.
-/

namespace AgeCrypt

/-- The key that encrypts a file, as far as its recipients know it. -/
abbrev FileKey := Block 16

/-- The nonce behind a header, which makes the key of the payload unique. -/
abbrev PayloadNonce := Block 16

/-- The stanzas of a file and the MAC over them. -/
structure Header where
  recipients : List Stanza
  mac : Block 32
deriving DecidableEq

namespace FileKey

def macKey (key : FileKey) : Block 32 := hkdf [] (utf8 "header") key.bytes

def payloadKey (key : FileKey) (nonce : PayloadNonce) : Block 32 := hkdf nonce.bytes (utf8 "payload") key.bytes

end FileKey

namespace Header

def versionLine : String := "age-encryption.org/v1"

/-- The tag of the stanzas that a passphrase opens. -/
def passphraseTag : String := "scrypt"

/-- The texts of a header up to the MAC, one after the other. -/
def partsBeforeMac (recipients : List Stanza) : List String :=
  [versionLine, "\n"] ++ recipients.flatMap Stanza.parts ++ [Line.footerMark]

def parts (h : Header) : List String :=
  partsBeforeMac h.recipients ++ [" ", Base64.encodeText h.mac.bytes, "\n"]

/-- What the MAC covers. -/
def signedBytes (recipients : List Stanza) : Bytes := (partsBeforeMac recipients).flatMap utf8

def toBytes (h : Header) : Bytes := h.parts.flatMap utf8

def macOf (key : FileKey) (recipients : List Stanza) : Block 32 := hmac key.macKey.bytes (signedBytes recipients)

def sign (key : FileKey) (recipients : List Stanza) : Header := ⟨recipients, macOf key recipients⟩

def hasMac (h : Header) (key : FileKey) : Bool := macOf key h.recipients = h.mac

/-- Whether some stanza is one that a passphrase opens. -/
def hasPassphrase (h : Header) : Bool := h.recipients.any fun s => s.tag = passphraseTag

/-- Whether such a stanza stands alone, if there is one. -/
def passphraseAlone (h : Header) : Bool := !h.hasPassphrase || h.recipients.length = 1

/-- Why a text of a header was not written by the one call that it gets. -/
inductive PartError
  | partlyTaken (left : Nat)
  | refused (e : ChannelError)

/-- The report of a text that was not written. -/
def PartError.report : PartError → ChannelError
  | .partlyTaken left => failed ("BufferTooSmall(" ++ toString left ++ ")")
  | .refused e =>
    failed ("IoError(Custom \x7b kind: " ++ e.kind.name ++ ", error: \"" ++ e.message ++ "\" \x7d)")
where
  failed (cause : String) : ChannelError := .plain .other ("failed to write header: " ++ cause)

/-- Writes texts with one call for each. -/
def writeParts {ω : Type} [Writer ω] (w : ω) : List String → Except PartError Unit × ω
  | [] => (.ok (), w)
  | part :: rest =>
    match Writer.write w (utf8 part) with
    | (.error e, w') => (.error (.refused e), w')
    | (.ok n, w') =>
      if n < part.utf8ByteSize then (.error (.partlyTaken (part.utf8ByteSize - n)), w') else writeParts w' rest

def write {ω : Type} [Writer ω] (h : Header) (w : ω) : Except ChannelError Unit × ω :=
  match writeParts w h.parts with
  | (.error e, w') => (.error e.report, w')
  | (.ok (), w') => (.ok (), w')

end Header

end AgeCrypt
