import AgeCrypt.Bech32
import AgeCrypt.Crypto.Aead
import AgeCrypt.Error

/-!
# Texts of the failures

What is shown for each cause of failure, in the one language there is. A value that is put into a text stands
between the marks that isolate its writing direction.
-/

namespace AgeCrypt

/-- A value between the marks U+2068 and U+2069. -/
def isolated (value : String) : String := "\u2068" ++ value ++ "\u2069"

def FailureKind.name : FailureKind → String
  | .addrInUse => "AddrInUse"
  | .addrNotAvailable => "AddrNotAvailable"
  | .alreadyExists => "AlreadyExists"
  | .brokenPipe => "BrokenPipe"
  | .connectionAborted => "ConnectionAborted"
  | .connectionRefused => "ConnectionRefused"
  | .connectionReset => "ConnectionReset"
  | .interrupted => "Interrupted"
  | .invalidData => "InvalidData"
  | .invalidInput => "InvalidInput"
  | .notConnected => "NotConnected"
  | .notFound => "NotFound"
  | .other => "Other"
  | .outOfMemory => "OutOfMemory"
  | .permissionDenied => "PermissionDenied"
  | .timedOut => "TimedOut"
  | .unexpectedEnd => "UnexpectedEof"
  | .unsupported => "Unsupported"
  | .wouldBlock => "WouldBlock"
  | .writeZero => "WriteZero"

def PayloadError.message : PayloadError → String
  | .truncated => "The payload is truncated."
  | .emptyLastChunk => "The last payload chunk is empty."
  | .emptyChunk => "Only the final payload chunk of an empty file may be empty."
  | .undecryptable => "A payload chunk failed to decrypt."
  | .trailingData => "The payload has trailing data after the last chunk."
  | .tooManyChunks => "The payload has too many chunks."
  | .alreadyFinished => "The payload has already been finished."

def ArmorError.message : ArmorError → String
  | .leadingWhitespace => "Too much whitespace before the armor begin marker."
  | .beginMarker => "Invalid armor begin marker."
  | .longLine => "An armored line is longer than 64 characters."
  | .malformedBase64 => "An armored line is not canonical Base64."
  | .endMarker => "Invalid armor end marker."
  | .missingEnd => "The armor end marker is missing."
  | .trailingData => "Data found after the armor end marker."
  | .trailingWhitespace => "Too much whitespace after the armor end marker."

def ChannelError.message : ChannelError → String
  | .plain _ text => text
  | .payload e => e.message
  | .armor e => e.message

def HeaderError.message : HeaderError → String
  | .versionLine => "The file does not start with the age v1 version line."
  | .malformedStanza => "The header contains a malformed recipient stanza."
  | .forbiddenCharacter => "A recipient stanza contains an invalid type or argument."
  | .malformedFooter => "The header footer is malformed."
  | .malformedMac => "The header MAC is not canonical Base64."
  | .missingNonce => "The file ended before the payload nonce."

def AeadError.message : AeadError → String
  | .wrongLength => "incorrect ciphertext size"
  | .unauthenticated => "ciphertext failed to authenticate"

def KeyError.message : KeyError → String
  | .malformed => "invalid Bech32 encoding"
  | .otherPart => "incorrect HRP"
  | .otherLength => "incorrect key length"

def Violation.message : Violation → String
  | .workFactorRange => "work factor must be between 1 and 30"
  | .maxWorkFactorRange => "maximum work factor must be between 1 and 30"
  | .equalLabels => "internal error: entered unreachable code: labels are compatible"

/-- What is wrong with the letters or digits of a Bech32 string. -/
def Bech32.CodingError.message : Bech32.CodingError → String
  | .missingSeparator => "missing human-readable separator, \"1\""
  | .invalidChecksum => "invalid checksum"
  | .invalidLength => "invalid length"
  | .invalidChar c => "invalid character (code=" ++ c.toString ++ ")"
  | .invalidPadding => "invalid padding"
  | .mixedCase => "mixed-case strings not allowed"

/-- What is shown of a Bech32 string that could not be read or written. -/
def Bech32.Error.message : Bech32.Error → String
  | .tooLong length =>
    "The Bech32 string is " ++ isolated (toString length) ++ " characters long, more than the maximum of " ++
      isolated (toString maxLength) ++ "."
  | .invalidVariant => "The string uses a Bech32m checksum instead of Bech32."
  | .coding e => "Invalid Bech32 encoding: " ++ isolated e.message

/-- What is shown of a failed encryption. Two empty sets of labels have no text: they never conflict. -/
def EncryptError.message : EncryptError → Except Violation String
  | .conflictingLabels left right =>
    match left.labels, right.labels with
    | [], [] => .error .equalLabels
    | _, [] => .ok (oneSided left)
    | [], _ => .ok (oneSided right)
    | _, _ =>
      .ok ("Cannot encrypt to a recipient with labels '" ++ isolated left.text ++
        "' alongside a recipient with labels '" ++ isolated right.text ++ "'")
  | .invalidLabels labels =>
    .ok ("The first recipient requires one or more invalid labels: '" ++ isolated labels.text ++ "'")
  | .passphraseNotAlone => .ok "scrypt recipients can't be used with other recipients."
  | .channel e => .ok e.message
  | .noRecipients => .ok "Missing recipients."
where
  /-- The text when only one recipient has labels. -/
  oneSided (labels : LabelSet) : String :=
    "Cannot encrypt to a recipient with labels '" ++ isolated labels.text ++
      "' alongside a recipient with no labels"

mutual

def DecryptError.message : DecryptError → String
  | .excessiveWork required max =>
    "Excessive work parameter for passphrase.\nDecryption would require 2^" ++ isolated (toString required) ++
      " scrypt iterations, more than the accepted maximum of 2^" ++ isolated (toString max) ++ "."
  | .header e => e.message
  | .wrappedKeyLength => "A wrapped file key has the wrong length."
  | .wrongMac => "Header MAC is invalid."
  | .noMatch => "The identity did not match any recipient stanza."
  | .passphraseNotAlone => "An scrypt stanza must be the only stanza in the header."
  | .stanzaArguments tag => "A '" ++ isolated tag ++ "' stanza has invalid arguments."
  | .workFactor => "An scrypt stanza has an invalid work factor."
  | .channel e => e.message
  | .lowOrderPoint => "An X25519 stanza uses a low-order point."
  | .noIdentities => "Missing identities."
  | .noneMatched failures => "No matching keys found" ++ DecryptError.listMessage failures

def DecryptError.listMessage : List DecryptError → String
  | [] => ""
  | e :: es => "\n- " ++ e.message ++ DecryptError.listMessage es

end

/-- The text of the failure that lies under this one. -/
def EncryptError.sourceMessage? : EncryptError → Option String
  | .channel e => some e.message
  | _ => none

/-- The text of the failure that lies under this one. -/
def DecryptError.sourceMessage? : DecryptError → Option String
  | .header e => some e.message
  | .channel e => some e.message
  | _ => none

/-- The copy of a failure: kind and text stay, what failed inside is forgotten. -/
def ChannelError.copy (e : ChannelError) : ChannelError := .plain e.kind e.message

/-- The copy of a failure, in which each failure of a channel is a copy. -/
def EncryptError.copy : EncryptError → EncryptError
  | .channel e => .channel e.copy
  | e => e

mutual

/-- The copy of a failure, in which each failure of a channel is a copy. -/
def DecryptError.copy : DecryptError → DecryptError
  | .channel e => .channel e.copy
  | .noneMatched failures => .noneMatched (DecryptError.copyList failures)
  | e => e

def DecryptError.copyList : List DecryptError → List DecryptError
  | [] => []
  | e :: es => e.copy :: DecryptError.copyList es

end

def UnwrapError.copy : UnwrapError → UnwrapError
  | .recovered e => .recovered e.copy
  | .fatal e => .fatal e.copy

end AgeCrypt
