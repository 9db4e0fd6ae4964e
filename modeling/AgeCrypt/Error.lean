import AgeCrypt.LabelSet

/-!
# Causes of failure

Every way in which reading, writing, encrypting and decrypting can fail, as a cause. The texts are in
`AgeCrypt.Message`.
-/

namespace AgeCrypt

inductive FailureKind
  | addrInUse
  | addrNotAvailable
  | alreadyExists
  | brokenPipe
  | connectionAborted
  | connectionRefused
  | connectionReset
  | interrupted
  | invalidData
  | invalidInput
  | notConnected
  | notFound
  | other
  | outOfMemory
  | permissionDenied
  | timedOut
  | unexpectedEnd
  | unsupported
  | wouldBlock
  | writeZero
deriving DecidableEq

/-- What is wrong with an encrypted payload, or with its use. -/
inductive PayloadError
  | truncated
  /-- Its last chunk is empty, but not its first. -/
  | emptyLastChunk
  /-- An empty chunk was to be written that is not all of the payload. -/
  | emptyChunk
  | undecryptable
  | trailingData
  /-- It has more chunks than there are numbers. -/
  | tooManyChunks
  /-- Its last chunk was written before. -/
  | alreadyFinished
deriving DecidableEq

inductive ArmorError
  | leadingWhitespace
  | beginMarker
  | longLine
  | malformedBase64
  | endMarker
  | missingEnd
  | trailingData
  | trailingWhitespace
deriving DecidableEq

/-- Why bytes could not be read or written: a failure of the channel itself with its text, or of what is
    read or written through it. -/
inductive ChannelError
  | plain (kind : FailureKind) (text : String)
  | payload (e : PayloadError)
  | armor (e : ArmorError)
deriving DecidableEq

/-- The kind under which a failure of the payload is reported. -/
def PayloadError.kind : PayloadError → FailureKind
  | .truncated => .unexpectedEnd
  | .emptyChunk => .invalidInput
  | .alreadyFinished => .writeZero
  | .emptyLastChunk | .undecryptable | .trailingData | .tooManyChunks => .invalidData

namespace ChannelError

def kind : ChannelError → FailureKind
  | plain kind _ => kind
  | payload e => e.kind
  | armor _ => .invalidData

/-- A failure after which the same call may be repeated. -/
def isInterruption (e : ChannelError) : Bool := e.kind = .interrupted

/-- A call was interrupted before it did anything. -/
def interrupted : ChannelError := plain .interrupted "operation interrupted"

def endOfInput : ChannelError := plain .unexpectedEnd "failed to fill whole buffer"

def nothingTaken : ChannelError := plain .writeZero "failed to write whole buffer"

end ChannelError

inductive HeaderError
  | versionLine
  | malformedStanza
  | forbiddenCharacter
  | malformedFooter
  | malformedMac
  | missingNonce
deriving DecidableEq

inductive EncryptError
  | noRecipients
  /-- A recipient who uses a passphrase is not the only one. -/
  | passphraseNotAlone
  /-- A recipient's labels differ from those of the first one, which are on the left. -/
  | conflictingLabels (left right : LabelSet)
  | invalidLabels (labels : LabelSet)
  | channel (e : ChannelError)
deriving DecidableEq

inductive DecryptError
  | header (e : HeaderError)
  /-- A stanza for a passphrase is not the only one. -/
  | passphraseNotAlone
  | noIdentities
  /-- The stanzas are all for others. -/
  | noMatch
  /-- No identity has the file key, each for its reason. -/
  | noneMatched (failures : List DecryptError)
  | stanzaArguments (tag : String)
  | workFactor
  | excessiveWork (required max : Nat)
  | wrappedKeyLength
  | lowOrderPoint
  | wrongMac
  | channel (e : ChannelError)

/-- Why an identity gave no file key: it may be passed over, or decryption has to stop. -/
inductive UnwrapError
  | recovered (e : DecryptError)
  | fatal (e : DecryptError)

/-- The failure of which an identity's failure consists. -/
def UnwrapError.cause : UnwrapError → DecryptError
  | .recovered e => e
  | .fatal e => e

inductive KeyError
  | malformed
  | otherPart
  | otherLength
deriving DecidableEq

/-- A demand of this library that its caller, or the library itself, did not meet. -/
inductive Violation
  | workFactorRange
  | maxWorkFactorRange
  | equalLabels
deriving DecidableEq

end AgeCrypt
