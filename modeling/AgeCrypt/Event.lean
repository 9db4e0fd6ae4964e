import AgeCrypt.Message

/-!
# Events

What encryption and decryption report besides their results, for a log.
-/

namespace AgeCrypt

/-- What is worth a line in a log. -/
inductive Event
  | fileKeyWrapped (recipients stanzas : Nat)
  | identityMatched (index : Nat)
  | identityPassedOver (index : Nat) (e : DecryptError)

namespace Event

def level : Event → String
  | fileKeyWrapped .. => "DEBUG"
  | identityMatched _ => "DEBUG"
  | identityPassedOver .. => "TRACE"

def message : Event → String
  | fileKeyWrapped recipients stanzas =>
    "Wrapped file key for " ++ toString recipients ++ " recipients into " ++ toString stanzas ++ " stanzas"
  | identityMatched index => "Identity " ++ toString index ++ " unwrapped the file key"
  | identityPassedOver index e => "Identity " ++ toString index ++ " did not match: " ++ e.message

end Event

end AgeCrypt
