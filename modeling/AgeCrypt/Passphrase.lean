import AgeCrypt.Crypto.Scrypt
import AgeCrypt.Recipient

/-!
# Passphrases

A file key is wrapped under a key that scrypt derives from a passphrase and a random salt. The stanza tells the
work factor, the exponent of the cost; an identity refuses stanzas that would cost more than it accepts.
-/

namespace AgeCrypt

/-- An exponent of the cost of scrypt that may be configured. -/
structure WorkFactor where
  exponent : Nat
  pos : 1 ≤ exponent
  le : exponent ≤ 30

namespace WorkFactor

/-- A configured exponent, or the demand that it violates. -/
def check (violation : Violation) (n : Nat) : Except Violation WorkFactor :=
  if h : 1 ≤ n ∧ n ≤ 30 then .ok ⟨n, h.1, h.2⟩ else .error violation

/-- The exponent of recipients for which none is configured. -/
def standard : WorkFactor := ⟨18, by decide, by decide⟩

/-- The highest exponent that identities accept for which none is configured. -/
def standardMax : WorkFactor := ⟨22, by decide, by decide⟩

/-- The exponent that an argument denotes: a decimal numeral of at most 255 without a leading zero. -/
def parse (s : String) : Option Nat :=
  match s.toList with
  | [] => none
  | c :: cs =>
    if c ≠ '0' ∧ (c :: cs).all Char.isDigit then
      let n := (c :: cs).foldl (fun n c => 10 * n + (c.toNat - '0'.toNat)) 0
      if n ≤ 255 then some n else none
    else none

end WorkFactor

namespace Passphrase

def tag : String := Header.passphraseTag

/-- The run of scrypt for a stanza: its salt stands behind a label. -/
def runOf (passphrase : String) (salt : Block 16) (exponent : Nat) : Scrypt.Run :=
  ⟨utf8 passphrase, utf8 "age-encryption.org/v1/scrypt" ++ salt.bytes, exponent⟩

def wrappingKey (passphrase : String) (salt : Block 16) (exponent : Nat) : Block 32 :=
  let run := runOf passphrase salt exponent
  Scrypt.derive run.password run.salt run.exponent

def wrapWith (salt : Block 16) (passphrase : String) (workFactor : WorkFactor) (fileKey : FileKey) : Stanza where
  tag := tag
  args := [Base64.encodeText salt.bytes, toString workFactor.exponent]
  body := wrapUnder (wrappingKey passphrase salt workFactor.exponent) fileKey

/-- What scrypt is to be run with for a stanza of a passphrase, or why it is not run: the salt and the exponent.
    None of this depends on the passphrase. -/
def parameters (max : WorkFactor) (stanza : Stanza) : Except DecryptError (Block 16 × Nat) :=
  match stanza.args with
  | [salt, numeral] =>
    match Base64.blockOf? 16 salt with
    | none => .error (.stanzaArguments tag)
    | some salt =>
      match WorkFactor.parse numeral with
      | none => .error .workFactor
      | some exponent =>
        if max.exponent < exponent then .error (.excessiveWork exponent max.exponent)
        else if stanza.body.length ≠ wrappedLength then .error .wrappedKeyLength
        else .ok (salt, exponent)
  | _ => .error (.stanzaArguments tag)

/-- Unwraps a stanza, with any function in the place of scrypt, which may reject its parameters. A body that does not
    open is for another passphrase. -/
def unwrapBy {m : Type → Type} [Monad m] (derive? : Scrypt.Run → m (Option (Block 32))) (passphrase : String)
    (max : WorkFactor) (stanza : Stanza) : m (Option (Except DecryptError FileKey)) :=
  if stanza.tag ≠ tag then pure none
  else
    match parameters max stanza with
    | .error e => pure (some (.error e))
    | .ok (salt, exponent) => do
      match ← derive? (runOf passphrase salt exponent) with
      | none => pure (some (.error .workFactor))
      | some key => pure ((unwrapUnder key stanza.body).map .ok)

def unwrap (passphrase : String) (max : WorkFactor) (stanza : Stanza) : Option (Except DecryptError FileKey) :=
  unwrapBy (m := Id) Scrypt.derive? passphrase max stanza

def recipient (passphrase : String) (workFactor : WorkFactor) : Recipient where
  wrap fileKey := do
    let salt ← Randomness.draw 16
    pure ([wrapWith salt passphrase workFactor fileKey], .empty)
  isPassphrase := true

/-- The identity that knows a passphrase and accepts exponents up to a maximum. -/
def identity (passphrase : String) (max : WorkFactor) : Identity where
  unwrap := unwrap passphrase max

end Passphrase

end AgeCrypt
