import AgeCrypt.Digits

/-!
# Bech32

The encoding of BIP 173 for keys: a human-readable part, the separator `1`, the bytes as digits of five bits,
and a checksum of six digits. A string is all lower or all upper case and has at most 90 characters.
-/

namespace AgeCrypt.Bech32

def maxLength : Nat := 90

inductive CodingError
  | missingSeparator
  | invalidChecksum
  | invalidLength
  | invalidChar (c : Char)
  | invalidPadding
  | mixedCase
deriving DecidableEq

/-- Why bytes have no encoding, or a string is none. -/
inductive Error
  | tooLong (length : Nat)
  | invalidVariant
  | coding (e : CodingError)
deriving DecidableEq

def alphabet : List Char := "qpzry9x8gf2tvdw0s3jn54khce6mua7l".toList

def symbol (d : Nat) : Char := alphabet.getD d '='

def digit? (c : Char) : Option Nat := alphabet.idxOf? c.toLower

inductive LetterCase
  | lower
  | upper
deriving DecidableEq

/-- The case of a character, if it is an ASCII letter. -/
def caseOf? (c : Char) : Option LetterCase :=
  if c.isLower then some .lower else if c.isUpper then some .upper else none

/-- The case of the letters so far and of one more character, unless they differ. -/
def joinCase (sofar : Option LetterCase) (c : Char) : Except CodingError (Option LetterCase) :=
  match caseOf? c, sofar with
  | none, _ => .ok sofar
  | some new, none => .ok (some new)
  | some new, some old => if new = old then .ok sofar else .error .mixedCase

/-- Checks the bytes of a human-readable part, each as one character. -/
def checkLetters : Option LetterCase → List Char → Except CodingError (Option LetterCase)
  | sofar, [] => .ok sofar
  | sofar, c :: cs =>
    if c.toNat < 33 ∨ 126 < c.toNat then .error (.invalidChar c)
    else
      match joinCase sofar c with
      | .ok sofar => checkLetters sofar cs
      | .error e => .error e

/-- The case of a valid human-readable part, if it has letters. -/
def checkPart (hrp : List Char) : Except CodingError (Option LetterCase) :=
  let bytes := utf8 (String.ofList hrp)
  if bytes.length = 0 ∨ 83 < bytes.length then .error .invalidLength
  else checkLetters none (byteChars bytes)

/-- The generators of the code, each with the bit that selects it. -/
def generators : List (Nat × Nat) :=
  [(25, 0x3b6a57b2), (26, 0x26508e6d), (27, 0x1ea119fa), (28, 0x3d4233dd), (29, 0x2a1462b3)]

def remainderStep (r d : Nat) : Nat :=
  generators.foldl (fun acc (bit, g) => if r.testBit bit then acc ^^^ g else acc)
    (r % (1 <<< 25) * 32 ^^^ d)

/-- The remainder of digits modulo the generator of the code. -/
def remainder (ds : List Nat) : Nat := ds.foldl remainderStep 1

/-- The digits that a human-readable part gives to the checksum. -/
def expand (hrp : List Char) : List Nat :=
  hrp.map (fun c => c.toNat / 32) ++ 0 :: hrp.map (fun c => c.toNat % 32)

def target : Nat := 1

/-- The remainder of a string with a checksum of the other variant, Bech32m. -/
def otherTarget : Nat := 0x2bc830a3

/-- The six digits that give the target as remainder. -/
def checksum (hrp : List Char) (ds : List Nat) : List Nat :=
  let r := remainder (expand hrp ++ ds ++ List.replicate 6 0) ^^^ target
  [(r >>> 25) % 32, (r >>> 20) % 32, (r >>> 15) % 32, (r >>> 10) % 32, (r >>> 5) % 32, r % 32]

/-- The characters of an encoding whose human-readable part is valid and in lower case. -/
def assemble (hrp : List Char) (data : Bytes) : List Char :=
  let ds := digits 5 data
  hrp ++ '1' :: (ds ++ checksum hrp ds).map symbol

/-- Encodes bytes under a human-readable part, which is written in lower case. -/
def encode (hrp : String) (data : Bytes) : Except Error String :=
  match checkPart hrp.toList with
  | .error e => .error (.coding e)
  | .ok _ =>
    let cs := assemble (hrp.toList.map Char.toLower) data
    if maxLength < cs.length then .error (.tooLong cs.length) else .ok (String.ofList cs)

def splitAtSeparator (cs : List Char) : Option (List Char × List Char) :=
  match cs.reverse.span (· != '1') with
  | (_, []) => none
  | (behind, _ :: before) => some (before.reverse, behind.reverse)

def readDigits : Option LetterCase → List Char → Except CodingError (List Nat)
  | _, [] => .ok []
  | sofar, c :: cs =>
    if 128 ≤ c.toNat then .error (.invalidChar c)
    else
      match joinCase sofar c with
      | .error e => .error e
      | .ok sofar =>
        match digit? c with
        | none => .error (.invalidChar c)
        | some d => (readDigits sofar cs).map (d :: ·)

/-- The human-readable part in lower case and the digits of a string, which may have any checksum. -/
def readParts (cs : List Char) : Except CodingError (List Char × List Nat) :=
  match splitAtSeparator cs with
  | none => .error .missingSeparator
  | some (hrp, rest) =>
    match checkPart hrp with
    | .error e => .error e
    | .ok letterCase => (readDigits letterCase rest).map fun ds => (hrp.map Char.toLower, ds)

/-- Decodes a string into its human-readable part in lower case and its bytes. -/
def decode (s : String) : Except Error (String × Bytes) :=
  if maxLength < s.utf8ByteSize then .error (.tooLong s.utf8ByteSize)
  else
    match readParts s.toList with
    | .error e => .error (.coding e)
    | .ok (hrp, ds) =>
      if ds.length < 6 then .error (.coding .invalidLength)
      else
        let r := remainder (expand hrp ++ ds)
        if r = otherTarget then .error .invalidVariant
        else if r ≠ target then .error (.coding .invalidChecksum)
        else
          match ofDigits? 5 (ds.take (ds.length - 6)) with
          | none => .error (.coding .invalidPadding)
          | some data => .ok (String.ofList hrp, data)

end AgeCrypt.Bech32
