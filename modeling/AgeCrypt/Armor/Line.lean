import AgeCrypt.Base64
import AgeCrypt.Error

/-!
# Lines of an armored file

An armored file is a line that marks its beginning, the file in Base64 lines of 64 columns, of which only the
last may be shorter, and a line that marks its end. Here are the marks and what a single line means.
-/

namespace AgeCrypt

inductive Format
  | binary
  | armored
deriving DecidableEq

namespace Armor

def beginMarker : Bytes := utf8 "-----BEGIN AGE ENCRYPTED FILE-----"

def endMarker : Bytes := utf8 "-----END AGE ENCRYPTED FILE-----"

def newline : Bytes := [10]

def columns : Nat := 64

def lineBytes : Nat := 48

theorem lineBytes_pos : 0 < lineBytes := by decide

/-- The most whitespace before the beginning, and behind the end. -/
def maxWhitespace : Nat := 1024

def encodeLine (bs : Bytes) : Bytes := charBytes (Base64.encode bs)

/-- A space, a tab, or the end of a line or page. -/
def isBlank (b : UInt8) : Bool := b = 32 || b = 9 || b = 10 || b = 12 || b = 13

def isWhitespace (bs : Bytes) : Bool := bs.all isBlank

/-- A byte string without its last byte, if that is `b`. -/
def dropLastIf (b : UInt8) (bs : Bytes) : Bytes := if bs.getLast? = some b then bs.dropLast else bs

/-- A line without a newline at its end, and without a carriage return before that. -/
def stripEnding (line : Bytes) : Bytes := dropLastIf 13 (dropLastIf 10 line)

/-- Whether a file with this first line is armored. -/
def opensArmor (line : Bytes) : Bool := beginMarker.isPrefixOf line || (line ≠ [] && isWhitespace line)

/-- What a line behind the beginning holds. -/
inductive Content
  | data (bs : Bytes)
  | ending

/-- Reads a line behind the beginning. Behind a short line only the end may come. -/
def readLine (afterShort : Bool) (raw : Bytes) : Except ArmorError Content :=
  let line := stripEnding raw
  if raw = [] then .error .missingEnd
  else if line = endMarker then .ok .ending
  else if afterShort ∨ line.head? = some 45 then .error .endMarker
  else if columns < line.length then .error .longLine
  else
    match Base64.decodePadded (byteChars line) with
    | none => .error .malformedBase64
    | some bs => .ok (.data bs)

theorem length_dropLastIf (b : UInt8) (bs : Bytes) : (dropLastIf b bs).length ≤ bs.length := by
  unfold dropLastIf
  split
  · simp
  · exact Nat.le_refl _

theorem length_of_readLine {afterShort : Bool} {raw bs : Bytes} (reads : readLine afterShort raw = .ok (.data bs)) :
    bs.length ≤ raw.length := by
  simp only [readLine] at reads
  split at reads
  · simp at reads
  split at reads
  · simp at reads
  split at reads
  · simp at reads
  split at reads
  · simp at reads
  split at reads
  · simp at reads
  · rename_i decoded
    simp only [Except.ok.injEq, Content.data.injEq] at reads
    subst reads
    have := Base64.length_of_decodePadded decoded
    have := length_dropLastIf 13 (dropLastIf 10 raw)
    have := length_dropLastIf 10 raw
    simp only [length_byteChars, stripEnding] at *
    omega

end Armor

end AgeCrypt
