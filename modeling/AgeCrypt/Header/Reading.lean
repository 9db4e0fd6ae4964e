import AgeCrypt.Header
import AgeCrypt.Channel.Buffered

/-!
# Reading headers

A header is read line by line, and each line moves the reading from what was expected to what is expected next.
The first line that does not fit decides the error. Reading stops behind the footer, so that the nonce and the
payload are still to come.
-/

namespace AgeCrypt

/-- What is expected next while a header is read. Stanzas are listed last first. -/
inductive HeaderReading
  /-- The version line. -/
  | version
  /-- A stanza or the footer. -/
  | element (stanzas : List Stanza)
  /-- A line of the body of a stanza, of which some bytes were read. -/
  | body (stanzas : List Stanza) (tag : String) (args : List String) (bytes : Array UInt8)

namespace HeaderReading

/-- What a line that fits leads to. -/
inductive Step
  | more (r : HeaderReading)
  | complete (h : Header)

/-- The error when a line is missing or is no text. -/
def missingLine : HeaderReading → HeaderError
  | version => .versionLine
  | element _ => .malformedStanza
  | body .. => .malformedStanza

/-- The tag and the arguments of the first line of a stanza. -/
def stanzaLine (line : String) : Except HeaderError (String × List String) :=
  match Line.stanza line with
  | none | some [] => .error .malformedStanza
  | some (tag :: args) =>
    if tag = "" then .error .malformedStanza
    else if (tag :: args).all isArbitraryString then .ok (tag, args)
    else .error .forbiddenCharacter

def footerLine (line : String) : Except HeaderError (Block 32) :=
  match Line.footer line with
  | some [mac] =>
    if mac = "" then .error .malformedFooter
    else
      match (Base64.decode mac.toList).bind (Block.ofBytes? 32) with
      | some mac => .ok mac
      | none => .error .malformedMac
  | _ => .error .malformedFooter

/-- Reads one line, given without its newline. -/
def next (r : HeaderReading) (line : String) : Except HeaderError Step :=
  match r with
  | version => if line = Header.versionLine then .ok (.more (element [])) else .error .versionLine
  | element stanzas =>
    if Line.hasMark Line.footerMark line then
      (footerLine line).map fun mac => .complete ⟨stanzas.reverse, mac⟩
    else if Line.hasMark Line.stanzaMark line then
      (stanzaLine line).map fun (tag, args) => .more (body stanzas tag args #[])
    else .error .malformedStanza
  | body stanzas tag args bytes =>
    match Line.body line with
    | none => .error .malformedStanza
    | some part =>
      if line.toList.length < Line.bodyColumns then
        .ok (.more (element (⟨tag, args, (bytes ++ part).toList⟩ :: stanzas)))
      else .ok (.more (body stanzas tag args (bytes ++ part)))

/-- The text of a line that ends with a newline. -/
def lineText? (line : Bytes) : Option String :=
  if line.getLast? = some Buffered.newline then ofUtf8? line.dropLast else none

theorem length_of_lineText? {line : Bytes} {text : String} (isText : lineText? line = some text) :
    line.length ≠ 0 := by
  intro none
  rw [List.length_eq_zero_iff] at none
  simp [lineText?, none] at isText

def readFrom {ρ : Type} [Reader ρ] (reading : HeaderReading) (r : Buffered ρ) :
    Except DecryptError Header × Buffered ρ :=
  match _read : r.readLine none with
  | (.error e, r') => (.error (.channel e), r')
  | (.ok line, r') =>
    match _text : lineText? line with
    | none => (.error (.header reading.missingLine), r')
    | some text =>
      match reading.next text with
      | .error e => (.error (.header e), r')
      | .ok (.complete h) => (.ok h, r')
      | .ok (.more reading') => readFrom reading' r'
termination_by r.bound
decreasing_by
  have := Buffered.bound_readLine _read
  have := length_of_lineText? _text
  omega

end HeaderReading

def Header.read {ρ : Type} [Reader ρ] (r : Buffered ρ) : Except DecryptError Header × Buffered ρ :=
  HeaderReading.readFrom .version r

end AgeCrypt
