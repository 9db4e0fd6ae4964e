import AgeCrypt.Base64

/-!
# Stanzas and their lines

A stanza holds the file key as it is wrapped for one recipient: a tag, arguments and a body. It is written as a
line of the tag and the arguments, then the body in Base64 lines of 64 columns, of which the last is always
shorter. The footer of a header has the same kind of line. Both kinds are read into tokens without regard to
what the tokens hold.
-/

namespace AgeCrypt

structure Stanza where
  tag : String
  args : List String
  body : Bytes
deriving DecidableEq

/-- A non-empty text of visible ASCII characters, as tags, arguments and labels have to be. -/
def isArbitraryString (s : String) : Bool :=
  s.toList ≠ [] && s.toList.all fun c => 33 ≤ c.toNat && c.toNat ≤ 126

namespace Line

def stanzaMark : String := "->"

def footerMark : String := "---"

def bodyColumns : Nat := 64

def bodyBytes : Nat := 48

/-- The characters between the spaces, at least one run of them. -/
def betweenSpaces (cs : List Char) : List (List Char) :=
  cs.foldr (fun c runs => if c = ' ' then [] :: runs else (c :: runs.headD []) :: runs.tail) [[]]

/-- The tokens of a text in which a space comes before each token. -/
def tokens : List Char → Option (List (List Char))
  | [] => some []
  | c :: cs => if c = ' ' then some (betweenSpaces cs) else none

def hasMark (mark line : String) : Bool := mark.toList.isPrefixOf line.toList

def tokensAfter (mark line : String) : Option (List String) :=
  if hasMark mark line then
    (tokens (line.toList.drop mark.toList.length)).map fun ts => ts.map String.ofList
  else none

def stanza (line : String) : Option (List String) := tokensAfter stanzaMark line

def footer (line : String) : Option (List String) := tokensAfter footerMark line

/-- The bytes of a line of a body: canonical unpadded Base64 of at most 64 columns. -/
def body (line : String) : Option Bytes :=
  if line.toList.length ≤ bodyColumns then Base64.decode line.toList else none

/-- The lines of a body. All but the last are full. -/
def ofBody (bs : Bytes) : List String :=
  let part := bs.take bodyBytes
  if part.length < bodyBytes then [Base64.encodeText part]
  else Base64.encodeText part :: ofBody (bs.drop bodyBytes)
termination_by bs.length
decreasing_by
  rename_i full
  simp only [part, List.length_take, bodyBytes] at full
  simp only [List.length_drop, bodyBytes]
  omega

end Line

namespace Stanza

/-- The texts of which a stanza consists when it is written, one after the other. -/
def parts (s : Stanza) : List String :=
  [Line.stanzaMark, " ", s.tag] ++ s.args.flatMap (fun arg => [" ", arg]) ++ ["\n"] ++
    (Line.ofBody s.body).flatMap fun line => [line, "\n"]

def toBytes (s : Stanza) : Bytes := s.parts.flatMap utf8

/-- Whether the tag and the arguments are such as a header may hold. -/
def isWritable (s : Stanza) : Bool := isArbitraryString s.tag && s.args.all isArbitraryString

end Stanza

end AgeCrypt
