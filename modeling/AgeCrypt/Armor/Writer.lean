import AgeCrypt.Armor.Line
import AgeCrypt.Channel.Writer

/-!
# Writing armor

The bytes that are written are gathered into lines, or passed on unchanged in the binary format.
-/

namespace AgeCrypt

structure ArmorWriter (ω : Type) where
  format : Format
  inner : ω
  line : Bytes

namespace ArmorWriter
variable {ω : Type} [Writer ω]

def passLine (inner : ω) (line : Bytes) : Except ChannelError Unit × ω :=
  Writer.writeEach inner [Armor.encodeLine line, Armor.newline]

def start (inner : ω) (format : Format) : Except ChannelError Unit × ArmorWriter ω :=
  match format with
  | .binary => (.ok (), ⟨.binary, inner, []⟩)
  | .armored =>
    match Writer.writeEach inner [Armor.beginMarker, Armor.newline] with
    | (result, inner) => (result, ⟨.armored, inner, []⟩)

/-- One call: takes all bytes unless a full line cannot be passed on. -/
def write (w : ArmorWriter ω) (bs : Bytes) : Except ChannelError Nat × ArmorWriter ω :=
  match w.format with
  | .binary =>
    match Writer.write w.inner bs with
    | (result, inner) => (result, { w with inner })
  | .armored =>
    let gathered := gather Armor.lineBytes Armor.lineBytes_pos passLine w.inner w.line bs
    (gathered.result.map fun _ => bs.length, { w with inner := gathered.state, line := gathered.held })

instance : Writer (ArmorWriter ω) where
  write := write
  flush w :=
    match Writer.flush w.inner with
    | (result, inner) => (result, { w with inner })

/-- Writes the last line, which is empty only if nothing else was written, and the end. -/
def finish (w : ArmorWriter ω) : Except ChannelError Unit × ArmorWriter ω :=
  match w.format with
  | .binary => (.ok (), w)
  | .armored =>
    match Writer.writeEach w.inner [Armor.encodeLine w.line, Armor.newline, Armor.endMarker, Armor.newline] with
    | (result, inner) => (result, { w with inner })

end ArmorWriter

end AgeCrypt
