import AgeCrypt.Digits

/-!
# Base64

The standard alphabet without padding, in its canonical form: the bits that fill up the last digit are zero.
The form of armored lines also admits padding at the end of an incomplete group of four.
-/

namespace AgeCrypt.Base64

def alphabet : List Char := "ABCDEFGHIJKLMNOPQRSTUVWXYZabcdefghijklmnopqrstuvwxyz0123456789+/".toList

def symbol (d : Nat) : Char := alphabet.getD d '='

def digit? (c : Char) : Option Nat := alphabet.idxOf? c

/-- The unpadded Base64 of a byte string. -/
def encode (bs : Bytes) : List Char := (digits 6 bs).map symbol

def decode (cs : List Char) : Option Bytes := (cs.mapM digit?).bind (ofDigits? 6)

def encodeText (bs : Bytes) : String := String.ofList (encode bs)

/-- Padding is any number of signs that stays inside the last group of four, after two or three
    characters of that group. -/
def paddable (characters padding : Nat) : Bool :=
  padding = 0 || (2 ≤ characters % 4 && characters % 4 + padding ≤ 4)

/-- As `decode`, but padding may follow, whether it is complete or not. -/
def decodePadded (cs : List Char) : Option Bytes :=
  let body := cs.takeWhile (· != '=')
  let padding := cs.dropWhile (· != '=')
  if padding.all (· == '=') && paddable body.length padding.length then decode body else none

/-- The block of `n` bytes of which this text is the unpadded Base64. -/
def blockOf? (n : Nat) (s : String) : Option (Block n) :=
  if s.utf8ByteSize = (4 * n + 2) / 3 then (decode s.toList).bind (Block.ofBytes? n) else none

theorem length_of_decode {cs : List Char} {bs : Bytes} (h : decode cs = some bs) : bs.length ≤ cs.length := by
  simp only [decode, Option.bind_eq_some_iff] at h
  obtain ⟨ds, digits, spelled⟩ := h
  have same : ds.length = cs.length := by
    clear spelled
    induction cs generalizing ds with
    | nil => simp_all
    | cons c cs ih =>
      simp only [List.mapM_cons, Option.bind_eq_bind, Option.bind_eq_some_iff, Option.pure_def,
        Option.some.injEq] at digits
      obtain ⟨d, _, rest, tail, rfl⟩ := digits
      simp [ih rest tail]
  have := length_of_ofDigits? spelled
  omega

theorem length_of_decodePadded {cs : List Char} {bs : Bytes} (h : decodePadded cs = some bs) :
    bs.length ≤ cs.length := by
  simp only [decodePadded] at h
  split at h
  · have := length_of_decode h
    have := (List.takeWhile_sublist (p := (· != '=')) (l := cs)).length_le
    omega
  · simp at h

end AgeCrypt.Base64
