import AgeCrypt.Bytes

/-!
# ChaCha20

The stream cipher of RFC 7539: a key of 32 bytes, a nonce of 12 bytes and a block counter of 32 bits give a
key stream, which is combined with the message by exclusive or.
-/

namespace AgeCrypt

/-- The sixteen words on which ChaCha20 and Salsa20 work. -/
structure Words16 where
  x0 : UInt32
  x1 : UInt32
  x2 : UInt32
  x3 : UInt32
  x4 : UInt32
  x5 : UInt32
  x6 : UInt32
  x7 : UInt32
  x8 : UInt32
  x9 : UInt32
  x10 : UInt32
  x11 : UInt32
  x12 : UInt32
  x13 : UInt32
  x14 : UInt32
  x15 : UInt32

namespace Words16

@[inline] def zipWith (f : UInt32 → UInt32 → UInt32) (s t : Words16) : Words16 :=
  ⟨f s.x0 t.x0, f s.x1 t.x1, f s.x2 t.x2, f s.x3 t.x3, f s.x4 t.x4, f s.x5 t.x5, f s.x6 t.x6, f s.x7 t.x7,
   f s.x8 t.x8, f s.x9 t.x9, f s.x10 t.x10, f s.x11 t.x11, f s.x12 t.x12, f s.x13 t.x13, f s.x14 t.x14,
   f s.x15 t.x15⟩

def zero : Words16 := ⟨0, 0, 0, 0, 0, 0, 0, 0, 0, 0, 0, 0, 0, 0, 0, 0⟩

def wordBytes (w : UInt32) : Bytes := [w.toUInt8, (w >>> 8).toUInt8, (w >>> 16).toUInt8, (w >>> 24).toUInt8]

/-- The words of a byte string, lowest byte first. -/
def wordsOf : Bytes → List UInt32
  | a :: b :: c :: d :: rest =>
    (a.toUInt32 ||| (b.toUInt32 <<< 8) ||| (c.toUInt32 <<< 16) ||| (d.toUInt32 <<< 24)) :: wordsOf rest
  | _ => []

/-- The state with these words, zeros after them. -/
def ofWords (ws : List UInt32) : Words16 :=
  match ws ++ List.replicate (16 - ws.length) 0 with
  | x0 :: x1 :: x2 :: x3 :: x4 :: x5 :: x6 :: x7 :: x8 :: x9 :: x10 :: x11 :: x12 :: x13 :: x14 :: x15 :: _ =>
    ⟨x0, x1, x2, x3, x4, x5, x6, x7, x8, x9, x10, x11, x12, x13, x14, x15⟩
  | _ => zero

def toBytes (s : Words16) : Bytes :=
  wordBytes s.x0 ++ (wordBytes s.x1 ++ (wordBytes s.x2 ++ (wordBytes s.x3 ++ (wordBytes s.x4 ++
    (wordBytes s.x5 ++ (wordBytes s.x6 ++ (wordBytes s.x7 ++ (wordBytes s.x8 ++ (wordBytes s.x9 ++
    (wordBytes s.x10 ++ (wordBytes s.x11 ++ (wordBytes s.x12 ++ (wordBytes s.x13 ++ (wordBytes s.x14 ++
    wordBytes s.x15))))))))))))))

@[simp] theorem length_toBytes (s : Words16) : s.toBytes.length = 64 := rfl

@[inline] def rotateLeft (x : UInt32) (n : UInt32) : UInt32 := (x <<< n) ||| (x >>> (32 - n))

end Words16

namespace ChaCha20
open Words16

structure Quarter where
  a : UInt32
  b : UInt32
  c : UInt32
  d : UInt32

/-- Adds, combines and turns four words. -/
@[inline] def quarterRound (a b c d : UInt32) : Quarter :=
  let a := a + b
  let d := rotateLeft (d ^^^ a) 16
  let c := c + d
  let b := rotateLeft (b ^^^ c) 12
  let a := a + b
  let d := rotateLeft (d ^^^ a) 8
  let c := c + d
  let b := rotateLeft (b ^^^ c) 7
  ⟨a, b, c, d⟩

/-- Quarter rounds on the four columns, then on the four diagonals. -/
def doubleRound (s : Words16) : Words16 :=
  let p := quarterRound s.x0 s.x4 s.x8 s.x12
  let q := quarterRound s.x1 s.x5 s.x9 s.x13
  let r := quarterRound s.x2 s.x6 s.x10 s.x14
  let t := quarterRound s.x3 s.x7 s.x11 s.x15
  let p' := quarterRound p.a q.b r.c t.d
  let q' := quarterRound q.a r.b t.c p.d
  let r' := quarterRound r.a t.b p.c q.d
  let t' := quarterRound t.a p.b q.c r.d
  ⟨p'.a, q'.a, r'.a, t'.a, t'.b, p'.b, q'.b, r'.b, r'.c, t'.c, p'.c, q'.c, q'.d, r'.d, t'.d, p'.d⟩

def doubleRounds : (n : Nat) → Words16 → Words16
  | 0, s => s
  | n + 1, s => doubleRounds n (doubleRound s)

/-- The state for a key, a nonce and a block counter. -/
def initial (key : Block 32) (nonce : Block 12) (counter : UInt32) : Words16 :=
  ofWords ([0x61707865, 0x3320646e, 0x79622d32, 0x6b206574] ++ wordsOf key.bytes ++ [counter] ++
    wordsOf nonce.bytes)

def block (key : Block 32) (nonce : Block 12) (counter : UInt32) : Bytes :=
  let s := initial key nonce counter
  ((doubleRounds 10 s).zipWith (· + ·) s).toBytes

/-- The key stream from block `first` on, at least `n` bytes of it. -/
def keyStream (key : Block 32) (nonce : Block 12) (first n : Nat) : Bytes :=
  (List.range ((n + 63) / 64)).flatMap fun i => block key nonce (UInt32.ofNat (first + i))

@[simp] theorem length_block (key : Block 32) (nonce : Block 12) (counter : UInt32) :
    (block key nonce counter).length = 64 := by
  simp [block]

theorem length_keyStream (key : Block 32) (nonce : Block 12) (first n : Nat) :
    n ≤ (keyStream key nonce first n).length := by
  simp only [keyStream, List.length_flatMap, length_block, List.map_const', List.length_range,
    List.sum_replicate_nat]
  omega

/-- The message combined with the key stream from block `first` on: encrypts and decrypts. -/
def apply (key : Block 32) (nonce : Block 12) (first : Nat) (message : Bytes) : Bytes :=
  xorBytes message (keyStream key nonce first message.length)

@[simp] theorem length_apply (key : Block 32) (nonce : Block 12) (first : Nat) (message : Bytes) :
    (apply key nonce first message).length = message.length := by
  have := length_keyStream key nonce first message.length
  simp only [apply, length_xorBytes]
  omega

/-- Applying the key stream twice changes nothing. -/
theorem apply_apply (key : Block 32) (nonce : Block 12) (first : Nat) (message : Bytes) :
    apply key nonce first (apply key nonce first message) = message := by
  show xorBytes (apply key nonce first message) (keyStream key nonce first (apply key nonce first message).length) =
    message
  rw [length_apply]
  exact xorBytes_xorBytes (length_keyStream key nonce first message.length)

end ChaCha20

end AgeCrypt
