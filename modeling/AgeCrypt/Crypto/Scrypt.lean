import AgeCrypt.Crypto.Hmac
import AgeCrypt.Crypto.ChaCha20

/-!
# scrypt

The memory-hard key derivation of RFC 7914 with block size 8 and no parallelism. The cost is `2 ^ workFactor`.
-/

namespace AgeCrypt.Scrypt
open Words16

/-- Combines each of four words with a turned sum of two others. -/
@[inline] def quarterRound (a b c d : UInt32) : ChaCha20.Quarter :=
  let b := b ^^^ rotateLeft (a + d) 7
  let c := c ^^^ rotateLeft (b + a) 9
  let d := d ^^^ rotateLeft (c + b) 13
  let a := a ^^^ rotateLeft (d + c) 18
  ⟨a, b, c, d⟩

/-- Quarter rounds on the four columns, then on the four rows. -/
def doubleRound (s : Words16) : Words16 :=
  let p := quarterRound s.x0 s.x4 s.x8 s.x12
  let q := quarterRound s.x5 s.x9 s.x13 s.x1
  let r := quarterRound s.x10 s.x14 s.x2 s.x6
  let t := quarterRound s.x15 s.x3 s.x7 s.x11
  let p' := quarterRound p.a q.d r.c t.b
  let q' := quarterRound q.a r.d t.c p.b
  let r' := quarterRound r.a t.d p.c q.b
  let t' := quarterRound t.a p.d q.c r.b
  ⟨p'.a, p'.b, p'.c, p'.d, q'.d, q'.a, q'.b, q'.c, r'.c, r'.d, r'.a, r'.b, t'.b, t'.c, t'.d, t'.a⟩

def salsa (s : Words16) : Words16 :=
  (doubleRound (doubleRound (doubleRound (doubleRound s)))).zipWith (· + ·) s

/-- Chains the core through the parts of a block, listing the results. -/
def chain (x : Words16) : List Words16 → List Words16
  | [] => []
  | b :: bs =>
    let y := salsa (x.zipWith (· ^^^ ·) b)
    y :: chain y bs

/-- The members at even places, then those at odd places. -/
def evensThenOdds (ys : List Words16) : List Words16 :=
  let rec evens : List Words16 → List Words16
    | y :: _ :: rest => y :: evens rest
    | ys => ys
  evens ys ++ evens (ys.drop 1)

def mixBlock (block : List Words16) : List Words16 :=
  evensThenOdds (chain (block.getLastD zero) block)

/-- A block and the `n` blocks that mixing makes of it, one after the other. -/
def fillTable : (n : Nat) → Array (List Words16) → List Words16 → Array (List Words16) × List Words16
  | 0, table, block => (table, block)
  | n + 1, table, block => fillTable n (table.push block) (mixBlock block)

/-- Mixes `n` times, each time with the entry of the table that the block itself selects. -/
def mixTable (table : Array (List Words16)) : (n : Nat) → List Words16 → List Words16
  | 0, block => block
  | n + 1, block =>
    let selected := table.getD ((block.getLastD zero).x0.toNat % table.size) []
    mixTable table n (mixBlock (List.zipWith (Words16.zipWith (· ^^^ ·)) block selected))

/-- The mixing of 1024 bytes at a cost of `2 ^ workFactor`. -/
def mix (workFactor : Nat) (bs : Bytes) : Bytes :=
  let block := (pieces 64 bs).map fun part => ofWords (wordsOf part)
  let (table, last) := fillTable (1 <<< workFactor) #[] block
  (mixTable table (1 <<< workFactor) last).flatMap toBytes

/-- The key of 32 bytes that scrypt derives from a password and a salt. -/
def derive (password salt : Bytes) (workFactor : Nat) : Block 32 :=
  hmac password (mix workFactor (pbkdf2 password salt 32) ++ [0, 0, 0, 1])

/-- What scrypt is run with. -/
structure Run where
  password : Bytes
  salt : Bytes
  exponent : Nat
deriving DecidableEq

/-- The exponents that scrypt takes with block size 8 and no parallelism on a machine of 64 bits: the cost is more than
    one and is a number of the machine, as is the size of the table, and it keeps to the bound of RFC 7914. -/
def Accepts (exponent : Nat) : Prop :=
  1 ≤ exponent ∧ exponent < 64 ∧ (1 <<< exponent) * (128 * 8) < 1 <<< 64 ∧ exponent < 128 * 8 / 8

instance : DecidablePred Accepts := fun _ => inferInstanceAs (Decidable (_ ∧ _))

/-- The key that is derived, unless the parameters are rejected. -/
def derive? (run : Run) : Option (Block 32) :=
  if Accepts run.exponent then some (derive run.password run.salt run.exponent) else none

end AgeCrypt.Scrypt
