import SthCore.Crypto.Primitives

/-!
The hashes, the base58 text and the elliptic-curve signatures as their standards
define them, for chains with concrete keys.  Words are natural numbers below
`2 ^ 32`; a block of a message is one number, so that rotations and the message
schedule are shifts of it.
-/

namespace SthCore

namespace Reference

/-- The number with the given big-endian bytes. -/
def ofBytes (bytes : Bytes) : Nat :=
  bytes.foldl (fun n b => Nat.add (Nat.mul n 256) b.toNat) 0

/-- Big-endian bytes of a number, `width` of them. -/
def beBytes : Nat → Nat → Bytes
  | 0, _ => []
  | width + 1, n =>
      UInt8.ofNat (Nat.shiftRight n (Nat.mul 8 width)) :: beBytes width n

def w32 (n : Nat) : Nat := Nat.mod n 4294967296

/-- A word written twice: its rotations are the low words of shifts. -/
def twice (x : Nat) : Nat := Nat.mul x 4294967297

/-- The word at a bit offset. -/
def wordAt (n offset : Nat) : Nat := w32 (Nat.shiftRight n offset)

namespace Sha256

def constants : List Nat := [
  0x428a2f98, 0x71374491, 0xb5c0fbcf, 0xe9b5dba5, 0x3956c25b, 0x59f111f1, 0x923f82a4, 0xab1c5ed5,
  0xd807aa98, 0x12835b01, 0x243185be, 0x550c7dc3, 0x72be5d74, 0x80deb1fe, 0x9bdc06a7, 0xc19bf174,
  0xe49b69c1, 0xefbe4786, 0x0fc19dc6, 0x240ca1cc, 0x2de92c6f, 0x4a7484aa, 0x5cb0a9dc, 0x76f988da,
  0x983e5152, 0xa831c66d, 0xb00327c8, 0xbf597fc7, 0xc6e00bf3, 0xd5a79147, 0x06ca6351, 0x14292967,
  0x27b70a85, 0x2e1b2138, 0x4d2c6dfc, 0x53380d13, 0x650a7354, 0x766a0abb, 0x81c2c92e, 0x92722c85,
  0xa2bfe8a1, 0xa81a664b, 0xc24b8b70, 0xc76c51a3, 0xd192e819, 0xd6990624, 0xf40e3585, 0x106aa070,
  0x19a4c116, 0x1e376c08, 0x2748774c, 0x34b0bcb5, 0x391c0cb3, 0x4ed8aa4a, 0x5b9cca4f, 0x682e6ff3,
  0x748f82ee, 0x78a5636f, 0x84c87814, 0x8cc70208, 0x90befffa, 0xa4506ceb, 0xbef9a3f7, 0xc67178f2]

structure State where
  a : Nat
  b : Nat
  c : Nat
  d : Nat
  e : Nat
  f : Nat
  g : Nat
  h : Nat

def start : State where
  a := 0x6a09e667
  b := 0xbb67ae85
  c := 0x3c6ef372
  d := 0xa54ff53a
  e := 0x510e527f
  f := 0x9b05688c
  g := 0x1f83d9ab
  h := 0x5be0cd19

/-- Three rotations of a doubled word. -/
def mix (i j k x : Nat) : Nat :=
  w32 (Nat.xor (Nat.xor (Nat.shiftRight x i) (Nat.shiftRight x j)) (Nat.shiftRight x k))

/-- Two rotations and a shift of a word. -/
def spread (i j k x : Nat) : Nat :=
  Nat.xor (w32 (Nat.xor (Nat.shiftRight (twice x) i) (Nat.shiftRight (twice x) j)))
    (Nat.shiftRight x k)

def choose (x y z : Nat) : Nat := Nat.xor z (Nat.land x (Nat.xor y z))

def majority (x y z : Nat) : Nat := Nat.lor (Nat.land x y) (Nat.land z (Nat.lor x y))

/-- The next word of the schedule, from the sixteen in the window. -/
def scheduled (window : Nat) : Nat :=
  w32 (Nat.add (Nat.add (spread 17 19 10 (wordAt window 32)) (wordAt window 192))
    (Nat.add (spread 7 18 3 (wordAt window 448)) (wordAt window 480)))

def slide (window : Nat) : Nat :=
  Nat.add (Nat.shiftLeft (Nat.mod window (Nat.pow 2 480)) 32) (scheduled window)

def rounds : List Nat → Nat → Nat → Nat → Nat → Nat → Nat → Nat → Nat → Nat → State
  | [], _, a, b, c, d, e, f, g, h => ⟨a, b, c, d, e, f, g, h⟩
  | k :: ks, window, a, b, c, d, e, f, g, h =>
      let t := Nat.add (Nat.add h (mix 6 11 25 (twice e)))
        (Nat.add (choose e f g) (Nat.add k (wordAt window 480)))
      rounds ks (slide window)
        (w32 (Nat.add t (Nat.add (mix 2 13 22 (twice a)) (majority a b c)))) a b c
        (w32 (Nat.add d t)) e f g

def compress (s : State) (window : Nat) : State :=
  let r := rounds constants window s.a s.b s.c s.d s.e s.f s.g s.h
  ⟨w32 (Nat.add s.a r.a), w32 (Nat.add s.b r.b), w32 (Nat.add s.c r.c), w32 (Nat.add s.d r.d),
    w32 (Nat.add s.e r.e), w32 (Nat.add s.f r.f), w32 (Nat.add s.g r.g), w32 (Nat.add s.h r.h)⟩

/-- The blocks of a padded message, first block in the highest bits. -/
def blocks (message : Nat) : Nat → State → State
  | 0, s => s
  | n + 1, s =>
      blocks message n
        (compress s (Nat.mod (Nat.shiftRight message (Nat.mul 512 n)) (Nat.pow 2 512)))

end Sha256

def sha256 (message : Bytes) : Bytes :=
  let length := message.length
  let count := Nat.div (Nat.add length 72) 64
  let free := Nat.sub (Nat.mul 512 count) (Nat.mul 8 length)
  let padded := Nat.add (Nat.shiftLeft (ofBytes message) free)
    (Nat.add (Nat.shiftLeft 1 (Nat.sub free 1)) (Nat.mul 8 length))
  let s := Sha256.blocks padded count Sha256.start
  beBytes 4 s.a ++ beBytes 4 s.b ++ beBytes 4 s.c ++ beBytes 4 s.d ++ beBytes 4 s.e ++
    beBytes 4 s.f ++ beBytes 4 s.g ++ beBytes 4 s.h

namespace Ripemd160

/-- One step: offset of its message word and amount of its rotation. -/
abbrev Steps := List (Nat × Nat)

def leftWords : List (List Nat) := [
  [0, 1, 2, 3, 4, 5, 6, 7, 8, 9, 10, 11, 12, 13, 14, 15],
  [7, 4, 13, 1, 10, 6, 15, 3, 12, 0, 9, 5, 2, 14, 11, 8],
  [3, 10, 14, 4, 9, 15, 8, 1, 2, 7, 0, 6, 13, 11, 5, 12],
  [1, 9, 11, 10, 0, 8, 12, 4, 13, 3, 7, 15, 14, 5, 6, 2],
  [4, 0, 5, 9, 7, 12, 2, 10, 14, 1, 3, 8, 11, 6, 15, 13]]

def leftRotations : List (List Nat) := [
  [11, 14, 15, 12, 5, 8, 7, 9, 11, 13, 14, 15, 6, 7, 9, 8],
  [7, 6, 8, 13, 11, 9, 7, 15, 7, 12, 15, 9, 11, 7, 13, 12],
  [11, 13, 6, 7, 14, 9, 13, 15, 14, 8, 13, 6, 5, 12, 7, 5],
  [11, 12, 14, 15, 14, 15, 9, 8, 9, 14, 5, 6, 8, 6, 5, 12],
  [9, 15, 5, 11, 6, 8, 13, 12, 5, 12, 13, 14, 11, 8, 5, 6]]

def rightWords : List (List Nat) := [
  [5, 14, 7, 0, 9, 2, 11, 4, 13, 6, 15, 8, 1, 10, 3, 12],
  [6, 11, 3, 7, 0, 13, 5, 10, 14, 15, 8, 12, 4, 9, 1, 2],
  [15, 5, 1, 3, 7, 14, 6, 9, 11, 8, 12, 2, 10, 0, 4, 13],
  [8, 6, 4, 1, 3, 11, 15, 0, 5, 12, 2, 13, 9, 7, 10, 14],
  [12, 15, 10, 4, 1, 5, 8, 7, 6, 2, 13, 14, 0, 3, 9, 11]]

def rightRotations : List (List Nat) := [
  [8, 9, 9, 11, 13, 15, 15, 5, 7, 7, 8, 11, 14, 14, 12, 6],
  [9, 13, 15, 7, 12, 8, 9, 11, 7, 7, 12, 7, 6, 15, 13, 11],
  [9, 7, 15, 11, 8, 6, 6, 14, 12, 13, 5, 14, 13, 13, 7, 5],
  [15, 5, 8, 11, 14, 14, 6, 14, 6, 9, 12, 9, 12, 5, 15, 8],
  [8, 5, 12, 9, 12, 5, 14, 6, 8, 13, 6, 5, 15, 13, 11, 11]]

def leftConstants : List Nat := [0, 0x5a827999, 0x6ed9eba1, 0x8f1bbcdc, 0xa953fd4e]

def rightConstants : List Nat := [0x50a28be6, 0x5c4dd124, 0x6d703ef3, 0x7a6d76e9, 0]

def complement (x : Nat) : Nat := Nat.sub 4294967295 x

/-- The five Boolean functions. -/
def functions : List (Nat → Nat → Nat → Nat) := [
  fun x y z => Nat.xor (Nat.xor x y) z,
  fun x y z => Nat.lor (Nat.land x y) (Nat.land (complement x) z),
  fun x y z => Nat.xor (Nat.lor x (complement y)) z,
  fun x y z => Nat.lor (Nat.land x z) (Nat.land y (complement z)),
  fun x y z => Nat.xor x (Nat.lor y (complement z))]

def rotate (amount x : Nat) : Nat := w32 (Nat.shiftRight (twice x) (Nat.sub 32 amount))

structure State where
  a : Nat
  b : Nat
  c : Nat
  d : Nat
  e : Nat

def start : State where
  a := 0x67452301
  b := 0xefcdab89
  c := 0x98badcfe
  d := 0x10325476
  e := 0xc3d2e1f0

def step (f : Nat → Nat → Nat → Nat) (k block : Nat) (s : State) (entry : Nat × Nat) : State :=
  let word := wordAt block (Nat.mul 32 entry.1)
  let sum := w32 (Nat.add (Nat.add s.a (f s.b s.c s.d)) (Nat.add word k))
  ⟨s.e, w32 (Nat.add (rotate entry.2 sum) s.e), s.b, rotate 10 s.c, s.d⟩

/-- One of the two lines: a function, a constant and sixteen steps for each round. -/
def line (block : Nat) : List (Nat → Nat → Nat → Nat) → List Nat → List (List Nat) →
    List (List Nat) → State → State
  | f :: fs, k :: ks, ws :: wss, rs :: rss, s =>
      line block fs ks wss rss ((ws.zip rs).foldl (step f k block) s)
  | _, _, _, _, s => s

def compress (s : State) (block : Nat) : State :=
  let l := line block functions leftConstants leftWords leftRotations s
  let r := line block functions.reverse rightConstants rightWords rightRotations s
  ⟨w32 (Nat.add (Nat.add s.b l.c) r.d), w32 (Nat.add (Nat.add s.c l.d) r.e),
    w32 (Nat.add (Nat.add s.d l.e) r.a), w32 (Nat.add (Nat.add s.e l.a) r.b),
    w32 (Nat.add (Nat.add s.a l.b) r.c)⟩

/-- The blocks of a padded message, first block in the lowest bits. -/
def blocks : Nat → Nat → State → State
  | 0, _, s => s
  | n + 1, message, s =>
      blocks n (Nat.shiftRight message 512) (compress s (Nat.mod message (Nat.pow 2 512)))

end Ripemd160

def ripemd160 (message : Bytes) : Bytes :=
  let length := message.length
  let count := Nat.div (Nat.add length 72) 64
  let padded := Nat.add (ofLeBytes message) (Nat.add (Nat.shiftLeft 128 (Nat.mul 8 length))
    (Nat.shiftLeft (Nat.mul 8 length) (Nat.sub (Nat.mul 512 count) 64)))
  let s := Ripemd160.blocks count padded Ripemd160.start
  leBytes 4 s.a ++ leBytes 4 s.b ++ leBytes 4 s.c ++ leBytes 4 s.d ++ leBytes 4 s.e

namespace Base58

def alphabet : List Char := [
  '1', '2', '3', '4', '5', '6', '7', '8', '9', 'A', 'B', 'C', 'D', 'E', 'F', 'G', 'H', 'J', 'K',
  'L', 'M', 'N', 'P', 'Q', 'R', 'S', 'T', 'U', 'V', 'W', 'X', 'Y', 'Z', 'a', 'b', 'c', 'd', 'e',
  'f', 'g', 'h', 'i', 'j', 'k', 'm', 'n', 'o', 'p', 'q', 'r', 's', 't', 'u', 'v', 'w', 'x', 'y',
  'z']

/-- Position of a character in the alphabet. -/
def value (c : Char) : Option Nat :=
  let n := c.toNat
  let range (first last start : Nat) : Bool × Nat :=
    (Nat.ble first n && Nat.ble n last, Nat.add (Nat.sub n first) start)
  let ranges := [range 49 57 0, range 65 72 9, range 74 78 17, range 80 90 22, range 97 107 33,
    range 109 122 44]
  (ranges.find? fun r => r.1).map fun r => r.2

/-- Digits of a number in front of those already found. -/
def digits : Nat → Nat → List Char → List Char
  | 0, _, found => found
  | fuel + 1, n, found =>
      bif Nat.beq n 0 then found
      else digits fuel (Nat.div n 58) (alphabet.getD (Nat.mod n 58) '1' :: found)

/-- Big-endian bytes of a number without leading zeros. -/
def minimalBytes : Nat → Nat → Bytes → Bytes
  | 0, _, found => found
  | fuel + 1, n, found =>
      bif Nat.beq n 0 then found
      else minimalBytes fuel (Nat.div n 256) (UInt8.ofNat n :: found)

def encode (bytes : Bytes) : Text :=
  let zeros := (bytes.takeWhile (· = 0)).map fun _ => '1'
  ⟨zeros ++ digits (Nat.mul 2 bytes.length) (ofBytes bytes) []⟩

def decode (text : Text) : Except String Bytes :=
  match text.toList.mapM value with
  | none => .error "invalid character"
  | some values =>
      let zeros := (values.takeWhile (· = 0)).map fun _ => (0 : UInt8)
      let n := values.foldl (fun n v => Nat.add (Nat.mul n 58) v) 0
      .ok (zeros ++ minimalBytes values.length n [])

def checksum (bytes : Bytes) : Bytes := (sha256 (sha256 bytes)).take 4

def checkEncode (bytes : Bytes) : Text := encode (bytes ++ checksum bytes)

def checkDecode (text : Text) : Except String Bytes := do
  let bytes ← decode text
  let payload := bytes.take (bytes.length - 4)
  if bytes.length < 4 then throw "too short"
  else if bytes.drop (bytes.length - 4) = checksum payload then return payload
  else throw "invalid checksum"

end Base58

/-! Signatures over the curve `y² = x³ + 7`, in Jacobian coordinates. -/

namespace Secp256k1

def fieldPrime : Nat := 0xfffffffffffffffffffffffffffffffffffffffffffffffffffffffefffffc2f

def order : Nat := 0xfffffffffffffffffffffffffffffffebaaedce6af48a03bbfd25e8cd0364141

def mul (x y : Nat) : Nat := Nat.mod (Nat.mul x y) fieldPrime

def sub (x y : Nat) : Nat := Nat.mod (Nat.sub (Nat.add x fieldPrime) y) fieldPrime

/-- Evaluate a number before it is used. -/
def force {α : Type} (n : Nat) (f : Nat → α) : α :=
  match n with
  | 0 => f 0
  | m + 1 => f (Nat.succ m)

/-- Powers modulo `modulus`, by the bits of the exponent below `bits`. -/
def power (modulus base exponent : Nat) : Nat → Nat → Nat
  | 0, acc => acc
  | bits + 1, acc =>
      force (Nat.mod (Nat.mul acc acc) modulus) fun square =>
        bif Nat.testBit exponent bits then
          force (Nat.mod (Nat.mul square base) modulus) fun next =>
            power modulus base exponent bits next
        else power modulus base exponent bits square

/-- A point; `z = 0` is the point at infinity. -/
structure Point where
  x : Nat
  y : Nat
  z : Nat

def point (x y z : Nat) : Point :=
  force x fun x => force y fun y => force z fun z => ⟨x, y, z⟩

def double : Point → Point
  | ⟨x, y, z⟩ =>
      force (mul y y) fun yy =>
      force (mul 4 (mul x yy)) fun s =>
      force (mul 3 (mul x x)) fun m =>
      force (sub (mul m m) (Nat.mod (Nat.mul 2 s) fieldPrime)) fun x' =>
      point x' (sub (mul m (sub s x')) (mul 8 (mul yy yy))) (mul 2 (mul y z))

def add : Point → Point → Point
  | ⟨x₁, y₁, z₁⟩, ⟨x₂, y₂, z₂⟩ =>
      bif Nat.beq z₁ 0 then ⟨x₂, y₂, z₂⟩
      else bif Nat.beq z₂ 0 then ⟨x₁, y₁, z₁⟩
      else
        force (mul z₁ z₁) fun zz₁ =>
        force (mul z₂ z₂) fun zz₂ =>
        force (mul x₁ zz₂) fun u₁ =>
        force (mul y₁ (mul z₂ zz₂)) fun s₁ =>
        force (sub (mul x₂ zz₁) u₁) fun h =>
        force (sub (mul y₂ (mul z₁ zz₁)) s₁) fun r =>
        bif Nat.beq h 0 then
          bif Nat.beq r 0 then double ⟨x₁, y₁, z₁⟩ else ⟨1, 1, 0⟩
        else
          force (mul h h) fun hh =>
          force (mul h hh) fun hhh =>
          force (mul u₁ hh) fun v =>
          force (sub (sub (mul r r) hhh) (Nat.mod (Nat.mul 2 v) fieldPrime)) fun x' =>
          point x' (sub (mul r (sub v x')) (mul s₁ hhh)) (mul h (mul z₁ z₂))

def generator : Point where
  x := 0x79be667ef9dcbbac55a06295ce870b07029bfcdb2dce28d959f2815b16f81798
  y := 0x483ada7726a3c4655da4fbfc0e1108a8fd17b448a68554199c47d08ffb10d4b8
  z := 1

/-- `u G + v q`, by the bits of both numbers below `bits`; `both` is `G + q`. -/
def combine (u v : Nat) (q both : Point) : Nat → Point → Point
  | 0, acc => acc
  | bits + 1, acc =>
      let twice := double acc
      combine u v q both bits
        (bif Nat.testBit u bits then
          bif Nat.testBit v bits then add twice both else add twice generator
        else bif Nat.testBit v bits then add twice q else twice)

/-- The point of a compressed key. -/
def decompress (key : Bytes) : Option Point :=
  match key with
  | [] => none
  | tag :: rest =>
      let x := ofBytes rest
      let square := Nat.mod (Nat.add (mul x (mul x x)) 7) fieldPrime
      let root := power fieldPrime square (Nat.div (Nat.add fieldPrime 1) 4) 256 1
      if rest.length ≠ 32 ∨ (tag ≠ 2 ∧ tag ≠ 3) ∨ x ≥ fieldPrime ∨ mul root root ≠ square then none
      else some ⟨x, bif Nat.beq (Nat.mod root 2) (Nat.sub tag.toNat 2) then root
        else Nat.sub fieldPrime root, 1⟩

/-- Whether `r` is the first coordinate of `u G + v q` modulo the order. -/
def verify (z r s : Nat) (q : Point) : Bool :=
  force (power order s (Nat.sub order 2) 256 1) fun inverse =>
  force (Nat.mod (Nat.mul z inverse) order) fun u =>
  force (Nat.mod (Nat.mul r inverse) order) fun v =>
  match combine u v q (add generator q) 256 ⟨1, 1, 0⟩ with
  | ⟨x, _, z⟩ =>
      let zz := mul z z
      z ≠ 0 && (x = mul r zz || (decide (r + order < fieldPrime) && x = mul (r + order) zz))

/-- The two numbers of a strict DER signature. -/
def parseDer (sig : Bytes) : Option (Nat × Nat) :=
  match sig with
  | 0x30 :: total :: 0x02 :: rLen :: rest =>
      let r := rest.take rLen.toNat
      match rest.drop rLen.toNat with
      | 0x02 :: sLen :: s =>
          let canonical (n : Bytes) : Bool :=
            match n with
            | [] => false
            | [b] => b < 0x80 && b ≠ 0
            | b :: c :: _ => b < 0x80 && (b ≠ 0 || 0x80 ≤ c)
          if sig.length = total.toNat + 2 ∧ total < 128 ∧ r.length = rLen.toNat ∧
              s.length = sLen.toNat ∧ canonical r ∧ canonical s then
            some (ofBytes r, ofBytes s)
          else none
      | _ => none
  | _ => none

/-- `verify_ecdsa`: strict DER, low `s`. -/
def verifyEcdsa (hash sig : Bytes) (publicKeyHex : Text) : Except Error Bool :=
  match parseDer sig with
  | none => .ok false
  | some (r, s) =>
      if r = 0 ∨ r ≥ order ∨ s = 0 ∨ s > order / 2 then .ok false
      else do
        match decompress (← Hex.decode publicKeyHex) with
        | none => throw (.publicKey "invalid secp256k1 public key: signature error")
        | some q => return verify (ofBytes hash) r s q

/-- A DER integer: a zero byte in front of a high bit. -/
def derInteger (n : Nat) : Bytes :=
  let bytes := Base58.minimalBytes 33 n []
  let body := bif Nat.testBit n (8 * bytes.length - 1) then 0 :: bytes else bytes
  2 :: UInt8.ofNat body.length :: body

/-- The signature with the nonce 1: its point is the generator. -/
def sign (secret : Nat) (hash : Bytes) : Bytes :=
  let r := generator.x
  let s := (ofBytes hash + r * secret) % order
  let body := derInteger r ++ derInteger (if s > order / 2 then order - s else s)
  0x30 :: UInt8.ofNat body.length :: body

/-! Legacy schnorr signatures: `x(R)` and `s`, with `y(R)` a square. -/

def negate : Point → Point
  | ⟨x, y, z⟩ => ⟨x, sub 0 y, z⟩

/-- The affine coordinates; nothing for the point at infinity. -/
def affine : Point → Option (Nat × Nat)
  | ⟨x, y, z⟩ =>
      bif Nat.beq z 0 then none
      else
        force (power fieldPrime z (Nat.sub fieldPrime 2) 256 1) fun inverse =>
        force (mul inverse inverse) fun square =>
        force (mul x square) fun x' =>
        force (mul y (mul square inverse)) fun y' =>
        some (x', y')

def isQuadraticResidue (y : Nat) : Bool :=
  force (power fieldPrime y (Nat.div (Nat.add fieldPrime 1) 4) 256 1) fun root =>
    Nat.beq (mul root root) y

/-- `scalar_from_hash` of the concatenated parts. -/
def challenge (parts : Bytes) : Nat := Nat.mod (ofBytes (sha256 parts)) order

/-- `verify_schnorr_legacy`. -/
def verifySchnorrLegacy (hash sig : Bytes) (publicKeyHex : Text) : Except Error Bool :=
  let r := sig.take 32
  let s := ofBytes (sig.drop 32)
  if sig.length ≠ 64 then .ok false
  else if ofBytes r ≥ fieldPrime then .ok false
  else if s = 0 ∨ s ≥ order then .ok false
  else do
    let key ← Hex.decode publicKeyHex
    match decompress key with
    | none => throw (.publicKey "invalid secp256k1 public key: crypto error")
    | some a =>
        let e := challenge (r ++ key ++ hash)
        match affine (combine s e (negate a) (add generator (negate a)) 256 ⟨1, 1, 0⟩) with
        | none => return false
        | some (x, y) => return isQuadraticResidue y && Nat.beq x (ofBytes r)

/-- `sign_schnorr_legacy` with the secret and its compressed key. -/
def signSchnorrLegacy (secret : Nat) (key hash : Bytes) : Option Bytes :=
  let nonce := challenge (beBytes 32 secret ++ hash)
  match affine (combine nonce 0 generator generator 256 ⟨1, 1, 0⟩) with
  | none => none
  | some (x, y) =>
      let k := if isQuadraticResidue y then nonce else order - nonce
      let e := challenge (beBytes 32 x ++ key ++ hash)
      some (beBytes 32 x ++ beBytes 32 ((k + e * secret) % order))

end Secp256k1

/-- The primitives of chains without lattice keys, logos and multisignatures. -/
def primitives : Primitives where
  sha256 := sha256
  ripemd160 := ripemd160
  base58CheckEncode := Base58.checkEncode
  base58CheckDecode := Base58.checkDecode
  base58Encode := Base58.encode
  base58Decode := Base58.decode
  base64Encode := fun _ => ""
  base64Decode := fun _ => none
  utf8Lossy := fun bytes => (Text.ofUtf8 bytes).getD ⟨[Char.ofNat 0xfffd]⟩
  verifySchnorrLegacy := Secp256k1.verifySchnorrLegacy
  verifyEcdsa := Secp256k1.verifyEcdsa
  verifyMlDsa := fun _ _ _ _ => false
  combineKeys := fun _ _ => .error "invalid public key"

end Reference

end SthCore
