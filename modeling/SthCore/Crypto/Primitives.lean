import SthCore.Config

/-!
Hexadecimal text, byte cursors and the primitives that come from outside the
repository: hashes, elliptic-curve and lattice signatures, base58 and base64.
-/

namespace SthCore

/-- The third-party cryptography the node is linked against. -/
structure Primitives where
  sha256 : Bytes → Bytes
  ripemd160 : Bytes → Bytes
  /-- base58 with a four-byte checksum -/
  base58CheckEncode : Bytes → Text
  base58CheckDecode : Text → Except String Bytes
  base58Encode : Bytes → Text
  base58Decode : Text → Except String Bytes
  base64Encode : Bytes → Text
  base64Decode : Text → Option Bytes
  /-- `Text::from_utf8_lossy` -/
  utf8Lossy : Bytes → Text
  /-- Legacy schnorr over secp256k1: hash, signature, compressed key in hex. -/
  verifySchnorrLegacy : Bytes → Bytes → Text → Except Error Bool
  /-- DER ECDSA over secp256k1: hash, signature, compressed key in hex. -/
  verifyEcdsa : Bytes → Bytes → Text → Except Error Bool
  /-- ML-DSA-44: key, message, signature, context. -/
  verifyMlDsa : Bytes → Bytes → Bytes → String → Bool
  /-- Compressed sum of the key of `min` and the participants' keys. -/
  combineKeys : UInt8 → List Bytes → Except String Bytes

namespace Hex

def digit (c : Char) : Option UInt8 :=
  if '0' ≤ c ∧ c ≤ '9' then some (UInt8.ofNat (c.toNat - 48))
  else if 'a' ≤ c ∧ c ≤ 'f' then some (UInt8.ofNat (c.toNat - 87))
  else if 'A' ≤ c ∧ c ≤ 'F' then some (UInt8.ofNat (c.toNat - 55))
  else none

def decodeChars : List Char → Option Bytes
  | [] => some []
  | [_] => none
  | high :: low :: rest => do
      let h ← digit high
      let l ← digit low
      let bytes ← decodeChars rest
      return (16 * h + l) :: bytes

/-- `hex::decode`: both letter cases are accepted. -/
def decode (text : Text) : Except Error Bytes :=
  match decodeChars text.toList with
  | some bytes => .ok bytes
  | none => .error (.hex "invalid hex string")

def encodeDigit (n : UInt8) : Char :=
  if n < 10 then Char.ofNat (48 + n.toNat) else Char.ofNat (87 + n.toNat)

/-- `hex::encode`: lower case. -/
def encode (bytes : Bytes) : Text :=
  Text.mk (bytes.flatMap fun b => [encodeDigit (b / 16), encodeDigit (b % 16)])

def isHex (text : Text) : Bool :=
  (decodeChars text.toList).isSome

end Hex

/-- Little-endian bytes of a number, `width` of them. -/
def leBytes : Nat → Nat → Bytes
  | 0, _ => []
  | width + 1, n => UInt8.ofNat n :: leBytes width (n / 256)

/-- The number with the given little-endian bytes. -/
def ofLeBytes : Bytes → Nat
  | [] => 0
  | b :: rest => b.toNat + 256 * ofLeBytes rest

def u16le (n : UInt16) : Bytes := leBytes 2 n.toNat
def u32le (n : UInt32) : Bytes := leBytes 4 n.toNat
def u64le (n : UInt64) : Bytes := leBytes 8 n.toNat

/-- Reading from a byte cursor; the state is what remains. -/
abbrev Reader (α : Type) := StateT Bytes (Except Error) α

namespace Reader

def bytes (n : Nat) : Reader Bytes := fun rest =>
  if rest.length < n then
    .error (.serialization s!"unexpected end of bytes: need {n}, have {rest.length}")
  else .ok (rest.take n, rest.drop n)

def hex (n : Nat) : Reader Text := do
  return Hex.encode (← bytes n)

def u8 : Reader UInt8 := do
  return ((← bytes 1).headD 0)

def u16 : Reader UInt16 := do
  return UInt16.ofNat (ofLeBytes (← bytes 2))

def u32 : Reader UInt32 := do
  return UInt32.ofNat (ofLeBytes (← bytes 4))

def u64 : Reader UInt64 := do
  return UInt64.ofNat (ofLeBytes (← bytes 8))

def remaining : Reader Nat := fun rest => .ok (rest.length, rest)

def peek (ahead : Nat) : Reader (Option UInt8) := fun rest => .ok (rest[ahead]?, rest)

def rest : Reader Bytes := fun rest => .ok (rest, [])

def fail {α : Type} (message : String) : Reader α := fun _ => .error (.serialization message)

/-- `count` values read one after another. -/
def times {α : Type} : Nat → Reader α → Reader (List α)
  | 0, _ => return []
  | n + 1, item => do
      let first ← item
      return first :: (← times n item)

end Reader

/-- Errors of third-party code, wrapped like the source does. -/
def Except.wrap {α : Type} (tag : String → Error) : Except String α → Except Error α
  | .ok a => .ok a
  | .error message => .error (tag message)

/-- `address_from_public_key`. -/
def addressFromPublicKey (P : Primitives) (publicKeyHex : Text) (networkByte : UInt8) :
    Except Error Text := do
  let pk ← Hex.decode publicKeyHex
  if pk.length ≠ 33 then
    throw (.publicKey s!"expected 33-byte compressed key, got {pk.length} bytes")
  return P.base58CheckEncode (networkByte :: P.ripemd160 pk)

def addressFromBytes (P : Primitives) (bytes : Bytes) : Text :=
  P.base58CheckEncode bytes

/-- `address_to_bytes`: the 21 raw bytes of an address. -/
def addressToBytes (P : Primitives) (address : Text) : Except Error Bytes := do
  match P.base58CheckDecode address with
  | .error e => throw (.address s!"{address}: {e}")
  | .ok raw =>
      if raw.length = 21 then return raw
      else throw (.address s!"{address}: expected 21 bytes, got {raw.length}")

/-- `address_from_multi_signature`. -/
def addressFromMultiSignature (P : Primitives) (asset : MultiSignatureAsset)
    (networkByte : UInt8) : Except Error Text := do
  let keys ← asset.publicKeys.mapM Hex.decode
  let combined ← Except.wrap .publicKey (P.combineKeys asset.min keys)
  addressFromPublicKey P (Hex.encode combined) networkByte

/-- `verify_signature`: 64 raw bytes are legacy schnorr, anything else DER ECDSA. -/
def verifySignature (P : Primitives) (hash : Bytes) (signatureHex publicKeyHex : Text) :
    Except Error Bool := do
  let sig ← Hex.decode signatureHex
  if sig.length = 64 then P.verifySchnorrLegacy hash sig publicKeyHex
  else P.verifyEcdsa hash sig publicKeyHex

/-- What a node computes with: its libraries, its network and its clock. -/
structure Env where
  prim : Primitives
  network : Network
  /-- Unix time in milliseconds. -/
  nowMs : Int

namespace Env

/-- The address of a public key on this network. -/
def addressOf (E : Env) (publicKeyHex : Text) : Except Error Text :=
  addressFromPublicKey E.prim publicKeyHex E.network.pubkeyHash

/-- `now_epoch`: current chain time. -/
def nowEpoch (E : Env) : UInt32 :=
  E.network.unixToEpoch (E.nowMs / 1000)

end Env

end SthCore
