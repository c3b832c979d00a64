import SthCore.Crypto.TxSerializer

/-!
Parsing of wire bytes back into transactions, the inverse of the serializer.
-/

namespace SthCore

open Reader

def readAddress (P : Primitives) : Reader Text := do
  return addressFromBytes P (← bytes 21)

/-- `str::parse::<u64>`: an optional plus sign, then decimal digits. -/
def parseU64 (text : Text) : Option UInt64 :=
  let digits := match text.toList with
    | '+' :: rest => rest
    | chars => chars
  if digits.isEmpty || !digits.all Char.isDigit then none
  else
    let value := digits.foldl (fun n c => 10 * n + (c.toNat - 48)) 0
    if value < 2 ^ 64 then some (UInt64.ofNat value) else none

/-- A length-prefixed text that is absent when the length is zero. -/
def readText (P : Primitives) (length : Nat) : Reader (Option Text) := do
  if length = 0 then return none
  return some (P.utf8Lossy (← bytes length))

def deserializeSobj (P : Primitives) : Reader SmartObjectAsset := do
  let type ← u8
  let subType ← u8
  let action ← u8
  let regLen := (← u8).toNat
  let registrationId ← if regLen = 0 then pure none else some <$> hex regLen
  let name ← readText P (← u8).toNat
  let slot ← readText P (← u8).toNat
  match SobjAction.ofCode action with
  | some .transfer =>
      return { type, subType, action, registrationId, recipientId := slot, data := { name } }
  | some .sell =>
      match parseU64 (slot.getD "0") with
      | some price =>
          return { type, subType, action, registrationId, price := some price, data := { name } }
      | none => fail "sObject price is not a number"
  | _ => return { type, subType, action, registrationId, data := { name, ntfryData := slot } }

def deserializeTokenTransfer (P : Primitives) (id : Text) : Reader TokenAsset := do
  let n := (← u16).toNat
  let items ← times n do
    let amount ← u64
    return { recipientId := ← readAddress P, amount : TokenTransferItem }
  let memo ← readText P (← u8).toNat
  return { id, transfers := some items, memo }

def deserializeTokenMeta (P : Primitives) (id : Text) : Reader TokenAsset := do
  let name ← readText P (← u8).toNat
  let description ← readText P (← u16).toNat
  let website ← readText P (← u8).toNat
  let logoType ← u8
  let logoLen := (← u16).toNat
  let logoRaw ← bytes logoLen
  let logoType := if logoType = 1 then some "svg" else if logoType = 2 then some "png" else none
  let logo := if logoLen = 0 then none else some (P.base64Encode logoRaw)
  let tokenMeta : TokenMeta := { name := name.getD "", description, website, logoType, logo }
  return { id, tokenMeta := some tokenMeta }

def deserializeToken (P : Primitives) (type : TokenType) : Reader TokenAsset := do
  let id ← hex 32
  match type with
  | .init => do
      let decimals ← u8
      let flags ← u8
      let initialSupply ← u64
      let supplyCap ← u64
      return { id, decimals := some decimals, flags := some flags,
               initialSupply := some initialSupply, supplyCap := some supplyCap }
  | .transfer => deserializeTokenTransfer P id
  | .mint => do
      let amount ← u64
      return { id, amount := some amount, recipientId := some (← readAddress P) }
  | .sell => do
      let amount ← u64
      return { id, amount := some amount, price := some (← u64) }
  | .buy => do
      let orderId ← hex 32
      return { id, orderId := some orderId, amount := some (← u64) }
  | .cancel => return { id, orderId := some (← hex 32) }
  | .tokenMeta => deserializeTokenMeta P id
  | .burn => return { id, amount := some (← u64) }

/-- A base58 multihash: function byte, length byte, digest. -/
def deserializeIpfs (P : Primitives) : Reader Text := do
  let hashFn ← u8
  let len ← u8
  let digest ← bytes len.toNat
  return P.base58Encode (hashFn :: len :: digest)

def deserializeVote : Reader Text := do
  let sign := if (← u8) = 1 then "+" else "-"
  return sign ++ (← hex 33)

/-- Fields that the payload of a core type sets. -/
def deserializeCore (P : Primitives) (tx : Transaction) (type : CoreType) :
    Reader Transaction := do
  match type with
  | .transfer => do
      let amount ← u64
      let expiration ← u32
      return { tx with amount, expiration := some expiration,
                       recipientId := some (← readAddress P) }
  | .secondSignature =>
      if tx.isPq then do
        let algorithm ← u8
        let len := (← u16).toNat
        let publicKey ← hex len
        return { tx with asset := some { signature := some { publicKey, algorithm := some algorithm } } }
      else do
        let publicKey ← hex 33
        return { tx with asset := some { signature := some { publicKey } } }
  | .delegateRegistration => do
      let raw ← bytes (← u8).toNat
      match Text.ofUtf8 raw with
      | some username => return { tx with asset := some { delegate := some { username } } }
      | none => fail "delegate username is not utf-8"
  | .vote => do
      let votes ← times (← u8).toNat deserializeVote
      return { tx with asset := some { votes := some votes } }
  | .multiSignature => do
      let min ← u8
      let publicKeys ← times (← u8).toNat (hex 33)
      return { tx with asset := some { multiSignature := some { min, publicKeys } } }
  | .ipfs => return { tx with asset := some { ipfs := some (← deserializeIpfs P) } }
  | .multiPayment => do
      let payments ← times (← u16).toNat do
        let amount ← u64
        return { amount, recipientId := ← readAddress P : Payment }
      return { tx with amount := 0, asset := some { payments := some payments } }
  | .delegateResignation => return tx
  | .htlcLock => do
      let amount ← u64
      let secretHash ← hex 32
      let expirationType ← u8
      let value ← u32
      let recipientId ← readAddress P
      let lock : HtlcLockAsset := { secretHash, expiration := { type := expirationType, value } }
      return { tx with amount, recipientId := some recipientId, asset := some { lock := some lock } }
  | .htlcClaim => do
      let lockTransactionId ← hex 32
      let unlockSecret ← hex 32
      return { tx with asset := some { claim := some { lockTransactionId, unlockSecret } } }
  | .htlcRefund => do
      let lockTransactionId ← hex 32
      return { tx with asset := some { refund := some { lockTransactionId } } }

/-- `deserialize_type_payload`. -/
def deserializeTypePayload (P : Primitives) (tx : Transaction) : Reader Transaction := do
  if tx.isSobj then
    return { tx with asset := some { sobj := some (← deserializeSobj P) } }
  match tx.tokenType with
  | some type => return { tx with asset := some { token := some (← deserializeToken P type) } }
  | none =>
      if tx.typeGroup ≠ typeGroupCore then
        fail s!"unsupported typeGroup {tx.typeGroup.toNat}"
      else
        match tx.coreType with
        | some type => deserializeCore P tx type
        | none => fail s!"unsupported transaction type {tx.type.toNat}"

def detectSchnorr (remaining : Nat) : Bool :=
  remaining = 64 || remaining = 128 || remaining % 65 = 0 ||
    (64 ≤ remaining && (remaining - 64) % 65 = 0) ||
    (128 ≤ remaining && (remaining - 128) % 65 = 0)

/-- Second-signature blocks up to the marker of the multisignature section.
The fuel bounds the number of blocks by the bytes that are left. -/
def readPqBlocks : Nat → Reader (List PqSignatureBlock)
  | 0 => return []
  | fuel + 1 => do
      if (← remaining) = 0 ∨ (← peek 0) = some 0xff then return []
      let algorithm ← u8
      let len := (← u16).toNat
      let signature ← hex len
      return { algorithm, signature } :: (← readPqBlocks fuel)

def deserializeSignaturesV3 (tx : Transaction) : Reader Transaction := do
  if (← remaining) = 0 then return tx
  let signature ← hex 64
  let blocks ← readPqBlocks (← remaining)
  let secondSignatures := if blocks.isEmpty then tx.secondSignatures else some blocks
  let tx := { tx with signature := some signature, secondSignatures }
  if (← remaining) = 0 then return tx
  let _ ← u8
  let left ← remaining
  if left % 65 ≠ 0 then fail "v3 multisignature buffer not exhausted"
  else return { tx with signatures := some (← times (left / 65) (hex 65)) }

/-- 64 bytes when what remains cannot be a list of 65-byte parts only. -/
def readSingle : Reader (Option Text) := do
  let left ← remaining
  if left > 0 ∧ (left % 64 = 0 ∨ left % 65 ≠ 0) then some <$> hex 64 else pure none

def deserializeSchnorrSignatures (tx : Transaction) : Reader Transaction := do
  let signature ← readSingle
  let secondSignature ← readSingle
  let tx := { tx with signature, secondSignature }
  let left ← remaining
  if left = 0 then return tx
  if left % 65 ≠ 0 then fail "signature buffer not exhausted"
  else do
    let sigs ← times (left / 65) (hex 65)
    if (sigs.map fun s => s.toList.take 2).Nodup then return { tx with signatures := some sigs }
    else fail "duplicate participant in multi signature"

def readDer : Reader Text := do
  match ← peek 1 with
  | some l => hex (l.toNat + 2)
  | none => fail "truncated DER signature"

def deserializeDerSignatures (tx : Transaction) : Reader Transaction := do
  let signature ← if (← remaining) > 0 then some <$> readDer else pure none
  let secondSignature ←
    if (← remaining) > 0 ∧ (← peek 0) ≠ some 0xff then some <$> readDer else pure none
  let tx := { tx with signature, secondSignature }
  if (← remaining) > 0 ∧ (← peek 0) = some 0xff then
    let _ ← u8
    return { tx with signatures := some [Hex.encode (← rest)] }
  else if (← remaining) > 0 then fail "signature buffer not exhausted"
  else return tx

/-- `deserialize_signatures`. -/
def deserializeSignatures (tx : Transaction) : Reader Transaction := do
  if tx.isPq then deserializeSignaturesV3 tx
  else if detectSchnorr (← remaining) then deserializeSchnorrSignatures tx
  else deserializeDerSignatures tx

/-- The header every transaction starts with, up to the vendor field. -/
def deserializeCommon (P : Primitives) : Reader Transaction := do
  if (← u8) ≠ 0xff then fail "missing 0xff transaction marker"
  else do
    let version ← u8
    let network ← u8
    if version = 1 then fail "legacy v1 transactions are not supported on this chain"
    else do
      let typeGroup ← u32
      let type ← u16
      let nonce ← u64
      let senderPublicKey ← hex 33
      let fee ← u64
      let tx : Transaction :=
        { version, network := some network, typeGroup, type, nonce := some nonce,
          senderPublicKey, fee }
      let vendor ← readText P (← u8).toNat
      return if tx.hasVendorField then { tx with vendorField := vendor } else tx

/-- `deserialize_transaction`: the id is the hash of the bytes themselves. -/
def deserializeTransaction (P : Primitives) (raw : Bytes) : Except Error Transaction := do
  let (tx, _) ← (deserializeCommon P >>= deserializeTypePayload P >>= deserializeSignatures) raw
  return { tx with id := some (Hex.encode (P.sha256 raw)) }

end SthCore
