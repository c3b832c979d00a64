import SthCore.Crypto.Primitives

/-!
Wire bytes of a transaction, its id and the messages its signatures cover.
-/

namespace SthCore

structure SerializeOptions where
  excludeSignature : Bool := false
  excludeSecondSignature : Bool := false
  excludeMultiSignature : Bool := false

/-- The options under which the primary signature is computed. -/
def SerializeOptions.forSigning : SerializeOptions :=
  { excludeSignature := true, excludeSecondSignature := true }

def utf8Bytes (s : Text) : Bytes := s.utf8Bytes

def u8of (n : Nat) : UInt8 := UInt8.ofNat n

/-- A field, or the serialization error that names what is missing. -/
def required {α : Type} (field : Option α) (message : String) : Except Error α :=
  match field with
  | some a => .ok a
  | none => .error (.serialization message)

def logoTypeByte (m : TokenMeta) : UInt8 :=
  if m.logoType = some "svg" then 1
  else if m.logoType = some "png" then 2
  else 0

def logoBytes (P : Primitives) (m : TokenMeta) : Option Bytes :=
  m.logo.bind P.base64Decode

def serializeSobj (tx : Transaction) : Except Error Bytes := do
  let e ← required tx.sobjAsset "missing sObject asset"
  let reg ← match e.registrationId with
    | some r => Hex.decode r
    | none => .ok []
  let name := utf8Bytes (e.data.name.getD "")
  let slot := match SobjAction.ofCode e.action with
    | some .transfer => e.recipientId
    | some .sell => e.price.map fun (p : UInt64) => Text.ofNat p.toNat
    | _ => e.data.ntfryData
  let ipfs := utf8Bytes (slot.getD "")
  if reg.length > 255 ∨ name.length > 255 ∨ ipfs.length > 255 then
    throw (.serialization "sObject field longer than 255 bytes")
  return [e.type, e.subType, e.action] ++ (u8of reg.length :: reg) ++
    (u8of name.length :: name) ++ (u8of ipfs.length :: ipfs)

def serializeTokenTransfer (P : Primitives) (a : TokenAsset) : Except Error Bytes := do
  let items := a.transfers.getD []
  let memo := utf8Bytes (a.memo.getD "")
  if items.length > 65535 ∨ memo.length > 255 then
    throw (.serialization "token transfer too large")
  let body ← items.mapM fun it => do
    return u64le it.amount ++ (← addressToBytes P it.recipientId)
  return u16le (UInt16.ofNat items.length) ++ body.flatten ++ (u8of memo.length :: memo)

def serializeTokenMeta (P : Primitives) (a : TokenAsset) : Except Error Bytes := do
  let m ← required a.tokenMeta "missing token meta"
  let name := utf8Bytes m.name
  let desc := utf8Bytes (m.description.getD "")
  let site := utf8Bytes (m.website.getD "")
  let logo ← if m.logo.isSome then required (logoBytes P m) "logo is not base64" else .ok []
  if name.length > 255 ∨ desc.length > 65535 ∨ site.length > 255 ∨ logo.length > 65535 then
    throw (.serialization "token meta field too long")
  return (u8of name.length :: name) ++ u16le (UInt16.ofNat desc.length) ++ desc ++
    (u8of site.length :: site) ++ (logoTypeByte m :: u16le (UInt16.ofNat logo.length)) ++ logo

def serializeToken (P : Primitives) (tx : Transaction) (type : TokenType) :
    Except Error Bytes := do
  let a ← required tx.tokenAsset "missing token asset"
  let id ← Hex.decode a.id
  if id.length ≠ 32 then
    throw (.serialization "token id must be 32 bytes")
  let amount := u64le (a.amount.getD 0)
  let body ← match type with
    | .init => .ok ([a.decimals.getD 0, a.flags.getD 0] ++
        u64le (a.initialSupply.getD 0) ++ u64le (a.supplyCap.getD 0))
    | .transfer => serializeTokenTransfer P a
    | .mint => do
        let recipient ← required a.recipientId "missing recipientId"
        pure (amount ++ (← addressToBytes P recipient))
    | .sell => .ok (amount ++ u64le (a.price.getD 0))
    | .buy | .cancel => do
        let oid ← Hex.decode (a.orderId.getD "")
        if oid.length ≠ 32 then
          throw (.serialization "orderId must be 32 bytes")
        pure (oid ++ (if type = .buy then amount else []))
    | .tokenMeta => serializeTokenMeta P a
    | .burn => .ok amount
  return id ++ body

def serializeVote (v : Text) : Except Error Bytes :=
  match v.toList with
  | sign :: pk =>
      if sign.utf8Size = 1 then do
        return (if sign = '+' then 1 else 0) :: (← Hex.decode (Text.mk pk))
      else throw (.serialization s!"bad vote {v}")
  | [] => throw (.serialization s!"bad vote {v}")

/-- The recipient's raw address, nothing when there is none. -/
def serializeRecipient (P : Primitives) (tx : Transaction) : Except Error Bytes :=
  match tx.recipientId with
  | some r => addressToBytes P r
  | none => .ok []

def serializeCore (P : Primitives) (tx : Transaction) (type : CoreType) :
    Except Error Bytes := do
  match type with
  | .transfer =>
      return u64le tx.amount ++ u32le (tx.expiration.getD 0) ++ (← serializeRecipient P tx)
  | .secondSignature => do
      let asset ← required tx.asset "missing asset for secondSignature"
      let sig ← required asset.signature "missing asset.signature"
      if tx.isPq then
        let pk ← Hex.decode sig.publicKey
        if pk.length > 65535 then
          throw (.serialization "PQ public key too long")
        return sig.algorithm.getD 0 :: u16le (UInt16.ofNat pk.length) ++ pk
      else Hex.decode sig.publicKey
  | .delegateRegistration => do
      let asset ← required tx.asset "missing asset for delegateRegistration"
      let d ← required asset.delegate "missing asset.delegate"
      let name := utf8Bytes d.username
      return u8of name.length :: name
  | .vote => do
      let asset ← required tx.asset "missing asset for vote"
      let votes ← required asset.votes "missing asset.votes"
      let body ← votes.mapM serializeVote
      return u8of votes.length :: body.flatten
  | .multiSignature => do
      let asset ← required tx.asset "missing asset for multiSignature"
      let ms ← required asset.multiSignature "missing asset.multiSignature"
      let keys ← ms.publicKeys.mapM Hex.decode
      return [ms.min, u8of ms.publicKeys.length] ++ keys.flatten
  | .ipfs => do
      let asset ← required tx.asset "missing asset for ipfs"
      let ipfs ← required asset.ipfs "missing asset.ipfs"
      Except.wrap (fun m => .serialization s!"bad ipfs hash: {m}") (P.base58Decode ipfs)
  | .multiPayment => do
      let asset ← required tx.asset "missing asset for multiPayment"
      let payments ← required asset.payments "missing asset.payments"
      let body ← payments.mapM fun p => do
        return u64le p.amount ++ (← addressToBytes P p.recipientId)
      return u16le (UInt16.ofNat payments.length) ++ body.flatten
  | .delegateResignation => return []
  | .htlcLock => do
      let lock ← match tx.asset.bind (·.lock) with
        | some lock => do
            pure ((← Hex.decode lock.secretHash) ++
              (lock.expiration.type :: u32le lock.expiration.value))
        | none => .ok []
      return u64le tx.amount ++ lock ++ (← serializeRecipient P tx)
  | .htlcClaim =>
      match tx.asset.bind (·.claim) with
      | some c => do
          return (← Hex.decode c.lockTransactionId) ++ (← Hex.decode c.unlockSecret)
      | none => return []
  | .htlcRefund =>
      match tx.asset.bind (·.refund) with
      | some r => Hex.decode r.lockTransactionId
      | none => return []

/-- `serialize_type_payload`. -/
def serializeTypePayload (P : Primitives) (tx : Transaction) : Except Error Bytes :=
  if tx.isSobj then serializeSobj tx
  else
    match tx.tokenType with
    | some type => serializeToken P tx type
    | none =>
        if tx.typeGroup ≠ typeGroupCore then
          .error (.serialization s!"unsupported typeGroup {tx.typeGroup.toNat}")
        else
          match tx.coreType with
          | some type => serializeCore P tx type
          | none => .error (.serialization s!"unsupported transaction type {tx.type.toNat}")

/-- The part of the wire format that every type shares, up to the fee. -/
def serializeCommon (tx : Transaction) (networkByte : UInt8) : Except Error Bytes := do
  let sender ← Hex.decode tx.senderPublicKey
  let nonce := match tx.nonce with
    | some n => u64le n
    | none => []
  return [0xff, tx.version, tx.network.getD networkByte] ++ u32le tx.typeGroup ++
    u16le tx.type ++ nonce ++ sender ++ u64le tx.fee

def serializeVendorField (tx : Transaction) : Except Error Bytes :=
  match tx.vendorField with
  | some vf =>
      if tx.hasVendorField && !vf.isEmpty then
        let bytes := utf8Bytes vf
        if bytes.length > 255 then .error (.serialization "vendorField exceeds 255 bytes")
        else .ok (u8of bytes.length :: bytes)
      else .ok [0]
  | none => .ok [0]

def serializePqBlock (b : PqSignatureBlock) : Except Error Bytes := do
  let sig ← Hex.decode b.signature
  if sig.length > 65535 then
    throw (.serialization "PQ signature too long")
  return b.algorithm :: u16le (UInt16.ofNat sig.length) ++ sig

def serializeSignatures (tx : Transaction) (opts : SerializeOptions) : Except Error Bytes := do
  let first ← match tx.signature, opts.excludeSignature with
    | some sig, false => Hex.decode sig
    | _, _ => .ok []
  let multi ← match tx.signatures, opts.excludeMultiSignature with
    | some sigs, false => sigs.mapM Hex.decode
    | _, _ => .ok []
  if tx.isPq then
    let blocks ← if opts.excludeSecondSignature then .ok [] else tx.pqBlocks.mapM serializePqBlock
    return first ++ blocks.flatten ++ (if multi.isEmpty then [] else 0xff :: multi.flatten)
  else
    let second ← match tx.secondSignatureAny, opts.excludeSecondSignature with
      | some sig, false => Hex.decode sig
      | _, _ => .ok []
    return first ++ second ++ multi.flatten

/-- `serialize_transaction`; `networkByte` fills in for a missing network field. -/
def serializeTransaction (P : Primitives) (tx : Transaction) (opts : SerializeOptions)
    (networkByte : UInt8) : Except Error Bytes := do
  if tx.version = 1 then
    throw (.serialization "legacy v1 transactions are not supported on this chain")
  let common ← serializeCommon tx networkByte
  let vendor ← serializeVendorField tx
  let payload ← serializeTypePayload P tx
  let sigs ← serializeSignatures tx opts
  return common ++ (vendor ++ payload ++ sigs)

/-- The network byte of mainnet, which ids and signatures always use. -/
def mainnetByte : UInt8 := 63

/-- `transaction_id`: hex of the hash of the full bytes. -/
def transactionId (P : Primitives) (tx : Transaction) : Except Error Text := do
  return Hex.encode (P.sha256 (← serializeTransaction P tx {} mainnetByte))

def transactionSigningHash (P : Primitives) (tx : Transaction) : Except Error Bytes := do
  return P.sha256 (← serializeTransaction P tx .forSigning mainnetByte)

def verifyTransactionSignature (P : Primitives) (tx : Transaction) : Except Error Bool :=
  match tx.signature with
  | none => .ok false
  | some sig => do
      verifySignature P (← transactionSigningHash P tx) sig tx.senderPublicKey

/-- Message of every second-signature block of a version-3 transaction. -/
def transactionPqMessage (P : Primitives) (tx : Transaction) : Except Error Bytes := do
  let opts : SerializeOptions := { excludeSecondSignature := true, excludeMultiSignature := true }
  return P.sha256 (← serializeTransaction P tx opts mainnetByte)

def verifyTransactionSecondSignature (P : Primitives) (tx : Transaction)
    (secondPublicKeyHex : Text) : Except Error Bool :=
  match tx.secondSignatureAny with
  | none => .ok false
  | some sig => do
      let bytes ← serializeTransaction P tx { excludeSecondSignature := true } mainnetByte
      verifySignature P (P.sha256 bytes) sig secondPublicKeyHex

end SthCore
