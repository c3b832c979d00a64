import SthCore.Crypto.TxDeserializer

/-!
Block headers on the wire, block ids, and the compact record in which a block
is stored.
-/

namespace SthCore

open Reader

/-- `serialize_block_parts`: header, classic signature, hybrid signature. -/
def serializeBlockParts (block : Block) (includeSignature includePq : Bool) :
    Except Error Bytes := do
  if block.previousBlock.utf8ByteSize ≠ 64 then
    throw (.serialization
      s!"previousBlock of block {block.height} must be a 64-char sha256 hex, got '{block.previousBlock}'")
  let previous ← Hex.decode block.previousBlock
  let payloadHash ← Hex.decode block.payloadHash
  let generator ← Hex.decode block.generatorPublicKey
  let signature ← match block.blockSignature, includeSignature with
    | some sig, true => Hex.decode sig
    | _, _ => .ok []
  let pq ← match block.pqSignature, includePq && decide (block.version ≥ blockVersionPq) with
    | some pq, true => do
        let sig ← Hex.decode pq.signature
        pure (pq.algorithm :: u16le (UInt16.ofNat sig.length) ++ sig)
    | _, _ => .ok []
  return u32le block.version ++ u32le block.timestamp ++ u32le (UInt32.ofNat block.height) ++
    previous ++ u32le block.numberOfTransactions ++ u64le block.totalAmount ++
    u64le block.totalFee ++ u64le block.reward ++ u32le block.payloadLength ++ payloadHash ++
    generator ++ signature ++ pq

def serializeBlock (block : Block) (includeSignature : Bool) : Except Error Bytes :=
  serializeBlockParts block includeSignature includeSignature

/-- `block_id`: hex of the hash of header and signatures. -/
def blockId (P : Primitives) (block : Block) : Except Error Text := do
  return Hex.encode (P.sha256 (← serializeBlock block true))

def blockPqMessage (P : Primitives) (block : Block) : Except Error Bytes := do
  return P.sha256 (← serializeBlockParts block true false)

def algMlDsa44 : UInt8 := 1
def pqPkLen : Nat := 1312
def pqSigLen : Nat := 2420

/-- `pq::verify_with_ctx`. -/
def verifyWithCtx (P : Primitives) (publicKey message signature : Bytes) (ctx : String) : Bool :=
  if publicKey.length ≠ pqPkLen ∨ signature.length ≠ pqSigLen then false
  else P.verifyMlDsa publicKey message signature ctx

def pqVerify (P : Primitives) (publicKey message signature : Bytes) : Bool :=
  verifyWithCtx P publicKey message signature "sth-pq-v1"

/-- `verify_block_pq_signature`. -/
def verifyBlockPqSignature (P : Primitives) (block : Block) (pqPublicKeyHex : Text) :
    Except Error Bool :=
  match block.pqSignature with
  | none => .ok false
  | some pq =>
      if pq.algorithm ≠ algMlDsa44 then .ok false
      else do
        let key ← Hex.decode pqPublicKeyHex
        let message ← blockPqMessage P block
        let sig ← Hex.decode pq.signature
        return verifyWithCtx P key message sig "sth-pq-block-v1"

/-- `verify_block_signature`: DER ECDSA over the unsigned header. -/
def verifyBlockSignature (P : Primitives) (block : Block) : Except Error Bool :=
  match block.blockSignature with
  | none => .error (.signature "block has no blockSignature")
  | some sig => do
      let hash := P.sha256 (← serializeBlock block false)
      P.verifyEcdsa hash (← Hex.decode sig) block.generatorPublicKey

/-- Insert by `sequence`, after entries with an equal one. -/
def insertBySequence (tx : Transaction) : List Transaction → List Transaction
  | [] => [tx]
  | head :: tail =>
      if (tx.sequence.getD 0) < (head.sequence.getD 0) then tx :: head :: tail
      else head :: insertBySequence tx tail

/-- `sort_by_key(sequence)`, a stable sort. -/
def sortBySequence (txs : List Transaction) : List Transaction :=
  txs.foldl (fun sorted tx => insertBySequence tx sorted) []

/-- `block_payload_hash`: hash of the transaction ids in `sequence` order. -/
def blockPayloadHash (P : Primitives) (block : Block) : Except Error Text := do
  let txs :=
    if block.transactions.all (·.sequence.isSome) then sortBySequence block.transactions
    else block.transactions
  let ids ← txs.mapM fun tx => do
    let id ← match tx.id with
      | some id => .ok id
      | none => transactionId P tx
    Hex.decode id
  return Hex.encode (P.sha256 ids.flatten)

/-- `deserialize_block_header`: trailing bytes are an error. -/
def deserializeBlockHeader (P : Primitives) (network : Network) (raw : Bytes) :
    Except Error Block := do
  let parse : Reader Block := do
    let version ← u32
    let timestamp ← u32
    let height := (← u32).toNat
    let previousBlock ← hex 32
    let numberOfTransactions ← u32
    let totalAmount ← u64
    let totalFee ← u64
    let reward ← u64
    let payloadLength ← u32
    let payloadHash ← hex 32
    let generatorPublicKey ← hex 33
    let blockSignature ← if (← remaining) ≥ 2 then some <$> readDer else pure none
    let pqSignature ←
      if version ≥ blockVersionPq ∧ (← remaining) ≥ 3 then do
        let algorithm ← u8
        let len := (← u16).toNat
        let signature ← hex len
        pure (some { algorithm, signature : PqSignatureBlock })
      else pure none
    let left ← remaining
    if left > 0 then fail s!"block {height}: {left} unexpected trailing bytes after header"
    else
      return { version, timestamp, previousBlock, height, numberOfTransactions, totalAmount,
               totalFee, reward, payloadLength, payloadHash, generatorPublicKey,
               blockSignature, pqSignature }
  let (block, _) ← parse raw
  let id ← if block.height = 1 then .ok network.genesisBlockId else blockId P block
  return { block with id := some id }

/-- `encode_block`: length-prefixed header and transactions. -/
def encodeBlock (E : Env) (block : Block) : Except Error (List Bytes) := do
  let header ← serializeBlock block true
  let txs ← block.transactions.mapM fun tx =>
    serializeTransaction E.prim tx {} E.network.pubkeyHash
  return header :: txs

/-- A stored transaction carries the block it is in and its position there. -/
def placeTransaction (block : Block) (tx : Transaction) (index : Nat) : Transaction :=
  { tx with blockId := block.id, blockHeight := some block.height,
            sequence := some (UInt32.ofNat index) }

/-- `decode_block`: header frame first, then one frame for each transaction. -/
def decodeBlock (E : Env) (frames : List Bytes) : Except Error Block :=
  match frames with
  | [] => .error (.storage "empty block record")
  | header :: raws => do
      let block ← deserializeBlockHeader E.prim E.network header
      let txs ← raws.mapM (deserializeTransaction E.prim)
      return { block with transactions := txs.mapIdx fun i tx => placeTransaction block tx i }

end SthCore
