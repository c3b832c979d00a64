import SthCore.Lib.Result
import SthCore.Storage.Store

/-!
Block assembly: which pending transactions go into the next block, and the
header that the delegate signs.
-/

namespace SthCore

open SthCore.Lib

/-- A delegate key: its compressed public key, and its DER signatures in hex. -/
structure BlockKey where
  publicKey : Text
  sign : Bytes → Except Error Text

/-- `PqKeyPair`: its public key in hex, and its signatures under a context. -/
structure PqKeyPair where
  publicKey : Text
  sign : Bytes → String → Except Error Bytes

/-- `Option<u64>` in its derived order. -/
def nonceLe : Option UInt64 → Option UInt64 → Bool
  | none, _ => true
  | some _, none => false
  | some a, some b => a ≤ b

/-- The highest fee first, then the lowest nonce. -/
def feeBefore (a b : Transaction) : Bool :=
  b.fee < a.fee || (a.fee = b.fee && nonceLe a.nonce b.nonce)

/-- What `select_transactions` keeps while it walks through the candidates. -/
structure Selection where
  chosen : List Transaction := []
  payload : Nat := 0
  /-- By public key, once a transaction of the sender is chosen. -/
  nextNonce : OrderedMap Text UInt64 := ∅
  deferred : List Transaction := []
  progress : Bool := false

namespace Selection

def isFull (ms : Milestone) (sel : Selection) : Bool :=
  sel.chosen.length ≥ ms.maxTransactions.toNat

/-- The nonce that the next transaction of the sender must have. -/
def expectedNonce (E : Env) (s : Store) (sel : Selection) (tx : Transaction) :
    Except Error UInt64 :=
  match sel.nextNonce[tx.senderPublicKey]? with
  | some n => .ok n
  | none => do
      let address ← E.addressOf tx.senderPublicKey
      return UInt64.ofNat (((s.getWallet address).map (·.nonce)).getD 0) + 1

/-- One candidate; a full selection takes no more. -/
def consider (E : Env) (s : Store) (ms : Milestone) (sel : Selection) (tx : Transaction) :
    Except Error Selection :=
  if sel.isFull ms then .ok sel
  else do
    let expected ← sel.expectedNonce E s tx
    let nonce := tx.nonce.getD 0
    if nonce ≠ expected then
      return if nonce > expected then { sel with deferred := sel.deferred ++ [tx] } else sel
    let size := (← serializeTransaction E.prim tx {} E.network.pubkeyHash).length
    if sel.payload + size > ms.maxPayload.toNat then return sel
    return { sel with
      chosen := sel.chosen ++ [tx]
      payload := sel.payload + size
      nextNonce := sel.nextNonce.insert tx.senderPublicKey (nonce + 1)
      progress := true }

/-- Passes over the candidates.  A pass that goes on has taken one of them, so there are at most
as many passes as candidates. -/
def passes (E : Env) (s : Store) (ms : Milestone) :
    Nat → Selection → List Transaction → Except Error (List Transaction)
  | 0, sel, _ => .ok sel.chosen
  | fuel + 1, sel, candidates =>
      if sel.isFull ms then .ok sel.chosen
      else do
        let sel ← candidates.foldlM (consider E s ms)
          { sel with progress := false, deferred := [] }
        if sel.deferred.isEmpty || !sel.progress then return sel.chosen
        passes E s ms fuel sel sel.deferred

end Selection

/-- `select_transactions`. -/
def selectTransactions (E : Env) (s : Store) (pool : List Transaction) (height : Nat) :
    Except Error (List Transaction) :=
  let candidates := pool.insertionSort fun a b => feeBefore a b
  Selection.passes E s (E.network.milestone height) (candidates.length + 1) {} candidates

/-- The header fields, without payload hash and signatures. -/
def unsignedBlock (ms : Milestone) (keys : BlockKey) (hybrid : Bool) (previous : Block)
    (timestamp : UInt32) (txs : List Transaction) (raw : List Bytes) : Block where
  version := if hybrid then blockVersionPq else ms.blockVersion
  timestamp
  previousBlock := previous.id.getD ""
  height := previous.height + 1
  numberOfTransactions := UInt32.ofNat txs.length
  totalAmount := (txs.map (·.amount)).sum
  totalFee := (txs.map (·.fee)).sum
  reward := ms.reward
  payloadLength := (raw.map fun bytes => UInt32.ofNat bytes.length).sum
  payloadHash := ""
  generatorPublicKey := keys.publicKey
  transactions := txs.zipIdx.map fun e =>
    { e.1 with blockHeight := some (previous.height + 1), sequence := some (UInt32.ofNat e.2) }

/-- The classic signature over the header, and the hybrid one over both. -/
def signBlock (E : Env) (keys : BlockKey) (pq : Option PqKeyPair) (block : Block) :
    Except Error Block := do
  let signature ← keys.sign (E.prim.sha256 (← serializeBlock block false))
  let block := { block with blockSignature := some signature }
  match pq with
  | none => return block
  | some key => do
      let bytes ← key.sign (← blockPqMessage E.prim block) "sth-pq-block-v1"
      return { block with
        pqSignature := some { algorithm := algMlDsa44, signature := Hex.encode bytes } }

/-- `forge_block_with`: the block on top of `previous`, with version 1 and a hybrid signature
when the milestone has them and there is a key. -/
def forgeBlockWith (E : Env) (keys : BlockKey) (pq : Option PqKeyPair) (previous : Block)
    (timestamp : UInt32) (txs : List Transaction) : Except Error Block := do
  let ms := E.network.milestone (previous.height + 1)
  let hybrid := ms.pq.blocks && pq.isSome
  let raw ← txs.mapM fun tx => serializeTransaction E.prim tx {} E.network.pubkeyHash
  let block := unsignedBlock ms keys hybrid previous timestamp txs raw
  let payloadHash ← blockPayloadHash E.prim block
  let block ← signBlock E keys (pq.filter fun _ => hybrid) { block with payloadHash }
  let id ← blockId E.prim block
  return { block with
    id := some id
    transactions := block.transactions.map fun tx => { tx with blockId := some id } }

theorem signBlock_ok {E : Env} {keys : BlockKey} {pq : Option PqKeyPair} {block b : Block}
    (h : signBlock E keys pq block = .ok b) :
    b.height = block.height ∧ b.timestamp = block.timestamp ∧
    b.generatorPublicKey = block.generatorPublicKey := by
  obtain ⟨bytes, -, h⟩ := bind_eq_ok.mp h
  obtain ⟨signature, -, h⟩ := bind_eq_ok.mp h
  cases pq with
  | none =>
      rw [pure_eq_ok] at h
      subst h
      exact ⟨rfl, rfl, rfl⟩
  | some key =>
      obtain ⟨message, -, h⟩ := bind_eq_ok.mp h
      obtain ⟨signed, -, h⟩ := bind_eq_ok.mp h
      rw [pure_eq_ok] at h
      subst h
      exact ⟨rfl, rfl, rfl⟩

/-- A forged block lies on top of its predecessor, under the key and the time it was asked for. -/
theorem forgeBlockWith_ok {E : Env} {keys : BlockKey} {pq : Option PqKeyPair} {previous b : Block}
    {timestamp : UInt32} {txs : List Transaction}
    (h : forgeBlockWith E keys pq previous timestamp txs = .ok b) :
    b.height = previous.height + 1 ∧ b.timestamp = timestamp ∧
    b.generatorPublicKey = keys.publicKey := by
  obtain ⟨raw, -, h⟩ := bind_eq_ok.mp h
  obtain ⟨payloadHash, -, h⟩ := bind_eq_ok.mp h
  obtain ⟨signed, hsigned, h⟩ := bind_eq_ok.mp h
  obtain ⟨id, -, h⟩ := bind_eq_ok.mp h
  rw [pure_eq_ok] at h
  subst h
  exact signBlock_ok hsigned

end SthCore
