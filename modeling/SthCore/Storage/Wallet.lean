import SthCore.Crypto.BlockSerializer

/-!
Wallet states, the per-address changes a block accumulates, and how a change is
applied to a wallet.
-/

namespace SthCore

open SthCore.Lib

/-- A sell order of the token market.  Orders are never deleted. -/
structure TokenOrder where
  id : Text
  tokenId : Text
  seller : Text
  amount : UInt64
  filled : UInt64
  price : UInt64
  height : Nat
  closed : Option Nat := none
  fills : List Text := []
  deriving DecidableEq

def TokenOrder.remaining (o : TokenOrder) : UInt64 := o.amount - o.filled

def TokenOrder.isOpen (o : TokenOrder) : Bool := o.closed.isNone

/-- One executed `TokenBuy`. -/
structure TokenTrade where
  txId : Text
  orderId : Text
  tokenId : Text
  buyer : Text
  seller : Text
  amount : UInt64
  price : UInt64
  total : UInt64
  height : Nat
  seq : UInt32
  timestamp : UInt32
  deriving DecidableEq

/-- Consensus state of a token, kept in its owner's wallet. -/
structure TokenState where
  symbol : Text
  decimals : UInt8
  flags : UInt8
  supply : UInt64
  supplyCap : UInt64
  owner : Text
  initHeight : Nat
  tokenMeta : Option TokenMeta := none
  deriving DecidableEq

/-- A smart object as its holder's wallet records it. -/
structure SmartObject where
  type : UInt8
  subType : UInt8
  data : SmartObjectData
  resigned : Bool := false
  price : Option UInt64 := none
  deriving DecidableEq

/-- An open HTLC lock. -/
structure LockRecord where
  lockId : Text
  senderPublicKey : Text
  recipientId : Text
  amount : UInt64
  secretHash : Text
  expiration : HtlcExpiration
  timestamp : UInt32
  vendorField : Option Text := none
  deriving DecidableEq

structure LastBlock where
  id : Text
  height : Nat
  timestamp : UInt32
  deriving DecidableEq

structure PqKey where
  algorithm : UInt8
  publicKey : Text
  since : Nat
  deriving DecidableEq

structure PqCommitment where
  algorithm : UInt8
  commitment : Text
  height : Nat
  deriving DecidableEq

structure WalletState where
  address : Text
  publicKey : Option Text := none
  balance : Int := 0
  nonce : Nat := 0
  username : Option Text := none
  vote : Option Text := none
  secondPublicKey : Option Text := none
  producedBlocks : UInt64 := 0
  forgedFees : UInt64 := 0
  forgedRewards : UInt64 := 0
  lastBlock : Option LastBlock := none
  resigned : Bool := false
  locks : OrderedMap Text LockRecord := ∅
  multiSignature : Option MultiSignatureAsset := none
  sobjects : OrderedMap Text SmartObject := ∅
  pqCommitment : Option PqCommitment := none
  pqKey : Option PqKey := none
  tokens : OrderedMap Text UInt64 := ∅
  tokensIssued : OrderedMap Text TokenState := ∅

/-- `WalletState::new`. -/
def WalletState.new (address : Text) : WalletState := { address }

/-- Changes of one address, accumulated over the blocks of one write. -/
structure WalletDelta where
  balance : Int := 0
  nonce : Nat := 0
  publicKey : Option Text := none
  username : Option Text := none
  /-- `some (some pk)` is a vote, `some none` an unvote. -/
  vote : Option (Option Text) := none
  secondPublicKey : Option Text := none
  producedBlocks : UInt64 := 0
  forgedFees : UInt64 := 0
  forgedRewards : UInt64 := 0
  lastBlock : Option LastBlock := none
  resigned : Bool := false
  locksAdded : List LockRecord := []
  locksRemoved : List Text := []
  multiSignature : Option MultiSignatureAsset := none
  sobjects : List (Text × SmartObject) := []
  sobjectsRemoved : List Text := []
  tokensRemoved : List Text := []
  sobjOwner : List (Text × Text) := []
  pqCommitment : Option PqCommitment := none
  pqKey : Option PqKey := none
  tokens : OrderedMap Text Int := ∅
  tokensIssued : List (Text × TokenState) := []
  tokenSupply : OrderedMap Text Int := ∅
  tokenMeta : List (Text × TokenMeta) := []
  orders : OrderedMap Text TokenOrder := ∅
  trades : List TokenTrade := []

def i64Min : Int := -2 ^ 63
def i64Max : Int := 2 ^ 63 - 1
def u64Max : Int := 2 ^ 64 - 1

/-- `saturating_add`, `saturating_sub` and `saturating_mul` of `u64`. -/
def satAdd (a b : UInt64) : UInt64 := UInt64.ofNat (min (a.toNat + b.toNat) (2 ^ 64 - 1))
def satSub (a b : UInt64) : UInt64 := UInt64.ofNat (a.toNat - b.toNat)
def satMul (a b : UInt64) : UInt64 := UInt64.ofNat (min (a.toNat * b.toNat) (2 ^ 64 - 1))

namespace WalletState

def isDelegate (w : WalletState) : Bool := w.username.isSome

/-- Sum of the open locks. -/
def lockedBalance (w : WalletState) : UInt64 :=
  (w.locks.toList.map (·.2.amount)).sum

/-- The manifests of a delta, written into the registry entries they name. -/
def applyTokenMeta (address : Text) (issued : OrderedMap Text TokenState)
    (entry : Text × TokenMeta) : Except Error (OrderedMap Text TokenState) :=
  match issued[entry.1]? with
  | none => .error (.sync s!"token {entry.1} not issued by {address}")
  | some st => .ok (issued.insert entry.1 { st with tokenMeta := some entry.2 })

def applyTokenSupply (address : Text) (issued : OrderedMap Text TokenState)
    (entry : Text × Int) : Except Error (OrderedMap Text TokenState) :=
  match issued[entry.1]? with
  | none => .error (.sync s!"token {entry.1} not issued by {address}")
  | some st =>
      let v := (st.supply.toNat : Int) + entry.2
      if v < 0 ∨ v > u64Max then .error (.sync s!"token {entry.1} supply out of range")
      else .ok (issued.insert entry.1 { st with supply := UInt64.ofNat v.toNat })

def applyTokenBalance (address : Text) (tokens : OrderedMap Text UInt64)
    (entry : Text × Int) : Except Error (OrderedMap Text UInt64) :=
  let v := ((tokens[entry.1]?.getD 0).toNat : Int) + entry.2
  if v < 0 ∨ v > u64Max then
    .error (.sync s!"negative token balance for {address} ({entry.1})")
  else if v = 0 then .ok (tokens.erase entry.1)
  else .ok (tokens.insert entry.1 (UInt64.ofNat v.toNat))

/-- The token registry of a wallet after a delta, before handed-over entries
are dropped. -/
def issuedAfter (w : WalletState) (d : WalletDelta) :
    Except Error (OrderedMap Text TokenState) := do
  let issued := d.tokensIssued.foldl (fun m e => m.insert e.1 e.2) w.tokensIssued
  let issued ← d.tokenMeta.foldlM (applyTokenMeta w.address) issued
  d.tokenSupply.toList.foldlM (applyTokenSupply w.address) issued

def locksAfter (w : WalletState) (d : WalletDelta) : OrderedMap Text LockRecord :=
  d.locksAdded.foldl (fun m l => m.insert l.lockId l)
    (d.locksRemoved.foldl (fun m id => m.erase id) w.locks)

def sobjectsAfter (w : WalletState) (d : WalletDelta) : OrderedMap Text SmartObject :=
  d.sobjects.foldl (fun m e => m.insert e.1 e.2)
    (d.sobjectsRemoved.foldl (fun m id => m.erase id) w.sobjects)

/-- `WalletState::apply`. -/
def apply (w : WalletState) (d : WalletDelta) : Except Error WalletState := do
  let balance := w.balance + d.balance
  if balance < i64Min ∨ i64Max < balance then
    throw (.overflow s!"balance overflow for {w.address}")
  if w.nonce + d.nonce ≥ 2 ^ 64 then
    throw (.overflow s!"nonce overflow for {w.address}")
  let issued ← issuedAfter w d
  let tokens ← d.tokens.toList.foldlM (applyTokenBalance w.address) w.tokens
  return {
    address := w.address
    publicKey := w.publicKey.or d.publicKey
    balance
    nonce := w.nonce + d.nonce
    username := d.username.or w.username
    vote := d.vote.getD w.vote
    secondPublicKey := if d.pqKey.isSome then none else d.secondPublicKey.or w.secondPublicKey
    producedBlocks := w.producedBlocks + d.producedBlocks
    forgedFees := satAdd w.forgedFees d.forgedFees
    forgedRewards := satAdd w.forgedRewards d.forgedRewards
    lastBlock := d.lastBlock.or w.lastBlock
    resigned := w.resigned || d.resigned
    locks := locksAfter w d
    multiSignature := d.multiSignature.or w.multiSignature
    sobjects := sobjectsAfter w d
    pqCommitment := d.pqCommitment.or w.pqCommitment
    pqKey := d.pqKey.or w.pqKey
    tokens
    tokensIssued := d.tokensRemoved.foldl (fun m id => m.erase id) issued }

end WalletState

/-- `vote_weight`: the voted delegate and the wallet's weight. -/
def voteWeight (w : Option WalletState) : Option (Text × UInt64) := do
  let w ← w
  let pk ← w.vote
  return (pk, UInt64.ofNat w.balance.toNat + w.lockedBalance)

end SthCore
