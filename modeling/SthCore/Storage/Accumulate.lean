import SthCore.Storage.Store

/-!
What the blocks of one write change: `accumulate_deltas` merges the effects of
every transaction into one delta for each address.
-/

namespace SthCore

open SthCore.Lib

/-- Accumulated changes by address. -/
abbrev Deltas := OrderedMap Text WalletDelta

/-- The latest entry with key `k` of an append-only list. -/
def lastEntry {α : Type} (entries : List (Text × α)) (k : Text) : Option α :=
  (entries.reverse.find? fun e => e.1 = k).map (·.2)

/-- A list of entries without those of key `k`. -/
def withoutKey {α : Type} (entries : List (Text × α)) (k : Text) : List (Text × α) :=
  entries.filter fun e => e.1 ≠ k

/-- The ways in which a block changes one entry of the deltas. -/
inductive Op where
  /-- Reward and fees of the forger, less what is burned. -/
  | forge (block : Block) (burned : UInt64)
  /-- Amount, fee and nonce of a sender. -/
  | spend (tx : Transaction)
  | pay (amount : Int)
  | payToken (id : Text) (amount : Int)
  | paySupply (id : Text) (amount : Int)
  | issue (id : Text) (st : TokenState)
  | manifest (id : Text) (m : TokenMeta)
  | putOrder (oid : Text) (o : TokenOrder)
  | trade (t : TokenTrade)
  | putObject (reg : Text) (rec : SmartObject)
  /-- Hand an object over, with its token registry when it has one. -/
  | dropObject (reg : Text) (registry : Bool)
  | ownObject (reg owner : Text)
  | addLock (l : LockRecord)
  | removeLock (id : Text)
  | commit (c : PqCommitment)
  | vote (v : Option Text)
  | username (u : Text)
  | secondKey (pk : Text)
  | pqKey (k : PqKey)
  | resign
  | multiSignature (ms : MultiSignatureAsset)

/-- One change of a delta. -/
def Op.apply (op : Op) (d : WalletDelta) : WalletDelta :=
  match op with
  | forge block burned =>
      { d with
        balance := d.balance + (block.reward.toNat + block.totalFee.toNat - burned.toNat : Int)
        publicKey := some block.generatorPublicKey
        producedBlocks := d.producedBlocks + 1
        forgedFees := d.forgedFees + block.totalFee
        forgedRewards := d.forgedRewards + block.reward
        lastBlock := some { id := block.id.getD "", height := block.height,
                            timestamp := block.timestamp } }
  | spend tx =>
      { d with
        balance := d.balance - (tx.amount.toNat + tx.fee.toNat : Int)
        nonce := d.nonce + 1
        publicKey := some tx.senderPublicKey }
  | pay amount => { d with balance := d.balance + amount }
  | payToken id amount =>
      { d with tokens := OrderedMap.upsert d.tokens id 0 fun v => v + amount }
  | paySupply id amount =>
      { d with tokenSupply := OrderedMap.upsert d.tokenSupply id 0 fun v => v + amount }
  | issue id st => { d with tokensIssued := d.tokensIssued ++ [(id, st)] }
  | manifest id m => { d with tokenMeta := d.tokenMeta ++ [(id, m)] }
  | putOrder oid o => { d with orders := d.orders.insert oid o }
  | trade t => { d with trades := d.trades ++ [t] }
  | putObject reg rec => { d with sobjects := d.sobjects ++ [(reg, rec)] }
  | dropObject reg registry =>
      { d with
        sobjects := withoutKey d.sobjects reg
        tokensIssued := withoutKey d.tokensIssued reg
        sobjOwner := withoutKey d.sobjOwner reg
        sobjectsRemoved := d.sobjectsRemoved ++ [reg]
        tokensRemoved := if registry then d.tokensRemoved ++ [reg] else d.tokensRemoved }
  | ownObject reg owner => { d with sobjOwner := d.sobjOwner ++ [(reg, owner)] }
  | addLock l => { d with locksAdded := d.locksAdded ++ [l] }
  | removeLock id => { d with locksRemoved := d.locksRemoved ++ [id] }
  | commit c => { d with pqCommitment := some c }
  | vote v => { d with vote := some v }
  | username u => { d with username := some u }
  | secondKey pk => { d with secondPublicKey := some pk }
  | pqKey k => { d with pqKey := some k }
  | resign => { d with resigned := true }
  | multiSignature ms => { d with multiSignature := some ms }

/-- Changes of entries, in order. -/
abbrev Ops := List (Text × Op)

namespace Deltas

/-- `deltas.entry(address).or_default()`, changed by `f`. -/
def upd (ds : Deltas) (address : Text) (f : WalletDelta → WalletDelta) : Deltas :=
  OrderedMap.upsert ds address {} f

/-- The delta of an address, empty when it has no entry. -/
def get (ds : Deltas) (address : Text) : WalletDelta := ds[address]?.getD {}

def run (ds : Deltas) (ops : Ops) : Deltas := ops.foldl (fun ds o => ds.upd o.1 o.2.apply) ds

/-- The first address, in key order, whose delta holds a record of the object. -/
def pendingOwner (ds : Deltas) (reg : Text) : Option Text :=
  (ds.toList.find? fun e => e.2.sobjects.any fun r => r.1 = reg).map (·.1)

/-- The first address whose delta issues the token. -/
def pendingIssuer (ds : Deltas) (id : Text) : Option Text :=
  (ds.toList.find? fun e => e.2.tokensIssued.any fun r => r.1 = id).map (·.1)

/-- The first pending version of an order. -/
def pendingOrder (ds : Deltas) (oid : Text) : Option TokenOrder :=
  ds.toList.findSome? fun e => e.2.orders[oid]?

end Deltas

/-- STH burned by the token registrations of a block. -/
def burnedBy (E : Env) (block : Block) : UInt64 :=
  let inits := (block.transactions.filter fun t => t.typeGroup = typeGroupToken && t.type = 0).length
  if inits > 0 ∧ E.network.burnAddress ≠ "" then
    UInt64.ofNat inits * (E.network.milestone block.height).tokenFees.initBurn
  else 0

/-- `find_lock`: the transaction of the batch with this id, or a stored one. -/
def findLock (E : Env) (s : Store) (batch : List Block) (id : Text) :
    Except Error (Option Transaction) :=
  match batch.findSome? fun b => b.transactions.find? (Store.hasId id) with
  | some tx => .ok (some tx)
  | none => s.getTransaction E id

namespace Accumulate

/-- Reward and fees of the forger, with the burned part moved to the burn address. -/
def forger (E : Env) (block : Block) : Except Error Ops := do
  let generator ← E.addressOf block.generatorPublicKey
  let burned := burnedBy E block
  return (if burned > 0 then [(E.network.burnAddress, .pay burned.toNat)] else []) ++
    [(generator, .forge block burned)]

/-- The record of an object at an address: pending, else stored. -/
def recordAt (s : Store) (ds : Deltas) (address reg : Text) : Option SmartObject :=
  (lastEntry (ds.get address).sobjects reg).or (s.heldSobject address reg)

/-- Both sides of a transfer or purchase: previous and next owner. -/
def parties (E : Env) (s : Store) (ds : Deltas) (sender reg : Text) (e : SmartObjectAsset) :
    Option (Text × Text) :=
  if SobjAction.ofCode e.action = some .buy then
    ((ds.pendingOwner reg).or ((s.findSobject E reg).map (·.1))).map fun owner => (owner, sender)
  else e.recipientId.map fun recipient => (sender, recipient)

/-- The token registered under an object: pending at its previous owner, else
stored. -/
def registryAt (s : Store) (ds : Deltas) (owner reg : Text) : Option TokenState :=
  (lastEntry (ds.get owner).tokensIssued reg).or (s.tokenState reg)

/-- Move an object, with its token registry, from one wallet to another. -/
def moveObject (reg : Text) (rec : SmartObject) (token : Option TokenState)
    (previous next : Text) : Ops :=
  [(previous, .dropObject reg token.isSome),
    (next, .putObject reg rec),
    (next, .ownObject reg next)] ++
  match token with
  | some st => [(next, .issue reg { st with owner := next })]
  | none => []

/-- The price of a purchase, from buyer to owner. -/
def salePrice (buyer owner : Text) (rec : SmartObject) : Ops :=
  [(buyer, .pay (-((rec.price.getD 0).toNat : Int))), (owner, .pay (rec.price.getD 0).toNat)]

/-- Transfer and purchase of a smart object. -/
def handOver (E : Env) (s : Store) (sender : Text) (e : SmartObjectAsset) (ds : Deltas) : Ops :=
  match e.registrationId with
  | none => []
  | some reg =>
      match parties E s ds sender reg e with
      | none => []
      | some (previous, next) =>
          match recordAt s ds previous reg with
          | none => []
          | some rec =>
              (if SobjAction.ofCode e.action = some .buy then salePrice sender previous rec
                else []) ++
              moveObject reg { rec with price := none } (registryAt s ds previous reg)
                previous next

/-- What update, sell and resign make of a record. -/
def editRecord (e : SmartObjectAsset) (rec : SmartObject) : SmartObject :=
  match SobjAction.ofCode e.action with
  | some .update => { rec with data := { rec.data with ntfryData := e.data.ntfryData } }
  | some .sell => { rec with price := e.price.filter fun p => p > 0 }
  | _ => { rec with resigned := true }

def newRecord (e : SmartObjectAsset) : SmartObject :=
  { type := e.type, subType := e.subType, data := e.data }

/-- Update, sell and resign of an object of the sender. -/
def edit (s : Store) (sender : Text) (e : SmartObjectAsset) (ds : Deltas) : Ops :=
  match e.registrationId with
  | none => []
  | some reg =>
      match recordAt s ds sender reg with
      | none => []
      | some rec => [(sender, .putObject reg (editRecord e rec))]

/-- Effects of a smart object transaction. -/
def sobj (E : Env) (s : Store) (tx : Transaction) (sender : Text) (e : SmartObjectAsset)
    (ds : Deltas) : Ops :=
  match tx.id with
  | none => []
  | some id =>
      match SobjAction.ofCode e.action with
      | some .transfer => handOver E s sender e ds
      | some .buy => handOver E s sender e ds
      | some .register => [(sender, .putObject id (newRecord e))]
      | _ => edit s sender e ds

/-- The registry entry a `TokenInit` creates. -/
def initialState (a : TokenAsset) (symbol sender : Text) (height : Nat) : TokenState :=
  { symbol, decimals := a.decimals.getD 0, flags := a.flags.getD 0,
    supply := a.initialSupply.getD 0, supplyCap := a.supplyCap.getD 0, owner := sender,
    initHeight := height }

/-- The order a `TokenSell` opens. -/
def newOrder (a : TokenAsset) (id sender : Text) (height : Nat) : TokenOrder :=
  { id, tokenId := a.id, seller := sender, amount := a.amount.getD 0, filled := 0,
    price := a.price.getD 0, height }

/-- An order after a fill. -/
def fillOrder (o : TokenOrder) (amount : UInt64) (txId : Text) (height : Nat) : TokenOrder :=
  { o with filled := o.filled + amount
           fills := o.fills ++ [txId]
           closed := if o.filled + amount ≥ o.amount then some height else o.closed }

def closeOrder (o : TokenOrder) (height : Nat) : TokenOrder := { o with closed := some height }

/-- The trade a fill records. -/
def tradeOf (block : Block) (index : Nat) (tx : Transaction) (sender : Text) (a : TokenAsset)
    (o : TokenOrder) : TokenTrade :=
  { txId := tx.id.getD "", orderId := a.orderId.getD "", tokenId := a.id, buyer := sender,
    seller := o.seller, amount := a.amount.getD 0, price := o.price,
    total := satMul (a.amount.getD 0) o.price, height := block.height,
    seq := tx.sequence.getD (UInt32.ofNat index), timestamp := block.timestamp }

/-- `TokenBuy`: STH from buyer to seller, escrowed tokens to the buyer. -/
def buy (block : Block) (index : Nat) (tx : Transaction) (sender : Text) (a : TokenAsset)
    (o : TokenOrder) : Ops :=
  let amount := a.amount.getD 0
  let total := satMul amount o.price
  [(sender, .pay (-(total.toNat : Int))),
    (sender, .payToken a.id amount.toNat),
    (sender, .trade (tradeOf block index tx sender a o)),
    (o.seller, .pay total.toNat),
    (o.seller, .putOrder (a.orderId.getD "") (fillOrder o amount (tx.id.getD "") block.height))]

/-- `TokenCancel`: what is left of the order goes back to the seller. -/
def cancel (block : Block) (a : TokenAsset) (o : TokenOrder) : Ops :=
  [(o.seller, .payToken a.id o.remaining.toNat),
    (o.seller, .putOrder (a.orderId.getD "") (closeOrder o block.height))]

/-- The order a fill or a cancellation names. -/
def orderOf (s : Store) (ds : Deltas) (oid : Text) : Except Error TokenOrder :=
  match (ds.pendingOrder oid).or (s.tokenOrder oid) with
  | some o => .ok o
  | none => .error (.sync s!"TokenOrderNotFoundError: {oid}")

/-- The wallet whose registry entry a burn reduces. -/
def burnOwner (s : Store) (ds : Deltas) (id sender : Text) : Text :=
  ((s.tokenOwner[id]?).or (ds.pendingIssuer id)).getD sender

/-- Effects of a token transaction. -/
def token (E : Env) (s : Store) (block : Block) (index : Nat) (tx : Transaction)
    (sender : Text) (type : TokenType) (a : TokenAsset) (ds : Deltas) : Except Error Ops := do
  let amount : Int := (a.amount.getD 0).toNat
  match type with
  | .init => do
      let symbol := ((← s.getSobject E a.id).bind (·.2.data.name)).getD ""
      return [(sender, .issue a.id (initialState a symbol sender block.height)),
        (sender, .payToken a.id (a.initialSupply.getD 0).toNat)]
  | .transfer =>
      return (a.transfers.getD []).flatMap fun it =>
        [(sender, .payToken a.id (-(it.amount.toNat : Int))),
          (it.recipientId, .payToken a.id it.amount.toNat)]
  | .mint =>
      return [(a.recipientId.getD "", .payToken a.id amount), (sender, .paySupply a.id amount)]
  | .tokenMeta =>
      match a.tokenMeta with
      | some m => return [(sender, .manifest a.id m)]
      | none => return []
  | .sell =>
      let id := tx.id.getD ""
      return [(sender, .payToken a.id (-amount)),
        (sender, .putOrder id (newOrder a id sender block.height))]
  | .buy => return buy block index tx sender a (← orderOf s ds (a.orderId.getD ""))
  | .cancel => return cancel block a (← orderOf s ds (a.orderId.getD ""))
  | .burn =>
      return [(sender, .payToken a.id (-amount)),
        (burnOwner s ds a.id sender, .paySupply a.id (-amount))]

def commitmentPrefix : Text := "sthpq1:"

/-- `pq::parse_commitment`. -/
def parseCommitment (vendorField : Text) : Option (UInt8 × Text) := do
  let chars := vendorField.toList
  let head := commitmentPrefix.toList
  if !head.isPrefixOf chars then none
  let rest := chars.drop head.length
  let alg := rest.takeWhile (· ≠ ':')
  if rest.length ≤ alg.length then none
  let hash := rest.drop (alg.length + 1)
  let lowerHex (c : Char) : Bool := c.isDigit || ('a' ≤ c && c ≤ 'f')
  if (Text.mk alg).utf8ByteSize ≠ 2 ∨ hash.length ≠ 64 ∨ !hash.all lowerHex then none
  -- the only known algorithm is 1; the parser of hex numbers takes a plus sign
  if alg ≠ ['0', '1'] ∧ alg ≠ ['+', '1'] then none
  return (algMlDsa44, Text.mk hash)

/-- The stage-A commitment a self-transfer publishes. -/
def commitmentOf (block : Block) (tx : Transaction) (sender recipient : Text) :
    Option PqCommitment :=
  if recipient = sender ∧ tx.amount ≥ 1 then
    (tx.vendorField.bind parseCommitment).map fun c =>
      { algorithm := c.1, commitment := c.2, height := block.height }
  else none

def transfer (block : Block) (tx : Transaction) (sender : Text) : Ops :=
  match tx.recipientId with
  | none => []
  | some r =>
      (r, .pay tx.amount.toNat) ::
        match commitmentOf block tx sender r with
        | some c => [(sender, .commit c)]
        | none => []

def multiPayment (tx : Transaction) (sender : Text) : Ops :=
  tx.payments.flatMap fun p =>
    [(p.recipientId, .pay p.amount.toNat), (sender, .pay (-(p.amount.toNat : Int)))]

/-- The vote one entry of `asset.votes` casts: a key after a plus sign. -/
def voteOf (v : Text) : Option Text :=
  match v.toList with
  | '+' :: pk => some (Text.mk pk)
  | _ => none

def vote (tx : Transaction) (sender : Text) : Ops :=
  ((tx.asset.bind (·.votes)).getD []).map fun v => (sender, .vote (voteOf v))

def secondSignature (block : Block) (tx : Transaction) (sender : Text) : Ops :=
  match tx.asset.bind (·.signature) with
  | none => []
  | some sig =>
      if tx.isPq then
        [(sender, .pqKey { algorithm := sig.algorithm.getD algMlDsa44,
                           publicKey := sig.publicKey, since := block.height })]
      else [(sender, .secondKey sig.publicKey)]

/-- The record of the lock a transaction opens. -/
def lockRecord (block : Block) (tx : Transaction) : Option LockRecord := do
  let lock ← tx.asset.bind (·.lock)
  let id ← tx.id
  let recipient ← tx.recipientId
  return { lockId := id, senderPublicKey := tx.senderPublicKey, recipientId := recipient,
           amount := tx.amount, secretHash := lock.secretHash, expiration := lock.expiration,
           timestamp := block.timestamp, vendorField := tx.vendorField }

def htlcClaim (E : Env) (s : Store) (batch : List Block) (id : Text) : Except Error Ops := do
  match ← findLock E s batch id with
  | none => return []
  | some lock =>
      let lockSender ← E.addressOf lock.senderPublicKey
      return (match lock.recipientId with
        | some r => [(r, .pay lock.amount.toNat)]
        | none => []) ++ [(lockSender, .removeLock id)]

def htlcRefund (E : Env) (s : Store) (batch : List Block) (id : Text) : Except Error Ops := do
  match ← findLock E s batch id with
  | none => return []
  | some lock =>
      let lockSender ← E.addressOf lock.senderPublicKey
      return [(lockSender, .pay lock.amount.toNat), (lockSender, .removeLock id)]

/-- Effects of a core transaction. -/
def core (E : Env) (s : Store) (batch : List Block) (block : Block) (tx : Transaction)
    (sender : Text) (type : CoreType) : Except Error Ops := do
  match type with
  | .transfer => return transfer block tx sender
  | .multiPayment => return multiPayment tx sender
  | .vote => return vote tx sender
  | .delegateRegistration =>
      match tx.asset.bind (·.delegate) with
      | some del => return [(sender, .username del.username)]
      | none => return []
  | .secondSignature => return secondSignature block tx sender
  | .delegateResignation => return [(sender, .resign)]
  | .multiSignature =>
      match tx.asset.bind (·.multiSignature) with
      | some ms =>
          let address ← addressFromMultiSignature E.prim ms E.network.pubkeyHash
          return [(address, .multiSignature ms)]
      | none => return []
  | .htlcLock =>
      match lockRecord block tx with
      | some l => return [(sender, .addLock l)]
      | none => return []
  | .htlcClaim =>
      match tx.asset.bind (·.claim) with
      | some c => htlcClaim E s batch c.lockTransactionId
      | none => return []
  | .htlcRefund =>
      match tx.asset.bind (·.refund) with
      | some r => htlcRefund E s batch r.lockTransactionId
      | none => return []
  | .ipfs => return []

/-- Effects of a transaction beyond its sender's debit. -/
def effect (E : Env) (s : Store) (batch : List Block) (block : Block) (index : Nat)
    (tx : Transaction) (sender : Text) (ds : Deltas) : Except Error Ops :=
  match tx.sobjAsset with
  | some e => .ok (sobj E s tx sender e ds)
  | none =>
      match tx.tokenType, tx.tokenAsset with
      | some type, some a => token E s block index tx sender type a ds
      | _, _ =>
          match tx.coreType with
          | some type => core E s batch block tx sender type
          | none => .ok []

/-- One transaction of `accumulate_deltas`. -/
def transaction (E : Env) (s : Store) (batch : List Block) (block : Block)
    (tx : Transaction) (index : Nat) (ds : Deltas) : Except Error Deltas := do
  let address ← E.addressOf tx.senderPublicKey
  let ds := ds.run [(address, .spend tx)]
  let ops ← effect E s batch block index tx address ds
  return ds.run ops

end Accumulate

/-- `accumulate_deltas`: the forger first, then the transactions in order. -/
def accumulateDeltas (E : Env) (s : Store) (batch : List Block) (block : Block) (ds : Deltas) :
    Except Error Deltas := do
  let ops ← Accumulate.forger E block
  block.transactions.zipIdx.foldlM (fun ds e =>
    Accumulate.transaction E s batch block e.1 e.2 ds) (ds.run ops)

/-- The deltas of a whole sub-batch. -/
def batchDeltas (E : Env) (s : Store) (batch : List Block) : Except Error Deltas :=
  batch.foldlM (fun ds block => accumulateDeltas E s batch block ds) ∅

end SthCore
