import SthCore.Crypto.VerifyBlock
import SthCore.Storage.Apply

/-!
Intake of blocks: linkage and cryptographic checks, the wallet-aware rules over
a whole batch, and the write.
-/

namespace SthCore

open SthCore.Lib

namespace Sync

/-- Last applied block; height 0 without id is an empty database. -/
structure ChainTip where
  height : Nat
  id : Option Text := none
  deriving DecidableEq

/-- State of the wallet-aware rules: storage plus the changes of the
transactions already checked. -/
structure Batch where
  keys : OrderedMap Text (Option Text) := ∅
  pqKeys : OrderedMap Text (Option PqKey) := ∅
  /-- Pending smart objects by holder. -/
  sobjects : OrderedMap Text (OrderedMap Text SmartObject) := ∅
  names : OrderedMap Text Unit := ∅
  transferred : OrderedMap Text Text := ∅
  /-- STH moved inside the batch. -/
  sthDelta : OrderedMap Text Int := ∅
  /-- Locks opened inside the batch: sender, recipient, amount. -/
  pendingLocks : OrderedMap Text (Text × Text × UInt64) := ∅
  states : OrderedMap Text TokenState := ∅
  balances : OrderedMap (Text × Text) UInt64 := ∅
  orders : OrderedMap Text TokenOrder := ∅

namespace Batch

/-- Add to the running STH change of an address. -/
def credit (b : Batch) (address : Text) (amount : Int) : Batch :=
  { b with sthDelta := OrderedMap.upsert b.sthDelta address 0 fun v => v + amount }

def sth (b : Batch) (address : Text) : Int := b.sthDelta[address]?.getD 0

/-- The pending objects of one holder. -/
def held (b : Batch) (address : Text) : OrderedMap Text SmartObject :=
  b.sobjects[address]?.getD ∅

/-- The pending record of an object with its holder. -/
def pendingSobject (b : Batch) (reg : Text) : Option (Text × SmartObject) :=
  b.sobjects.toList.findSome? fun e => e.2[reg]?.map fun r => (e.1, r)

/-- Pending record first, then storage. -/
def lookup (E : Env) (s : Store) (b : Batch) (reg : Text) : Option (Text × SmartObject) :=
  (b.pendingSobject reg).or (s.findSobject E reg)

def putSobject (b : Batch) (address reg : Text) (rec : SmartObject) : Batch :=
  { b with sobjects := b.sobjects.insert address ((b.held address).insert reg rec) }

def dropSobject (b : Batch) (address reg : Text) : Batch :=
  match b.sobjects[address]? with
  | some held => { b with sobjects := b.sobjects.insert address (held.erase reg) }
  | none => b

/-! The token view of a batch. -/

def tokenOwner (s : Store) (b : Batch) (id : Text) : Option Text :=
  ((b.states[id]?).map fun st => st.owner).or (s.tokenOwner[id]?)

def tokenState (s : Store) (b : Batch) (id : Text) : Option TokenState :=
  (b.states[id]?).or (s.tokenState id)

def tokenBalance (s : Store) (b : Batch) (address id : Text) : UInt64 :=
  (b.balances[(address, id)]?).getD (s.tokenBalance address id)

def order (s : Store) (b : Batch) (id : Text) : Option TokenOrder :=
  (b.orders[id]?).or (s.tokenOrder id)

/-- Ids of the open orders of a seller for a token. -/
def openOrderIds (s : Store) (b : Batch) (seller tokenId : Text) : List Text :=
  let stored := ((s.walletOrders seller).filter fun o => o.tokenId = tokenId).map (·.id)
  let touched := (b.orders.toList.map (·.2)).filter fun o =>
    o.seller = seller && o.tokenId = tokenId
  touched.foldl (fun ids o => if o.isOpen then ids.insert o.id else ids.filter (· ≠ o.id))
    stored.dedup

/-- Owner, name and resigned mark of an object of the ticker type. -/
def tickerSobj (E : Env) (s : Store) (b : Batch) (id : Text) :
    Option (Text × Text × Bool) := do
  let (owner, r) ← b.lookup E s id
  if r.type = tickerSobjType then return (owner, r.data.name.getD "", r.resigned) else none

def tokenView (E : Env) (s : Store) (b : Batch) : Rules.TokenView where
  tokenOwner := b.tokenOwner s
  tokenState := b.tokenState s
  tokenBalance := b.tokenBalance s
  tickerSobj := b.tickerSobj E s
  order := b.order s
  openOrders := fun seller id => (b.openOrderIds s seller id).length

/-- Add to a token balance, never below zero. -/
def bump (s : Store) (b : Batch) (address id : Text) (delta : Int) : Batch :=
  let next := max (((b.tokenBalance s address id).toNat : Int) + delta) 0
  { b with balances := b.balances.insert (address, id) (UInt64.ofNat next.toNat) }

/-- Change the pending registry entry of a token, if there is one. -/
def modifyState (s : Store) (b : Batch) (id : Text) (f : TokenState → TokenState) : Batch :=
  match b.tokenState s id with
  | some st => { b with states := b.states.insert id (f st) }
  | none => b

def setOwner (s : Store) (b : Batch) (id owner : Text) : Batch :=
  b.modifyState s id fun st => { st with owner }

def putOrder (b : Batch) (id : Text) (o : TokenOrder) : Batch :=
  { b with orders := b.orders.insert id o }

/-- `BatchTokenView::apply`. -/
def applyToken (E : Env) (s : Store) (b : Batch) (type : TokenType) (a : TokenAsset)
    (sender : Text) (height : Nat) (txId : Text) : Batch :=
  let amount := a.amount.getD 0
  match type with
  | .init =>
      let b := b.bump s sender a.id (a.initialSupply.getD 0).toNat
      let symbol := ((b.tickerSobj E s a.id).map fun t => t.2.1).getD (Text.ofString "")
      { b with states := b.states.insert a.id (Accumulate.initialState a symbol sender height) }
  | .transfer =>
      (a.transfers.getD []).foldl (fun b it =>
        (b.bump s sender a.id (-(it.amount.toNat : Int))).bump s it.recipientId a.id
          it.amount.toNat) b
  | .mint =>
      (b.bump s (a.recipientId.getD "") a.id amount.toNat).modifyState s a.id fun st =>
        { st with supply := satAdd st.supply amount }
  | .tokenMeta => b.modifyState s a.id fun st => { st with tokenMeta := a.tokenMeta }
  | .sell =>
      (b.bump s sender a.id (-(amount.toNat : Int))).putOrder txId
        (Accumulate.newOrder a txId sender height)
  | .buy =>
      match a.orderId.bind (b.order s) with
      | none => b
      | some o =>
          let filled := o.filled + amount
          (b.bump s sender a.id amount.toNat).putOrder (a.orderId.getD "")
            { o with filled, closed := if filled ≥ o.amount then some height else o.closed }
  | .cancel =>
      match a.orderId.bind (b.order s) with
      | none => b
      | some o =>
          (b.bump s o.seller a.id o.remaining.toNat).putOrder (a.orderId.getD "")
            { o with closed := some height }
  | .burn =>
      (b.bump s sender a.id (-(amount.toNat : Int))).modifyState s a.id fun st =>
        { st with supply := satSub st.supply amount }

end Batch

/-- `clamp(i64::MIN, i64::MAX)`. -/
def clampI64 (v : Int) : Int := max i64Min (min i64Max v)

/-- The sender's wallet as the rules see it: the stored one with the running
balance.  A wallet first funded inside the batch has no record yet. -/
def batchWallet (s : Store) (b : Batch) (sender : Text) : Option WalletState :=
  if b.sth sender = 0 then s.getWallet sender
  else
    let w := (s.getWallet sender).getD (WalletState.new sender)
    some { w with balance := clampI64 (w.balance + b.sth sender) }

def failure (block : Block) (tx : Transaction) (message : String) : Error :=
  let id := tx.id.getD "?"
  .blockValidation s!"block {block.height} tx {id}: {message}"

/-- The result of a rule inside a block. -/
def ruled {α : Type} (block : Block) (tx : Transaction) (check : Rules.Check α) : Except Error α :=
  match check with
  | .ok a => .ok a
  | .error m => .error (failure block tx m)

/-- The hybrid block signature is checked against the key before the block. -/
def checkBlockPqKey (E : Env) (s : Store) (b : Batch) (block : Block) : Except Error Unit :=
  if block.version ≠ blockVersionPq then .ok ()
  else do
    let generator ← E.addressOf block.generatorPublicKey
    let key := match b.pqKeys[generator]? with
      | some k => k
      | none => (s.getWallet generator).bind fun w => w.pqKey
    match key with
    | none => throw (.blockValidation
        (s!"block {block.height}: BlockPqKeyMissingError: delegate " ++
          s!"{block.generatorPublicKey} has no registered PQ key"))
    | some k =>
        if !(← verifyBlockPqSignature E.prim block k.publicKey) then
          throw (.blockValidation
            (s!"block {block.height}: BlockPqSignatureError: pqSignature does not verify " ++
              "against the delegate's PQ key"))

/-- What a transaction takes from its sender before the type-specific rules. -/
def spent (E : Env) (s : Store) (b : Batch) (tx : Transaction) : Int :=
  tx.amount.toNat + tx.fee.toNat + (tx.payments.map fun p => (p.amount.toNat : Int)).sum +
    (Rules.tokenBuyTotal tx (b.tokenView E s)).toNat

def walletBalance (w : Option WalletState) : Int := (w.map fun w => w.balance).getD 0

/-- The balance rule; without `strictBalance` it only warns. -/
def checkBalance (E : Env) (block : Block) (tx : Transaction) (sender : Text)
    (available spent : Int) : Except Error Unit :=
  if block.height > 1 ∧ available < spent ∧ (E.network.milestone block.height).strictBalance then
    .error (failure block tx
      s!"InsufficientBalanceError: sender {sender} has {available}, needs {spent}")
  else .ok ()

/-- The lock a claim or refund names: `claim` is read first. -/
def lockIdOf (tx : Transaction) : Option Text :=
  tx.asset.bind fun a =>
    (a.claim.map fun c => c.lockTransactionId).or (a.refund.map fun r => r.lockTransactionId)

/-- Sender, recipient and amount of a stored open lock. -/
def storedLock (E : Env) (s : Store) (id : Text) : Option (Text × Text × UInt64) := do
  let l ← s.getLock id
  let owner ← (E.addressOf l.senderPublicKey).toOption
  return (owner, l.recipientId, l.amount)

/-- Credit of a claim or refund. -/
def creditLock (E : Env) (s : Store) (b : Batch) (tx : Transaction) (claim : Bool) : Batch :=
  match lockIdOf tx with
  | none => b
  | some id =>
      match (b.pendingLocks[id]?).or (storedLock E s id) with
      | none => b
      | some (owner, recipient, amount) =>
          let b := { b with pendingLocks := b.pendingLocks.erase id }
          b.credit (if claim then recipient else owner) amount.toNat

/-- Credits of a core transaction. -/
def creditCore (E : Env) (s : Store) (b : Batch) (tx : Transaction) (sender : Text) : Batch :=
  match tx.coreType with
  | some .transfer =>
      match tx.recipientId with
      | some r => b.credit r tx.amount.toNat
      | none => b
  | some .multiPayment => tx.payments.foldl (fun b p => b.credit p.recipientId p.amount.toNat) b
  | some .htlcLock =>
      match tx.id, tx.recipientId with
      | some id, some r =>
          { b with pendingLocks := b.pendingLocks.insert id (sender, r, tx.amount) }
      | _, _ => b
  | some .htlcClaim => creditLock E s b tx true
  | some .htlcRefund => creditLock E s b tx false
  | _ => b

/-- Second keys and quantum-shield keys of the sender. -/
def checkKeys (E : Env) (b : Batch) (block : Block) (tx : Transaction) (sender : Text)
    (wallet : Option WalletState) : Except Error Batch := do
  let b : Batch := match b.keys[sender]? with
    | some _ => b
    | none => { b with
        keys := b.keys.insert sender (wallet.bind fun w => w.secondPublicKey)
        pqKeys := b.pqKeys.insert sender (wallet.bind fun w => w.pqKey) }
  let key (b : Batch) : Option Text := (b.keys[sender]?).join
  let view : Rules.PqWalletView :=
    { secondPublicKey := key b, pqKey := (b.pqKeys[sender]?).join
      commitment := wallet.bind fun w => w.pqCommitment }
  let installed ← ruled block tx (Rules.checkPq E.prim tx (E.network.milestone block.height)
    block.height E.network.pqActivationHeight view)
  let b : Batch := match installed with
    | some k => { b with pqKeys := b.pqKeys.insert sender (some k)
                         keys := b.keys.insert sender none }
    | none => b
  ruled block tx (Rules.checkSecondSignature E.prim tx (key b))
  match ← ruled block tx (Rules.registeredSecondKey tx) with
  | some pk => return { b with keys := b.keys.insert sender (some pk) }
  | none => return b

/-- The STH leg of a fill, always strict. -/
def checkTokenBuy (E : Env) (s : Store) (b : Batch) (block : Block) (tx : Transaction)
    (sender : Text) (a : TokenAsset) (wallet : Option WalletState) : Except Error Batch :=
  let total := (Rules.tokenBuyTotal tx (b.tokenView E s)).toNat
  let balance := walletBalance wallet
  if balance < total + tx.fee.toNat then
    .error (failure block tx
      s!"TokenBuyInsufficientBalanceError: buyer has {balance}, needs {total + tx.fee.toNat}")
  else
    let seller := ((b.order s (a.orderId.getD "")).map fun o => o.seller).getD (Text.ofString "")
    .ok ((b.credit sender (-(total : Int))).credit seller total)

def tokenStep (E : Env) (s : Store) (b : Batch) (block : Block) (tx : Transaction)
    (sender : Text) (type : TokenType) (wallet : Option WalletState) : Except Error Batch := do
  let ms := E.network.milestone block.height
  if !ms.tokens then
    throw (failure block tx "Token transaction before tokens activation")
  let a ← ruled block tx (Rules.checkTokenFormat E.prim tx ms)
  ruled block tx (Rules.checkToken type a sender (b.tokenView E s))
  let b ← if type = .buy then checkTokenBuy E s b block tx sender a wallet else .ok b
  return b.applyToken E s type a sender block.height (tx.id.getD "")

def sobjView (E : Env) (s : Store) (b : Batch) (sender : Text) (wallet : Option WalletState) :
    Rules.SobjView where
  wallet
  pending := b.held sender
  nameTaken := fun name type =>
    b.names.contains (sobjNameKey name type) || (s.sobjByName name type).isSome
  lookup := b.lookup E s
  tokenSupply := fun id => (b.tokenState s id).map fun st => st.supply

/-- Transfer and purchase of a smart object. -/
def handOver (E : Env) (s : Store) (b : Batch) (block : Block) (tx : Transaction)
    (sender : Text) (e : SmartObjectAsset) : Except Error Batch := do
  let missing := failure block tx "SmartObjectNotRegisteredError"
  let reg := e.registrationId.getD ""
  let (b, previous, next) ←
    if SobjAction.ofCode e.action = some .buy then
      match b.lookup E s reg with
      | none => throw missing
      | some (owner, rec) =>
          let price : Int := (rec.price.getD 0).toNat
          pure ((b.credit sender (-price)).credit owner price, owner, sender)
    else pure (b, sender, e.recipientId.getD "")
  match ((b.held previous)[reg]?).or (s.heldSobject previous reg) with
  | none => throw missing
  | some rec =>
      let b := ((b.dropSobject previous reg).putSobject next reg { rec with price := none })
      let b := b.setOwner s reg next
      return { b with transferred := b.transferred.insert reg next }

def sobjStep (E : Env) (s : Store) (b : Batch) (block : Block) (tx : Transaction)
    (sender : Text) (wallet : Option WalletState) : Except Error Batch := do
  let missing := failure block tx "SmartObjectNotRegisteredError"
  let e := tx.sobjAsset.getD { type := 0, subType := 0, action := 0 }
  let action := SobjAction.ofCode e.action
  -- an object handed over earlier in the batch no longer answers to the old owner
  let gone := action ≠ some .buy && e.registrationId.any fun reg =>
    (b.transferred[reg]?).any fun owner => owner ≠ sender
  if gone then throw missing
  ruled block tx (Rules.checkSobj E.prim tx (E.network.milestone block.height)
    (sobjView E s b sender wallet))
  match action with
  | some .transfer | some .buy => handOver E s b block tx sender e
  | some .register =>
      let name := e.data.name.getD ""
      let b := { b with names := b.names.insert (sobjNameKey name e.type) () }
      return b.putSobject sender (tx.id.getD "") (Accumulate.newRecord e)
  | _ =>
      let reg := e.registrationId.getD ""
      match ((b.held sender)[reg]?).or (wallet.bind fun w => w.sobjects[reg]?) with
      | none => throw missing
      | some rec => return b.putSobject sender reg (Accumulate.editRecord e rec)

/-- One transaction of `check_stateful_rules`. -/
def checkTx (E : Env) (s : Store) (block : Block) (b : Batch) (tx : Transaction) :
    Except Error Batch := do
  let sender ← E.addressOf tx.senderPublicKey
  let wallet := batchWallet s b sender
  let cost := spent E s b tx
  checkBalance E block tx sender (walletBalance wallet) cost
  let b := creditCore E s (b.credit sender (-cost)) tx sender
  let b ← checkKeys E b block tx sender wallet
  match tx.tokenType with
  | some type => tokenStep E s b block tx sender type wallet
  | none => if tx.isSobj then sobjStep E s b block tx sender wallet else return b

/-- Reward and fees of the forger, after the transactions of the block. -/
def creditForger (E : Env) (b : Batch) (block : Block) : Batch :=
  match E.addressOf block.generatorPublicKey with
  | .error _ => b
  | .ok generator =>
      b.credit generator
        (block.reward.toNat + block.totalFee.toNat - (burnedBy E block).toNat : Int)

/-- One block of `check_stateful_rules`. -/
def checkBlock (E : Env) (s : Store) (b : Batch) (block : Block) : Except Error Batch := do
  checkBlockPqKey E s b block
  let b ← block.transactions.foldlM (checkTx E s block) b
  return creditForger E b block

/-- `check_stateful_rules`, with the state it ends in. -/
def checkStatefulRules (E : Env) (s : Store) (blocks : List Block) : Except Error Batch :=
  blocks.foldlM (checkBlock E s) {}

def futureSlotGraceMs : Int := 1000

/-- `future_slot_ms`: how far ahead of the clock the slot of a block starts. -/
def futureSlotMs (E : Env) (block : Block) : Option Int :=
  let blocktime := (E.network.milestone block.height).blocktime
  let slot := slotNumber block.timestamp blocktime
  let startMs := E.network.epochToUnix (slotStart slot blocktime) * 1000
  let early := startMs - E.nowMs
  if early > futureSlotGraceMs then some early else none

/-- Cryptographic check of one block. -/
def checkCrypto (E : Env) (verify : Bool) (block : Block) : Except Error Unit := do
  match block.id with
  | none => throw (.sync s!"block {block.height} has no id")
  | some id =>
      if verify then
        let errors := verifyBlock E block
        if !errors.isEmpty then
          let joined := String.intercalate "; " errors
          throw (.blockValidation s!"block {block.height} ({id}): {joined}")
      else if block.height > 1 then
        let computed ← blockId E.prim block
        if computed ≠ id then
          throw (.blockValidation s!"block {block.height}: id {id} != computed {computed}")

/-- The text for a block that is `early` milliseconds ahead; the seconds have one
decimal. -/
def futureBlock (E : Env) (block : Block) (early : Int) : Error :=
  let id := (block.id.map fun id => Text.mk (id.toList.take 8)).getD "?"
  let slot := slotNumber block.timestamp (E.network.milestone block.height).blocktime
  let tenths := (early + 50) / 100
  .futureBlock (s!"block {block.height} ({id}) by {block.generatorPublicKey} takes slot {slot} " ++
    s!"which starts in {tenths / 10}.{tenths % 10}s — the forger's clock is ahead")

/-- The block must sit on `tip`; the tip after it. -/
def link (E : Env) (tip : ChainTip) (block : Block) : Except Error ChainTip := do
  if block.height ≠ tip.height + 1 then
    throw (.sync s!"height gap: expected {tip.height + 1}, got {block.height}")
  match futureSlotMs E block with
  | some early => throw (futureBlock E block early)
  | none =>
      match block.id with
      | none => throw (.sync s!"block {block.height} has no id")
      | some id =>
          if tip.id.any fun prev => block.previousBlock ≠ prev then
            let prev := tip.id.getD ""
            throw (.blockValidation
              (s!"block {block.height} ({id}) previousBlock {block.previousBlock} " ++
                s!"does not match local tip {prev}"))
          return { height := block.height, id := some id }

/-- Everything `apply_blocks` checks before it writes. -/
def checkBlocks (E : Env) (s : Store) (blocks : List Block) (tip : ChainTip) (verify : Bool) :
    Except Error ChainTip := do
  let tip ← blocks.foldlM (link E) tip
  blocks.forM (checkCrypto E verify)
  if verify then
    let _ ← checkStatefulRules E s blocks
  return tip

/-- `sync::apply_blocks`: check, then write. -/
def applyBlocks (E : Env) (s : Store) (blocks : List Block) (tip : ChainTip) (verify : Bool) :
    Store × Except Error ChainTip :=
  match checkBlocks E s blocks tip verify with
  | .error e => (s, .error e)
  | .ok tip =>
      let o := s.applyBlocks E blocks
      (o.1, o.2.map fun _ => tip)

end Sync

end SthCore
