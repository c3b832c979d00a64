import SthCore.Storage.Accumulate
import SthCore.Delegate.Round

/-!
Writing blocks.  A sub-batch is committed in one database transaction; the
round snapshot and the missed-slot statistics follow outside of it.
-/

namespace SthCore

open SthCore.Lib

/-- Blocks that can be rolled back once undo logging is on. -/
def undoDepth : Nat := 1000

/-- A write that may fail half way: the store it leaves and its result. -/
abbrev Outcome := Store × Except Error Unit

/-- Continue with `f` unless an error occurred. -/
def Outcome.andThen (o : Outcome) (f : Store → Outcome) : Outcome :=
  match o.2 with
  | .ok _ => f o.1
  | .error _ => o

/-- The transaction with its id filled in. -/
def fillId (P : Primitives) (tx : Transaction) : Except Error Transaction :=
  match tx.id with
  | some _ => .ok tx
  | none => do return { tx with id := some (← transactionId P tx) }

/-- `prepare_block`: fill missing ids and encode for storage. -/
def prepareBlock (E : Env) (block : Block) : Except Error (Block × List Bytes) := do
  let id ← match block.id with
    | some id => .ok id
    | none => blockId E.prim block
  let transactions ← block.transactions.mapM (fillId E.prim)
  let block := { block with id := some id, transactions }
  return (block, ← encodeBlock E block)

namespace Store

/-- Add to the vote weight of a delegate, never below zero. -/
def addVotes (s : Store) (pk : Text) (delta : Int) : Store :=
  let next := max ((s.delegateVotes pk).toNat + delta) 0
  { s with votes := s.votes.insert pk (UInt64.ofNat next.toNat) }

/-- `adjust_votes`: move a voter's weight between delegates. -/
def adjustVotes (s : Store) (before after : Option (Text × UInt64)) : Store :=
  if before = after then s
  else
    match before, after with
    | some (a, wa), some (b, wb) =>
        if a = b then s.addVotes a ((wb.toNat : Int) - wa.toNat)
        else (s.addVotes a (-(wa.toNat : Int))).addVotes b wb.toNat
    | some (a, wa), none => s.addVotes a (-(wa.toNat : Int))
    | none, some (b, wb) => s.addVotes b wb.toNat
    | none, none => s

/-- The ask book after an order is written: it lists open orders only. -/
def bookOrder (book : OrderedMap (Text × UInt64 × Text) Text) (o : TokenOrder) :
    OrderedMap (Text × UInt64 × Text) Text :=
  if o.isOpen then book.insert (o.tokenId, o.price, o.id) o.id
  else book.erase (o.tokenId, o.price, o.id)

/-- The open orders of the seller after an order is written. -/
def sellerOrder (book : OrderedMap (Text × Text) Text) (o : TokenOrder) :
    OrderedMap (Text × Text) Text :=
  if o.isOpen then book.insert (o.seller, o.id) o.id else book.erase (o.seller, o.id)

/-- `write_order`. -/
def writeOrder (s : Store) (o : TokenOrder) : Store :=
  { s with
    orders := s.orders.insert o.id o
    book := bookOrder s.book o
    sellerBook := sellerOrder s.sellerBook o }

/-- Wallet record, its lookups by key and name, and its quantum-shield marks. -/
def putWallet (s : Store) (address : Text) (w : WalletState) : Store :=
  { s with
    wallets := s.wallets.insert address w
    walletPk := match w.publicKey with
      | some pk => s.walletPk.insert pk address
      | none => s.walletPk
    walletUsername := match w.username with
      | some u => s.walletUsername.insert u address
      | none => s.walletUsername
    pqCommits := match w.pqCommitment with
      | some c => s.pqCommits.insert address c.algorithm
      | none => s.pqCommits
    pqKeys := match w.pqKey with
      | some k => s.pqKeys.insert address k.algorithm
      | none => s.pqKeys }

/-- Name index of one written smart object. -/
def indexName (names : OrderedMap Text Text) (entry : Text × SmartObject) :
    OrderedMap Text Text :=
  match entry.2.data.name with
  | some name => names.insert (sobjNameKey name entry.2.type) entry.1
  | none => names

/-- The market index follows the record: open order or gone. -/
def indexMarket (address : Text) (market : OrderedMap Text Text)
    (entry : Text × SmartObject) : OrderedMap Text Text :=
  if entry.2.price.isSome && !entry.2.resigned then market.insert entry.1 address
  else market.erase entry.1

/-- The lock index after the removals and additions of a delta. -/
def indexLocks (locks : OrderedMap Text LockRecord) (d : WalletDelta) :
    OrderedMap Text LockRecord :=
  d.locksAdded.foldl (fun m l => m.insert l.lockId l)
    (d.locksRemoved.foldl (fun m id => m.erase id) locks)

/-- Indexes that follow the delta of one wallet. -/
def writeIndexes (s : Store) (address : Text) (d : WalletDelta) : Store :=
  { s with
    locks := indexLocks s.locks d
    sobjNames := d.sobjects.foldl indexName s.sobjNames
    market := d.sobjects.foldl (indexMarket address) s.market
    tokenOwner := d.tokensIssued.foldl (fun m e => m.insert e.1 address) s.tokenOwner
    tokenSymbol := d.tokensIssued.foldl (fun m e => m.insert e.2.symbol e.1) s.tokenSymbol
    sobjOwner := d.sobjOwner.foldl (fun m e => m.insert e.1 e.2) s.sobjOwner
    orders := (d.orders.toList.map (·.2)).foldl (fun m o => m.insert o.id o) s.orders
    book := (d.orders.toList.map (·.2)).foldl bookOrder s.book
    sellerBook := (d.orders.toList.map (·.2)).foldl sellerOrder s.sellerBook
    trades := d.trades.foldl (fun m tr => m.insert (tr.tokenId, tr.height, tr.seq) tr) s.trades }

/-- One wallet of `write_wallets_undo`. -/
def writeWallet (s : Store) (address : Text) (d : WalletDelta) : Except Error Store := do
  let previous := s.getWallet address
  let state ← (previous.getD (WalletState.new address)).apply d
  let s := s.adjustVotes (voteWeight previous) (voteWeight (some state))
  return (s.putWallet address state).writeIndexes address d

/-- `write_wallets_undo`: wallets in address order, with their previous states. -/
def writeWallets (s : Store) (ds : Deltas) : Except Error (Store × UndoRecord) :=
  ds.toList.foldlM (fun acc e => do
    let s ← acc.1.writeWallet e.1 e.2
    return (s, acc.2 ++ [(e.1, acc.1.getWallet e.1)])) (s, [])

/-- Index entries of one transaction of a stored block. -/
def indexTransaction (E : Env) (height : Nat) (s : Store) (entry : Transaction × Nat) :
    Except Error Store := do
  match entry.1.id with
  | none => return s
  | some id =>
      let seq := entry.1.sequence.getD (UInt32.ofNat entry.2)
      let addresses ← txAddresses E entry.1
      return { s with
        txs := s.txs.insert id height
        txList := s.txList.insert (height, seq) id
        walletTxs := addresses.foldl (fun m a => m.insert (a, height, seq) id) s.walletTxs }

def indexedCount (block : Block) : Nat :=
  (block.transactions.filter (·.id.isSome)).length

/-- `write_block`. -/
def writeBlock (E : Env) (s : Store) (prepared : Block × List Bytes) : Except Error Store := do
  let block := prepared.1
  let s := { s with
    blocks := s.blocks.insert block.height prepared.2
    blockIds := match block.id with
      | some id => s.blockIds.insert id block.height
      | none => s.blockIds }
  let s ← block.transactions.zipIdx.foldlM (indexTransaction E block.height) s
  return { s with
    txCount := s.txCount + indexedCount block
    lastHeight := max s.lastHeight block.height }

/-- `check_tip`: the chain must still end right before `first`. -/
def checkTip (s : Store) (first : Block) : Except Error Unit :=
  let last := s.lastHeight
  if last = 0 then .ok ()
  else if first.height ≠ last + 1 then
    .error (.staleTip s!"block {first.height} cannot be applied: chain tip is {last}")
  else
    match s.blockIds[first.previousBlock]? with
    | none => .ok ()
    | some h =>
        if h = last then .ok ()
        else .error (.staleTip
          s!"block {first.height} previousBlock is at height {h}, chain tip is {last}")

/-- The undo record of a sub-batch that starts at `height`. -/
def putUndo (s : Store) (height : Nat) (undo : UndoRecord) : Store :=
  let undo := s.undo.insert height undo
  { s with undo := if height > undoDepth then undo.erase (height - undoDepth) else undo }

/-- The database transaction of `apply_locked`. -/
def commit (E : Env) (s : Store) (prepared : List (Block × List Bytes)) (ds : Deltas)
    (undoOn : Bool) : Except Error Store := do
  match prepared with
  | [] => throw (.panic "index out of bounds")
  | first :: _ =>
      s.checkTip first.1
      let (s, undo) ← s.writeWallets ds
      let s ← prepared.foldlM (writeBlock E) s
      return if undoOn then s.putUndo first.1.height undo else s

def saveRound (s : Store) (round : Nat) (list : List DelegateRank) : Store :=
  { s with rounds := s.rounds.insert round list }

/-- `snapshot_round_if_boundary`. -/
def snapshotRoundIfBoundary (E : Env) (s : Store) (height : Nat) : Store :=
  let n := (E.network.milestone height).roundLength
  let s :=
    if height = 1 ∧ s.getRound 1 = none then s.saveRound 1 (s.activeDelegates E n) else s
  if height % n ≠ 0 then s
  else s.saveRound (roundInfo height n).nextRound (s.activeDelegates E n)

/-- `bump_missed_total`: the key goes away at zero. -/
def bumpMissedTotal (s : Store) (publicKey : Text) (delta : Int) : Store :=
  let next := (max ((s.missedCount publicKey : Int) + delta) 0).toNat
  { s with missedTotal :=
      if next > 0 then s.missedTotal.insert publicKey next else s.missedTotal.erase publicKey }

/-- Charge one missed slot to the delegate that owned it. -/
def missSlot (E : Env) (block : Block) (order : List DelegateRank) (n : Nat)
    (acc : Outcome × List MissedSlot) (slot : Nat) : Outcome × List MissedSlot :=
  match acc.1.2 with
  | .error _ => acc
  | .ok _ =>
      match order[slot % n]? with
      | none => ((acc.1.1, .error (.panic "index out of bounds")), acc.2)
      | some d =>
          let username := ((E.addressOf d.publicKey).toOption.bind acc.1.1.getWallet).bind
            (·.username)
          let blocktime := (E.network.milestone block.height).blocktime
          ((acc.1.1.bumpMissedTotal d.publicKey 1, .ok ()),
            acc.2 ++ [{ height := block.height, slot, timestamp := slotStart slot blocktime,
                        publicKey := d.publicKey, username }])

/-- `record_missed_slots`: gaps of more than one round are outages and are not
attributed. -/
def recordMissedSlots (E : Env) (s : Store) (prevTimestamp : UInt32) (block : Block) : Outcome :=
  let ms := E.network.milestone block.height
  let n := ms.roundLength
  let prevSlot := slotNumber prevTimestamp ms.blocktime
  let curSlot := slotNumber block.timestamp ms.blocktime
  if curSlot ≤ prevSlot + 1 ∨ curSlot - prevSlot - 1 > n then (s, .ok ())
  else
    match s.forgingOrder E (roundInfo block.height n).round with
    | none => (s, .ok ())
    | some order =>
        let slots := List.range' (prevSlot + 1) (curSlot - prevSlot - 1)
        let acc := slots.foldl (missSlot E block order n) ((s, .ok ()), [])
        acc.1.andThen fun s =>
          ({ s with missedAt := s.missedAt.insert block.height acc.2 }, .ok ())

/-- Missed slots of the blocks of one sub-batch, in order. -/
def recordMissed (E : Env) (s : Store) (prevTimestamp : Option UInt32) (blocks : List Block) :
    Outcome :=
  (blocks.foldl (fun (acc : Outcome × Option UInt32) block =>
    let o := acc.1.andThen fun s =>
      match acc.2 with
      | some p => s.recordMissedSlots E p block
      | none => (s, .ok ())
    (o, some block.timestamp)) ((s, .ok ()), prevTimestamp)).1

/-- Timestamp of the block below `first`, when it can be read. -/
def previousTimestamp (E : Env) (s : Store) (first : Block) : Option UInt32 :=
  if first.height > 1 then
    ((s.getBlockByHeight E (first.height - 1)).toOption.join).map (·.timestamp)
  else none

/-- What `apply_locked` does after the database transaction. -/
def afterCommit (E : Env) (s : Store) (blocks : List Block) : Outcome :=
  match blocks.head?, blocks.getLast? with
  | some first, some last =>
      let s := s.snapshotRoundIfBoundary E last.height
      s.recordMissed E (s.previousTimestamp E first) blocks
  | _, _ => (s, .ok ())

/-- Deltas and database transaction of a sub-batch. -/
def commitBlocks (E : Env) (s : Store) (prepared : List (Block × List Bytes)) (undoOn : Bool) :
    Except Error Store := do
  let ds ← batchDeltas E s (prepared.map (·.1))
  s.commit E prepared ds undoOn

/-- `apply_locked`. -/
def applyLocked (E : Env) (s : Store) (blocks : List Block) (forceUndo : Bool) : Outcome :=
  match blocks.mapM (prepareBlock E) with
  | .error e => (s, .error e)
  | .ok prepared =>
      match s.commitBlocks E prepared (forceUndo || s.undoEnabled) with
      | .error e => (s, .error e)
      | .ok s' => s'.afterCommit E (prepared.map (·.1))

/-- Sub-batches of bulk mode: a round boundary always ends one. -/
def subBatches (E : Env) : List Block → List (List Block)
  | [] => []
  | b :: rest =>
      if b.height % (E.network.milestone b.height).roundLength = 0 then [b] :: subBatches E rest
      else
        match subBatches E rest with
        | [] => [[b]]
        | chunk :: chunks => (b :: chunk) :: chunks

/-- Apply sub-batches one after another until one fails. -/
def applyChunks (E : Env) (s : Store) (chunks : List (List Block)) (forceUndo : Bool) : Outcome :=
  chunks.foldl (fun o chunk => o.andThen fun s => s.applyLocked E chunk forceUndo) (s, .ok ())

/-- `Storage::apply_blocks`. -/
def applyBlocks (E : Env) (s : Store) (blocks : List Block) : Outcome :=
  match blocks with
  | [] => (s, .ok ())
  | [b] => s.applyLocked E [b] true
  | _ =>
      if s.undoEnabled then s.applyChunks E (blocks.map fun b => [b]) true
      else s.applyChunks E (subBatches E blocks) false

end Store

end SthCore
