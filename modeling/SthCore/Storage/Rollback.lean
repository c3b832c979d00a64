import SthCore.Storage.Apply

/-!
Undoing the last block: wallets come back from the undo record, the indexes are
derived again from the block and from the restored wallets.
-/

namespace SthCore

open SthCore.Lib

namespace Store

/-- Drop the market entries of every object the touched wallets hold now. -/
def dropListings (s : Store) (undo : UndoRecord) : Store :=
  { s with market := undo.foldl (fun market e =>
      match s.getWallet e.1 with
      | some w => w.sobjects.toList.foldl (fun m r => m.erase r.1) market
      | none => market) s.market }

/-- Market entries of the objects a restored wallet offers. -/
def restoreListings (market : OrderedMap Text Text) (address : Text)
    (previous : Option WalletState) : OrderedMap Text Text :=
  match previous with
  | some w => w.sobjects.toList.foldl (fun m r =>
      if r.2.price.isSome && !r.2.resigned then m.insert r.1 address else m) market
  | none => market

/-- The lock index follows the lock maps of the wallet. -/
def restoreLocks (locks : OrderedMap Text LockRecord) (current previous : Option WalletState) :
    OrderedMap Text LockRecord :=
  let locks := match current with
    | some w => w.locks.toList.foldl (fun m l => m.erase l.1) locks
    | none => locks
  match previous with
  | some w => w.locks.toList.foldl (fun m l => m.insert l.2.lockId l.2) locks
  | none => locks

/-- A mark of the wallet that the rolled-back block set for the first time. -/
def restoreMark (marks : OrderedMap Text UInt8) (address : Text) (now before : Bool) :
    OrderedMap Text UInt8 :=
  if now && !before then marks.erase address else marks

/-- Votes, listings, locks and marks of a wallet that goes back to `previous`. -/
def restoreIndexes (s : Store) (address : Text) (current previous : Option WalletState) :
    Store :=
  { s.adjustVotes (voteWeight current) (voteWeight previous) with
    market := restoreListings s.market address previous
    locks := restoreLocks s.locks current previous
    pqCommits := restoreMark s.pqCommits address (current.any fun w => w.pqCommitment.isSome)
      (previous.any fun w => w.pqCommitment.isSome)
    pqKeys := restoreMark s.pqKeys address (current.any fun w => w.pqKey.isSome)
      (previous.any fun w => w.pqKey.isSome) }

/-- One entry of the undo record.  A wallet the block created goes away with its
lookups. -/
def restoreWallet (s : Store) (entry : Text × Option WalletState) : Store :=
  let current := s.getWallet entry.1
  match entry.2 with
  | some w =>
      { s.restoreIndexes entry.1 current (some w) with wallets := s.wallets.insert entry.1 w }
  | none =>
      { s.restoreIndexes entry.1 current none with
        wallets := s.wallets.erase entry.1
        walletPk := match current.bind fun w => w.publicKey with
          | some pk => s.walletPk.erase pk
          | none => s.walletPk
        walletUsername := match current.bind fun w => w.username with
          | some u => s.walletUsername.erase u
          | none => s.walletUsername }

/-- Owner of each object before the block, from the undo record. -/
def previousOwners (undo : UndoRecord) : OrderedMap Text Text :=
  undo.foldl (fun owners e =>
    match e.2 with
    | some w => w.sobjects.toList.foldl (fun m r => m.insert r.1 e.1) owners
    | none => owners) ∅

/-- An order without one fill, or reopened after a cancellation. -/
def reopenOrder (tx : Transaction) (type : TokenType) (a : TokenAsset) (o : TokenOrder) :
    TokenOrder :=
  if type = .buy then
    { o with filled := satSub o.filled (a.amount.getD 0)
             fills := o.fills.filter fun f => some f ≠ tx.id
             closed := none }
  else { o with closed := none }

/-- Orders and trades of one token transaction, taken back. -/
def undoToken (height : Nat) (s : Store) (entry : Transaction × Nat) : Store :=
  let tx := entry.1
  match tx.tokenType, tx.tokenAsset with
  | some .sell, some _ =>
      let oid := tx.id.getD ""
      match s.tokenOrder oid with
      | some o => { s with
          book := s.book.erase (o.tokenId, o.price, o.id)
          sellerBook := s.sellerBook.erase (o.seller, o.id)
          orders := s.orders.erase oid }
      | none => s
  | some .buy, some a =>
      let s := { s with
        trades := s.trades.erase (a.id, height, tx.sequence.getD (UInt32.ofNat entry.2)) }
      match s.tokenOrder (a.orderId.getD "") with
      | some o => s.writeOrder (reopenOrder tx .buy a o)
      | none => s
  | some .cancel, some a =>
      match s.tokenOrder (a.orderId.getD "") with
      | some o => s.writeOrder (reopenOrder tx .cancel a o)
      | none => s
  | _, _ => s

/-- Name and ownership indexes of a smart object transaction. -/
def undoSobj (E : Env) (owners : OrderedMap Text Text) (s : Store) (tx : Transaction)
    (e : SmartObjectAsset) : Except Error Store := do
  match SobjAction.ofCode e.action with
  | some .register =>
      match e.data.name with
      | some name => return { s with sobjNames := s.sobjNames.erase (sobjNameKey name e.type) }
      | none => return s
  | some .transfer | some .buy =>
      match e.registrationId with
      | none => return s
      | some reg =>
          let owner ← match owners[reg]? with
            | some o => .ok o
            | none => E.addressOf tx.senderPublicKey
          return { s with
            sobjOwner := s.sobjOwner.insert reg owner
            tokenOwner :=
              if s.tokenOwner[reg]?.isSome then s.tokenOwner.insert reg owner else s.tokenOwner }
  | _ => return s

/-- Token registry indexes of a `TokenInit`; `symbols` is the symbol index
before the rollback. -/
def undoInit (symbols : List (Text × Text)) (s : Store) (tx : Transaction) : Store :=
  match tx.tokenType, tx.tokenAsset with
  | some .init, some a =>
      { s with
        tokenOwner := s.tokenOwner.erase a.id
        tokenSymbol := (symbols.filter fun e => e.2 = a.id).foldl (fun m e => m.erase e.1)
          s.tokenSymbol }
  | _, _ => s

/-- Indexes of one transaction of the rolled-back block. -/
def undoTransaction (E : Env) (height : Nat) (owners : OrderedMap Text Text)
    (symbols : List (Text × Text)) (s : Store) (entry : Transaction × Nat) :
    Except Error Store := do
  let tx := entry.1
  match tx.id with
  | none => return s
  | some id =>
      let s ← match tx.sobjAsset with
        | some e => undoSobj E owners s tx e
        | none => .ok s
      let s := undoInit symbols s tx
      let seq := tx.sequence.getD (UInt32.ofNat entry.2)
      let addresses ← txAddresses E tx
      return { s with
        txs := s.txs.erase id
        txList := s.txList.erase (height, seq)
        walletTxs := addresses.foldl (fun m a => m.erase (a, height, seq)) s.walletTxs }

/-- The database transaction of a rollback. -/
def revert (E : Env) (s : Store) (height : Nat) (block : Block) (undo : UndoRecord) :
    Except Error Store := do
  let symbols :=
    if block.transactions.any fun t => t.typeGroup = typeGroupToken then s.tokenSymbol.toList
    else []
  let s := undo.foldl restoreWallet (s.dropListings undo)
  let s := block.transactions.zipIdx.reverse.foldl (undoToken height) s
  let s ← block.transactions.zipIdx.foldlM
    (undoTransaction E height (previousOwners undo) symbols) s
  return { s with
    txCount := s.txCount - indexedCount block
    blockIds := match block.id with
      | some id => s.blockIds.erase id
      | none => s.blockIds
    blocks := s.blocks.erase height
    undo := s.undo.erase height
    lastHeight := height - 1 }

/-- `drop_missed_at`. -/
def dropMissedAt (s : Store) (height : Nat) : Store :=
  match s.missedAt[height]? with
  | none => s
  | some list =>
      list.foldl (fun s m => s.bumpMissedTotal m.publicKey (-1))
        { s with missedAt := s.missedAt.erase height }

/-- The round snapshot taken after a boundary block belongs to it. -/
def dropRound (E : Env) (s : Store) (height : Nat) : Store :=
  let n := (E.network.milestone height).roundLength
  if height % n = 0 then { s with rounds := s.rounds.erase (roundInfo height n).nextRound }
  else s

/-- A certificate at or above the tip: final in hard mode, dropped in soft mode. -/
def passFinality (E : Env) (s : Store) (height : Nat) : Except Error Store :=
  match s.latestFinalityCert.filter fun c => decide (height ≤ c.height) with
  | none => .ok s
  | some cert =>
      if (E.network.milestone height).finality.active then
        .error (.sync (s!"FinalityViolation: block {height} is final (certificate at " ++
          s!"{cert.height} with {cert.votes.size} votes), refusing to roll back"))
      else .ok { s with finality := s.finality.erase cert.height }

/-- `rollback_last_block`: the new tip height. -/
def rollbackLastBlock (E : Env) (s : Store) : Store × Except Error Nat :=
  let height := s.lastHeight
  if height ≤ 1 then (s, .error (.sync "cannot roll back the genesis block"))
  else
    match s.passFinality E height with
    | .error e => (s, .error e)
    | .ok s =>
        match s.getBlockByHeight E height, s.undo[height]? with
        | .error e, _ => (s, .error e)
        | .ok none, _ => (s, .error (.notFound s!"block {height}"))
        | .ok (some _), none => (s, .error (.sync s!"no undo record for block {height}"))
        | .ok (some block), some undo =>
            match s.revert E height block undo with
            | .error e => (s, .error e)
            | .ok s => ((s.dropMissedAt height).dropRound E height, .ok (height - 1))

/-- The loop of `rollback_to`, with the number of blocks above `height` as its bound. -/
def rollbackWhile (E : Env) (height : Nat) : Nat → Store → Nat → Store × Except Error Nat
  | 0, s, tip => (s, .ok tip)
  | fuel + 1, s, tip =>
      if tip ≤ height then (s, .ok tip)
      else
        match s.rollbackLastBlock E with
        | (s, .ok tip) => rollbackWhile E height fuel s tip
        | (s, .error e) => (s, .error e)

/-- `rollback_to`: the tip it ends with. -/
def rollbackTo (E : Env) (s : Store) (height : Nat) : Store × Except Error Nat :=
  rollbackWhile E height (s.lastHeight - height) s s.lastHeight

end Store

end SthCore
