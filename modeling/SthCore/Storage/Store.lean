import SthCore.Storage.Wallet

/-!
The chain state store.  Every key prefix of the database is one map of its own,
so keys of different prefixes cannot meet; the values are the decoded ones.
-/

namespace SthCore

open SthCore.Lib

-- the order on each composite key, under one name for every module

instance : Std.TransOrd (Text × Text) := inferInstance

instance : Std.TransOrd (Text × Nat) := inferInstance

instance instTransOrdHeightIndex : Std.TransOrd (Nat × UInt32) := inferInstance

instance : Std.TransOrd (Text × Nat × UInt32) := inferInstance

instance : Std.TransOrd (Text × UInt64 × Text) := inferInstance

/-- Delegate ranking entry of a round snapshot. -/
structure DelegateRank where
  publicKey : Text
  votes : UInt64
  deriving DecidableEq

/-- A forging slot nobody filled. -/
structure MissedSlot where
  height : Nat
  slot : Nat
  timestamp : UInt32
  publicKey : Text
  username : Option Text
  deriving DecidableEq

structure FinalityCert where
  height : Nat
  blockId : Text
  votes : OrderedMap Text Text := ∅

/-- Two votes of one delegate at one height. -/
structure EquivocationProof where
  height : Nat
  publicKey : Text
  blockIds : Text × Text
  signatures : Text × Text
  detectedHeight : Nat
  bannedUntilRound : Nat
  deriving DecidableEq

/-- Previous wallet states touched by one block. -/
abbrev UndoRecord := List (Text × Option WalletState)

structure Store where
  /-- `b:` block records -/
  blocks : OrderedMap Nat (List Bytes) := ∅
  /-- `bid:` block id to height -/
  blockIds : OrderedMap Text Nat := ∅
  /-- `t:` transaction id to height -/
  txs : OrderedMap Text Nat := ∅
  /-- `tl:` transactions in chain order -/
  txList : OrderedMap (Nat × UInt32) Text := ∅
  /-- `wt:` transactions of a wallet in chain order -/
  walletTxs : OrderedMap (Text × Nat × UInt32) Text := ∅
  /-- `w:` -/
  wallets : OrderedMap Text WalletState := ∅
  /-- `wp:` public key to address -/
  walletPk : OrderedMap Text Text := ∅
  /-- `wu:` username to address -/
  walletUsername : OrderedMap Text Text := ∅
  /-- `lk:` open locks -/
  locks : OrderedMap Text LockRecord := ∅
  /-- `rd:` round snapshots -/
  rounds : OrderedMap Nat (List DelegateRank) := ∅
  /-- `ms:` missed slots of a delegate -/
  missedTotal : OrderedMap Text Nat := ∅
  /-- `mb:` missed slots closed by a block -/
  missedAt : OrderedMap Nat (List MissedSlot) := ∅
  /-- `undo:` -/
  undo : OrderedMap Nat UndoRecord := ∅
  /-- `dv:` vote weight of a delegate -/
  votes : OrderedMap Text UInt64 := ∅
  /-- `en:` smart object name to registration id -/
  sobjNames : OrderedMap Text Text := ∅
  /-- `eo:` registration id to owner, once handed over -/
  sobjOwner : OrderedMap Text Text := ∅
  /-- `mk:` open sale orders of smart objects -/
  market : OrderedMap Text Text := ∅
  /-- `tk:` token to owner -/
  tokenOwner : OrderedMap Text Text := ∅
  /-- `tks:` symbol to token -/
  tokenSymbol : OrderedMap Text Text := ∅
  /-- `to:` sell orders -/
  orders : OrderedMap Text TokenOrder := ∅
  /-- `tob:` open orders of a token by price -/
  book : OrderedMap (Text × UInt64 × Text) Text := ∅
  /-- `tos:` open orders of a seller -/
  sellerBook : OrderedMap (Text × Text) Text := ∅
  /-- `tt:` executed fills -/
  trades : OrderedMap (Text × Nat × UInt32) TokenTrade := ∅
  /-- `pqc:` -/
  pqCommits : OrderedMap Text UInt8 := ∅
  /-- `pqk:` -/
  pqKeys : OrderedMap Text UInt8 := ∅
  /-- `fc:` -/
  finality : OrderedMap Nat FinalityCert := ∅
  /-- `eq:` -/
  equivocations : OrderedMap (Text × Nat) EquivocationProof := ∅
  lastHeight : Nat := 0
  txCount : Nat := 0
  undoEnabled : Bool := false

/-- `sobj_name_key`: names are unique without regard to case. -/
def sobjNameKey (name : Text) (type : UInt8) : Text :=
  name.toLower ++ Text.ofString "-" ++ Text.ofNat type.toNat

namespace Store

def getWallet (s : Store) (address : Text) : Option WalletState := s.wallets[address]?

def getBlockByHeight (E : Env) (s : Store) (height : Nat) : Except Error (Option Block) :=
  match s.blocks[height]? with
  | some record => some <$> decodeBlock E record
  | none => .ok none

def getLastBlock (E : Env) (s : Store) : Except Error (Option Block) :=
  if s.lastHeight = 0 then .ok none else s.getBlockByHeight E s.lastHeight

def hasId (id : Text) (tx : Transaction) : Bool := tx.id = some id

def getTransaction (E : Env) (s : Store) (id : Text) : Except Error (Option Transaction) :=
  match s.txs[id]? with
  | none => .ok none
  | some height => do
      match ← s.getBlockByHeight E height with
      | none => return none
      | some block => return block.transactions.find? (hasId id)

/-- Address, public key or username to wallet. -/
def findWallet (s : Store) (id : Text) : Option WalletState :=
  match s.getWallet id with
  | some w => some w
  | none =>
      match s.walletPk[id]? with
      | some address => s.getWallet address
      | none => s.walletUsername[id]?.bind s.getWallet

/-- Token balance of a wallet, zero when it holds none. -/
def tokenBalance (s : Store) (address id : Text) : UInt64 :=
  ((s.getWallet address).bind (·.tokens[id]?)).getD 0

def tokenState (s : Store) (id : Text) : Option TokenState := do
  let owner ← s.tokenOwner[id]?
  let w ← s.getWallet owner
  w.tokensIssued[id]?

def tokenOrder (s : Store) (id : Text) : Option TokenOrder := s.orders[id]?

/-- Open orders of a seller across tokens, oldest first. -/
def walletOrders (s : Store) (seller : Text) : List TokenOrder :=
  let entries := s.sellerBook.toList.filter fun e => e.1.1 = seller
  (entries.filterMap fun e => s.tokenOrder e.2).insertionSort fun a b => a.height ≤ b.height

def sobjByName (s : Store) (name : Text) (type : UInt8) : Option Text :=
  s.sobjNames[sobjNameKey name type]?

/-- The owner under which a smart object is looked up: the ownership index, or
the sender of the registration. -/
def sobjHolder (E : Env) (s : Store) (registrationId : Text) :
    Except Error (Option Text) :=
  match s.sobjOwner[registrationId]? with
  | some owner => .ok (some owner)
  | none => do
      match ← s.getTransaction E registrationId with
      | none => return none
      | some tx => return some (← E.addressOf tx.senderPublicKey)

/-- The record of a smart object in a wallet. -/
def heldSobject (s : Store) (address registrationId : Text) : Option SmartObject :=
  (s.getWallet address).bind (·.sobjects[registrationId]?)

/-- `get_sobject`: owner and record by registration id. -/
def getSobject (E : Env) (s : Store) (registrationId : Text) :
    Except Error (Option (Text × SmartObject)) := do
  match ← s.sobjHolder E registrationId with
  | none => return none
  | some owner => return (s.heldSobject owner registrationId).map fun r => (owner, r)

/-- The source reads through `.ok().flatten()` where a failed lookup counts as
an absent one. -/
def findSobject (E : Env) (s : Store) (registrationId : Text) :
    Option (Text × SmartObject) :=
  (s.getSobject E registrationId).toOption.join

def getLock (s : Store) (id : Text) : Option LockRecord := s.locks[id]?

def delegateVotes (s : Store) (publicKey : Text) : UInt64 := s.votes[publicKey]?.getD 0

/-- Order of the ranking: active first, then votes, then public key. -/
def rankBefore (a b : WalletState × UInt64) : Bool :=
  if a.1.resigned ≠ b.1.resigned then b.1.resigned
  else if a.2 ≠ b.2 then b.2 < a.2
  else match a.1.publicKey, b.1.publicKey with
    | none, _ => true
    | some _, none => false
    | some p, some q => p ≤ q

/-- The wallets that the username index names, with their votes. -/
def delegates (s : Store) : List (WalletState × UInt64) :=
  s.walletUsername.toList.filterMap fun e => do
    let w ← s.getWallet e.2
    return (w, (w.publicKey.map s.delegateVotes).getD 0)

/-- `delegate_ranking`. -/
def delegateRanking (s : Store) : List (WalletState × UInt64) :=
  s.delegates.insertionSort fun a b => rankBefore a b

def putEquivocation (s : Store) (proof : EquivocationProof) : Store :=
  { s with equivocations := s.equivocations.insert (proof.publicKey, proof.height) proof }

/-- The proof of the greatest height against `publicKey`. -/
def equivocation (s : Store) (publicKey : Text) : Option EquivocationProof :=
  ((s.equivocations.toList.filter fun e => e.1.1 = publicKey).getLast?).map (·.2)

def bannedDelegates (E : Env) (s : Store) (round height : Nat) : List Text :=
  if !(E.network.milestone (max height 1)).finality.slashing then []
  else
    ((s.equivocations.toList.filter fun e => decide (round < e.2.bannedUntilRound)).map
      (·.2.publicKey)).destutter (· ≠ ·)

def activeDelegatesExcluding (s : Store) (count : Nat) (banned : List Text) :
    List DelegateRank :=
  ((s.delegateRanking.filter fun d =>
      !d.1.resigned && !(d.1.publicKey.any fun pk => banned.contains pk)).take count).map
    fun d => { publicKey := d.1.publicKey.getD "", votes := d.2 }

/-- The ranking without regard to slashing. -/
def activeDelegatesRanked (s : Store) (count : Nat) : List DelegateRank :=
  s.activeDelegatesExcluding count []

def putFinalityCert (s : Store) (cert : FinalityCert) : Store :=
  { s with finality := s.finality.insert cert.height cert }

def latestFinalityCert (s : Store) : Option FinalityCert :=
  s.finality.toList.getLast?.map (·.2)

def getRound (s : Store) (round : Nat) : Option (List DelegateRank) := s.rounds[round]?

def missedCount (s : Store) (publicKey : Text) : Nat := s.missedTotal[publicKey]?.getD 0

end Store

/-- `tx_addresses`: every wallet touched by a transaction. -/
def txAddresses (E : Env) (tx : Transaction) : Except Error (List Text) := do
  let sender ← E.addressOf tx.senderPublicKey
  let payments := tx.payments.map (·.recipientId)
  let token := match tx.tokenAsset with
    | some a => (a.transfers.getD []).map (·.recipientId) ++ a.recipientId.toList
    | none => []
  let sobj := match tx.sobjAsset with
    | some e => e.recipientId.toList
    | none => []
  let out := sender :: (tx.recipientId.toList ++ payments ++ token ++ sobj)
  return (out.insertionSort (· ≤ ·)).destutter (· ≠ ·)

end SthCore
