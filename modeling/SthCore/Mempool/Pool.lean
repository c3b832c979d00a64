import SthCore.Lib.Submap
import SthCore.Rules.Quantum
import SthCore.Rules.Token
import SthCore.Storage.Store

/-!
The pool of pending transactions: its limits, what a transaction weighs in it,
and how one is put in and taken out.
-/

namespace SthCore

open SthCore.Lib

/-- `mempool.antispam`: the part that judges a sender. -/
structure AntiSpamConfig where
  enabled : Bool := true
  maxPerSender : Nat := 64
  maxBytesPerSender : Nat := 65536
  replaceByFee : Bool := true

/-- Fee policy of one node: addon bytes by core type name, smartoshi per byte. -/
structure DynamicFeesConfig where
  enabled : Bool := true
  minFeePool : UInt64 := 3000
  minFeeBroadcast : UInt64 := 3000
  addonBytes : List (String × UInt64) :=
    [("transfer", 100), ("secondSignature", 250), ("delegateRegistration", 400000), ("vote", 100),
      ("multiSignature", 500), ("ntfry", 250), ("multiPayment", 500),
      ("delegateResignation", 100), ("htlcLock", 100), ("htlcClaim", 0), ("htlcRefund", 0)]

namespace DynamicFeesConfig

/-- The other spelling of a type name. -/
def legacyName (name : String) : Option String :=
  if name = "ipfs" then some "ntfry" else if name = "ntfry" then some "ipfs" else none

def addon (f : DynamicFeesConfig) (name : String) : UInt64 :=
  ((f.addonBytes.lookup name).or ((legacyName name).bind fun k => f.addonBytes.lookup k)).getD 0

def minFee (f : DynamicFeesConfig) (name : String) (bytes : Nat) (perByte : UInt64) : UInt64 :=
  satMul (satAdd (f.addon name) (UInt64.ofNat bytes)) (max perByte 1)

end DynamicFeesConfig

/-- What the pool leaves to its platform: the order in which a hash map is walked, and the length
of a transaction as JSON. -/
structure Platform where
  walk : List (Text × Transaction) → List (Text × Transaction)
  walk_perm : ∀ entries, (walk entries).Perm entries
  jsonLength : Transaction → Nat

/-- What does not change while a pool runs. -/
structure PoolConfig extends Platform where
  maxSize : Nat := 5000
  maxBytes : Nat := 8388608
  dynamicFees : DynamicFeesConfig := {}
  /-- Blocks after which a pending transaction is dropped, zero for never. -/
  maxAgeBlocks : Nat := 2700
  antispam : AntiSpamConfig := {}

structure PoolError where
  type : String
  message : String
  deriving DecidableEq

theorem keyed_empty (id : Text) (tx : Transaction)
    (h : (∅ : OrderedMap Text Transaction)[id]? = some tx) : tx.id = some id := by
  simp at h

/-- Pending transactions by id, the heights at which they came in, and the counter of their
bytes. -/
structure Pool where
  txs : OrderedMap Text Transaction := ∅
  entered : OrderedMap Text Nat := ∅
  bytes : Nat := 0
  keyed : ∀ (id : Text) (tx : Transaction), txs[id]? = some tx → tx.id = some id := by
    exact keyed_empty

/-- A transaction under its id. -/
structure Newcomer where
  id : Text
  tx : Transaction
  keyed : tx.id = some id

/-- The verdict on a transaction: whether it is relayed, the pending one with its nonce that it
replaces, and the ones it evicts. -/
structure Admit where
  broadcast : Bool
  replaces : Option Text
  evicts : List Text

namespace PoolConfig

variable (C : PoolConfig)

/-- `tx_size`: length on the wire, or as JSON when it cannot be serialised. -/
def txSize (E : Env) (tx : Transaction) : Nat :=
  match serializeTransaction E.prim tx {} E.network.pubkeyHash with
  | .ok bytes => bytes.length
  | .error _ => C.jsonLength tx

/-- The pending transactions as the hash map yields them. -/
def entries (p : Pool) : List (Text × Transaction) := C.walk p.txs.toList

/-- `remove_locked`. -/
def remove (E : Env) (p : Pool) (id : Text) : Pool :=
  match p.txs[id]? with
  | none => p
  | some t =>
      { txs := p.txs.erase id
        entered := p.entered.erase id
        bytes := p.bytes - min (C.txSize E t) p.bytes
        keyed := by
          intro x tx h
          rw [OrderedMap.getElem?_erase_eq] at h
          split_ifs at h
          exact p.keyed x tx h }

def removeAll (E : Env) (p : Pool) (ids : List Text) : Pool := ids.foldl (C.remove E) p

/-- The end of an admission, under the write lock: the replaced and the evicted go, the newcomer
enters at the height that its batch has read. -/
def insert (E : Env) (tip : Nat) (p : Pool) (t : Newcomer) (grant : Admit) : Pool :=
  let p := C.removeAll E p (grant.replaces.toList ++ grant.evicts)
  { txs := p.txs.insert t.id t.tx
    entered := p.entered.insert t.id tip
    bytes := p.bytes + C.txSize E t.tx
    keyed := by
      intro x tx h
      rw [OrderedMap.getElem?_insert_eq] at h
      split_ifs at h with hx
      · injection h with h
        rw [← h, ← hx]
        exact t.keyed
      · exact p.keyed x tx h }

theorem remove_txs (E : Env) (p : Pool) (id : Text) :
    (C.remove E p id).txs = p.txs.erase id := by
  unfold remove
  split
  · rename_i h
    exact (OrderedMap.erase_of_none p.txs id h).symm
  · rfl

theorem removeAll_txs (E : Env) (p : Pool) (ids : List Text) :
    (C.removeAll E p ids).txs = p.txs.eraseAll ids := by
  induction ids generalizing p with
  | nil => rfl
  | cons id rest ih =>
      rw [OrderedMap.eraseAll_cons, ← C.remove_txs E]
      exact ih (C.remove E p id)

theorem getElem?_removeAll {E : Env} {p : Pool} {ids : List Text} {id : Text} {tx : Transaction} :
    (C.removeAll E p ids).txs[id]? = some tx ↔ id ∉ ids ∧ p.txs[id]? = some tx := by
  rw [removeAll_txs]
  exact OrderedMap.getElem?_eraseAll_eq_some

/-- What the pending transactions weigh. -/
def weight (E : Env) (p : Pool) : Nat := (p.txs.toList.map fun e => C.txSize E e.2).sum

/-- The counter is what the pending transactions weigh. -/
def Exact (E : Env) (p : Pool) : Prop := p.bytes = C.weight E p

variable {C}

theorem Exact.remove {E : Env} {p : Pool} (h : C.Exact E p) (id : Text) :
    C.Exact E (C.remove E p id) := by
  unfold PoolConfig.remove
  split
  · exact h
  · rename_i t hid
    have hsum := ((OrderedMap.toList_perm_erase hid).map fun e => C.txSize E e.2).sum_eq
    rw [List.map_cons, List.sum_cons] at hsum
    have hbytes : p.bytes = C.txSize E t + ((p.txs.erase id).toList.map
        fun e => C.txSize E e.2).sum := Eq.trans h hsum
    change p.bytes - min (C.txSize E t) p.bytes = _
    unfold weight
    dsimp only
    omega

theorem Exact.removeAll {E : Env} {p : Pool} (h : C.Exact E p) (ids : List Text) :
    C.Exact E (C.removeAll E p ids) := by
  induction ids generalizing p with
  | nil => exact h
  | cons id rest ih => exact ih (h.remove id)

theorem entries_perm (p : Pool) : (C.entries p).Perm p.txs.toList := C.walk_perm _

variable (C)

/-- `purge`: every pending transaction, or only those of one address. -/
def purge (E : Env) (p : Pool) (sender : Option Text) : Pool :=
  let chosen := (C.entries p).filter fun e =>
    sender.all fun a => (E.addressOf e.2.senderPublicKey).toOption = some a
  C.removeAll E p (chosen.map fun e => e.1)

end PoolConfig

/-- Why a pending transaction is dropped. -/
inductive DropReason where
  | forged
  | staleNonce
  | expired
  | aged
  deriving DecidableEq

namespace PoolConfig

variable (C : PoolConfig)

/-- What `prune_confirmed` makes of a pending transaction, with the heights and the chain state it
has read. -/
def dropReason (E : Env) (s : Store) (tip : Nat) (entered : OrderedMap Text Nat) (id : Text)
    (tx : Transaction) : Option DropReason :=
  let forged := ((s.getTransaction E id).toOption.join).isSome
  let wallet := ((E.addressOf tx.senderPublicKey).toOption).bind s.getWallet
  let stale := wallet.any fun w => decide ((tx.nonce.getD 0).toNat ≤ w.nonce)
  let age := tip - (entered[id]?).getD tip
  let expired := tx.expiration.any fun e => decide (0 < e.toNat ∧ e.toNat ≤ tip)
  let aged := decide (0 < C.maxAgeBlocks ∧ C.maxAgeBlocks ≤ age)
  if forged then some .forged
  else if stale then some .staleNonce
  else if expired then some .expired
  else if aged then some .aged
  else none

/-- The first half of `prune_confirmed`: the ids to drop.  Every transaction of the snapshot is
judged on the chain state of its own moment. -/
def stale (E : Env) (seen : Text → Store) (tip : Nat) (entered : OrderedMap Text Nat)
    (snapshot : List (Text × Transaction)) : List Text :=
  (snapshot.filter fun e => (C.dropReason E (seen e.1) tip entered e.1 e.2).isSome).map fun e => e.1

/-- `prune_confirmed` without anything in between. -/
def pruneConfirmed (E : Env) (s : Store) (p : Pool) : Pool :=
  C.removeAll E p (C.stale E (fun _ => s) s.lastHeight p.entered (C.entries p))

end PoolConfig

end SthCore
