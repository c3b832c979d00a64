import SthCore.Lib.Consecutive
import SthCore.Mempool.Accounting
import SthCore.Sync

/-!
Pending nonces.  The nonces that a sender has in the pool are the ones right
after that of its wallet; what takes transactions out of the pool keeps it so as
long as it takes the last ones.
-/

namespace SthCore

open SthCore.Lib

/-- The pending transactions from an address. -/
def entriesOf (E : Env) (txs : OrderedMap Text Transaction) (a : Text) :
    List (Text × Transaction) :=
  txs.toList.filter fun e => Chain.sentBy E.prim E.network a e.2

/-- The nonce as a number, zero when there is none. -/
def Transaction.nonceNat (tx : Transaction) : Nat := (tx.nonce.getD 0).toNat

/-- The pending nonces of an address. -/
def noncesOf (E : Env) (txs : OrderedMap Text Transaction) (a : Text) : List Nat :=
  (entriesOf E txs a).map fun e => e.2.nonceNat

section Entries

variable {E : Env} {txs txs' : OrderedMap Text Transaction} {a : Text}

theorem mem_entriesOf {e : Text × Transaction} :
    e ∈ entriesOf E txs a ↔ txs[e.1]? = some e.2 ∧ Chain.sentBy E.prim E.network a e.2 := by
  rw [entriesOf, List.mem_filter, ← Std.ExtTreeMap.mem_toList_iff_getElem?_eq_some]

theorem mem_noncesOf {n : Nat} :
    n ∈ noncesOf E txs a ↔ ∃ (id : Text) (tx : Transaction), txs[id]? = some tx ∧
      Chain.sentBy E.prim E.network a tx ∧ tx.nonceNat = n := by
  simp only [noncesOf, List.mem_map, mem_entriesOf, Prod.exists, and_assoc]

theorem noncesOf_nodup_of_sub (h : txs'.Sub txs) (hnodup : (noncesOf E txs a).Nodup) :
    (noncesOf E txs' a).Nodup := by
  obtain ⟨l, hperm, hsub⟩ := h.subperm.filter fun e => Chain.sentBy E.prim E.network a e.2
  have hless := hsub.map fun e : Text × Transaction => e.2.nonceNat
  exact (hperm.map fun e => e.2.nonceNat).nodup_iff.mp (hnodup.sublist hless)

end Entries

/-- Nonces are given, every address has one spelling of its key, and its pending nonces are the
ones right after that of its wallet. -/
structure Contiguous (E : Env) (s : Store) (p : Pool) : Prop where
  given : ∀ (id : Text) (tx : Transaction), p.txs[id]? = some tx → tx.nonce.isSome
  spelled : ∀ (id : Text) (tx : Transaction), p.txs[id]? = some tx →
    PoolConfig.OneSpelling E p tx
  nonces : ∀ a, Consecutive (s.walletAt a).nonce (noncesOf E p.txs a)

/-- What leaves the pool is at the end of the nonces of its sender, or behind its wallet. -/
theorem Contiguous.of_sub {E : Env} {s s' : Store} {p q : Pool} (h : Contiguous E s p)
    (hsub : q.txs.Sub p.txs) (hchain : ∀ a, (s.walletAt a).nonce ≤ (s'.walletAt a).nonce)
    (habove : ∀ (id : Text) (tx : Transaction) (a : Text), q.txs[id]? = some tx →
      Chain.sentBy E.prim E.network a tx → (s'.walletAt a).nonce < tx.nonceNat)
    (hdown : ∀ (id id' : Text) (tx tx' : Transaction) (a : Text), q.txs[id]? = some tx →
      p.txs[id']? = some tx' → Chain.sentBy E.prim E.network a tx →
      Chain.sentBy E.prim E.network a tx' → (s'.walletAt a).nonce < tx'.nonceNat →
      tx'.nonceNat ≤ tx.nonceNat → q.txs[id']? = some tx') :
    Contiguous E s' q := by
  refine ⟨?_, ?_, ?_⟩
  · exact fun id tx hid => h.given id tx (hsub id tx hid)
  · exact fun id tx hid e he => h.spelled id tx (hsub id tx hid) e (hsub.subset he)
  · intro a
    refine .of_downward (noncesOf_nodup_of_sub hsub (h.nonces a).nodup) ?_ ?_
    · intro n hn
      obtain ⟨id, tx, hid, hsent, rfl⟩ := mem_noncesOf.mp hn
      exact habove id tx a hid hsent
    · intro n hn m hm hle
      obtain ⟨id, tx, hid, hsent, rfl⟩ := mem_noncesOf.mp hn
      have hold := (h.nonces a).mem_iff.mp (mem_noncesOf.mpr ⟨id, tx, hsub id tx hid, hsent, rfl⟩)
      have hmold : m ∈ noncesOf E p.txs a := by
        rw [(h.nonces a).mem_iff]
        have := hchain a
        omega
      obtain ⟨id', tx', hid', hsent', rfl⟩ := mem_noncesOf.mp hmold
      exact mem_noncesOf.mpr
        ⟨id', tx', hdown id id' tx tx' a hid hid' hsent hsent' hm hle, hsent', rfl⟩

namespace PoolConfig

variable {C : PoolConfig} {E : Env} {s : Store} {p : Pool}

variable (C) in
/-- A prune that drops a transaction ahead of the wallet of its sender drops all that follow. -/
def PrunesTail (E : Env) (s : Store) (p : Pool) : Prop :=
  ∀ (id id' : Text) (tx tx' : Transaction) (a : Text),
    p.txs[id]? = some tx → p.txs[id']? = some tx' →
    Chain.sentBy E.prim E.network a tx → Chain.sentBy E.prim E.network a tx' →
    (C.dropReason E s s.lastHeight p.entered id tx).isSome →
    C.dropReason E s s.lastHeight p.entered id' tx' = none →
      tx.nonceNat ≤ (s.walletAt a).nonce ∨ tx'.nonceNat < tx.nonceNat

end PoolConfig

/-- A node with its pool. -/
structure PoolNode where
  store : Store
  pool : Pool := {}

inductive PoolEvent where
  | add (incoming : List Transaction)
  | prune
  /-- A call of `sync::apply_blocks` at some time, and the prune after it. -/
  | block (now : Int) (blocks : List Block) (tip : Sync.ChainTip) (verify : Bool)

namespace PoolNode

/-- The chain after a call. -/
def applied (E : Env) (n : PoolNode) (now : Int) (blocks : List Block) (tip : Sync.ChainTip)
    (verify : Bool) : Store :=
  (Sync.applyBlocks { E with nowMs := now } n.store blocks tip verify).1

def step (C : PoolConfig) (E : Env) (n : PoolNode) : PoolEvent → Option PoolNode
  | .add incoming => some { n with pool := (C.addMany E n.store n.pool incoming).1 }
  | .prune => some { n with pool := C.pruneConfirmed E n.store n.pool }
  | .block now blocks tip verify =>
      let store := n.applied E now blocks tip verify
      some { store, pool := C.pruneConfirmed E store n.pool }

/-- A transaction that spells its key as the pool does, from a sender with nonces left. -/
structure Regular (E : Env) (s : Store) (p : Pool) (tx : Transaction) : Prop where
  spelled : PoolConfig.OneSpelling E p tx
  bound : ∀ a, E.addressOf tx.senderPublicKey = .ok a →
    (s.walletAt a).nonce + (noncesOf E p.txs a).length + 1 < 2 ^ 64

/-- Regular transactions, each when its turn comes, and prunes that take only tails. -/
def Orderly (C : PoolConfig) (E : Env) (n : PoolNode) : PoolEvent → Prop
  | .add incoming => ∀ front tx rest, incoming = front ++ tx :: rest →
      Regular E n.store (C.addMany E n.store n.pool front).1 tx
  | .prune => C.PrunesTail E n.store n.pool
  | .block now blocks tip verify => C.PrunesTail E (n.applied E now blocks tip verify) n.pool

variable {C : PoolConfig} {E : Env} {s : Store}

end PoolNode

namespace Reference

end Reference

open Reference

end SthCore
