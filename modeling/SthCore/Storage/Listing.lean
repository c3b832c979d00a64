import SthCore.Lib.Slice
import SthCore.Storage.TxIndex

/-!
Walks over the transaction index: the entries of a range of heights, and the
transaction behind each of them, with the block it was last found in at hand.
-/

namespace SthCore

open SthCore.Lib

/-- An entry of the transaction index. -/
structure TxIndexEntry where
  height : Nat
  seq : UInt32
  id : Text
  deriving DecidableEq

/-- A transaction that a walk has reached, with the timestamp and height of its block. -/
structure Visited where
  tx : Transaction
  timestamp : UInt32
  height : Nat
  deriving DecidableEq

/-- The transaction an entry means in a block: the one at its position, or else the first one with
its id. -/
def Block.txOf (b : Block) (e : TxIndexEntry) : Option Transaction :=
  (b.transactions[e.seq.toNat]?.filter (Store.hasId e.id)).or (b.transactions.find? (Store.hasId e.id))

namespace Store

/-- All entries under one address, or under all of them, by height and position. -/
def indexEntries (s : Store) : Option Text → List TxIndexEntry
  | none => s.txList.toList.map fun e => ⟨e.1.1, e.1.2, e.2⟩
  | some address => (s.walletTxs.toList.filter fun e => e.1.1 = address).map
      fun e => ⟨e.1.2.1, e.1.2.2, e.2⟩

/-- `transaction_index`. -/
def transactionIndex (s : Store) (address : Option Text) (lo hi : Nat) (ascending : Bool) :
    List TxIndexEntry :=
  let found := (s.indexEntries address).filter fun e => lo ≤ e.height ∧ e.height ≤ hi
  if ascending then found else found.reverse

/-- The block at `height`, if it is not the one at hand. -/
def blockNear (E : Env) (s : Store) (height : Nat) :
    Option (Nat × Block) → Except Error (Option Block)
  | some (near, block) => if near = height then .ok (some block) else s.getBlockByHeight E height
  | none => s.getBlockByHeight E height

/-- `transaction_at`; the block that was read last is kept. -/
def transactionAt (E : Env) (s : Store) (e : TxIndexEntry) (cache : Option (Nat × Block)) :
    Except Error (Option Visited × Option (Nat × Block)) := do
  match ← s.blockNear E e.height cache with
  | none => return (none, cache)
  | some block =>
      return ((block.txOf e).map fun tx => ⟨tx, block.timestamp, e.height⟩,
        some (e.height, block))

/-- A walk: the transactions of the entries that still have one. -/
def visit (E : Env) (s : Store) :
    List TxIndexEntry → Option (Nat × Block) → Except Error (List Visited)
  | [], _ => return []
  | e :: rest, cache => do
      let (found, cache) ← s.transactionAt E e cache
      return found.toList ++ (← s.visit E rest cache)

variable {E : Env} {s : Store}

/-- The block at `height`, when it reads back. -/
def blockAt (E : Env) (s : Store) (height : Nat) : Option Block :=
  (s.getBlockByHeight E height).toOption.join

/-- What an entry leads to, whatever was read before. -/
def entryAt (E : Env) (s : Store) (e : TxIndexEntry) : Option Visited :=
  (s.blockAt E e.height).bind fun b => (b.txOf e).map fun tx => ⟨tx, b.timestamp, e.height⟩

/-- Every stored record reads back. -/
def Readable (E : Env) (s : Store) : Prop :=
  ∀ (height : Nat) record, s.blocks[height]? = some record → ∃ b, decodeBlock E record = .ok b

theorem Readable.get (h : s.Readable E) (height : Nat) :
    s.getBlockByHeight E height = .ok (s.blockAt E height) := by
  unfold blockAt getBlockByHeight
  cases hrecord : s.blocks[height]? with
  | none => rfl
  | some record =>
      obtain ⟨b, hb⟩ := h height record hrecord
      simp only [hb]
      rfl

theorem blockNear_ok (h : s.Readable E) (height : Nat) {cache : Option (Nat × Block)}
    (hcache : ∀ c ∈ cache, s.blockAt E c.1 = some c.2) :
    s.blockNear E height cache = .ok (s.blockAt E height) := by
  cases cache with
  | none => exact h.get height
  | some c =>
      unfold blockNear
      dsimp only
      split_ifs with hsame
      · rw [← hsame, hcache c rfl]
      · exact h.get height

/-- In a readable store an entry is found, whatever block is at hand. -/
theorem transactionAt_ok (h : s.Readable E) (e : TxIndexEntry) {cache : Option (Nat × Block)}
    (hcache : ∀ c ∈ cache, s.blockAt E c.1 = some c.2) :
    ∃ cache', s.transactionAt E e cache = .ok (s.entryAt E e, cache') ∧
      ∀ c ∈ cache', s.blockAt E c.1 = some c.2 := by
  unfold transactionAt entryAt
  rw [blockNear_ok h e.height hcache]
  cases hblock : s.blockAt E e.height with
  | none => exact ⟨cache, rfl, hcache⟩
  | some b =>
      refine ⟨some (e.height, b), rfl, ?_⟩
      rintro c ⟨⟩
      exact hblock

/-- A walk over a readable store finds what its entries lead to. -/
theorem visit_ok (h : s.Readable E) (entries : List TxIndexEntry) {cache : Option (Nat × Block)}
    (hcache : ∀ c ∈ cache, s.blockAt E c.1 = some c.2) :
    s.visit E entries cache = .ok (entries.filterMap (s.entryAt E)) := by
  induction entries generalizing cache with
  | nil => rfl
  | cons e rest ih =>
      obtain ⟨cache', hread, hcache'⟩ := transactionAt_ok h e hcache
      unfold visit
      rw [hread, ok_bind, List.filterMap_cons]
      dsimp only
      rw [ih hcache']
      cases s.entryAt E e <;> rfl

end Store

end SthCore
