import SthCore.Chain.Booked
import SthCore.Chain.TxIndex

/-!
The chain after a committed sub-batch.  What is stored stays where it is, and a
transaction is found as before unless the sub-batch brings its id.
-/

namespace SthCore

open SthCore.Lib

namespace Chain

instance (blocks : List Block) : Decidable (Successive blocks) :=
  inferInstanceAs (Decidable (blocks.IsChain _))

/-- The transactions of a prepared block have ids. -/
theorem prepareBlock_ids {E : Env} {block : Block} {p : Block × List Bytes}
    (h : prepareBlock E block = .ok p) : ∀ tx ∈ p.1.transactions, tx.id.isSome := by
  have hfilled : block.transactions.mapM (fillId E.prim) = .ok p.1.transactions := by
    unfold prepareBlock at h
    cases hid : block.id <;>
      · rw [hid] at h
        obtain ⟨id, -, h⟩ := bind_eq_ok.mp h
        obtain ⟨txs, htxs, h⟩ := bind_eq_ok.mp h
        obtain ⟨record, -, h⟩ := bind_eq_ok.mp h
        rw [← pure_eq_ok.mp h]
        exact htxs
  intro tx htx
  obtain ⟨own, -, hfill⟩ := mapM_ok_mem hfilled tx htx
  unfold fillId at hfill
  cases hid : own.id with
  | some id =>
      rw [hid] at hfill
      rw [← Except.ok.inj hfill, hid]
      rfl
  | none =>
      rw [hid] at hfill
      obtain ⟨id, -, hfill⟩ := bind_eq_ok.mp hfill
      rw [← pure_eq_ok.mp hfill]
      rfl

/-- A sub-batch that is committed has blocks. -/
theorem prepared_ne_nil {E : Env} {s s' : Store} {prepared : List (Block × List Bytes)}
    {undoOn : Bool} (h : s.commitBlocks E prepared undoOn = .ok s') :
    ∃ first rest, prepared = first :: rest := by
  cases prepared with
  | nil =>
      obtain ⟨ds, -, hthrow⟩ := bind_eq_ok.mp h
      exact absurd hthrow throw_ne_ok
  | cons first rest => exact ⟨first, rest, rfl⟩

/-- The indexes stay exact when new blocks are committed. -/
theorem committed_listed {E : Env} {s s' : Store} {blocks : List Block}
    {prepared : List (Block × List Bytes)} (c : Store.Committed E s prepared s')
    (hprepared : blocks.mapM (prepareBlock E) = .ok prepared)
    (hgood : Indexable E s (prepared.map fun p => p.1)) (hchain : Successive blocks)
    (habove : ∀ p ∈ prepared, s.lastHeight < p.1.height) (h : Listed E s) :
    Listed E s' := by
  have hrecords := Store.writeEntries_sameRecords c.written
  have hwallets : Listed E c.wallets := by
    refine h.congr ?_ ?_ ?_ ?_ ?_ ?_ <;> rw [hrecords]
  refine (writeBlocks_listed ?_ ?_ ?_ ?_ ?_ c.stored hwallets).of_sameChain c.same
  · intro p hp
    obtain ⟨b, -, hb⟩ := mapM_ok_mem hprepared p hp
    exact (prepareBlock_ok hb).1
  · intro p hp
    obtain ⟨b, -, hb⟩ := mapM_ok_mem hprepared p hp
    exact prepareBlock_ids hb
  · refine ⟨hgood.back, hgood.distinct, ?_⟩
    rw [hrecords]
    exact hgood.fresh
  · have hheights := prepared_heights hprepared
    have hmapped : ((prepared.map fun p => p.1).map fun b => b.height).IsChain
        fun m n => n = m + 1 := by
      rw [hheights]
      exact (List.isChain_map _).mpr hchain
    exact (List.isChain_map _).mp hmapped
  · intro p hp
    rw [hrecords]
    exact habove p (List.mem_of_mem_head? hp)

/-- A stored block was there before, or it is one of the committed blocks as it reads back. -/
theorem stored_of_committed {E : Env} {s s' : Store} {blocks : List Block}
    {prepared : List (Block × List Bytes)} (hgrown : Grown s prepared s')
    (hprepared : blocks.mapM (prepareBlock E) = .ok prepared)
    (hback : ∀ p ∈ prepared, Store.ReadsBack E p.1) {e : Nat × Block}
    (he : e ∈ s'.storedBlocks E) :
    e ∈ s.storedBlocks E ∨ ∃ p ∈ prepared,
      e.2.transactions.map (Store.mark E) = p.1.transactions.map (Store.mark E) := by
  obtain ⟨record, hrecord, hdecode⟩ := Store.mem_storedBlocks.mp he
  by_cases hnew : e.1 ∈ prepared.map fun p => p.1.height
  · obtain ⟨p, hp, hheight⟩ := List.mem_map.mp hnew
    obtain ⟨b, -, hb⟩ := mapM_ok_mem hprepared p hp
    obtain ⟨d, hd, hmarks⟩ := (hback p hp).same p.2 (prepareBlock_ok hb).1
    have hwritten := (hgrown.written p hp).1
    rw [hheight, hrecord] at hwritten
    obtain rfl := Option.some.inj hwritten
    rw [hdecode] at hd
    obtain rfl := Except.ok.inj hd
    exact .inr ⟨p, hp, hmarks⟩
  · left
    rw [hgrown.kept e.1 hnew] at hrecord
    exact Store.mem_storedBlocks.mpr ⟨record, hrecord, hdecode⟩

section Lookups

variable {E : Env} {s s' : Store}

/-- The ids of the index are those of the stored transactions. -/
theorem Listed.txs_iff (h : Listed E s) {id : Text} {height : Nat} :
    s.txs[id]? = some height ↔
      ∃ b, (height, b) ∈ s.storedBlocks E ∧ ∃ tx ∈ b.transactions, tx.id = some id := by
  rw [← Std.ExtTreeMap.mem_toList_iff_getElem?_eq_some, h.indexed.byId.mem_iff]
  constructor
  · rintro hmem
    obtain ⟨e, he, hmem⟩ := List.mem_flatMap.mp hmem
    obtain ⟨x, hx, hmem⟩ := List.mem_flatMap.mp hmem
    unfold idEntries at hmem
    cases hid : x.1.id with
    | none =>
        rw [hid] at hmem
        cases hmem
    | some own =>
        rw [hid] at hmem
        obtain ⟨rfl, rfl⟩ := Prod.mk.inj (List.mem_singleton.mp hmem)
        exact ⟨e.2, he, x.1, List.fst_mem_of_mem_zipIdx hx, hid⟩
  · rintro ⟨b, hb, tx, htx, hid⟩
    obtain ⟨i, hi⟩ := List.getElem?_of_mem htx
    refine List.mem_flatMap.mpr ⟨_, hb, List.mem_flatMap.mpr
      ⟨(tx, i), List.mem_zipIdx_iff_getElem?.mpr hi, ?_⟩⟩
    unfold idEntries
    rw [hid]
    exact List.mem_singleton.mpr rfl

/-- A transaction of a stored block is found there under its id. -/
theorem Listed.getTransaction (h : Listed E s) {height : Nat} {b : Block} {tx : Transaction}
    {id : Text} (hb : (height, b) ∈ s.storedBlocks E) (htx : tx ∈ b.transactions)
    (hid : tx.id = some id) :
    s.getTransaction E id = .ok (b.transactions.find? (Store.hasId id)) := by
  have htxs := h.txs_iff.mpr ⟨b, hb, tx, htx, hid⟩
  obtain ⟨record, hrecord, hdecode⟩ := Store.mem_storedBlocks.mp hb
  have hblock : s.getBlockByHeight E height = .ok (some b) := by
    unfold Store.getBlockByHeight
    simp only at hrecord hdecode
    rw [hrecord]
    simp only [hdecode]
    rfl
  unfold Store.getTransaction
  rw [htxs]
  simp only [hblock, ok_bind]
  rfl

/-- A stored block lies at or below the tip. -/
theorem Listed.height_le (h : Listed E s) {e : Nat × Block} (he : e ∈ s.storedBlocks E) :
    0 < e.1 ∧ e.1 ≤ s.lastHeight := by
  obtain ⟨record, hrecord, -⟩ := Store.mem_storedBlocks.mp he
  refine h.below e.1 ?_
  rw [hrecord]
  rfl

variable {prepared : List (Block × List Bytes)}

/-- The blocks up to the old tip are as they were. -/
theorem Grown.blocks_eq (hgrown : Grown s prepared s') {height : Nat}
    (hheight : height ≤ s.lastHeight) : s'.blocks[height]? = s.blocks[height]? := by
  refine hgrown.kept height fun hmem => ?_
  obtain ⟨p, hp, rfl⟩ := List.mem_map.mp hmem
  exact absurd hheight (not_le.mpr (hgrown.above p hp))

theorem Grown.storedBlocks_mem (hgrown : Grown s prepared s') (h : Listed E s) {e : Nat × Block}
    (he : e ∈ s.storedBlocks E) : e ∈ s'.storedBlocks E := by
  obtain ⟨record, hrecord, hdecode⟩ := Store.mem_storedBlocks.mp he
  refine Store.mem_storedBlocks.mpr ⟨record, ?_, hdecode⟩
  rw [hgrown.blocks_eq (h.height_le he).2]
  exact hrecord

/-- An id that the sub-batch does not bring is found as before. -/
theorem Grown.getTransaction_eq {blocks : List Block} (hgrown : Grown s prepared s')
    (h : Listed E s) (h' : Listed E s') (hprepared : blocks.mapM (prepareBlock E) = .ok prepared)
    (hback : ∀ p ∈ prepared, Store.ReadsBack E p.1) {id : Text}
    (hother : ∀ p ∈ prepared, ∀ tx ∈ p.1.transactions, tx.id ≠ some id) :
    s'.getTransaction E id = s.getTransaction E id := by
  cases htxs : s.txs[id]? with
  | some height =>
      obtain ⟨b, hb, tx, htx, hid⟩ := h.txs_iff.mp htxs
      rw [h.getTransaction hb htx hid, h'.getTransaction (hgrown.storedBlocks_mem h hb) htx hid]
  | none =>
      cases htxs' : s'.txs[id]? with
      | none =>
          unfold Store.getTransaction
          rw [htxs, htxs']
      | some height =>
          exfalso
          obtain ⟨b, hb, tx, htx, hid⟩ := h'.txs_iff.mp htxs'
          rcases stored_of_committed hgrown hprepared hback hb with hold | ⟨p, hp, hmarks⟩
          · have hlisted := h.txs_iff.mpr ⟨b, hold, tx, htx, hid⟩
            rw [htxs] at hlisted
            cases hlisted
          · have hmem := List.mem_map_of_mem (f := Store.mark E) htx
            rw [hmarks] at hmem
            obtain ⟨tx', htx', hmark⟩ := List.mem_map.mp hmem
            refine hother p hp tx' htx' ?_
            rw [(Prod.mk.inj hmark).1, hid]

end Lookups

/-- A block that is seen to read back. -/
def RoundTrip (E : Env) (b : Block) : Prop :=
  b.transactions.length < 2 ^ 32 ∧
  (∀ e ∈ b.transactions.zipIdx, e.1.sequence.getD (UInt32.ofNat e.2) = UInt32.ofNat e.2) ∧
  ((encodeBlock E b).toOption.map fun record =>
    (decodeBlock E record).toOption.map fun d => d.transactions.map (Store.mark E)) =
    some (some (b.transactions.map (Store.mark E)))

instance (E : Env) (b : Block) : Decidable (RoundTrip E b) :=
  inferInstanceAs (Decidable (_ ∧ _ ∧ _))

/-- The ids of the transactions differ, and the blocks are seen to read back. -/
def RoundTrips (E : Env) (blocks : List Block) : Prop :=
  ∀ ps ∈ (blocks.mapM (prepareBlock E)).toOption,
    (ps.flatMap fun p => p.1.transactions.map fun tx => tx.id).Nodup ∧
      ∀ p ∈ ps, RoundTrip E p.1

instance (E : Env) (blocks : List Block) : Decidable (RoundTrips E blocks) :=
  inferInstanceAs (Decidable (∀ ps ∈ (blocks.mapM (prepareBlock E)).toOption,
    (ps.flatMap fun p => p.1.transactions.map fun tx => tx.id).Nodup ∧
      ∀ p ∈ ps, RoundTrip E p.1))

/-- A new store that takes blocks that are seen to read back. -/
theorem indexable_of_roundTrip {E : Env} {s : Store} {blocks : List Block}
    (hnew : s.txs.toList = []) (h : RoundTrips E blocks) :
    ∀ prepared, blocks.mapM (prepareBlock E) = .ok prepared →
      Indexable E s (prepared.map fun p => p.1) := by
  intro prepared hprepared
  unfold RoundTrips at h
  rw [hprepared] at h
  obtain ⟨hids, hback⟩ := h prepared rfl
  refine ⟨?_, ?_, ?_⟩
  · rintro b hb
    obtain ⟨p, hp, rfl⟩ := List.mem_map.mp hb
    obtain ⟨hfew, hplaced, hsame⟩ := hback p hp
    exact readsBack_of_roundTrip hfew hplaced hsame
  · rw [List.flatMap_map]
    exact hids
  · intro b _ tx _ id _
    rw [Std.ExtTreeMap.toList_eq_nil_iff.mp hnew]
    rfl

end Chain

end SthCore
