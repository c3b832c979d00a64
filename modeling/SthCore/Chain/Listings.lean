import SthCore.Api.Listings
import SthCore.Chain.TxIndex

/-!
Listings of transactions over whole histories of accepted blocks.
-/

namespace SthCore

open SthCore.Lib

namespace Store

variable {E : Env} {s s' : Store}

theorem Regular.congr (h : s.Regular E) (hblocks : s'.blocks = s.blocks) : s'.Regular E := by
  have hstored : s'.storedBlocks E = s.storedBlocks E := by
    unfold storedBlocks
    rw [hblocks]
  exact ⟨hstored ▸ h.few, hstored ▸ h.addressed⟩

theorem RolledBack.regular (r : RolledBack E s s') (h : s.Regular E) : s'.Regular E := by
  obtain ⟨record, hrecord, hdecode⟩ := r.record
  have hstored := @storedBlocks_erase E s s' _ _ _ r.chain.1 hrecord hdecode
  constructor
  · exact fun e he => h.few e (hstored.mem_iff.mpr (List.mem_cons_of_mem _ he))
  · exact fun e he => h.addressed e (hstored.mem_iff.mpr (List.mem_cons_of_mem _ he))

end Store

namespace Chain

/-- The chain is stored from height 1 on, and its transactions are listed as they are. -/
structure Shelved (E : Env) (s : Store) : Prop where
  indexed : s.ListIndexed E
  regular : s.Regular E
  below : ∀ height, (s.blocks[height]?).isSome → 1 ≤ height ∧ height ≤ s.lastHeight
  complete : s.Complete

variable {P : Primitives} {N : Network} {s s' : Store}

/-- Reading a record does not ask for the time. -/
theorem Shelved.atTime {now : Int} (h : Shelved ⟨P, N, now⟩ s) (now' : Int) :
    Shelved ⟨P, N, now'⟩ s :=
  ⟨⟨h.indexed.readable, h.indexed.identified, h.indexed.list, h.indexed.wallets, h.indexed.count⟩,
    ⟨h.regular.few, h.regular.addressed⟩, h.below, h.complete⟩

theorem Shelved.congr {E : Env} (h : Shelved E s) (hblocks : s'.blocks = s.blocks)
    (hlist : s'.txList = s.txList) (hwallets : s'.walletTxs = s.walletTxs)
    (hcount : s'.txCount = s.txCount) (hheight : s'.lastHeight = s.lastHeight) :
    Shelved E s' := by
  refine ⟨h.indexed.congr hblocks hlist hwallets hcount, h.regular.congr hblocks, ?_, ?_⟩
  · rw [hblocks, hheight]
    exact h.below
  · unfold Store.Complete
    rw [hblocks, hheight]
    exact h.complete

end Chain

open Reference Chain

namespace Reference

end Reference

end SthCore
