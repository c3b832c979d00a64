import SthCore.Chain.Chronicle
import SthCore.Crypto.Signing
import SthCore.Storage.TxIndex

/-!
The transaction indexes over whole histories.
-/

namespace SthCore

open SthCore.Lib

namespace Chain

/-- Blocks that read back as they were delivered, whose transactions are neither stored nor
repeated. -/
structure Indexable (E : Env) (s : Store) (blocks : List Block) : Prop where
  back : ∀ b ∈ blocks, Store.ReadsBack E b
  distinct : (blocks.flatMap fun b => b.transactions.map fun tx => tx.id).Nodup
  fresh : ∀ b ∈ blocks, ∀ tx ∈ b.transactions, ∀ id, tx.id = some id → s.txs[id]? = none

/-- The indexes are exact, and no block lies above the tip. -/
structure Listed (E : Env) (s : Store) : Prop where
  indexed : s.TxIndexed E
  below : ∀ height, (s.blocks[height]?).isSome → 0 < height ∧ height ≤ s.lastHeight

/-- Reading a record does not ask for the time. -/
theorem Listed.atTime {P : Primitives} {N : Network} {now : Int} {s : Store}
    (h : Listed ⟨P, N, now⟩ s) (now' : Int) : Listed ⟨P, N, now'⟩ s :=
  ⟨⟨h.indexed.readable, h.indexed.identified, h.indexed.byId, h.indexed.list, h.indexed.wallets,
    h.indexed.count⟩, h.below⟩

theorem Listed.congr {E : Env} {s s' : Store} (h : Listed E s) (hblocks : s'.blocks = s.blocks)
    (htxs : s'.txs = s.txs) (hlist : s'.txList = s.txList) (hwallets : s'.walletTxs = s.walletTxs)
    (hcount : s'.txCount = s.txCount) (hheight : s'.lastHeight = s.lastHeight) : Listed E s' := by
  refine ⟨h.indexed.congr hblocks htxs hlist hwallets hcount, ?_⟩
  rw [hblocks, hheight]
  exact h.below

theorem Listed.of_sameChain {E : Env} {s s' : Store} (h : Listed E s)
    (hsame : Store.SameChain s s') : Listed E s' := by
  obtain ⟨hblocks, htxs, hlist, hwallets, hcount⟩ := hsame.indexes
  exact h.congr hblocks htxs hlist hwallets hcount hsame.chain.2.2.1

/-- Ids that a block does not carry are where they were. -/
theorem writeBlock_txs_of_not_mem {E : Env} {s s' : Store} {p : Block × List Bytes}
    (hplaced : ∀ e ∈ p.1.transactions.zipIdx, Store.Placed e) (h : Store.writeBlock E s p = .ok s')
    {id : Text} (hid : some id ∉ p.1.transactions.map fun tx => tx.id) :
    s'.txs[id]? = s.txs[id]? := by
  rw [(Store.writeBlock_txs hplaced h).1, Edit.getElem?_run, Edit.last_eq_none.mpr]
  · rfl
  rw [Edit.keys_puts]
  intro hmem
  obtain ⟨entry, hentry, rfl⟩ := List.mem_map.mp hmem
  obtain ⟨e, he, hentry⟩ := List.mem_flatMap.mp hentry
  obtain ⟨own, hown, rfl⟩ := List.mem_map.mp hentry
  refine hid (List.mem_map.mpr ⟨e.1, List.fst_mem_of_mem_zipIdx he, ?_⟩)
  exact Option.mem_toList.mp hown

/-- Blocks written one above the other. -/
theorem writeBlocks_listed {E : Env} {s s' : Store} {prepared : List (Block × List Bytes)}
    (hencode : ∀ p ∈ prepared, encodeBlock E p.1 = .ok p.2)
    (hids : ∀ p ∈ prepared, ∀ tx ∈ p.1.transactions, tx.id.isSome)
    (hgood : Indexable E s (prepared.map fun p => p.1))
    (hchain : Successive (prepared.map fun p => p.1))
    (hnext : ∀ p ∈ prepared.head?, s.lastHeight < p.1.height)
    (hwrite : prepared.foldlM (Store.writeBlock E) s = .ok s') (h : Listed E s) : Listed E s' := by
  induction prepared generalizing s with
  | nil =>
      rw [List.foldlM_nil, pure_eq_ok] at hwrite
      exact hwrite ▸ h
  | cons p rest ih =>
      obtain ⟨t, hfirst, hrest⟩ := foldlM_cons_ok.mp hwrite
      obtain ⟨hlater, hchain⟩ := List.isChain_cons.mp hchain
      obtain ⟨hblocks, hheight⟩ := Store.writeBlock_blocks hfirst
      have hlow := hnext p rfl
      have hback := hgood.back p.1 List.mem_cons_self
      have hdistinct := hgood.distinct
      rw [List.map_cons, List.flatMap_cons, List.nodup_append] at hdistinct
      obtain ⟨hnodup, hdistinct, hapart⟩ := hdistinct
      have hnew : s.blocks[p.1.height]? = none := by
        by_contra hne
        have := (h.below p.1.height (Option.isSome_iff_ne_none.mpr hne)).2
        omega
      have htop : t.lastHeight = p.1.height := by
        rw [hheight]
        omega
      refine ih (fun q hq => hencode q (List.mem_cons_of_mem p hq))
        (fun q hq => hids q (List.mem_cons_of_mem p hq)) ⟨?_, hdistinct, ?_⟩ hchain ?_ hrest
        ⟨?_, ?_⟩
      · exact fun b hb => hgood.back b (List.mem_cons_of_mem _ hb)
      · intro b hb tx htx id hid
        rw [writeBlock_txs_of_not_mem hback.placed hfirst]
        · exact hgood.fresh b (List.mem_cons_of_mem _ hb) tx htx id hid
        · intro hmem
          refine hapart (some id) hmem (some id) ?_ rfl
          exact List.mem_flatMap.mpr ⟨b, hb, List.mem_map.mpr ⟨tx, htx, hid⟩⟩
      · intro q hq
        have hq' : q.1 ∈ (rest.map fun p => p.1).head? := by
          rw [List.head?_map]
          exact Option.mem_map_of_mem _ hq
        have hstep : q.1.height = p.1.height + 1 := hlater q.1 hq'
        omega
      · exact Store.writeBlock_txIndexed h.indexed hfirst (hencode p List.mem_cons_self) hback
          (hids p List.mem_cons_self) hnodup hnew (hgood.fresh p.1 List.mem_cons_self)
      · intro height hsome
        rw [hblocks, OrderedMap.getElem?_insert_eq] at hsome
        rw [htop]
        split_ifs at hsome with hsame
        · omega
        · obtain ⟨hpos, hle⟩ := h.below height hsome
          omega

theorem step_listed {P : Primitives} {N : Network} {start s s' : Store} {b b' : Sync.Batch}
    {blocks : List Block} (st : CallStep P N Indexable start b s blocks b' s')
    (h : Listed ⟨P, N, 0⟩ s) : Listed ⟨P, N, 0⟩ s' := by
  have hblocks := st.prepared_blocks
  have hprepared : ∀ p ∈ st.prepared, p.1 ∈ blocks := by
    intro p hp
    rw [← hblocks]
    exact List.mem_map_of_mem hp
  have hrecords := Store.writeEntries_sameRecords st.committed.written
  have hwallets : Listed ⟨P, N, st.now⟩ st.committed.wallets := by
    refine (h.atTime st.now).congr ?_ ?_ ?_ ?_ ?_ ?_ <;> rw [hrecords]
  have hchain : Listed ⟨P, N, st.now⟩ st.committed.chain := by
    refine writeBlocks_listed ?_ ?_ ?_ ?_ ?_ st.committed.stored hwallets
    · intro p hp
      obtain ⟨block, hblock, hpair⟩ := mapM_ok_mem st.prepare p hp
      obtain ⟨hsame, hencode⟩ := prepareBlock_eq_ok (st.verified block hblock) hpair
      rw [hsame]
      exact hencode
    · exact fun p hp => (st.verified p.1 (hprepared p hp)).txIds
    · rw [hblocks]
      refine ⟨st.meets.back, st.meets.distinct, ?_⟩
      rw [hrecords]
      exact st.meets.fresh
    · rw [hblocks]
      exact st.heights
    · intro p hp
      have htip := st.committed.tip p hp
      have hpos := st.positive p.1 (hprepared p (List.mem_of_mem_head? hp))
      rw [hrecords]
      change s.lastHeight < p.1.height
      unfold Store.checkTip at htip
      simp only at htip
      split_ifs at htip with hzero hnext
      · omega
      · omega
  exact (hchain.of_sameChain st.committed.same).atTime 0

theorem rollback_listed {P : Primitives} {N : Network} {now : Int} {s s' : Store}
    (r : Store.RolledBack ⟨P, N, now⟩ s s') (h : Listed ⟨P, N, 0⟩ s) : Listed ⟨P, N, 0⟩ s' := by
  have hnow := h.atTime now
  refine Listed.atTime ⟨r.txIndexed hnow.indexed, ?_⟩ 0
  intro height hsome
  rw [r.chain.1, OrderedMap.getElem?_erase_eq] at hsome
  rw [r.chain.2.2.1]
  split_ifs at hsome with hlast
  · cases hsome
  · obtain ⟨hpos, hle⟩ := h.below height hsome
    omega

theorem listed_of_empty (E : Env) {s : Store} (hblocks : s.blocks = ∅) (htxs : s.txs = ∅)
    (hlist : s.txList = ∅) (hwallets : s.walletTxs = ∅) (hcount : s.txCount = 0) : Listed E s := by
  have hempty : s.storedBlocks E = [] := by
    unfold Store.storedBlocks
    rw [hblocks]
    rfl
  refine ⟨⟨?_, ?_, ?_, ?_, ?_, ?_⟩, ?_⟩
  · rw [hblocks]
    intro height record hrecord
    simp at hrecord
  · rw [hempty]
    rintro e ⟨⟩
  · rw [htxs, Store.storedEntries, hempty]
    rfl
  · rw [hlist, Store.storedEntries, hempty]
    rfl
  · rw [hwallets, Store.storedEntries, hempty]
    rfl
  · rw [hcount, hempty]
    rfl
  · rw [hblocks]
    intro height hsome
    simp at hsome

end Chain

/-- Histories of blocks that read back with new ids: the indexes list exactly the stored
transactions. -/
theorem chronicle_txIndexed (P : Primitives) (N : Network) (s₀ s : Store)
    (hstart : s₀.blocks = ∅ ∧ s₀.txs = ∅ ∧ s₀.txList = ∅ ∧ s₀.walletTxs = ∅ ∧ s₀.txCount = 0)
    (h : Chain.Chronicle P N Chain.Indexable (fun _ => True) s₀ s) :
    s.TxIndexed ⟨P, N, 0⟩ := by
  obtain ⟨hblocks, htxs, hlist, hwallets, hcount⟩ := hstart
  have hlisted : Chain.Listed ⟨P, N, 0⟩ s₀ :=
    Chain.listed_of_empty _ hblocks htxs hlist hwallets hcount
  refine (h.induction_step (I := Chain.Listed ⟨P, N, 0⟩) ?_ ?_ ?_ ?_ hlisted).indexed
  · exact fun start b s c b' s' st => Chain.step_listed st
  · exact fun now s s' r _ => Chain.rollback_listed r
  · exact fun s certs hs => hs.congr rfl rfl rfl rfl rfl rfl
  · exact fun s on hs => hs.congr rfl rfl rfl rfl rfl rfl

open Reference Chain

/-- Run the round trip of one block. -/
theorem readsBack_of_roundTrip {E : Env} {b : Block} (hfew : b.transactions.length < 2 ^ 32)
    (hplaced : ∀ e ∈ b.transactions.zipIdx, Store.Placed e)
    (hsame : ((encodeBlock E b).toOption.map fun record =>
        (decodeBlock E record).toOption.map fun d => d.transactions.map (Store.mark E)) =
      some (some (b.transactions.map (Store.mark E)))) :
    Store.ReadsBack E b := by
  refine ⟨hfew, hplaced, ?_⟩
  intro record hrecord
  rw [hrecord] at hsame
  change some ((decodeBlock E record).toOption.map _) = _ at hsame
  cases hdecode : decodeBlock E record with
  | error e =>
      rw [hdecode] at hsame
      cases hsame
  | ok d =>
      rw [hdecode] at hsame
      exact ⟨d, rfl, Option.some.inj (Option.some.inj hsame)⟩

namespace Reference

/-- A node that has accepted `genesis` and was given one more block. -/
def indexedStore (block : Block) : Store :=
  (Sync.applyBlocks ⟨primitives, network {}, 8000⟩
    (Sync.applyBlocks ⟨primitives, network {}, 8000⟩ {} [genesis] ⟨0, none⟩ true).1 [block]
    ⟨1, genesis.id⟩ true).1

/-- A transfer delivered without a sequence number. -/
def placedBlock : Block := first.forge 2 8 (genesis.id.getD "") 0 [transfer first second 1 5]

/-- The same transfer delivered as number 5 of its block, where it is alone. -/
def misplacedBlock : Block :=
  first.forge 2 8 (genesis.id.getD "") 0 [{ transfer first second 1 5 with sequence := some 5 }]

/-- The records of both blocks keep the marks of their transactions. -/
theorem marks_kept : ∀ b ∈ [genesis, placedBlock],
    ((encodeBlock ⟨primitives, network {}, 8000⟩ b).toOption.map fun record =>
      (decodeBlock ⟨primitives, network {}, 8000⟩ record).toOption.map fun d =>
        d.transactions.map (Store.mark ⟨primitives, network {}, 8000⟩)) =
      some (some (b.transactions.map (Store.mark ⟨primitives, network {}, 8000⟩))) := by
  decide +kernel

theorem genesis_indexable (s : Store) :
    Indexable ⟨primitives, network {}, 8000⟩ s [genesis] := by
  refine ⟨?_, List.nodup_nil, ?_⟩
  · intro b hb
    rw [List.mem_singleton.mp hb]
    exact readsBack_of_roundTrip (by decide) (by rintro e ⟨⟩) (marks_kept genesis (by simp))
  · intro b hb
    rw [List.mem_singleton.mp hb]
    rintro tx ⟨⟩

theorem chronicle_indexedStore {good : Condition} {keep : Store → Prop} (block : Block)
    (hgenesis : CallMeets good ⟨primitives, network {}, 8000⟩ {} [genesis])
    (hblock : CallMeets good ⟨primitives, network {}, 8000⟩
      (Sync.applyBlocks ⟨primitives, network {}, 8000⟩ {} [genesis] ⟨0, none⟩ true).1 [block]) :
    Chronicle primitives (network {}) good keep {} (indexedStore block) :=
  (Chronicle.start.call 8000 [genesis] ⟨0, none⟩ hgenesis).call 8000 [block] ⟨1, genesis.id⟩ hblock

theorem placedBlock_readsBack :
    Store.ReadsBack ⟨primitives, network {}, 8000⟩ placedBlock := by
  refine readsBack_of_roundTrip (by decide) ?_ (marks_kept placedBlock (by simp))
  intro e he
  rw [List.mem_singleton.mp he]
  rfl

end Reference

theorem chronicle_txIndexed_placed :
    (indexedStore placedBlock).txCount = 1 ∧
      (indexedStore placedBlock).TxIndexed ⟨primitives, network {}, 0⟩ := by
  obtain ⟨hcount, hnone⟩ : (indexedStore placedBlock).txCount = 1 ∧
      (Sync.applyBlocks ⟨primitives, network {}, 8000⟩ {} [genesis] ⟨0, none⟩
        true).1.txs.toList = [] := by
    decide +kernel
  refine ⟨hcount, ?_⟩
  refine chronicle_txIndexed primitives (network {}) {} (indexedStore placedBlock)
    ⟨rfl, rfl, rfl, rfl, rfl⟩ ?_
  refine chronicle_indexedStore placedBlock (callMeets_single (genesis_indexable _))
    (callMeets_single ⟨?_, List.nodup_singleton _, ?_⟩)
  · intro b hb
    rw [List.mem_singleton.mp hb]
    exact placedBlock_readsBack
  · intro b _ tx _ id _
    rw [Std.ExtTreeMap.toList_eq_nil_iff.mp hnone]
    rfl

/-- An accepted transaction is listed at a position that its stored block does not have. -/
theorem misplaced_entry :
    Chronicle primitives (network {}) unconditional (fun _ => True) {}
      (indexedStore misplacedBlock) ∧
    (indexedStore misplacedBlock).lastHeight = 2 ∧
    ¬ (indexedStore misplacedBlock).TxIndexed ⟨primitives, network {}, 0⟩ := by
  obtain ⟨htip, hlist⟩ : (indexedStore misplacedBlock).lastHeight = 2 ∧
      ¬ (indexedStore misplacedBlock).txList.toList.Perm
        ((indexedStore misplacedBlock).storedEntries ⟨primitives, network {}, 0⟩ listEntries) := by
    decide +kernel
  exact ⟨chronicle_indexedStore misplacedBlock (callMeets_unconditional _ _ _)
    (callMeets_unconditional _ _ _), htip, fun h => hlist h.list⟩

end SthCore
