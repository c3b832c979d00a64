import SthCore.Api.FeeDays
import SthCore.Chain.TxIndex

/-!
The cache of fee days beside the chain.  A cached day stays true as long as no
transaction of that day is applied or rolled back any more.
-/

namespace SthCore

open SthCore.Lib

namespace Store

variable {E : Env} {s s' : Store}

theorem indexTransactions_list {height : Nat} {entries : List (Transaction × Nat)}
    (h : entries.foldlM (indexTransaction E height) s = .ok s') :
    ∀ key : Nat × UInt32, key.1 ≠ height → s'.txList[key]? = s.txList[key]? := by
  refine foldlM_preserves (P := fun t => ∀ key : Nat × UInt32, key.1 ≠ height →
    t.txList[key]? = s.txList[key]?) ?_ h fun _ _ => rfl
  intro t e t' _ ht hs key hkey
  unfold indexTransaction at ht
  split at ht
  · rw [pure_eq_ok] at ht
    exact ht ▸ hs key hkey
  · obtain ⟨addresses, -, ht⟩ := bind_eq_ok.mp ht
    rw [pure_eq_ok] at ht
    rw [← ht]
    dsimp only
    rw [OrderedMap.getElem?_insert_eq, if_neg]
    · exact hs key hkey
    · rintro rfl
      exact hkey rfl

theorem writeBlock_changedAt {p : Block × List Bytes} (h : writeBlock E s p = .ok s') :
    ChangedAt p.1.height s s' := by
  obtain ⟨hblocks, -⟩ := writeBlock_blocks h
  obtain ⟨t, ht, h⟩ := bind_eq_ok.mp h
  rw [pure_eq_ok] at h
  refine ⟨fun other hother => ?_, fun key hkey => ?_⟩
  · rw [hblocks, OrderedMap.getElem?_insert_eq, if_neg (Ne.symm hother)]
  · rw [← h]
    exact indexTransactions_list ht key hkey

/-- A block one above the tip, which reads back and is no older than the chain. -/
theorem Dated.write {p : Block × List Bytes} {d : Block} (h : s.Dated E)
    (hwrite : writeBlock E s p = .ok s') (hnext : p.1.height = s.lastHeight + 1)
    (hread : decodeBlock E p.2 = .ok d)
    (hlater : ∀ height ts, s.StampedAt E height ts → ts ≤ d.timestamp) : s'.Dated E := by
  obtain ⟨hblocks, hlast⟩ := writeBlock_blocks hwrite
  have htip : s'.lastHeight = p.1.height := by
    rw [hlast]
    omega
  have hget : ∀ height : Nat, s'.blocks[height]? =
      if p.1.height = height then some p.2 else s.blocks[height]? := by
    intro height
    rw [hblocks, OrderedMap.getElem?_insert_eq]
  have hstamp : ∀ height ts, s'.StampedAt E height ts →
      (height = p.1.height ∧ ts = d.timestamp) ∨
        (height ≠ p.1.height ∧ s.StampedAt E height ts) := by
    rintro height ts ⟨b, hb, rfl⟩
    obtain ⟨record, hrecord, hdecode⟩ := getBlockByHeight_some.mp hb
    rw [hget] at hrecord
    split_ifs at hrecord with hown
    · injection hrecord with hrecord
      rw [← hrecord, hread] at hdecode
      injection hdecode with hdecode
      exact .inl ⟨hown.symm, by rw [hdecode]⟩
    · exact .inr ⟨Ne.symm hown, b, getBlockByHeight_some.mpr ⟨record, hrecord, hdecode⟩, rfl⟩
  refine ⟨⟨?_, ?_⟩, ?_, ?_⟩
  · intro height hsome
    rw [hget] at hsome
    split_ifs at hsome with hown
    · omega
    · have := h.inside height hsome
      omega
  · intro height record hrecord
    rw [hget] at hrecord
    split_ifs at hrecord with hown
    · injection hrecord with hrecord
      exact ⟨d, hrecord ▸ hread⟩
    · exact h.read height record hrecord
  · intro height hlow hhigh
    rw [hget]
    split_ifs with hown
    · rfl
    · exact h.complete height hlow (by omega)
  · intro low high older younger hle holder hyounger
    rcases hstamp _ _ hyounger with ⟨hhigh, rfl⟩ | ⟨hhigh, hyounger⟩
    · rcases hstamp _ _ holder with ⟨-, rfl⟩ | ⟨-, holder⟩
      · exact UInt32.le_refl _
      · exact hlater _ _ holder
    · rcases hstamp _ _ holder with ⟨hlow, -⟩ | ⟨-, holder⟩
      · have := h.inside high hyounger.stored
        omega
      · exact h.aged low high older younger hle holder hyounger

/-- The tip leaves a dated chain. -/
theorem Dated.remove (h : s.Dated E) (hblocks : s'.blocks = s.blocks.erase s.lastHeight)
    (hlast : s'.lastHeight = s.lastHeight - 1) : s'.Dated E := by
  have hget : ∀ height : Nat, s'.blocks[height]? =
      if s.lastHeight = height then none else s.blocks[height]? := by
    intro height
    rw [hblocks, OrderedMap.getElem?_erase_eq]
  have hstamp : ∀ height ts, s'.StampedAt E height ts → s.StampedAt E height ts := by
    rintro height ts ⟨b, hb, rfl⟩
    obtain ⟨record, hrecord, hdecode⟩ := getBlockByHeight_some.mp hb
    rw [hget] at hrecord
    split_ifs at hrecord
    exact ⟨b, getBlockByHeight_some.mpr ⟨record, hrecord, hdecode⟩, rfl⟩
  refine ⟨⟨?_, ?_⟩, ?_, ?_⟩
  · intro height hsome
    rw [hget] at hsome
    split_ifs at hsome with hown
    · cases hsome
    · have := h.inside height hsome
      omega
  · intro height record hrecord
    rw [hget] at hrecord
    split_ifs at hrecord
    exact h.read height record hrecord
  · intro height hlow hhigh
    rw [hget, if_neg (by omega)]
    exact h.complete height hlow (by omega)
  · intro low high older younger hle holder hyounger
    exact h.aged low high older younger hle (hstamp _ _ holder) (hstamp _ _ hyounger)

theorem Dated.congr (h : s.Dated E) (hblocks : s'.blocks = s.blocks)
    (hlast : s'.lastHeight = s.lastHeight) : s'.Dated E := by
  have hstamp : ∀ height ts, s'.StampedAt E height ts ↔ s.StampedAt E height ts := by
    intro height ts
    unfold StampedAt getBlockByHeight
    rw [hblocks]
  refine ⟨⟨?_, ?_⟩, ?_, ?_⟩
  · rw [hblocks, hlast]
    exact h.inside
  · rw [hblocks]
    exact h.read
  · unfold Complete
    rw [hblocks, hlast]
    exact h.complete
  · intro low high older younger hle holder hyounger
    exact h.aged low high older younger hle ((hstamp _ _).mp holder) ((hstamp _ _).mp hyounger)

theorem dayEntries_congr {day : Int} (hblocks : s'.blocks = s.blocks)
    (hlist : s'.txList = s.txList) : s'.dayEntries E day = s.dayEntries E day := by
  unfold dayEntries listed indexEntries
  rw [hlist]
  refine congrArg (List.filter _) (List.filterMap_congr fun e _ => ?_)
  unfold entryAt blockAt getBlockByHeight
  rw [hblocks]

/-- Blocks of a batch that change nothing on some days. -/
structure Undisturbing (E : Env) (s : Store) (days : Int → Prop)
    (prepared : List (Block × List Bytes)) : Prop where
  back : ∀ p ∈ prepared, ∃ d, decodeBlock E p.2 = .ok d ∧ d.timestamp = p.1.timestamp ∧
    (p.1.transactions = [] → d.transactions = [])
  ordered : (prepared.map fun p => p.1.timestamp).Pairwise (· ≤ ·)
  later : ∀ height ts, s.StampedAt E height ts → ∀ p ∈ prepared, ts ≤ p.1.timestamp
  elsewhere : ∀ p ∈ prepared, p.1.transactions ≠ [] → ¬ days (E.network.dayOf p.1.timestamp)

theorem writeBlocks_undisturbed {days : Int → Prop} {prepared : List (Block × List Bytes)}
    (hwrite : prepared.foldlM (writeBlock E) s = .ok s') (h : s.Dated E)
    (hquiet : Undisturbing E s days prepared)
    (hchain : Chain.Successive (prepared.map fun p => p.1))
    (hnext : ∀ p ∈ prepared.head?, p.1.height = s.lastHeight + 1) :
    s'.Dated E ∧ ∀ day, days day → s'.dayEntries E day = s.dayEntries E day := by
  induction prepared generalizing s with
  | nil =>
      rw [List.foldlM_nil, pure_eq_ok] at hwrite
      exact hwrite ▸ ⟨h, fun _ _ => rfl⟩
  | cons p rest ih =>
      obtain ⟨t, hfirst, hrest⟩ := foldlM_cons_ok.mp hwrite
      obtain ⟨hlater, hchain⟩ := List.isChain_cons.mp hchain
      obtain ⟨hblocks, hlast⟩ := writeBlock_blocks hfirst
      have hown := hnext p rfl
      obtain ⟨d, hread, hts, hempty⟩ := hquiet.back p List.mem_cons_self
      have hold : ∀ height ts, s.StampedAt E height ts → ts ≤ d.timestamp := by
        intro height ts hstamp
        rw [hts]
        exact hquiet.later height ts hstamp p List.mem_cons_self
      have hdated := h.write hfirst hown hread hold
      have htip : t.lastHeight = p.1.height := by
        rw [hlast]
        omega
      have hblock : t.blockAt E p.1.height = some d := by
        have hget : t.getBlockByHeight E p.1.height = .ok (some d) := by
          refine getBlockByHeight_some.mpr ⟨p.2, ?_, hread⟩
          rw [hblocks, OrderedMap.getElem?_insert_eq, if_pos rfl]
        unfold blockAt
        rw [hget]
        rfl
      have hfree : s.blockAt E p.1.height = none := by
        cases hat : s.blockAt E p.1.height with
        | none => rfl
        | some b =>
            have hin := h.inside _ (StampedAt.stored ⟨b, blockAt_some hat, rfl⟩)
            omega
      have hsame : ∀ day, days day → t.dayEntries E day = s.dayEntries E day := by
        intro day hday
        refine (writeBlock_changedAt hfirst).dayEntries ?_ ?_
        · intro b hb
          rw [hfree] at hb
          cases hb
        · intro b hb
          rw [hblock] at hb
          obtain rfl := Option.some.inj hb
          by_cases hnone : p.1.transactions = []
          · exact .inl (hempty hnone)
          · right
            rw [hts]
            rintro rfl
            exact hquiet.elsewhere p List.mem_cons_self hnone hday
      have hordered := List.pairwise_cons.mp hquiet.ordered
      have hquiet' : Undisturbing E t days rest := by
        refine ⟨fun q hq => hquiet.back q (List.mem_cons_of_mem p hq), hordered.2, ?_,
          fun q hq => hquiet.elsewhere q (List.mem_cons_of_mem p hq)⟩
        intro height ts hstamp q hq
        have hpq := hordered.1 _ (List.mem_map_of_mem hq)
        by_cases hheight : height = p.1.height
        · subst hheight
          obtain ⟨b, hb, rfl⟩ := hstamp
          have hat : t.blockAt E p.1.height = some b := by
            unfold blockAt
            rw [hb]
            rfl
          rw [hblock] at hat
          obtain rfl := Option.some.inj hat
          rw [hts]
          exact hpq
        · refine hquiet.later height ts ?_ q (List.mem_cons_of_mem p hq)
          obtain ⟨b, hb, rfl⟩ := hstamp
          obtain ⟨record, hrecord, hdecode⟩ := getBlockByHeight_some.mp hb
          rw [hblocks, OrderedMap.getElem?_insert_eq, if_neg (Ne.symm hheight)] at hrecord
          exact ⟨b, getBlockByHeight_some.mpr ⟨record, hrecord, hdecode⟩, rfl⟩
      have hnext' : ∀ q ∈ rest.head?, q.1.height = t.lastHeight + 1 := by
        intro q hq
        rw [htip]
        refine hlater q.1 ?_
        rw [List.head?_map]
        exact Option.mem_map_of_mem _ hq
      obtain ⟨hdone, hdays⟩ := ih hrest hdated hquiet' hchain hnext'
      exact ⟨hdone, fun day hday => (hdays day hday).trans (hsame day hday)⟩

/-- A rollback of a block without transactions on some days. -/
theorem RolledBack.undisturbed {days : Int → Prop} (r : RolledBack E s s') (h : s.Dated E)
    (hquiet : ∀ day, days day → s.Quiet E s.lastHeight day) :
    s'.Dated E ∧ ∀ day, days day → s'.dayEntries E day = s.dayEntries E day := by
  obtain ⟨hblocks, -, hlast, -⟩ := r.chain
  refine ⟨h.remove hblocks hlast, fun day hday => ?_⟩
  obtain ⟨record, -, hdecode⟩ := getBlockByHeight_some.mp r.stored
  obtain ⟨-, hlist, -, -, -⟩ := revert_txs (decodeBlock_placed hdecode) r.reverting
  obtain ⟨-, -, hlist', -, -⟩ := r.sameChain.indexes
  have hchanged : ChangedAt s.lastHeight s s' := by
    refine ⟨fun other hother => ?_, fun key hkey => ?_⟩
    · rw [hblocks, OrderedMap.getElem?_erase_eq, if_neg (Ne.symm hother)]
    · rw [hlist', hlist, Edit.getElem?_run, Edit.last_eq_none.mpr]
      · rfl
      · rw [Edit.keys_drops]
        intro hmem
        obtain ⟨entry, hentry, rfl⟩ := List.mem_map.mp hmem
        obtain ⟨e, -, hentry⟩ := List.mem_flatMap.mp hentry
        exact hkey (height_of_mem_listEntries s.lastHeight e entry hentry)
  refine hchanged.dayEntries (hquiet day hday) ?_
  intro b hb
  have hnone : s'.blocks[s.lastHeight]? = none := by
    rw [hblocks, OrderedMap.getElem?_erase_eq, if_pos rfl]
  unfold blockAt getBlockByHeight at hb
  rw [hnone] at hb
  cases hb

end Store

/-- A node that answers fee queries: its chain, its cache, and the unix time in seconds. -/
structure FeeNode where
  store : Store := {}
  cache : OrderedMap Int FeeDay := ∅
  clock : Int

namespace FeeNode

def env (P : Primitives) (N : Network) (n : FeeNode) : Env := ⟨P, N, n.clock * 1000⟩

def Cached (n : FeeNode) (day : Int) : Prop := (n.cache[day]?).isSome

end FeeNode

/-- Blocks that read back, come in the order of their times on a chain that starts at height 1,
and bring no transactions to some days. -/
structure Timely (days : Int → Prop) (E : Env) (s : Store) (blocks : List Block) : Prop where
  first : s.lastHeight = 0 → ∀ b ∈ blocks.head?, b.height = 1
  back : ∀ b ∈ blocks, ∀ record, encodeBlock E b = .ok record → ∃ d,
    decodeBlock E record = .ok d ∧ d.timestamp = b.timestamp ∧
      (b.transactions = [] → d.transactions = [])
  ordered : (blocks.map fun b => b.timestamp).Pairwise (· ≤ ·)
  later : ∀ height ts, s.StampedAt E height ts → ∀ b ∈ blocks, ts ≤ b.timestamp
  elsewhere : ∀ b ∈ blocks, b.transactions ≠ [] → ¬ days (E.network.dayOf b.timestamp)

/-- Calls of `apply_blocks`, rollbacks of the last block, a clock that goes on, and queries by
day, in any order, with conditions on the sub-batches and on the nodes before rollbacks. -/
inductive FeeRun (P : Primitives) (N : Network) (good : FeeNode → Chain.Condition)
    (keep : FeeNode → Prop) : FeeNode → Prop
  | start (clock : Int) : FeeRun P N good keep { clock }
  | call {n : FeeNode} (now : Int) (blocks : List Block) (tip : Sync.ChainTip) :
      FeeRun P N good keep n → Chain.CallMeets (good n) ⟨P, N, now⟩ n.store blocks →
      FeeRun P N good keep
        { n with store := (Sync.applyBlocks ⟨P, N, now⟩ n.store blocks tip true).1 }
  | rollback {n : FeeNode} (now : Int) : FeeRun P N good keep n → keep n →
      FeeRun P N good keep { n with store := (n.store.rollbackLastBlock ⟨P, N, now⟩).1 }
  | advance {n : FeeNode} (later : Int) : FeeRun P N good keep n → n.clock ≤ later →
      FeeRun P N good keep { n with clock := later }
  | query {n : FeeNode} (asked : Option Int) {answer : FeesAnswer}
      {kept : OrderedMap Int FeeDay} : FeeRun P N good keep n →
      n.store.feesByDay (n.env P N) n.cache asked n.clock = .ok (answer, kept) →
      FeeRun P N good keep { n with cache := kept }

/-- The last block has no transactions on a cached day. -/
def QuietTip (P : Primitives) (N : Network) (n : FeeNode) : Prop :=
  ∀ day, n.Cached day → n.store.Quiet ⟨P, N, 0⟩ n.store.lastHeight day

namespace Chain

variable {P : Primitives} {N : Network} {days : Int → Prop} {s₀ s s' : Store}

/-- The chain is dated, and some days are as they were. -/
def Kept (P : Primitives) (N : Network) (days : Int → Prop) (s₀ s : Store) : Prop :=
  s.Dated ⟨P, N, 0⟩ ∧
    ∀ day, days day → s.dayEntries ⟨P, N, 0⟩ day = s₀.dayEntries ⟨P, N, 0⟩ day

theorem Kept.congr (h : Kept P N days s₀ s) (hblocks : s'.blocks = s.blocks)
    (hlist : s'.txList = s.txList) (hlast : s'.lastHeight = s.lastHeight) :
    Kept P N days s₀ s' :=
  ⟨h.1.congr hblocks hlast,
    fun day hday => (Store.dayEntries_congr hblocks hlist).trans (h.2 day hday)⟩

theorem Kept.trans (h : Kept P N days s₀ s) (hnext : Kept P N days s s') :
    Kept P N days s₀ s' :=
  ⟨hnext.1, fun day hday => (hnext.2 day hday).trans (h.2 day hday)⟩

theorem step_kept {start : Store} {b b' : Sync.Batch} {blocks : List Block}
    (st : CallStep P N (Timely days) start b s blocks b' s') (h : Kept P N days s₀ s) :
    Kept P N days s₀ s' := by
  have hblocks := st.prepared_blocks
  have hprepared : ∀ p ∈ st.prepared, p.1 ∈ blocks := by
    intro p hp
    rw [← hblocks]
    exact List.mem_map_of_mem hp
  have hrecords := Store.writeEntries_sameRecords st.committed.written
  have hwallets : Kept P N days s st.committed.wallets := by
    refine Kept.congr ⟨h.1, fun _ _ => rfl⟩ ?_ ?_ ?_ <;> rw [hrecords]
  have hquiet : Store.Undisturbing ⟨P, N, st.now⟩ st.committed.wallets days st.prepared := by
    refine ⟨?_, ?_, ?_, fun p hp => st.meets.elsewhere p.1 (hprepared p hp)⟩
    · intro p hp
      obtain ⟨block, hblock, hpair⟩ := mapM_ok_mem st.prepare p hp
      obtain ⟨hsame, hencode⟩ := prepareBlock_eq_ok (st.verified block hblock) hpair
      rw [← hsame] at hencode
      exact st.meets.back p.1 (hprepared p hp) p.2 hencode
    · have hordered := st.meets.ordered
      rw [← hblocks, List.map_map] at hordered
      exact hordered
    · intro height ts hstamp p hp
      refine st.meets.later height ts ?_ p.1 (hprepared p hp)
      obtain ⟨block, hblock, rfl⟩ := hstamp
      unfold Store.getBlockByHeight at hblock
      rw [hrecords] at hblock
      exact ⟨block, hblock, rfl⟩
  have hnext : ∀ p ∈ st.prepared.head?, p.1.height = st.committed.wallets.lastHeight + 1 := by
    intro p hp
    have htip := st.committed.tip p hp
    have hhead : p.1 ∈ blocks.head? := by
      rw [← hblocks, List.head?_map]
      exact Option.mem_map_of_mem _ hp
    rw [hrecords]
    change p.1.height = s.lastHeight + 1
    unfold Store.checkTip at htip
    simp only at htip
    split_ifs at htip with hzero hnext
    · rw [hzero]
      exact st.meets.first hzero p.1 hhead
    · omega
  have hwritten := Store.writeBlocks_undisturbed st.committed.stored
    (show st.committed.wallets.Dated ⟨P, N, st.now⟩ from
      ⟨⟨hwallets.1.inside, hwallets.1.read⟩, hwallets.1.complete, hwallets.1.aged⟩) hquiet
    (by rw [hblocks]; exact st.heights) hnext
  have hchain : Kept P N days st.committed.wallets st.committed.chain :=
    ⟨⟨⟨hwritten.1.inside, hwritten.1.read⟩, hwritten.1.complete, hwritten.1.aged⟩, hwritten.2⟩
  obtain ⟨hblocks', -, hlist', -, -⟩ := st.committed.same.indexes
  exact h.trans (hwallets.trans (hchain.congr hblocks' hlist' st.committed.same.chain.2.2.1))

/-- A call that meets the condition keeps the days. -/
theorem call_kept {now : Int} {blocks : List Block} {tip : Sync.ChainTip}
    (hdated : s.Dated ⟨P, N, 0⟩) (hmeets : CallMeets (Timely days) ⟨P, N, now⟩ s blocks) :
    Kept P N days s (Sync.applyBlocks ⟨P, N, now⟩ s blocks tip true).1 := by
  have hrun : Chronicle P N (Timely days) (fun _ => False) s
      (Sync.applyBlocks ⟨P, N, now⟩ s blocks tip true).1 := Chronicle.start.call now blocks tip hmeets
  refine hrun.induction_step (I := Kept P N days s) ?_ ?_ ?_ ?_ ⟨hdated, fun _ _ => rfl⟩
  · exact fun start b t c b' t' st => step_kept st
  · exact fun now t t' _ hno => hno.elim
  · exact fun t certs ht => ht.congr rfl rfl rfl
  · exact fun t on ht => ht.congr rfl rfl rfl

theorem rollback_kept {now : Int} (hdated : s.Dated ⟨P, N, 0⟩)
    (hquiet : ∀ day, days day → s.Quiet ⟨P, N, now⟩ s.lastHeight day) :
    Kept P N days s (s.rollbackLastBlock ⟨P, N, now⟩).1 := by
  cases hback : s.rollbackLastBlock ⟨P, N, now⟩ with
  | mk s' result =>
      cases result with
      | error e =>
          obtain ⟨certs, rfl⟩ := Store.rollbackLastBlock_error hback
          exact Kept.congr ⟨hdated, fun _ _ => rfl⟩ rfl rfl rfl
      | ok tip =>
          obtain ⟨-, ⟨r⟩⟩ := Store.rollbackLastBlock_eq_ok hback
          have hnow : s.Dated ⟨P, N, now⟩ :=
            ⟨⟨hdated.inside, hdated.read⟩, hdated.complete, hdated.aged⟩
          obtain ⟨hdone, hdays⟩ := r.undisturbed hnow hquiet
          exact ⟨⟨⟨hdone.inside, hdone.read⟩, hdone.complete, hdone.aged⟩, hdays⟩

end Chain

/-- The chain is dated, and every cached day is what the chain amounts to on it. -/
structure FeeNode.Coherent (P : Primitives) (N : Network) (n : FeeNode) : Prop where
  dated : n.store.Dated ⟨P, N, 0⟩
  cached : ∀ day v, n.cache[day]? = some v → v = n.store.dayTotals ⟨P, N, 0⟩ day

namespace FeeNode

variable {P : Primitives} {N : Network} {n : FeeNode}

theorem Coherent.changed (h : n.Coherent P N) {s : Store}
    (hkept : Chain.Kept P N n.Cached n.store s) :
    ({ n with store := s } : FeeNode).Coherent P N := by
  refine ⟨hkept.1, fun day v hv => ?_⟩
  have hcached : n.Cached day := Option.isSome_iff_exists.mpr ⟨v, hv⟩
  rw [h.cached day v hv]
  unfold Store.dayTotals
  rw [hkept.2 day hcached]

/-- What a query answers. -/
theorem Coherent.query (h : n.Coherent P N) (asked : Option Int) :
    ∃ answer kept, n.store.feesByDay (n.env P N) n.cache asked n.clock = .ok (answer, kept) ∧
      answer.days = max 1 (min 90 (asked.getD 7)) ∧ answer.epoch = N.epochUnix ∧
      answer.data = (wantedDays (max 1 (min 90 (asked.getD 7))) n.clock).map
        (n.store.dayTotals ⟨P, N, 0⟩) ∧
      ({ n with cache := kept } : FeeNode).Coherent P N := by
  have hdated : n.store.Dated (n.env P N) :=
    ⟨⟨h.dated.inside, h.dated.read⟩, h.dated.complete, h.dated.aged⟩
  obtain ⟨answer, kept, hanswer, hdays, hepoch, hdata, hkept⟩ :=
    Store.feesByDay_ok hdated n.cache asked n.clock
  refine ⟨answer, kept, hanswer, hdays, hepoch, ?_, h.dated, fun day v hv => ?_⟩
  · rw [hdata]
    refine List.map_congr_left fun day _ => ?_
    cases hcached : n.cache[day]? with
    | none => rfl
    | some v => exact h.cached day v hcached
  · rcases hkept day v hv with hold | hnew
    · exact h.cached day v hold
    · exact hnew

end FeeNode

theorem Store.dated_empty (E : Env) : ({} : Store).Dated E := by
  refine ⟨⟨?_, ?_⟩, ?_, ?_⟩
  · intro height hsome
    simp at hsome
  · intro height record hrecord
    simp at hrecord
  · intro height hlow hhigh
    change height ≤ 0 at hhigh
    omega
  · intro low high older younger _ holder
    have hstored := holder.stored
    simp at hstored

theorem FeeRun.coherent {P : Primitives} {N : Network} {n : FeeNode}
    (h : FeeRun P N (fun n => Timely n.Cached) (QuietTip P N) n) : n.Coherent P N := by
  induction h with
  | start clock =>
      refine ⟨Store.dated_empty _, fun day v hv => ?_⟩
      simp at hv
  | call now blocks tip _ hmeets ih => exact ih.changed (Chain.call_kept ih.dated hmeets)
  | rollback now _ hquiet ih => exact ih.changed (Chain.rollback_kept ih.dated hquiet)
  | advance later _ _ ih => exact ⟨ih.dated, ih.cached⟩
  | query asked _ hanswer ih =>
      obtain ⟨answer, kept, hsame, -, -, -, hdone⟩ := ih.query asked
      rw [hsame] at hanswer
      injection hanswer with hanswer
      injection hanswer with _ hkept
      exact hkept ▸ hdone

/-- As long as no transaction of a cached day is applied or rolled back, every query is answered
as with an empty cache, apart from the number of cached days it reports. -/
theorem fee_days_coherent {P : Primitives} {N : Network} {n : FeeNode}
    (h : FeeRun P N (fun n => Timely n.Cached) (QuietTip P N) n) (asked : Option Int) :
    ∃ answer kept fresh kept',
      n.store.feesByDay (n.env P N) n.cache asked n.clock = .ok (answer, kept) ∧
      n.store.feesByDay (n.env P N) ∅ asked n.clock = .ok (fresh, kept') ∧
      answer = { fresh with cachedDays := answer.cachedDays } := by
  have hempty : ({ n with cache := ∅ } : FeeNode).Coherent P N := by
    refine ⟨h.coherent.dated, fun day v hv => ?_⟩
    simp at hv
  obtain ⟨answer, kept, hanswer, hdays, hepoch, hdata, -⟩ := h.coherent.query asked
  obtain ⟨fresh, kept', hfresh, hdays', hepoch', hdata', -⟩ := hempty.query asked
  refine ⟨answer, kept, fresh, kept', hanswer, hfresh, ?_⟩
  obtain ⟨days, epoch, cachedDays, data⟩ := answer
  obtain ⟨days', epoch', cachedDays', data'⟩ := fresh
  dsimp only at hdays hepoch hdata hdays' hepoch' hdata'
  subst hdays hepoch hdata hdays' hepoch' hdata'
  rfl

namespace Reference

/-- Three days after the epoch, in seconds. -/
def threeDays : Int := 3 * daySeconds

def feeEnv : Env := ⟨primitives, network {}, threeDays * 1000⟩

/-- A node that has answered its first query, for four days. -/
def askedNode (store : Store) : FeeNode where
  store := store
  clock := threeDays
  cache := ((store.feesByDay feeEnv ∅ (some 4) threeDays).toOption.map fun r => r.2).getD ∅

/-- A node that has accepted `genesis`. -/
def openedStore : Store :=
  (Sync.applyBlocks ⟨primitives, network {}, 8000⟩ {} [genesis] ⟨0, none⟩ true).1

/-- The block of the first day arrives after that day was cached. -/
def lateNode : FeeNode := { askedNode openedStore with store := indexedStore placedBlock }

/-- How many transactions each day of an answer counts. -/
def countsOf (result : Except Error (FeesAnswer × OrderedMap Int FeeDay)) : Option (List UInt64) :=
  result.toOption.map fun r => r.1.data.map fun d => d.count

end Reference

open Reference Chain

/-- The timestamp and the number of transactions a block is read back with. -/
def readBackAs (E : Env) (b : Block) : Option (UInt32 × Nat) :=
  (encodeBlock E b).toOption.bind fun record => (decodeBlock E record).toOption.map
    fun d => (d.timestamp, d.transactions.length)

theorem timely_single {days : Int → Prop} {E : Env} {s : Store} {b : Block}
    (hfirst : s.lastHeight = 0 → b.height = 1)
    (hback : readBackAs E b = some (b.timestamp, b.transactions.length))
    (hlater : ∀ e ∈ s.stamps E, e.2 ≤ b.timestamp) (hdays : ∀ day, ¬ days day) :
    Timely days E s [b] := by
  refine ⟨?_, ?_, List.pairwise_singleton _ _, ?_, fun _ _ _ => hdays _⟩
  · rintro hzero c ⟨⟩
    exact hfirst hzero
  · intro c hc record hrecord
    obtain rfl := List.mem_singleton.mp hc
    unfold readBackAs at hback
    rw [hrecord] at hback
    obtain ⟨d, hd, hsame⟩ := Option.map_eq_some_iff.mp hback
    obtain ⟨hts, hcount⟩ := Prod.mk.inj hsame
    refine ⟨d, ?_, hts, fun hempty => List.eq_nil_of_length_eq_zero (hcount.trans ?_)⟩
    · cases hdecode : decodeBlock E record with
      | error e => simp [hdecode, Except.toOption] at hd
      | ok x => simpa [hdecode, Except.toOption] using hd
    · rw [hempty, List.length_nil]
  · intro height ts hstamp c hc
    obtain rfl := List.mem_singleton.mp hc
    exact hlater _ hstamp.mem_stamps

theorem askedNode_query {store : Store}
    (h : (countsOf (store.feesByDay feeEnv ∅ (some 4) threeDays)).isSome) :
    ∃ answer, store.feesByDay feeEnv ∅ (some 4) threeDays =
      .ok (answer, (askedNode store).cache) := by
  unfold countsOf at h
  unfold askedNode
  cases hanswer : store.feesByDay feeEnv ∅ (some 4) threeDays with
  | error e =>
      rw [hanswer] at h
      cases h
  | ok r => exact ⟨r.1, rfl⟩

/-- A call, by the store it leaves. -/
theorem FeeRun.called {P : Primitives} {N : Network} {good : FeeNode → Condition}
    {keep : FeeNode → Prop} {s s' : Store} {clock now : Int} {blocks : List Block}
    {tip : Sync.ChainTip} {cache : OrderedMap Int FeeDay}
    (h : FeeRun P N good keep { store := s, cache, clock })
    (hmeets : CallMeets (good { store := s, cache, clock }) ⟨P, N, now⟩ s blocks)
    (hs : s' = (Sync.applyBlocks ⟨P, N, now⟩ s blocks tip true).1) :
    FeeRun P N good keep { store := s', cache, clock } := by
  subst hs
  exact h.call now blocks tip hmeets

theorem FeeRun.askedNode {good : FeeNode → Condition} {keep : FeeNode → Prop} {store : Store}
    (h : FeeRun primitives (network {}) good keep { store := store, clock := threeDays })
    (hasked : (countsOf (store.feesByDay feeEnv ∅ (some 4) threeDays)).isSome) :
    FeeRun primitives (network {}) good keep (askedNode store) := by
  obtain ⟨answer, hquery⟩ := askedNode_query hasked
  exact h.query (some 4) hquery

theorem askedNode_eq (store : Store) : askedNode store =
    { store := store, cache := (askedNode store).cache, clock := threeDays } := rfl

theorem not_cached_empty {store : Store} {clock : Int} (day : Int) :
    ¬ ({ store := store, clock := clock } : FeeNode).Cached day := by
  unfold FeeNode.Cached
  simp

/-- The node after a first query. -/
def askedPlaced : FeeNode := askedNode (indexedStore placedBlock)

/-- Both blocks are read back, the second one does not age, and the answers to both queries of
the nodes. -/
theorem placedBlock_answers :
    (genesis.height = 1 ∧ openedStore.lastHeight = 1) ∧
    (readBackAs ⟨primitives, network {}, 8000⟩ genesis =
        some (genesis.timestamp, genesis.transactions.length) ∧
      readBackAs ⟨primitives, network {}, 8000⟩ placedBlock =
        some (placedBlock.timestamp, placedBlock.transactions.length)) ∧
    (∀ e ∈ openedStore.stamps ⟨primitives, network {}, 8000⟩, e.2 ≤ placedBlock.timestamp) ∧
    ((countsOf (openedStore.feesByDay feeEnv ∅ (some 4) threeDays)).isSome ∧
      (countsOf ((indexedStore placedBlock).feesByDay feeEnv ∅ (some 4) threeDays)).isSome) ∧
    countsOf (lateNode.store.feesByDay feeEnv lateNode.cache (some 4) lateNode.clock) =
      some [0, 0, 0, 0] ∧
    countsOf (lateNode.store.feesByDay feeEnv ∅ (some 4) lateNode.clock) = some [1, 0, 0, 0] := by
  decide +kernel

theorem fee_days_coherent_asked :
    ∃ answer kept fresh kept',
      askedPlaced.store.feesByDay (askedPlaced.env primitives (network {})) askedPlaced.cache
        (some 3) askedPlaced.clock = .ok (answer, kept) ∧
      askedPlaced.store.feesByDay (askedPlaced.env primitives (network {})) ∅
        (some 3) askedPlaced.clock = .ok (fresh, kept') ∧
      answer = { fresh with cachedDays := answer.cachedDays } := by
  obtain ⟨⟨hone, hheight⟩, ⟨hfirst, hsecond⟩, hlater, ⟨-, hasked⟩, -⟩ := placedBlock_answers
  have hgenesis : Timely ({ clock := threeDays } : FeeNode).Cached
      ⟨primitives, network {}, 8000⟩ {} [genesis] := by
    refine timely_single (fun _ => hone) hfirst ?_ not_cached_empty
    intro e he
    simp [Store.stamps] at he
  have hplaced : Timely ({ store := openedStore, clock := threeDays } : FeeNode).Cached
      ⟨primitives, network {}, 8000⟩ openedStore [placedBlock] :=
    timely_single (fun hzero => by omega) hsecond hlater not_cached_empty
  have hopened : FeeRun primitives (network {}) (fun n => Timely n.Cached)
      (QuietTip primitives (network {})) { store := openedStore, clock := threeDays } :=
    (FeeRun.start threeDays).called (callMeets_single hgenesis) (by rw [openedStore])
  have hrun : FeeRun primitives (network {}) (fun n => Timely n.Cached)
      (QuietTip primitives (network {}))
      { store := indexedStore placedBlock, clock := threeDays } :=
    hopened.called (callMeets_single hplaced) (by rw [indexedStore, openedStore])
  exact fee_days_coherent (hrun.askedNode hasked) (some 3)

/-- The first day is answered from the cache without the transaction that came late. -/
theorem late_block_missing :
    FeeRun primitives (network {}) (fun _ => unconditional) (fun _ => True) lateNode ∧
      countsOf (lateNode.store.feesByDay feeEnv lateNode.cache (some 4) lateNode.clock) =
        some [0, 0, 0, 0] ∧
      countsOf (lateNode.store.feesByDay feeEnv ∅ (some 4) lateNode.clock) =
        some [1, 0, 0, 0] := by
  obtain ⟨-, -, -, ⟨hasked, -⟩, hcounts⟩ := placedBlock_answers
  refine ⟨?_, hcounts⟩
  have hopened : FeeRun primitives (network {}) (fun _ => unconditional) (fun _ => True)
      { store := openedStore, clock := threeDays } :=
    (FeeRun.start threeDays).called (callMeets_unconditional _ _ _) (by rw [openedStore])
  have hcached := hopened.askedNode hasked
  rw [askedNode_eq] at hcached
  have hlate : FeeRun primitives (network {}) (fun _ => unconditional) (fun _ => True)
      { store := indexedStore placedBlock, cache := (askedNode openedStore).cache
        clock := threeDays } :=
    hcached.called (callMeets_unconditional _ _ _) (by rw [indexedStore, openedStore])
  exact hlate

end SthCore
