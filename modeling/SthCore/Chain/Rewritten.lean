import SthCore.Chain.Stacked
import SthCore.Chain.Stored

/-!
A chain whose records are written again as they are read: every run of a node that takes
readable blocks on its tip keeps one.
-/

namespace SthCore

open SthCore.Lib

/-- What is read from a record is written to it again, and it is a block as the checks leave one. -/
structure Block.Rewritten (E : Env) (record : List Bytes) (b : Block) : Prop where
  reads : decodeBlock E record = .ok b
  writes : encodeBlock E b = .ok record
  header : ∀ raw ∈ record.head?, raw.length < 2 ^ 32
  id : b.id.isSome
  known : ∀ tx ∈ b.transactions, tx.id.isSome
  few : b.transactions.length < 2 ^ 32
  valid : ∃ now, verifyBlock { E with nowMs := now } b = []

theorem decodeBlock_ok {E : Env} {record : List Bytes} {b : Block} :
    decodeBlock E record = .ok b ↔ ∃ raw raws header txs, record = raw :: raws ∧
      deserializeBlockHeader E.prim E.network raw = .ok header ∧
      raws.mapM (deserializeTransaction E.prim) = .ok txs ∧
      b = { header with transactions := txs.mapIdx fun i tx => placeTransaction header tx i } := by
  constructor
  · intro h
    cases record with
    | nil => cases h
    | cons raw raws =>
        obtain ⟨header, hheader, h⟩ := bind_eq_ok.mp h
        obtain ⟨txs, htxs, h⟩ := bind_eq_ok.mp h
        exact ⟨raw, raws, header, txs, rfl, hheader, htxs, (pure_eq_ok.mp h).symm⟩
  · rintro ⟨raw, raws, header, txs, rfl, hheader, htxs, rfl⟩
    exact bind_eq_ok.mpr ⟨header, hheader, bind_eq_ok.mpr ⟨txs, htxs, rfl⟩⟩

theorem encodeBlock_ok {E : Env} {record : List Bytes} {b : Block} :
    encodeBlock E b = .ok record ↔ ∃ raw raws, record = raw :: raws ∧
      serializeBlock b true = .ok raw ∧
      b.transactions.mapM (fun tx => serializeTransaction E.prim tx {} E.network.pubkeyHash) =
        .ok raws := by
  constructor
  · intro h
    obtain ⟨raw, hraw, h⟩ := bind_eq_ok.mp h
    obtain ⟨raws, hraws, h⟩ := bind_eq_ok.mp h
    exact ⟨raw, raws, (pure_eq_ok.mp h).symm, hraw, hraws⟩
  · rintro ⟨raw, raws, rfl, hraw, hraws⟩
    exact bind_eq_ok.mpr ⟨raw, hraw, bind_eq_ok.mpr ⟨raws, hraws, rfl⟩⟩

/-- A checked transaction is read from its bytes, and what is read is written to them again. -/
theorem Transaction.exists_rewritten {E : Env} (hP : E.prim.Lawful) {height : Nat}
    {tx : Transaction} (hread : tx.Readable E) (hkeys : Sync.KeysChecked tx) (hid : tx.id.isSome)
    (htransaction : VerifyBlock.checkTransaction E.prim tx = [])
    (hformat : VerifyBlock.checkFormat E.prim (E.network.milestone height) tx = []) {raw : Bytes}
    (hraw : serializeTransaction E.prim tx {} E.network.pubkeyHash = .ok raw) :
    ∃ d, deserializeTransaction E.prim raw = .ok d ∧ Restored E height tx d ∧
      serializeTransaction E.prim d {} E.network.pubkeyHash = .ok raw := by
  obtain ⟨d, raw', hraw', hd, hrestored⟩ :=
    Transaction.exists_restored hP hread hkeys hid htransaction hformat
  obtain rfl := Except.ok.inj (hraw.symm.trans hraw')
  obtain ⟨sender, hsender, hlength⟩ := hkeys.sender
  obtain ⟨p, g, hback⟩ := exists_readBack hP hraw hread.nonce hsender hlength hread.payload
    hkeys.second (exists_sobjFormat hformat) hread.signatures
    (pqBlocks_unmarked hformat)
  refine ⟨d, hd, hrestored, ?_⟩
  rw [Except.ok.inj (hd.symm.trans hback.reads), hback.writes, hraw]

/-- A block that is accepted, and that can be read back, is read from a record that is written
again. -/
theorem Block.exists_rewritten {E : Env} (hP : E.prim.Lawful) {b : Block} (hid : b.id.isSome)
    (hverify : verifyBlock E b = []) (hkeys : ∀ tx ∈ b.transactions, Sync.KeysChecked tx)
    (hread : b.Readable E) {record : List Bytes} (hrecord : encodeBlock E b = .ok record) :
    ∃ d, Block.Rewritten E record d ∧
      { d with transactions := [] } = { b with transactions := [] } := by
  obtain ⟨raw, raws, rfl, hraw, hraws⟩ := encodeBlock_ok.mp hrecord
  obtain ⟨raw', hraw', hsize, hparsed⟩ :=
    exists_headerFrame (headerChecked_of_verifyBlock hP hid hverify) hread.header
  obtain rfl := Except.ok.inj (hraw.symm.trans hraw')
  have hverified := verified_of_verifyBlock hid hverify
  have hchecked : ∀ tx ∈ b.transactions, VerifyBlock.checkTransaction E.prim tx = [] := by
    simp only [verifyBlock, List.append_eq_nil_iff, List.flatMap_eq_nil_iff] at hverify
    exact hverify.1.1.1.1.2
  -- every transaction with its bytes and what is read from them
  obtain ⟨pairs, hpairs⟩ := exists_forall₂ (R := fun tx (p : Bytes × Transaction) =>
      serializeTransaction E.prim tx {} E.network.pubkeyHash = .ok p.1 ∧
      deserializeTransaction E.prim p.1 = .ok p.2 ∧ Restored E b.height tx p.2 ∧
      serializeTransaction E.prim p.2 {} E.network.pubkeyHash = .ok p.1) (by
    intro tx htx
    obtain ⟨bytes, -, hbytes⟩ := forall₂_mem_left (forall₂_of_mapM_ok hraws) tx htx
    obtain ⟨d, hd, hrestored, hwrites⟩ := Transaction.exists_rewritten hP
      (hread.transactions tx htx) (hkeys tx htx) (hverified.txIds tx htx) (hchecked tx htx)
      (hverified.format tx htx) hbytes
    exact ⟨(bytes, d), hbytes, hd, hrestored, hwrites⟩)
  have hfst : raws = pairs.map Prod.fst := by
    refine Except.ok.inj (hraws.symm.trans (mapM_ok_of_forall₂ ?_))
    rw [List.forall₂_map_right_iff]
    exact hpairs.imp fun tx p hp => hp.1
  subst hfst
  have hreadAll : (pairs.map Prod.fst).mapM (deserializeTransaction E.prim) =
      .ok (pairs.map Prod.snd) := by
    apply mapM_map_ok
    intro p hp
    obtain ⟨tx, -, -, hd, -⟩ := forall₂_mem_right hpairs p hp
    exact hd
  let plain : Block := { b with transactions := [] }
  let ds := (pairs.map Prod.snd).mapIdx fun i tx => placeTransaction plain tx i
  have hall : List.Forall₂ (Restored E b.height) b.transactions ds := by
    apply forall₂_mapIdx
    · rw [List.forall₂_map_right_iff]
      exact hpairs.imp fun tx p hp => hp.2.2.1
    · exact fun i tx d hone => hone.placed plain i
  have hrewrite : ds.mapM (fun tx => serializeTransaction E.prim tx {} E.network.pubkeyHash) =
      .ok (pairs.map Prod.fst) := by
    apply mapM_ok_of_forall₂
    apply List.Forall₂.flip
    rw [List.forall₂_map_left_iff]
    apply forall₂_mapIdx
    · rw [List.forall₂_map_right_iff, List.forall₂_same]
      intro p hp
      obtain ⟨tx, -, -, -, -, hwrites⟩ := forall₂_mem_right hpairs p hp
      exact hwrites
    · exact fun i p d hwrites => hwrites
  have hlength : ds.length = b.transactions.length := hall.length_eq.symm
  have hplaced : InSequence ds := by
    apply inSequence_placed
    rw [List.length_map, ← hpairs.length_eq]
    exact hread.count
  refine ⟨{ b with transactions := ds }, ?_, rfl⟩
  constructor
  · exact decodeBlock_ok.mpr ⟨raw, _, plain, _, rfl, hparsed, hreadAll, rfl⟩
  · exact encodeBlock_ok.mpr ⟨raw, _, rfl, hraw, hrewrite⟩
  · rintro _ ⟨⟩
    exact hsize
  · exact hid
  · intro d hd
    obtain ⟨tx, -, hone⟩ := forall₂_mem_right hall d hd
    rw [hone.id]
    exact hone.known
  · rw [hlength]
    exact hread.count
  · exact ⟨E.nowMs, verifyBlock_restored hverify hall hread.sequence hplaced⟩

namespace Block.Rewritten

variable {E : Env} {record : List Bytes} {b : Block}

/-- What was verified is verified again at any time that the block is not ahead of. -/
theorem verify (h : Block.Rewritten E record b)
    (hclock : b.timestamp ≤ E.nowEpoch + (E.network.milestone b.height).blocktime) :
    verifyBlock E b = [] := by
  obtain ⟨now, hvalid⟩ := h.valid
  simp only [verifyBlock, List.append_eq_nil_iff] at hvalid ⊢
  obtain ⟨⟨⟨⟨⟨⟨⟨⟨⟨⟨hbefore, -⟩, hcount⟩, hmax⟩, hid⟩, hids⟩, htxs⟩, hformat⟩, hamount⟩, hfee⟩,
    hpayload⟩ := hvalid
  refine ⟨⟨⟨⟨⟨⟨⟨⟨⟨⟨hbefore, ?_⟩, hcount⟩, hmax⟩, hid⟩, hids⟩, htxs⟩, hformat⟩, hamount⟩, hfee⟩,
    hpayload⟩
  rw [VerifyBlock.complain_eq_nil, decide_eq_false_iff_not]
  exact UInt32.not_lt.mpr hclock

theorem count (h : Block.Rewritten E record b) :
    UInt32.ofNat b.transactions.length = b.numberOfTransactions := by
  obtain ⟨now, hvalid⟩ := h.valid
  simp only [verifyBlock, List.append_eq_nil_iff] at hvalid
  obtain ⟨⟨⟨⟨⟨⟨⟨⟨⟨-, hcount⟩, -⟩, -⟩, -⟩, -⟩, -⟩, -⟩, -⟩, -⟩ := hvalid
  simpa [VerifyBlock.complain_eq_nil] using hcount

theorem payload (h : Block.Rewritten E record b) (hheight : b.height ≠ 1) :
    blockPayloadHash E.prim b = .ok b.payloadHash := by
  obtain ⟨now, hvalid⟩ := h.valid
  simp only [verifyBlock, List.append_eq_nil_iff] at hvalid
  obtain ⟨-, hpayload⟩ := hvalid
  simp only [VerifyBlock.checkPayload, hheight, if_false] at hpayload
  split at hpayload
  · rename_i hash hhash
    simp only [VerifyBlock.complain_eq_nil, ne_eq, decide_eq_false_iff_not, not_not] at hpayload
    rw [hhash, hpayload]
  · cases hpayload

/-- A transaction is read from its bytes but for the place in the block. -/
theorem transaction (h : Block.Rewritten E record b) {tx : Transaction} {seq : Nat}
    (hmem : (tx, seq) ∈ b.transactions.zipIdx) :
    ∃ raw d, serializeTransaction E.prim tx {} E.network.pubkeyHash = .ok raw ∧
      deserializeTransaction E.prim raw = .ok d ∧ tx = placeTransaction b d seq := by
  obtain ⟨raw, raws, header, txs, hrecord, -, htxs, hblock⟩ := decodeBlock_ok.mp h.reads
  obtain ⟨raw', raws', hrecord', -, hraws⟩ := encodeBlock_ok.mp h.writes
  obtain ⟨-, rfl⟩ := List.cons.inj (hrecord.symm.trans hrecord')
  have hread := forall₂_of_mapM_ok htxs
  have hwrite := forall₂_of_mapM_ok hraws
  obtain ⟨hlt, htx⟩ := List.getElem?_eq_some_iff.mp (List.mem_zipIdx_iff_getElem?.mp hmem)
  have hseq : seq < b.transactions.length := hlt
  have hraw : seq < raws.length := hwrite.length_eq ▸ hseq
  have hd : seq < txs.length := hread.length_eq ▸ hraw
  have hown : b.transactions.get ⟨seq, hseq⟩ = tx := htx
  have hserialize := hwrite.get hseq hraw
  rw [hown] at hserialize
  refine ⟨raws.get ⟨seq, hraw⟩, txs.get ⟨seq, hd⟩, hserialize, hread.get hraw hd, ?_⟩
  rw [← hown]
  simp only [hblock, List.get_eq_getElem, List.getElem_mapIdx]
  rfl

/-- The transactions of a block that is read are in its order. -/
theorem placed (h : Block.Rewritten E record b) :
    (∀ tx ∈ b.transactions, tx.blockHeight = some b.height ∧ tx.sequence.isSome) ∧
      InSequence b.transactions := by
  obtain ⟨raw, raws, header, txs, -, -, -, hblock⟩ := decodeBlock_ok.mp h.reads
  have hlist : b.transactions = txs.mapIdx fun i tx => placeTransaction header tx i := by
    rw [hblock]
  have hheight : b.height = header.height := by
    rw [hblock]
  refine ⟨fun tx htx => ?_, ?_⟩
  · rw [hlist] at htx
    obtain ⟨i, hi, rfl⟩ := List.mem_mapIdx.mp htx
    rw [hheight]
    exact ⟨rfl, rfl⟩
  · have hfew := h.few
    rw [hlist, List.length_mapIdx] at hfew
    rw [hlist]
    exact inSequence_placed header hfew

/-- The header of the record alone. -/
theorem head (h : Block.Rewritten E record b) :
    ∃ raw, serializeBlock b true = .ok raw ∧ raw.length < 2 ^ 32 ∧
      deserializeBlockHeader E.prim E.network raw = .ok { b with transactions := [] } := by
  obtain ⟨raw, raws, header, txs, rfl, hheader, -, hblock⟩ := decodeBlock_ok.mp h.reads
  obtain ⟨raw', raws', hrecord, hraw, -⟩ := encodeBlock_ok.mp h.writes
  obtain ⟨rfl, -⟩ := List.cons.inj hrecord
  refine ⟨raw, hraw, h.header raw rfl, ?_⟩
  obtain ⟨f, id, -, -, -, -, -, -, hplain⟩ := deserializeBlockHeader_ok hheader
  rw [hheader, hblock, hplain]
  rfl

end Block.Rewritten

/-- The records of a chain from height 1 to the tip, each of which is written as it is read and
names the block below it. -/
structure Store.Solid (E : Env) (s : Store) : Prop where
  range : ∀ height : Nat, (s.blocks[height]?).isSome ↔ 0 < height ∧ height ≤ s.lastHeight
  record : ∀ (height : Nat) (record : List Bytes), s.blocks[height]? = some record →
    ∃ b, Block.Rewritten E record b ∧ b.height = height
  linked : ∀ (height : Nat) (below record : List Bytes) (parent b : Block),
    s.blocks[height]? = some below → s.blocks[height + 1]? = some record →
    decodeBlock E below = .ok parent → decodeBlock E record = .ok b →
    parent.id = some b.previousBlock

/-- The first blocks of the chain as they are read. -/
structure Store.Chained (E : Env) (s : Store) (blocks : List Block) : Prop where
  record : ∀ b ∈ blocks, ∃ record, s.blocks[b.height]? = some record ∧ Block.Rewritten E record b
  above : Chain.Above 0 blocks
  follows : blocks.IsChain Follows

namespace Store.Solid

variable {P : Primitives} {N : Network} {E : Env} {s s' : Store} {front : List Block}

/-- Records do not depend on the time. -/
theorem atTime {now : Int} (h : s.Solid ⟨P, N, now⟩) (now' : Int) : s.Solid ⟨P, N, now'⟩ := by
  refine ⟨h.range, fun height record hrecord => ?_, h.linked⟩
  obtain ⟨b, hb, hheight⟩ := h.record height record hrecord
  exact ⟨b, ⟨hb.reads, hb.writes, hb.header, hb.id, hb.known, hb.few, hb.valid⟩, hheight⟩

theorem congr (h : s.Solid E) (hblocks : s'.blocks = s.blocks)
    (hheight : s'.lastHeight = s.lastHeight) : s'.Solid E := by
  refine ⟨?_, ?_, ?_⟩
  · rw [hblocks, hheight]
    exact h.range
  · rw [hblocks]
    exact h.record
  · rw [hblocks]
    exact h.linked

theorem empty (E : Env) : ({} : Store).Solid E := by
  refine ⟨fun height => ?_, fun height record h => ?_, fun height below record parent b h => ?_⟩
  · simp only [Std.ExtTreeMap.getElem?_empty, Option.isSome_none, Bool.false_eq_true, false_iff]
    omega
  · simp at h
  · simp at h

theorem rolledBack (h : s.Solid E) (r : RolledBack E s s') : s'.Solid E := by
  obtain ⟨hblocks, -, hheight, -⟩ := r.chain
  have hpos := r.above
  have hkept : ∀ (n : Nat) (record : List Bytes), s'.blocks[n]? = some record →
      s.blocks[n]? = some record := by
    intro n record hn
    rw [hblocks, OrderedMap.getElem?_erase_eq] at hn
    split_ifs at hn
    exact hn
  refine ⟨fun n => ?_, fun n record hn => h.record n record (hkept n record hn), ?_⟩
  · rw [hblocks, hheight, OrderedMap.getElem?_erase_eq]
    split_ifs with heq
    · simp only [Option.isSome_none, Bool.false_eq_true, false_iff]
      omega
    · rw [h.range]
      omega
  · intro n below record parent b hbelow hrecord
    exact h.linked n below record parent b (hkept _ _ hbelow) (hkept _ _ hrecord)

/-- A rollback that succeeds ends at its target, and the records up to there stay. -/
theorem rollbackTo (h : s.Solid E) {target height : Nat} (hle : target ≤ s.lastHeight)
    (hrun : s.rollbackTo E target = (s', .ok height)) :
    s'.Solid E ∧ s'.lastHeight = target ∧ ∀ n ≤ target, s'.blocks[n]? = s.blocks[n]? := by
  suffices hall : ∀ (fuel : Nat) (t : Store), t.Solid E → target ≤ t.lastHeight →
      t.lastHeight = target + fuel →
      rollbackWhile E target fuel t t.lastHeight = (s', .ok height) →
      s'.Solid E ∧ s'.lastHeight = target ∧ ∀ n ≤ target, s'.blocks[n]? = t.blocks[n]? from
    hall _ s h hle (by omega) hrun
  intro fuel
  induction fuel with
  | zero =>
      intro t ht _ hfuel hrun
      obtain ⟨rfl, -⟩ := Prod.mk.inj hrun
      exact ⟨ht, hfuel, fun _ _ => rfl⟩
  | succ fuel ih =>
      intro t ht _ hfuel hrun
      rw [rollbackWhile, if_neg (by omega)] at hrun
      rcases hlast : t.rollbackLastBlock E with ⟨u, e | tip⟩
      · rw [hlast] at hrun
        cases (Prod.mk.inj hrun).2
      · rw [hlast] at hrun
        obtain ⟨rfl, ⟨r⟩⟩ := rollbackLastBlock_eq_ok hlast
        obtain ⟨hblocks, -, hheight, -⟩ := r.chain
        rw [← hheight] at hrun
        obtain ⟨hsolid, hend, hkept⟩ := ih u (ht.rolledBack r) (by omega) (by omega) hrun
        refine ⟨hsolid, hend, fun n hn => ?_⟩
        rw [hkept n hn, hblocks, OrderedMap.getElem?_erase_eq, if_neg (by omega)]

/-- Blocks on the tip that name the blocks below them. -/
theorem stacked (h : s.Solid E) (hstacked : Chain.Stacked E s front s')
    (habove : Chain.Above s.lastHeight front) (hchain : front.IsChain Follows)
    (hwhole : ∀ b ∈ front, ∀ p, prepareBlock E b = .ok p → ∃ d, Block.Rewritten E p.2 d ∧
      { d with transactions := [] } = { b with transactions := [] })
    (hjoin : ∀ first ∈ front.head?, ∀ below parent, s.blocks[s.lastHeight]? = some below →
      decodeBlock E below = .ok parent → parent.id = some first.previousBlock) :
    s'.Solid E := by
  -- what is stored was there before, or it is the record of a new block
  have hstored : ∀ (n : Nat) (record : List Bytes), s'.blocks[n]? = some record →
      n ≤ s.lastHeight ∧ s.blocks[n]? = some record ∨
      s.lastHeight < n ∧ ∃ b ∈ front, b.height = n ∧ ∃ d, Block.Rewritten E record d ∧
        { d with transactions := [] } = { b with transactions := [] } := by
    intro n record hn
    by_cases hmem : n ∈ front.map fun b => b.height
    · obtain ⟨b, hb, rfl⟩ := List.mem_map.mp hmem
      obtain ⟨p, hp, hwritten⟩ := hstacked.written b hb
      obtain rfl := Option.some.inj (hn.symm.trans hwritten)
      exact .inr ⟨(habove.mem hb).1, b, hb, rfl, hwhole b hb p hp⟩
    · rw [hstacked.kept n hmem] at hn
      have hin := (h.range n).mp (by rw [hn]; rfl)
      exact .inl ⟨hin.2, hn⟩
  refine ⟨fun n => ?_, fun n record hn => ?_, fun n below record parent b hbelow hrecord => ?_⟩
  · rw [hstacked.height]
    by_cases hmem : n ∈ front.map fun b => b.height
    · have hin := habove.mem_heights.mp hmem
      obtain ⟨b, hb, rfl⟩ := List.mem_map.mp hmem
      obtain ⟨p, -, hwritten⟩ := hstacked.written b hb
      rw [hwritten]
      simp only [Option.isSome_some, true_iff]
      omega
    · rw [hstacked.kept n hmem, h.range]
      rw [habove.mem_heights] at hmem
      omega
  · rcases hstored n record hn with ⟨-, hold⟩ | ⟨-, b, hb, hheight, d, hd, hsame⟩
    · exact h.record n record hold
    · exact ⟨d, hd, (congrArg Block.height hsame).trans hheight⟩
  · intro hparent hb
    rcases hstored (n + 1) record hrecord with
      ⟨hle, hold⟩ | ⟨hlt, c, hc, hheight, d, hd, hsame⟩
    · rcases hstored n below hbelow with ⟨-, hunder⟩ | ⟨hlt, -⟩
      · exact h.linked n below record parent b hunder hold hparent hb
      · omega
    · obtain rfl := Except.ok.inj (hd.reads.symm.trans hb)
      have hprevious := congrArg Block.previousBlock hsame
      change d.previousBlock = c.previousBlock at hprevious
      rw [hprevious]
      rcases hstored n below hbelow with ⟨hle, hunder⟩ | ⟨-, a, ha, haheight, e, he, hsame'⟩
      · obtain rfl : n = s.lastHeight := by omega
        have hfirst := habove.getElem?_eq hc
        rw [hheight, Nat.sub_self, ← List.head?_eq_getElem?] at hfirst
        exact hjoin c hfirst below parent hunder hparent
      · obtain rfl := Except.ok.inj (he.reads.symm.trans hparent)
        have hid := congrArg Block.id hsame'
        change e.id = a.id at hid
        rw [hid]
        exact (habove.follows hchain ha hc (by omega)).2

/-- The blocks of the chain up to a height as they are read. -/
theorem exists_chained (h : s.Solid E) {n : Nat} (hn : n ≤ s.lastHeight) :
    ∃ blocks : List Block, blocks.length = n ∧ s.Chained E blocks := by
  obtain ⟨blocks, hblocks⟩ := exists_forall₂ (l := List.range' 1 n)
    (R := fun height b => b.height = height ∧ ∃ record, s.blocks[height]? = some record ∧
      Block.Rewritten E record b) (by
    intro height hmem
    rw [List.mem_range'_1] at hmem
    obtain ⟨record, hrecord⟩ := Option.isSome_iff_exists.mp
      ((h.range height).mpr ⟨by omega, by omega⟩)
    obtain ⟨b, hb, hheight⟩ := h.record height record hrecord
    exact ⟨b, hheight, record, hrecord, hb⟩)
  have hlength : blocks.length = n := by
    rw [← hblocks.length_eq, List.length_range']
  have hheights : blocks.map (fun b => b.height) = List.range' 1 n := by
    have hmap := map_eq_of_forall₂ (f := id) (g := fun b : Block => b.height) hblocks
      fun height b hb => hb.1.symm
    rw [← hmap, List.map_id]
  have hrecord : ∀ b ∈ blocks, ∃ record, s.blocks[b.height]? = some record ∧
      Block.Rewritten E record b := by
    intro b hb
    obtain ⟨height, -, hheight, record, hstored, hwritten⟩ := forall₂_mem_right hblocks b hb
    rw [hheight]
    exact ⟨record, hstored, hwritten⟩
  have hsuccessive : Chain.Successive blocks := by
    have hchain := List.isChain_range' 1 n 1
    rw [← hheights, List.isChain_map] at hchain
    exact hchain
  refine ⟨blocks, hlength, hrecord, ⟨hsuccessive, fun first hfirst => ?_⟩, ?_⟩
  · obtain ⟨rest, rfl⟩ := List.head?_eq_some_iff.mp hfirst
    subst hlength
    rw [List.length_cons, List.range'_succ] at hheights
    exact (List.cons.inj hheights).1
  · refine hsuccessive.imp_of_mem_imp fun a b ha hb hnext => ⟨hnext, ?_⟩
    obtain ⟨below, hbelow, hparent⟩ := hrecord a ha
    obtain ⟨record, hstored, hwritten⟩ := hrecord b hb
    rw [hnext] at hstored
    exact h.linked a.height below record a b hbelow hstored hparent.reads hwritten.reads

/-- The tip that is read is the block in the last record. -/
theorem readTip (h : s.Solid E) {tip : Sync.ChainTip} (hread : SthCore.readTip E s = .ok tip) :
    tip.height = s.lastHeight ∧ ∀ below parent, s.blocks[s.lastHeight]? = some below →
      decodeBlock E below = .ok parent → tip.id = parent.id := by
  obtain ⟨found, hlast, hread⟩ := bind_eq_ok.mp hread
  unfold getLastBlock at hlast
  split_ifs at hlast with hzero
  · obtain rfl := Except.ok.inj hlast
    rw [← pure_eq_ok.mp hread]
    refine ⟨hzero.symm, fun below parent hbelow => ?_⟩
    have hin := (h.range s.lastHeight).mp (by rw [hbelow]; rfl)
    omega
  · obtain ⟨record, hrecord⟩ := Option.isSome_iff_exists.mp
      ((h.range s.lastHeight).mpr ⟨Nat.pos_of_ne_zero hzero, Nat.le_refl _⟩)
    obtain ⟨b, hb, hheight⟩ := h.record _ record hrecord
    rw [getBlockByHeight_some.mpr ⟨record, hrecord, hb.reads⟩] at hlast
    obtain rfl := Except.ok.inj hlast
    rw [← pure_eq_ok.mp hread]
    refine ⟨hheight, fun below parent hbelow hparent => ?_⟩
    obtain rfl := Option.some.inj (hrecord.symm.trans hbelow)
    rw [Except.ok.inj (hb.reads.symm.trans hparent)]

/-- The tip of a chain is read from its last record. -/
theorem exists_tip (h : s.Solid E) (hpos : 0 < s.lastHeight) :
    ∃ record b, s.blocks[s.lastHeight]? = some record ∧ decodeBlock E record = .ok b ∧
      SthCore.readTip E s = .ok { height := s.lastHeight, id := b.id } := by
  obtain ⟨record, hrecord⟩ := Option.isSome_iff_exists.mp
    ((h.range s.lastHeight).mpr ⟨hpos, Nat.le_refl _⟩)
  obtain ⟨b, hb, hheight⟩ := h.record _ record hrecord
  refine ⟨record, b, hrecord, hb.reads, ?_⟩
  rw [← hheight]
  refine bind_eq_ok.mpr ⟨some b, ?_, rfl⟩
  unfold getLastBlock
  rw [if_neg (by omega)]
  exact getBlockByHeight_some.mpr ⟨record, hrecord, hb.reads⟩

/-- What the checks on the tip that is read say about blocks that can be read back: they follow
on the tip, and what is written for them is read back. -/
theorem checked (h : s.Solid E) (hP : E.prim.Lawful) {tip tip' : Sync.ChainTip}
    (hread : SthCore.readTip E s = .ok tip) {blocks : List Block}
    (hblocks : ∀ b ∈ blocks, b.Readable E)
    (hcheck : Sync.checkBlocks E s blocks tip true = .ok tip') :
    Chain.Above s.lastHeight blocks ∧ blocks.IsChain Follows ∧
    (∀ b ∈ blocks, ∀ p, prepareBlock E b = .ok p → ∃ d, Block.Rewritten E p.2 d ∧
      { d with transactions := [] } = { b with transactions := [] }) ∧
    ∀ first ∈ blocks.head?, ∀ below parent, s.blocks[s.lastHeight]? = some below →
      decodeBlock E below = .ok parent → parent.id = some first.previousBlock := by
  obtain ⟨htip, hparent⟩ := h.readTip hread
  obtain ⟨hlink, hverify, batch, hrules⟩ := Sync.checkBlocks_eq_ok.mp hcheck
  obtain ⟨hheights, -, hfirst⟩ := Chain.link_successive hlink
  rw [htip] at hfirst
  refine ⟨⟨hheights, hfirst⟩, link_isChain hlink, ?_, ?_⟩
  · intro b hb p hp
    obtain ⟨hid, hvalid⟩ := hverify b hb
    obtain ⟨-, hrecord⟩ := prepareBlock_eq_ok (verified_of_verifyBlock hid hvalid) hp
    exact Block.exists_rewritten hP hid hvalid (Sync.checkStatefulRules_keys hrules hb)
      (hblocks b hb) hrecord
  · intro first hmem below parent hbelow hdecode
    obtain ⟨id, hid⟩ : ∃ id, parent.id = some id := by
      obtain ⟨b, hb, -⟩ := h.record _ below hbelow
      obtain rfl := Except.ok.inj (hb.reads.symm.trans hdecode)
      exact Option.isSome_iff_exists.mp hb.id
    obtain ⟨rest, rfl⟩ := List.head?_eq_some_iff.mp hmem
    obtain ⟨tip₁, hone, -⟩ := foldlM_cons_ok.mp hlink
    obtain ⟨-, -, hprevious, -⟩ := Sync.link_eq_ok.mp hone
    rw [hid, hprevious id (by rw [hparent below parent hbelow hdecode, hid])]

/-- A call on the tip that is read, with blocks that can be read back. -/
theorem applyBlocks (h : s.Solid E) (hP : E.prim.Lawful) {tip : Sync.ChainTip}
    (hread : SthCore.readTip E s = .ok tip) {blocks : List Block}
    (hblocks : ∀ b ∈ blocks, b.Readable E) :
    (Sync.applyBlocks E s blocks tip true).1.Solid E := by
  unfold Sync.applyBlocks
  split
  · exact h
  · rename_i tip' hcheck
    obtain ⟨habove, hfollows, hwhole, hjoin⟩ := h.checked hP hread hblocks hcheck
    obtain ⟨front, rest, rfl, hstacked, -⟩ := Chain.applyBlocks_stacked E habove
    refine h.stacked hstacked habove.append.1 (List.isChain_append.mp hfollows).1
      (fun b hb => hwhole b (List.mem_append_left _ hb)) fun first hmem => hjoin first ?_
    obtain ⟨later, rfl⟩ := List.head?_eq_some_iff.mp hmem
    rfl

end Store.Solid

namespace Chain

/-- A node that puts readable blocks on the tip it reads, rolls back and switches the undo
journal; calls and rollbacks may fail. -/
inductive TipRun (P : Primitives) (N : Network) : Store → Prop
  | start : TipRun P N {}
  | call {s : Store} {tip : Sync.ChainTip} (now : Int) (blocks : List Block) :
      TipRun P N s → readTip ⟨P, N, now⟩ s = .ok tip →
      (∀ b ∈ blocks, b.Readable ⟨P, N, now⟩) →
      TipRun P N (Sync.applyBlocks ⟨P, N, now⟩ s blocks tip true).1
  | rollback {s : Store} (now : Int) :
      TipRun P N s → TipRun P N (s.rollbackLastBlock ⟨P, N, now⟩).1
  | setUndo {s : Store} (on : Bool) : TipRun P N s → TipRun P N { s with undoEnabled := on }

theorem TipRun.solid {P : Primitives} {N : Network} {s : Store} (hP : P.Lawful)
    (h : TipRun P N s) (now : Int) : s.Solid ⟨P, N, now⟩ := by
  induction h with
  | start => exact .empty _
  | call t blocks _ hread hblocks ih =>
      exact ((ih.atTime t).applyBlocks hP hread hblocks).atTime now
  | @rollback s t _ ih =>
      rcases hresult : s.rollbackLastBlock ⟨P, N, t⟩ with ⟨s', e | tip⟩
      · obtain ⟨certs, rfl⟩ := Store.rollbackLastBlock_error hresult
        exact ih.congr rfl rfl
      · obtain ⟨-, ⟨r⟩⟩ := Store.rollbackLastBlock_eq_ok hresult
        exact ((ih.atTime t).rolledBack r).atTime now
  | setUndo on _ ih => exact ih.congr rfl rfl

end Chain

open Reference

/-- A block without transactions can be read back when its header can, at any time. -/
theorem Block.HeaderReadable.readable {P : Primitives} {N : Network} {now : Int} {b : Block}
    (h : b.HeaderReadable ⟨P, N, now⟩) (hnone : b.transactions = []) (now' : Int) :
    b.Readable ⟨P, N, now'⟩ := by
  refine ⟨⟨h.id, h.height, h.previousBlock, h.payloadHash, h.generator, h.blockSignature,
    h.pqSignature⟩, fun tx htx => ?_, fun _ _ => ?_, ?_⟩
  · rw [hnone] at htx
    cases htx
  · rw [hnone]
    exact List.Pairwise.nil
  · rw [hnone]
    decide

namespace Chain

theorem genesis_headerReadable : genesis.HeaderReadable linkEnv := by
  decide +kernel

theorem tipRun_second {b : Block} (hb : b.Readable linkEnv) :
    TipRun primitives (network {}) (secondStore b) := by
  unfold secondStore
  have hfirst : TipRun primitives (network {})
      (Sync.applyBlocks linkEnv {} [genesis] ⟨0, none⟩ true).1 := by
    refine .call 16000 [genesis] .start rfl fun c hc => ?_
    rw [List.mem_singleton.mp hc]
    exact genesis_headerReadable.readable rfl 16000
  have htip : (readTip linkEnv (Sync.applyBlocks linkEnv {} [genesis] ⟨0, none⟩ true).1).toOption =
      some ⟨1, genesis.id⟩ := by
    decide +kernel
  refine .call 16000 [b] hfirst ?_ fun c hc => ?_
  · cases hread : readTip linkEnv (Sync.applyBlocks linkEnv {} [genesis] ⟨0, none⟩ true).1 with
    | error e =>
        rw [hread] at htip
        cases htip
    | ok tip =>
        rw [hread] at htip
        exact hread.trans (congrArg Except.ok (Option.some.inj htip))
  · rw [List.mem_singleton.mp hc]
    exact hb

end Chain

end SthCore
