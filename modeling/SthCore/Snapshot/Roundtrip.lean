import SthCore.Snapshot.MessagePack

/-!
The import of a dump into an empty store makes the chain that was dumped, whatever its options.
-/

namespace SthCore

open SthCore.Lib

namespace Snapshot

namespace Importer

variable {I : Importer} {o : ImportOptions} {cancel : Nat → Bool} {writeValue : Value → Bytes}
  {blocks done front rest : List Block}

/-- The tip after blocks on an empty chain. -/
def tipAfter (blocks : List Block) : Sync.ChainTip :=
  (blocks.getLast?.map fun b => { height := b.height, id := b.id }).getD { height := 0, id := none }

/-- A block that an import takes from a dump. -/
structure Importable (I : Importer) (o : ImportOptions) (b : Block) : Prop where
  known : b.id.isSome
  few : b.transactions.length < 2 ^ 32
  count : UInt32.ofNat b.transactions.length = b.numberOfTransactions
  checked : I.checkImported o b = .ok ()

/-- The import of a dump of blocks between two records. -/
structure Restoring (I : Importer) (p : Progress) (done rest : List Block) : Prop where
  above : Chain.Above 0 (done ++ p.chunk ++ rest)
  follows : (done ++ p.chunk ++ rest).IsChain Follows
  stacked : Chain.Stacked I.env {} done p.store
  tip : p.tip = tipAfter (done ++ p.chunk)
  txs : ∀ b ∈ rest, p.txs[b.height]?.getD [] = b.transactions
  imported : p.imported = done.length

theorem tipAfter_height (h : Chain.Above 0 blocks) : (tipAfter blocks).height = blocks.length := by
  unfold tipAfter
  cases hlast : blocks.getLast? with
  | none =>
      obtain rfl := List.getLast?_eq_none_iff.mp hlast
      rfl
  | some last =>
      have hheight := h.last hlast
      show last.height = blocks.length
      omega

/-- The next block of the dump is taken from its record. -/
theorem admitRecord_dumped {b : Block} {part : Bytes × List Bytes} {p : Progress}
    (h : Restoring I p done (b :: rest)) (hb : Importable I o b) (hpart : DumpedBlock I b part) :
    I.admitRecord o p.tip p.txs part.1 = .ok (some b) := by
  obtain ⟨hbelow, hnext⟩ := h.above.append
  have hheight : b.height = p.tip.height + 1 := by
    rw [h.tip, tipAfter_height hbelow, hnext.first b rfl, Nat.zero_add]
  have hlink : ¬ (p.tip.id.any fun id => decide (b.previousBlock ≠ id)) = true := by
    obtain ⟨-, -, hjoin⟩ := List.isChain_append.mp h.follows
    rw [h.tip, tipAfter]
    cases hlast : (done ++ p.chunk).getLast? with
    | none => simp
    | some last =>
        have hid := (hjoin last hlast b rfl).2
        simp [hid]
  have hfill : fillTransactions p.txs { b with transactions := [] } = .ok b := by
    unfold fillTransactions
    dsimp only
    rw [h.txs b List.mem_cons_self]
    split_ifs with hsome hcount
    · exact absurd hb.count hcount
    · rfl
    · have hzero : b.numberOfTransactions = 0 := by
        simpa using hsome
      have hcount := congrArg UInt32.toNat hb.count
      rw [UInt32.toNat_ofNat_of_lt' hb.few, hzero] at hcount
      have hnone : b.transactions = [] := List.length_eq_zero_iff.mp hcount
      rw [← hnone]
  refine bind_eq_ok.mpr ⟨_, hpart.header, ?_⟩
  dsimp only
  rw [if_neg (by omega), if_neg (by omega), if_neg hlink, hfill]
  exact bind_eq_ok.mpr ⟨b, rfl, bind_eq_ok.mpr ⟨(), hb.checked, rfl⟩⟩

theorem Restoring.push {b : Block} {p : Progress} (h : Restoring I p done (b :: rest)) :
    Restoring I (p.push b) done rest := by
  have hsplit : done ++ p.chunk ++ b :: rest = done ++ (p.chunk ++ [b]) ++ rest := by
    rw [List.append_assoc, List.append_assoc, List.append_assoc, List.singleton_append]
  have habove := h.above
  have hfollows := h.follows
  obtain ⟨hfirst, hlater⟩ := (show Chain.Above 0 (done ++ p.chunk ++ ([b] ++ rest)) from
    habove).append.2.append
  rw [hsplit] at habove hfollows
  refine ⟨habove, hfollows, h.stacked, ?_, fun c hc => ?_, h.imported⟩
  · show _ = tipAfter (done ++ (p.chunk ++ [b]))
    unfold tipAfter
    rw [← List.append_assoc, List.getLast?_append]
    rfl
  · have hne : b.height ≠ c.height := by
      have hb := (hfirst.mem List.mem_cons_self).2
      have hc := (hlater.mem hc).1
      omega
    unfold Progress.push
    dsimp only
    split_ifs with hsome
    · rw [OrderedMap.getElem?_erase_eq, if_neg (by omega)]
      exact h.txs c (List.mem_cons_of_mem _ hc)
    · exact h.txs c (List.mem_cons_of_mem _ hc)

/-- Blocks that were imported, and the blocks that were dumped. -/
def Imported (I : Importer) (blocks : List Block) (s : Store) : Prop :=
  ∃ done, done <+: blocks ∧ Chain.Stacked I.env {} done s

/-- An error of a chunk of blocks, after the blocks below it. -/
def ChunkFails (I : Importer) (o : ImportOptions) (blocks : List Block) (s : Store) (e : Error) :
    Prop :=
  ∃ before done chunk, done ++ chunk <+: blocks ∧ Chain.Stacked I.env {} done before ∧
    I.commitChunk o before chunk = (s, .error e)

/-- The chunk is stored, or what of it comes before the block that cannot be applied. -/
theorem Restoring.commit {p : Progress} (h : Restoring I p done rest) :
    Imported I (done ++ p.chunk ++ rest) (I.commitChunk o p.store p.chunk).1 ∧
    ((I.commitChunk o p.store p.chunk).2 = .ok () →
      Chain.Stacked I.env {} (done ++ p.chunk) (I.commitChunk o p.store p.chunk).1) := by
  unfold commitChunk
  split
  · refine ⟨⟨done, ?_, h.stacked⟩, fun hok => ?_⟩
    · rw [List.append_assoc]
      exact List.prefix_append _ _
    · cases hok
  · have hchunk := h.above.append.1
    have habove := hchunk.append.2
    have hheight : p.store.lastHeight = 0 + done.length := h.stacked.height
    rw [← hheight] at habove
    obtain ⟨front, behind, heq, hstacked, hend⟩ := Chain.applyBlocks_stacked I.env habove
    have hdone : Chain.Above 0 (done ++ front) := by
      rw [heq, ← List.append_assoc] at hchunk
      exact hchunk.append.1
    have hall := h.stacked.append hstacked hdone
    refine ⟨⟨done ++ front, ?_, hall⟩, fun hok => ?_⟩
    · rw [heq, List.append_assoc, List.append_assoc, ← List.append_assoc]
      exact List.prefix_append _ _
    · obtain rfl := hend hok
      rw [List.append_nil] at heq
      rw [← heq] at hall
      exact hall

/-- A chunk is applied and the next one begun, or the import fails on it. -/
theorem Restoring.apply {p : Progress} (h : Restoring I p done rest) :
    (∃ p', I.applyChunk o p = (p', .ok ()) ∧ Restoring I p' (done ++ p.chunk) rest ∧
      p'.chunk = []) ∨
    ∃ p' e, I.applyChunk o p = (p', .error e) ∧
      Imported I (done ++ p.chunk ++ rest) p'.store ∧
      ChunkFails I o (done ++ p.chunk ++ rest) p'.store e := by
  obtain ⟨himported, hok⟩ := @Restoring.commit I o _ _ _ h
  rcases applyChunk_cases I o p with ⟨store, e, hfailed, happly⟩ | ⟨store, hwritten, happly⟩
  · rw [hfailed] at himported
    exact .inr ⟨_, e, happly, himported, p.store, done, p.chunk, List.prefix_append _ _, h.stacked,
      hfailed⟩
  · rw [hwritten] at hok
    refine .inl ⟨_, happly, ⟨?_, ?_, hok rfl, ?_, h.txs, ?_⟩, rfl⟩
    · rw [List.append_nil]
      exact h.above
    · rw [List.append_nil]
      exact h.follows
    · rw [List.append_nil]
      exact h.tip
    · show p.imported + p.chunk.length = (done ++ p.chunk).length
      rw [h.imported, List.length_append]

/-- How the import of a dump of blocks may end. -/
inductive Ends (I : Importer) (o : ImportOptions) (blocks : List Block) :
    Progress × Except Error Bool → Prop
  | ok {p : Progress} {done : List Block} (interrupted : Bool) (prefixed : done <+: blocks)
      (stacked : Chain.Stacked I.env {} done p.store) (tip : p.tip = tipAfter done)
      (imported : p.imported = done.length) (whole : interrupted = false → done = blocks) :
      Ends I o blocks (p, .ok interrupted)
  | error {p : Progress} {e : Error} (imported : Imported I blocks p.store)
      (fails : ChunkFails I o blocks p.store e) : Ends I o blocks (p, .error e)

/-- The last chunk, after the records up to some block. -/
theorem Restoring.finish {p : Progress} (h : Restoring I p done rest) {interrupted : Bool}
    (hwhole : interrupted = false → rest = []) :
    Ends I o (done ++ p.chunk ++ rest) (I.finishImport o none (p, .ok interrupted)) := by
  have hall : interrupted = false → done ++ p.chunk = done ++ p.chunk ++ rest := by
    intro hend
    rw [hwhole hend, List.append_nil]
  have hnone : (if interrupted then none else (none : Option Error)) = none := by
    split <;> rfl
  unfold finishImport
  dsimp only
  rw [hnone]
  dsimp only
  split_ifs with hchunk
  · have htip := h.tip
    rw [hchunk, List.append_nil] at hall htip ⊢
    exact .ok interrupted (List.prefix_append _ _) h.stacked htip h.imported hall
  · rcases @Restoring.apply I o _ _ _ h with
      ⟨p', happly, hp', hempty⟩ | ⟨p', e, happly, himported, hfails⟩
    · have htip := hp'.tip
      rw [hempty, List.append_nil] at htip
      rw [happly]
      exact .ok interrupted (List.prefix_append _ _) hp'.stacked htip hp'.imported hall
    · rw [happly]
      exact .error himported hfails

/-- The records of a dump, from any of its blocks on. -/
theorem importRecords_dumped {parts : List (Bytes × List Bytes)}
    (hparts : List.Forall₂ (DumpedBlock I) rest parts) (hrest : ∀ b ∈ rest, Importable I o b)
    {p : Progress} (h : Restoring I p done rest) :
    Ends I o (done ++ p.chunk ++ rest)
      (I.finishImport o none (I.importRecords o cancel (parts.map (·.1)) p)) := by
  induction hparts generalizing p done with
  | nil => exact h.finish fun _ => rfl
  | @cons b part rest parts hpart hparts ih =>
      have hlater : ∀ c ∈ rest, Importable I o c := fun c hc =>
        hrest c (List.mem_cons_of_mem _ hc)
      have hpushed := h.push
      have hsplit : done ++ (p.push b).chunk ++ rest = done ++ p.chunk ++ b :: rest := by
        show done ++ (p.chunk ++ [b]) ++ rest = _
        rw [List.append_assoc, List.append_assoc, List.append_assoc, List.singleton_append]
      rw [← hsplit, List.map_cons, importRecords,
        admitRecord_dumped h (hrest b List.mem_cons_self) hpart]
      dsimp only
      split_ifs with hfull
      · rcases @Restoring.apply I o _ _ _ hpushed with
          ⟨p', happly, hp', hempty⟩ | ⟨p', e, happly, himported, hfails⟩
        · have hblocks : done ++ (p.push b).chunk ++ p'.chunk ++ rest =
              done ++ (p.push b).chunk ++ rest := by
            rw [hempty, List.append_nil]
          rw [happly, ← hblocks]
          dsimp only
          split_ifs with hcancel
          · exact hp'.finish fun hend => by cases hend
          · exact ih hlater hp'
        · rw [happly]
          exact .error himported hfails
      · exact ih hlater hpushed

/-- A stored block is taken from its dump: it was verified, and the import is not behind it. -/
theorem importable {record : List Bytes} {b : Block} (hb : Block.Rewritten I.env record b)
    (hclock : o.fast = false →
      b.timestamp ≤ I.env.nowEpoch + (I.env.network.milestone b.height).blocktime) :
    Importable I o b := by
  refine ⟨hb.id, hb.few, hb.count, ?_⟩
  unfold checkImported
  split_ifs with hfast hheight
  · refine bind_eq_ok.mpr ⟨b.payloadHash, hb.payload (by omega), ?_⟩
    simp
  · rfl
  · rw [hb.verify (hclock (by simpa using hfast))]

/-- The blocks that were imported have the records they had. -/
theorem records_eq {s s' : Store} (h : s.Chained I.env blocks) (hstacked : Chain.Stacked I.env {} done s')
    (hdone : done <+: blocks) (hsolid : s.Solid I.env) {height : Nat}
    (hheight : height ≤ s'.lastHeight) : s'.blocks[height]? = s.blocks[height]? := by
  obtain ⟨later, rfl⟩ := hdone
  have habove := h.above.append.1
  have htip : s'.lastHeight = 0 + done.length := hstacked.height
  by_cases hmem : height ∈ done.map fun b => b.height
  · obtain ⟨b, hb, rfl⟩ := List.mem_map.mp hmem
    obtain ⟨p, hp, hwritten⟩ := hstacked.written b hb
    obtain ⟨record, hstored, hrewritten⟩ := h.record b (List.mem_append_left _ hb)
    obtain ⟨now, hvalid⟩ := hrewritten.valid
    obtain ⟨hid, htxs, hnodup, htxId, hformat, hfees, hreward⟩ :=
      verified_of_verifyBlock hrewritten.id hvalid
    obtain ⟨-, hrecord⟩ :=
      prepareBlock_eq_ok ⟨hid, htxs, hnodup, htxId, hformat, hfees, hreward⟩ hp
    rw [hwritten, hstored, Except.ok.inj (hrecord.symm.trans hrewritten.writes)]
  · rw [hstacked.kept height hmem]
    rw [habove.mem_heights] at hmem
    obtain rfl : height = 0 := by omega
    cases hzero : s.blocks[0]? with
    | none => simp
    | some record =>
        have hin := (hsolid.range 0).mp (by rw [hzero]; rfl)
        omega

theorem dump_congr {s s' : Store} {stop : Option Nat}
    (hlast : s'.lastHeight = min (stop.getD s.lastHeight) s.lastHeight)
    (h : ∀ height ≤ s'.lastHeight, s'.blocks[height]? = s.blocks[height]?) :
    I.dump writeValue s' none = I.dump writeValue s stop := by
  unfold dump
  dsimp only
  rw [Option.getD_none, Nat.min_self, hlast]
  split_ifs
  · rfl
  · have hsame : (List.range' 1 (min (stop.getD s.lastHeight) s.lastHeight)).mapM
        (I.dumpBlock writeValue s') =
          (List.range' 1 (min (stop.getD s.lastHeight) s.lastHeight)).mapM
            (I.dumpBlock writeValue s) := by
      refine mapM_eq_of_forall₂ (R := fun height n => height = n ∧ height ≤ s'.lastHeight) ?_ ?_
      · rw [List.forall₂_same]
        intro height hmem
        rw [List.mem_range'_1] at hmem
        exact ⟨rfl, by omega⟩
      · rintro height _ ⟨rfl, hle⟩
        unfold dumpBlock Store.getBlockByHeight
        rw [h height hle]
    rw [hsame]

/-- A chain that is dumped and imported into an empty store is the same chain there, up to the
block where the import ended; what the import may fail on is the application of a chunk. -/
theorem importSnapshot_dump (hP : I.env.prim.Lawful) {s : Store}
    (h : Chain.TipRun I.env.prim I.env.network s) (hfit : I.RecordsFit writeValue s)
    (hclock : o.fast = false → ∀ height b, s.getBlockByHeight I.env height = .ok (some b) →
      b.timestamp ≤ I.env.nowEpoch + (I.env.network.milestone b.height).blocktime)
    {stop : Option Nat} (hsome : 0 < min (stop.getD s.lastHeight) s.lastHeight) :
    ∃ d s' result, I.dump writeValue s stop = .ok d ∧
      I.importSnapshot d o cancel {} = (s', result) ∧
      (∀ height ≤ s'.lastHeight, s'.blocks[height]? = s.blocks[height]?) ∧
      (∀ r, result = .ok r → r.startHeight = 0 ∧ r.endHeight = s'.lastHeight ∧
        r.imported = s'.lastHeight ∧ (r.interrupted = false →
          s'.lastHeight = min (stop.getD s.lastHeight) s.lastHeight ∧
          I.dump writeValue s' none = .ok d)) ∧
      ∀ e, result = .error e → ∃ before chunk, I.commitChunk o before chunk = (s', .error e) ∧
        (∀ height ≤ before.lastHeight, before.blocks[height]? = s.blocks[height]?) ∧
        ∀ b ∈ chunk, s.getBlockByHeight I.env b.height = .ok (some b) := by
  have hsolid := h.solid hP I.env.nowMs
  obtain ⟨blocks, hlength, hchained⟩ := hsolid.exists_chained (Nat.min_le_right _ _)
  have hne : blocks ≠ [] := by
    rintro rfl
    rw [← hlength] at hsome
    exact Nat.lt_irrefl _ hsome
  obtain ⟨parts, hparts, hdump⟩ := dump_eq hfit hchained hne hlength
  obtain ⟨txs, hopen, htxs⟩ := openDump_packDump hchained hparts blocks.length
  have hstream : readRecords ((parts.map (·.1)).flatMap frame) = (parts.map (·.1), none) := by
    apply readRecords_frames
    intro raw hraw
    obtain ⟨part, hpart, rfl⟩ := List.mem_map.mp hraw
    obtain ⟨b, -, hb⟩ := forall₂_mem_right hparts part hpart
    exact hb.size
  have himportable : ∀ b ∈ blocks, Importable I o b := by
    intro b hb
    obtain ⟨record, hstored, hwritten⟩ := hchained.record b hb
    exact importable hwritten fun hslow => hclock hslow b.height b
      (Store.getBlockByHeight_some.mpr ⟨record, hstored, hwritten.reads⟩)
  have hstart : Restoring I { store := {}, tip := { height := 0, id := none }, txs } [] blocks :=
    ⟨hchained.above, hchained.follows, .refl _ _, rfl, htxs, rfl⟩
  obtain ⟨final, hfinal⟩ : ∃ final, final = I.finishImport o none (I.importRecords o cancel
      (parts.map (·.1)) { store := {}, tip := { height := 0, id := none }, txs }) := ⟨_, rfl⟩
  have hend : Ends I o blocks final := by
    rw [hfinal]
    exact importRecords_dumped hparts himportable hstart
  have himport : I.importSnapshot (I.packDump blocks.length parts) o cancel {} =
      (final.1.store, final.2.map fun interrupted =>
        { snapshotEnd := blocks.length, startHeight := 0, endHeight := final.1.tip.height,
          imported := final.1.imported, skipped := final.1.skipped, interrupted }) := by
    have hstream : readRecords (I.packDump blocks.length parts).blocks =
      (parts.map (·.1), none) := hstream
    unfold importSnapshot
    rw [hopen]
    dsimp only
    rw [hstream, hfinal]
    rfl
  clear hfinal
  cases hend with
  | @ok p done interrupted hdone hstacked htip himported hwhole =>
      dsimp only at himport
      have hrecords := fun height => @records_eq I _ _ _ _ hchained hstacked hdone hsolid height
      have hheight : p.store.lastHeight = done.length := by
        rw [hstacked.height]
        exact Nat.zero_add _
      obtain ⟨later, hblocks⟩ := hdone
      have htipHeight : p.tip.height = done.length := by
        have habove := hchained.above
        rw [← hblocks] at habove
        rw [htip, tipAfter_height habove.append.1]
      refine ⟨_, _, _, hdump, himport, hrecords, ?_, fun e he => by cases he⟩
      rintro r hr
      obtain rfl := Except.ok.inj hr
      refine ⟨rfl, htipHeight.trans hheight.symm, himported.trans hheight.symm, fun hfull => ?_⟩
      have hlast : p.store.lastHeight = min (stop.getD s.lastHeight) s.lastHeight := by
        rw [hheight, hwhole hfull, hlength]
      refine ⟨hlast, ?_⟩
      rw [dump_congr hlast hrecords, hdump]
  | @error p e himported hfails =>
      dsimp only at himport
      obtain ⟨done, hdone, hstacked⟩ := himported
      refine ⟨_, _, _, hdump, himport,
        fun height => @records_eq I _ _ _ _ hchained hstacked hdone hsolid height,
        fun r hr => (by cases hr), fun e' he => ?_⟩
      obtain rfl := Except.error.inj he
      obtain ⟨before, under, chunk, hchunk, hunder, hfailed⟩ := hfails
      refine ⟨before, chunk, hfailed, fun height => records_eq hchained hunder
        ((List.prefix_append _ _).trans hchunk) hsolid, fun b hb => ?_⟩
      obtain ⟨record, hstored, hwritten⟩ := hchained.record b
        (hchunk.subset (List.mem_append_right _ hb))
      exact Store.getBlockByHeight_some.mpr ⟨record, hstored, hwritten.reads⟩

open Reference

/-- An importer that reads MessagePack. -/
def packImporter : Importer := { linkImporter with readValue := MessagePack.unpack }

/-- The first block and one with a transfer. -/
def transferStore : Store :=
  (Sync.applyBlocks linkEnv (Sync.applyBlocks linkEnv {} [genesis] ⟨0, none⟩ true).1
    [transferBlock] ⟨1, genesis.id⟩ true).1

theorem transferStore_tipRun :
    Chain.TipRun packImporter.env.prim packImporter.env.network transferStore :=
  Chain.tipRun_second (transferBlock_readable _ rfl)

/-- The lengths of the records of a block are far from four bytes. -/
def shortRecords (s : Store) (height : Nat) : Bool :=
  match s.getBlockByHeight linkEnv height with
  | .ok (some block) => block.transactions.all fun tx =>
      (serializeTransaction linkEnv.prim tx {} linkEnv.network.pubkeyHash).toOption.all fun raw =>
        (tx.id.getD "").utf8Bytes.length + (block.id.getD "").utf8Bytes.length + raw.length + 64 <
          2 ^ 32
  | _ => true

theorem shortRecords_length {s : Store} {height : Nat} {block : Block} {tx : Transaction}
    {raw : Bytes} (hshort : shortRecords s height)
    (hblock : s.getBlockByHeight linkEnv height = .ok (some block)) (hmem : tx ∈ block.transactions)
    (hraw : serializeTransaction linkEnv.prim tx {} linkEnv.network.pubkeyHash = .ok raw) :
    (tx.id.getD "").utf8Bytes.length + (block.id.getD "").utf8Bytes.length + raw.length + 64 <
      2 ^ 32 := by
  unfold shortRecords at hshort
  rw [hblock] at hshort
  have hone := List.all_eq_true.mp hshort tx hmem
  rw [hraw] at hone
  simpa [Except.toOption] using hone

/-- The two blocks, the lengths of their records and their timestamps. -/
theorem transferStore_blocks :
    transferStore.lastHeight = 2 ∧ (∀ height ∈ [1, 2], shortRecords transferStore height) ∧
    ∀ height ∈ [1, 2], (transferStore.getBlockByHeight linkEnv height).toOption.all
      fun found => found.all fun b => decide (b.timestamp ≤
        linkEnv.nowEpoch + (linkEnv.network.milestone b.height).blocktime) := by
  decide +kernel

theorem transferStore_recordsFit : packImporter.RecordsFit MessagePack.pack transferStore := by
  have hsolid := transferStore_tipRun.solid primitives_lawful 16000
  obtain ⟨hlast, hlengths, -⟩ := transferStore_blocks
  refine MessagePack.recordsFit rfl fun height block seq tx raw hblock hmem hraw => ?_
  obtain ⟨record, hstored, -⟩ := Store.getBlockByHeight_some.mp hblock
  obtain ⟨hlow, hhigh⟩ := (hsolid.range height).mp (by rw [hstored]; rfl)
  have hshort : shortRecords transferStore height := hlengths height (by simp; omega)
  exact shortRecords_length hshort hblock (List.fst_mem_of_mem_zipIdx hmem) hraw

theorem importSnapshot_dump_transfer :
    ∃ d s' result, packImporter.dump MessagePack.pack transferStore none = .ok d ∧
      packImporter.importSnapshot d { fast := false } never {} = (s', result) ∧
      (∀ height ≤ s'.lastHeight, s'.blocks[height]? = transferStore.blocks[height]?) ∧
      (∀ r, result = .ok r → r.startHeight = 0 ∧ r.endHeight = s'.lastHeight ∧
        r.imported = s'.lastHeight ∧ (r.interrupted = false →
          s'.lastHeight = min (none.getD transferStore.lastHeight) transferStore.lastHeight ∧
          packImporter.dump MessagePack.pack s' none = .ok d)) ∧
      ∀ e, result = .error e →
        ∃ before chunk, packImporter.commitChunk { fast := false } before chunk = (s', .error e) ∧
        (∀ height ≤ before.lastHeight, before.blocks[height]? = transferStore.blocks[height]?) ∧
        ∀ b ∈ chunk, transferStore.getBlockByHeight packImporter.env b.height = .ok (some b) := by
  obtain ⟨hlast, -, htimes⟩ := transferStore_blocks
  refine importSnapshot_dump (o := { fast := false }) primitives_lawful transferStore_tipRun
    transferStore_recordsFit (fun _ height b hblock => ?_) ?_
  · obtain ⟨record, hstored, -⟩ := Store.getBlockByHeight_some.mp hblock
    obtain ⟨hlow, hhigh⟩ := ((transferStore_tipRun.solid primitives_lawful 16000).range height).mp
      (by rw [hstored]; rfl)
    rw [hlast] at hhigh
    have htime := htimes height (by simp; omega)
    have hblock : transferStore.getBlockByHeight linkEnv height = .ok (some b) := hblock
    rw [hblock] at htime
    exact of_decide_eq_true htime
  · rw [hlast]
    decide

end Importer

end Snapshot

end SthCore
