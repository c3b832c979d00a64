import SthCore.Chain.Rewritten
import SthCore.Lib.Grouping
import SthCore.Snapshot.Resume

/-!
The dump of a chain, and that the import of a dump makes the same chain of it.
-/

namespace SthCore

open SthCore.Lib

namespace Snapshot

namespace Importer

variable (I : Importer) (writeValue : Value → Bytes)

/-- The fields of a transaction in a dump.  A stored transaction has no time of its own. -/
def recordOf (height : Nat) (block : Block) (seq : Nat) (tx : Transaction) (raw : Bytes) : Value :=
  .array [.text (some (tx.id.getD "")), .text (some (block.id.getD "")),
    .integer (UInt64.ofNat height),
    .integer ((tx.sequence.map UInt32.toUInt64).getD (UInt64.ofNat seq)),
    .integer block.timestamp.toUInt64, .binary raw]

def dumpTransaction (height : Nat) (block : Block) (e : Transaction × Nat) :
    Except Error Bytes := do
  let raw ← serializeTransaction I.env.prim e.1 {} I.env.network.pubkeyHash
  return writeValue (recordOf height block e.2 e.1 raw)

/-- The header of the block at a height, and the records of its transactions. -/
def dumpBlock (s : Store) (height : Nat) : Except Error (Bytes × List Bytes) := do
  match ← s.getBlockByHeight I.env height with
  | none => throw (.notFound s!"block {height}")
  | some block => do
      let header ← serializeBlock block true
      let records ← block.transactions.zipIdx.mapM (I.dumpTransaction writeValue height block)
      return (header, records)

/-- The streams of a dump and its `meta.json`. -/
def packDump (last : Nat) (parts : List (Bytes × List Bytes)) : Dump where
  info := {
    blocksEnd := last, transactionsCount := (parts.flatMap (·.2)).length
    network := I.networkName }
  blocks := (parts.map (·.1)).flatMap frame
  transactions := (parts.flatMap (·.2)).flatMap frame

/-- `dump`: the blocks up to a height, or all of them. -/
def dump (s : Store) (stop : Option Nat) : Except Error Dump := do
  let last := min (stop.getD s.lastHeight) s.lastHeight
  if last = 0 then throw (.sync "empty database, nothing to dump")
  let parts ← (List.range' 1 last).mapM (I.dumpBlock writeValue s)
  return I.packDump last parts

/-- The MessagePack library reads the records of a chain as they were written, and their lengths
fit into the four bytes in front of them. -/
def RecordsFit (s : Store) : Prop :=
  ∀ height block seq tx raw, s.getBlockByHeight I.env height = .ok (some block) →
    (tx, seq) ∈ block.transactions.zipIdx →
    serializeTransaction I.env.prim tx {} I.env.network.pubkeyHash = .ok raw →
    (writeValue (recordOf height block seq tx raw)).length < 2 ^ 32 ∧
      I.readValue (writeValue (recordOf height block seq tx raw)) =
        some (recordOf height block seq tx raw)

variable {I writeValue} {s : Store}

/-- A transaction as it is written and as it is read back. -/
structure DumpedTransaction (I : Importer) (tx : Transaction) (record : Bytes) : Prop where
  size : record.length < 2 ^ 32
  reads : I.decodeTransactionRecord record = .ok tx

/-- A block as it is written and as it is read back. -/
structure DumpedBlock (I : Importer) (b : Block) (part : Bytes × List Bytes) : Prop where
  size : part.1.length < 2 ^ 32
  header : deserializeBlockHeader I.env.prim I.env.network part.1 =
    .ok { b with transactions := [] }
  transactions : List.Forall₂ (DumpedTransaction I) b.transactions part.2

/-- A record is decoded to the transaction it was written for. -/
theorem decodeTransactionRecord_recordOf {b : Block} {tx d : Transaction} {seq : Nat}
    (hid : b.id.isSome) (hheight : b.height < 2 ^ 32) (hknown : tx.id.isSome)
    (hplaced : tx = placeTransaction b d seq) {raw record : Bytes}
    (hread : I.readValue record = some (recordOf b.height b seq tx raw))
    (hd : deserializeTransaction I.env.prim raw = .ok d) :
    I.decodeTransactionRecord record = .ok tx := by
  obtain ⟨blockId, hblockId⟩ := Option.isSome_iff_exists.mp hid
  obtain ⟨id, hown⟩ := Option.isSome_iff_exists.mp hknown
  have hdid : d.id = some id := by
    rw [← hown, hplaced]
    rfl
  have hsequence : tx.sequence = some (UInt32.ofNat seq) := by
    rw [hplaced]
    rfl
  have hnat : (UInt64.ofNat b.height).toNat = b.height :=
    UInt64.toNat_ofNat_of_lt' (hheight.trans (by decide))
  unfold decodeTransactionRecord
  rw [hread]
  unfold recordOf
  simp only [List.length_cons, List.length_nil, textAt, integerAt, serializedAt,
    List.getElem?_cons_zero, List.getElem?_cons_succ, ok_bind, hd, hown, hdid, hsequence,
    Option.getD_some, Option.map_some, ne_eq, not_true_eq_false, if_false]
  rw [if_neg (by decide)]
  refine congrArg Except.ok ?_
  rw [hplaced]
  unfold placeTransaction
  rw [hblockId, hnat]
  simp [hdid]

/-- A stored block is written, and read back from what was written. -/
theorem exists_dumpedBlock (hfit : I.RecordsFit writeValue s) {record : List Bytes} {b : Block}
    (hstored : s.blocks[b.height]? = some record) (hb : Block.Rewritten I.env record b) :
    ∃ part, I.dumpBlock writeValue s b.height = .ok part ∧ DumpedBlock I b part := by
  have hget := Store.getBlockByHeight_some.mpr ⟨record, hstored, hb.reads⟩
  obtain ⟨raw, hraw, hsize, hheader⟩ := hb.head
  have hheight : b.height < 2 ^ 32 := by
    obtain ⟨f, id, -, -, -, -, -, -, hplain⟩ := deserializeBlockHeader_ok hheader
    have hsame := congrArg Block.height hplain
    exact lt_of_eq_of_lt hsame f.height.toNat_lt
  -- every transaction with its record
  obtain ⟨records, hrecords⟩ := exists_forall₂ (l := b.transactions.zipIdx)
    (R := fun e r => I.dumpTransaction writeValue b.height b e = .ok r ∧
      DumpedTransaction I e.1 r) (by
    rintro ⟨tx, seq⟩ hmem
    obtain ⟨bytes, d, hwrites, hreads, hplaced⟩ := hb.transaction hmem
    obtain ⟨hfits, hread⟩ := hfit b.height b seq tx bytes hget hmem hwrites
    refine ⟨_, bind_eq_ok.mpr ⟨bytes, hwrites, rfl⟩, hfits, ?_⟩
    exact decodeTransactionRecord_recordOf hb.id hheight
      (hb.known tx (List.fst_mem_of_mem_zipIdx hmem)) hplaced hread hreads)
  refine ⟨(raw, records), ?_, hsize, hheader, ?_⟩
  · have hall : b.transactions.zipIdx.mapM (I.dumpTransaction writeValue b.height b) =
        .ok records := mapM_ok_of_forall₂ (hrecords.imp fun e r h => h.1)
    unfold dumpBlock
    rw [hget, ok_bind]
    exact bind_eq_ok.mpr ⟨raw, hraw, bind_eq_ok.mpr ⟨records, hall, rfl⟩⟩
  · have hall := hrecords.imp fun e r h => h.2
    rw [← List.forall₂_map_left_iff, List.zipIdx_map_fst] at hall
    exact hall

/-- The dump of a chain holds its blocks. -/
theorem dump_eq (hfit : I.RecordsFit writeValue s) {blocks : List Block}
    (h : s.Chained I.env blocks) {stop : Option Nat} (hsome : blocks ≠ [])
    (hlength : blocks.length = min (stop.getD s.lastHeight) s.lastHeight) :
    ∃ parts, List.Forall₂ (DumpedBlock I) blocks parts ∧
      I.dump writeValue s stop = .ok (I.packDump blocks.length parts) := by
  obtain ⟨parts, hparts⟩ := exists_forall₂ (l := blocks)
    (R := fun b part => I.dumpBlock writeValue s b.height = .ok part ∧ DumpedBlock I b part) (by
    intro b hb
    obtain ⟨record, hstored, hwritten⟩ := h.record b hb
    exact exists_dumpedBlock hfit hstored hwritten)
  have hall : (List.range' 1 blocks.length).mapM (I.dumpBlock writeValue s) = .ok parts := by
    rw [← h.above.heights]
    apply mapM_ok_of_forall₂
    rw [List.forall₂_map_left_iff]
    exact hparts.imp fun b part hpart => hpart.1
  refine ⟨parts, hparts.imp fun b part hpart => hpart.2, ?_⟩
  have hpos : blocks.length ≠ 0 := by
    simpa using hsome
  unfold dump
  dsimp only
  rw [← hlength, if_neg hpos]
  exact bind_eq_ok.mpr ⟨parts, hall, rfl⟩

/-- The transactions of a dump are found under the heights of their blocks. -/
theorem openDump_packDump {blocks : List Block} (h : s.Chained I.env blocks)
    {parts : List (Bytes × List Bytes)} (hparts : List.Forall₂ (DumpedBlock I) blocks parts)
    (last : Nat) :
    ∃ txs, I.openDump (I.packDump last parts) = .ok txs ∧
      ∀ b ∈ blocks, txs[b.height]?.getD [] = b.transactions := by
  let all := blocks.flatMap fun b => b.transactions
  let key := fun tx : Transaction => tx.blockHeight.getD 0
  let sort := fun txs : List Transaction => txs.insertionSort fun a b =>
    a.sequence.getD 0xffffffff ≤ b.sequence.getD 0xffffffff
  have hrecords : List.Forall₂ (DumpedTransaction I) all (parts.flatMap (·.2)) :=
    List.rel_flatMap hparts fun b part hpart => hpart.transactions
  have hstream : readRecords ((parts.flatMap (·.2)).flatMap frame) = (parts.flatMap (·.2), none) := by
    apply readRecords_frames
    intro record hrecord
    obtain ⟨tx, -, htx⟩ := forall₂_mem_right hrecords record hrecord
    exact htx.size
  have hdecode : (parts.flatMap (·.2)).mapM I.decodeTransactionRecord = .ok all := by
    apply mapM_ok_of_forall₂
    exact hrecords.flip.imp fun record tx htx => htx.reads
  have hload : I.loadTransactions ((parts.flatMap (·.2)).flatMap frame) =
      .ok ((Lib.group key all).map fun _ txs => sort txs) := by
    unfold loadTransactions
    rw [hstream]
    exact bind_eq_ok.mpr ⟨_, foldlM_of_mapM_ok hdecode ∅, rfl⟩
  refine ⟨(Lib.group key all).map fun _ txs => sort txs, ?_, ?_⟩
  · have htotal : ((((Lib.group key all).map fun _ txs => sort txs).toList.map
        fun e => e.2.length).sum) = (parts.flatMap (·.2)).length := by
      rw [Std.ExtTreeMap.toList_map, List.map_map, ← hrecords.length_eq,
        ← @sum_length_group _ _ _ _ _ _ key all]
      refine congrArg List.sum (List.map_congr_left fun e _ => ?_)
      exact List.length_insertionSort _ _
    unfold openDump packDump
    simp only [ne_eq, not_true_eq_false, if_false]
    refine bind_eq_ok.mpr ⟨_, hload, ?_⟩
    rw [htotal]
    simp
  · intro b hb
    obtain ⟨record, -, hwritten⟩ := h.record b hb
    obtain ⟨hplaced, horder⟩ := hwritten.placed
    have hfound : (Lib.group key all)[b.height]?.getD [] = b.transactions := by
      rw [getD_group]
      refine filter_flatMap (g := fun b : Block => b.height) ?_ ?_ hb
      · rw [h.above.heights]
        exact List.nodup_range' ..
      · intro c hc tx htx
        obtain ⟨record, -, hwritten⟩ := h.record c hc
        show tx.blockHeight.getD 0 = c.height
        rw [(hwritten.placed.1 tx htx).1]
        rfl
    have hsorted : sort b.transactions = b.transactions := by
      apply List.Pairwise.insertionSort_eq
      refine horder.imp_of_mem fun {a c} ha hc hle => ?_
      obtain ⟨i, hi⟩ := Option.isSome_iff_exists.mp (hplaced a ha).2
      obtain ⟨j, hj⟩ := Option.isSome_iff_exists.mp (hplaced c hc).2
      rw [hi, hj] at hle ⊢
      exact hle
    rw [Std.ExtTreeMap.getElem?_map]
    cases hgroup : (Lib.group key all)[b.height]? with
    | none =>
        rw [hgroup] at hfound
        exact hfound
    | some txs =>
        rw [hgroup] at hfound
        obtain rfl : txs = b.transactions := hfound
        exact hsorted

end Importer

end Snapshot

end SthCore
