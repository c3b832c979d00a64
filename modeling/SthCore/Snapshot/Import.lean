import SthCore.Chain.Linkage
import SthCore.Snapshot.Records

/-!
The import of a snapshot dump: the blocks above the tip are applied in chunks,
and an import that was stopped between two chunks is resumed by the next one.
-/

namespace SthCore

open SthCore.Lib

namespace Snapshot

/-- Blocks that are applied at a time. -/
def importChunk : Nat := 1000

/-- The entries of `meta.json` that the import reads. -/
structure SnapshotMeta where
  blocksEnd : Nat
  transactionsCount : Nat
  network : Text
  codec : Text := Text.ofString "default"

/-- A dump with its streams as they are unpacked. -/
structure Dump where
  info : SnapshotMeta
  blocks : Bytes
  transactions : Bytes

structure ImportOptions where
  fast : Bool := false
  strict : Bool := false

structure ImportReport where
  snapshotEnd : Nat
  startHeight : Nat
  endHeight : Nat
  imported : Nat
  skipped : Nat
  interrupted : Bool

/-- A value of a MessagePack record; text may fail to be UTF-8. -/
inductive Value
  | array (items : List Value)
  | text (s : Option Text)
  | integer (n : UInt64)
  | binary (bytes : Bytes)
  | other

/-- What an import works with: the libraries of the node, the name of its network and the reader
of MessagePack records. -/
structure Importer where
  env : Env
  networkName : Text
  readValue : Bytes → Option Value

namespace Importer

variable (I : Importer)

def textAt (items : List Value) (i : Nat) : Except Error Text :=
  match items[i]? with
  | some (.text (some s)) => .ok s
  | _ => .error (.sync s!"transaction record field {i} is not a string")

def integerAt (items : List Value) (i : Nat) : Except Error UInt64 :=
  match items[i]? with
  | some (.integer n) => .ok n
  | _ => .error (.sync s!"transaction record field {i} is not an integer")

def serializedAt (items : List Value) (i : Nat) (id : Text) : Except Error Bytes :=
  match items[i]? with
  | some (.binary bytes) => .ok bytes
  | some (.text s) => Hex.decode (s.getD "")
  | _ => .error (.sync s!"transaction {id}: serialized field has a wrong type")

/-- A transaction from its record, with the block it is in. -/
def decodeTransactionRecord (record : Bytes) : Except Error Transaction :=
  match I.readValue record with
  | none => .error (.sync "transaction record is not msgpack")
  | some (.array items) =>
      if items.length < 6 then .error (.sync "unexpected transaction record shape")
      else do
        let id ← textAt items 0
        let blockId ← textAt items 1
        let blockHeight ← integerAt items 2
        let sequence ← integerAt items 3
        let serialized ← serializedAt items 5 id
        let tx ← deserializeTransaction I.env.prim serialized
        let own := tx.id.getD ""
        if tx.id ≠ some id then
          throw (.blockValidation
            s!"snapshot transaction id {id} does not match its bytes ({own})")
        return { tx with
                 blockId := some blockId, blockHeight := some blockHeight.toNat,
                 sequence := some sequence.toUInt32 }
  | some _ => .error (.sync "unexpected transaction record shape")

/-- The transactions of a dump by the height of their block, in the order of the block. -/
def loadTransactions (stream : Bytes) : Except Error (OrderedMap Nat (List Transaction)) := do
  let (records, ended) := readRecords stream
  let byHeight ← records.foldlM (fun (m : OrderedMap Nat (List Transaction)) record => do
    let tx ← I.decodeTransactionRecord record
    return m.upsert (tx.blockHeight.getD 0) [] (· ++ [tx])) ∅
  match ended with
  | some e => throw e
  | none =>
      return byHeight.map fun _ txs =>
        txs.insertionSort fun a b => a.sequence.getD 0xffffffff ≤ b.sequence.getD 0xffffffff

/-- A running import. -/
structure Progress where
  store : Store
  tip : Sync.ChainTip
  txs : OrderedMap Nat (List Transaction)
  chunk : List Block := []
  imported : Nat := 0
  skipped : Nat := 0

/-- A block with its transactions, when it has some. -/
def fillTransactions (txs : OrderedMap Nat (List Transaction)) (block : Block) :
    Except Error Block :=
  if 0 < block.numberOfTransactions then
    let found := txs[block.height]?.getD []
    if UInt32.ofNat found.length ≠ block.numberOfTransactions then
      .error (.sync s!"block {block.height}: snapshot has {found.length} transactions, header says {block.numberOfTransactions.toNat}")
    else .ok { block with transactions := found }
  else .ok block

/-- The next block joins the chunk, and its transactions leave the table. -/
def Progress.push (p : Progress) (block : Block) : Progress :=
  { p with
    tip := { height := block.height, id := block.id }
    txs := if 0 < block.numberOfTransactions then p.txs.erase block.height else p.txs
    chunk := p.chunk ++ [block] }

/-- The checks on a block on its own: its payload hash at least. -/
def checkImported (o : ImportOptions) (block : Block) : Except Error Unit :=
  if o.fast then
    if 1 < block.height then do
      let hash ← blockPayloadHash I.env.prim block
      if hash ≠ block.payloadHash then
        throw (.blockValidation s!"block {block.height}: invalid payload hash")
    else .ok ()
  else
    match verifyBlock I.env block with
    | [] => .ok ()
    | errors =>
        let found := "; ".intercalate errors
        .error (.blockValidation s!"block {block.height}: {found}")

/-- The block of a record; nothing when the block is in the chain already. -/
def admitRecord (o : ImportOptions) (tip : Sync.ChainTip) (txs : OrderedMap Nat (List Transaction))
    (record : Bytes) : Except Error (Option Block) := do
  let block ← deserializeBlockHeader I.env.prim I.env.network record
  if block.height ≤ tip.height then return none
  else if block.height ≠ tip.height + 1 then
    throw (.sync s!"snapshot height gap: expected {tip.height + 1}, got {block.height}")
  else if tip.id.any fun id => decide (block.previousBlock ≠ id) then
    let id := tip.id.getD ""
    throw (.blockValidation
      s!"block {block.height} previousBlock {block.previousBlock} does not match tip {id}")
  else
    let block ← fillTransactions txs block
    I.checkImported o block
    return some block

/-- A chunk is checked against the wallets only on demand. -/
def commitChunk (o : ImportOptions) (s : Store) (chunk : List Block) : Outcome :=
  match if o.strict then Sync.checkStatefulRules I.env s chunk else .ok {} with
  | .error e => (s, .error e)
  | .ok _ => s.applyBlocks I.env chunk

/-- The chunk is applied and a new one begun. -/
def applyChunk (o : ImportOptions) (p : Progress) : Progress × Except Error Unit :=
  match I.commitChunk o p.store p.chunk with
  | (store, .error e) => ({ p with store }, .error e)
  | (store, .ok _) =>
      ({ p with store, imported := p.imported + p.chunk.length, chunk := [] }, .ok ())

/-- The loop over the records of the blocks.  `cancel` says whether Ctrl+C was noticed at a height
after a chunk; the answer is whether the loop was left for it. -/
def importRecords (o : ImportOptions) (cancel : Nat → Bool) :
    List Bytes → Progress → Progress × Except Error Bool
  | [], p => (p, .ok false)
  | record :: rest, p =>
      match I.admitRecord o p.tip p.txs record with
      | .error e => (p, .error e)
      | .ok none => importRecords o cancel rest { p with skipped := p.skipped + 1 }
      | .ok (some block) =>
          if importChunk ≤ (p.push block).chunk.length then
            match I.applyChunk o (p.push block) with
            | (p', .error e) => (p', .error e)
            | (p', .ok _) =>
                if cancel p'.tip.height then (p', .ok true) else importRecords o cancel rest p'
          else importRecords o cancel rest (p.push block)

/-- What is left in the last chunk is applied, unless the stream broke off. -/
def finishImport (o : ImportOptions) (ended : Option Error) :
    Progress × Except Error Bool → Progress × Except Error Bool
  | (p, .error e) => (p, .error e)
  | (p, .ok interrupted) =>
      match if interrupted then none else ended with
      | some e => (p, .error e)
      | none =>
          if p.chunk = [] then (p, .ok interrupted)
          else
            match I.applyChunk o p with
            | (p', .error e) => (p', .error e)
            | (p', .ok _) => (p', .ok interrupted)

/-- The checks on the dump as a whole, and the transactions of its blocks. -/
def openDump (d : Dump) : Except Error (OrderedMap Nat (List Transaction)) := do
  if d.info.network ≠ I.networkName then
    throw (.sync s!"snapshot is for network '{d.info.network}', node runs '{I.networkName}'")
  if d.info.codec ≠ Text.ofString "default" then
    throw (.sync s!"unsupported snapshot codec '{d.info.codec}' (only 'default' / MessagePack)")
  let txs ← I.loadTransactions d.transactions
  let total := (txs.toList.map fun e => e.2.length).sum
  if total ≠ d.info.transactionsCount then
    throw (.sync
      s!"snapshot transactions: read {total}, meta.json says {d.info.transactionsCount}")
  return txs

/-- `import_snapshot`: the store it leaves and its report. -/
def importSnapshot (d : Dump) (o : ImportOptions) (cancel : Nat → Bool) (s : Store) :
    Store × Except Error ImportReport :=
  match I.openDump d with
  | .error e => (s, .error e)
  | .ok txs =>
      match readTip I.env s with
      | .error e => (s, .error e)
      | .ok tip =>
          let (records, ended) := readRecords d.blocks
          let (p, result) :=
            I.finishImport o ended (I.importRecords o cancel records { store := s, tip, txs })
          (p.store, result.map fun interrupted =>
            { snapshotEnd := d.info.blocksEnd, startHeight := tip.height,
              endHeight := p.tip.height, imported := p.imported, skipped := p.skipped,
              interrupted })

end Importer

end Snapshot

end SthCore
