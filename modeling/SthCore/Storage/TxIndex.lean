import SthCore.Lib.Listing
import SthCore.Storage.Reverted

/-!
The transaction indexes.  A written block adds the entries of its transactions
to three maps, and a rollback takes the entries of the block that is read back
out of them.
-/

namespace SthCore

open SthCore.Lib

/-- The wallets a transaction touches; none when an address cannot be derived. -/
def touched (E : Env) (tx : Transaction) : List Text := (txAddresses E tx).toOption.getD []

theorem touched_nodup (E : Env) (tx : Transaction) : (touched E tx).Nodup := by
  unfold touched
  cases h : txAddresses E tx with
  | error e => exact List.nodup_nil
  | ok addresses =>
      obtain ⟨sender, -, h⟩ := bind_eq_ok.mp h
      rw [pure_eq_ok] at h
      subst h
      change ((List.insertionSort _ _).destutter _).Nodup
      rw [(List.pairwise_insertionSort _ _).destutter_eq_dedup]
      exact List.nodup_dedup _

/-- The wallets that a transaction names: `tx_addresses` without its order. -/
def namedWallets (tx : Transaction) (sender : Text) : List Text :=
  sender :: (tx.recipientId.toList ++ tx.payments.map (fun p => p.recipientId) ++
    (match tx.tokenAsset with
      | some a => (a.transfers.getD []).map (fun it => it.recipientId) ++ a.recipientId.toList
      | none => []) ++
    match tx.sobjAsset with
      | some e => e.recipientId.toList
      | none => [])

theorem mem_touched_iff {E : Env} {tx : Transaction} {sender x : Text}
    (hsender : E.addressOf tx.senderPublicKey = .ok sender) :
    x ∈ touched E tx ↔ x ∈ namedWallets tx sender := by
  have hlist : touched E tx =
      ((namedWallets tx sender).insertionSort (· ≤ ·)).destutter (· ≠ ·) := by
    unfold touched txAddresses
    rw [hsender]
    rfl
  rw [hlist, (List.pairwise_insertionSort _ _).destutter_eq_dedup, List.mem_dedup,
    List.mem_insertionSort]

/-! The entries of a transaction at a position of the block at `height`. -/

def idEntries (height : Nat) (e : Transaction × Nat) : List (Text × Nat) :=
  e.1.id.toList.map fun id => (id, height)

def listEntries (height : Nat) (e : Transaction × Nat) : List ((Nat × UInt32) × Text) :=
  e.1.id.toList.map fun id => ((height, UInt32.ofNat e.2), id)

def walletEntries (E : Env) (height : Nat) (e : Transaction × Nat) :
    List ((Text × Nat × UInt32) × Text) :=
  e.1.id.toList.flatMap fun id =>
    (touched E e.1).map fun a => ((a, height, UInt32.ofNat e.2), id)

namespace Store

/-- The transaction indexes of `s'` are those of `s` after some edits. -/
structure TxEdited (s s' : Store) (ids : List (Edit Text Nat))
    (list : List (Edit (Nat × UInt32) Text)) (wallets : List (Edit (Text × Nat × UInt32) Text)) :
    Prop where
  txs : s'.txs = Edit.run s.txs ids
  txList : s'.txList = Edit.run s.txList list
  walletTxs : s'.walletTxs = Edit.run s.walletTxs wallets
  count : s'.txCount = s.txCount

namespace TxEdited

variable {s s' s'' : Store} {ids ids' : List (Edit Text Nat)}
  {list list' : List (Edit (Nat × UInt32) Text)}
  {wallets wallets' : List (Edit (Text × Nat × UInt32) Text)}

theorem trans (h : TxEdited s s' ids list wallets) (h' : TxEdited s' s'' ids' list' wallets') :
    TxEdited s s'' (ids ++ ids') (list ++ list') (wallets ++ wallets') := by
  refine ⟨?_, ?_, ?_, h'.count.trans h.count⟩
  · rw [h'.txs, h.txs, Edit.run_append]
  · rw [h'.txList, h.txList, Edit.run_append]
  · rw [h'.walletTxs, h.walletTxs, Edit.run_append]

theorem foldlM {α : Type} {f : Store → α → Except Error Store} {l : List α}
    (ids : α → List (Edit Text Nat)) (list : α → List (Edit (Nat × UInt32) Text))
    (wallets : α → List (Edit (Text × Nat × UInt32) Text))
    (hone : ∀ s s' : Store, ∀ a ∈ l, f s a = .ok s' →
      TxEdited s s' (ids a) (list a) (wallets a))
    (h : l.foldlM f s = .ok s') :
    TxEdited s s' (l.flatMap ids) (l.flatMap list) (l.flatMap wallets) := by
  induction l generalizing s with
  | nil =>
      rw [List.foldlM_nil, pure_eq_ok] at h
      exact h ▸ ⟨rfl, rfl, rfl, rfl⟩
  | cons a rest ih =>
      obtain ⟨s₁, hfirst, hrest⟩ := foldlM_cons_ok.mp h
      exact (hone s s₁ a List.mem_cons_self hfirst).trans
        (ih (fun t t' b hb => hone t t' b (List.mem_cons_of_mem a hb)) hrest)

end TxEdited

/-- The position that the index keys of an entry name. -/
def Placed (e : Transaction × Nat) : Prop :=
  e.1.sequence.getD (UInt32.ofNat e.2) = UInt32.ofNat e.2

theorem indexTransaction_edits {E : Env} {height : Nat} {s s' : Store} {e : Transaction × Nat}
    (hplaced : Placed e) (h : indexTransaction E height s e = .ok s') :
    TxEdited s s' (Edit.puts (idEntries height e)) (Edit.puts (listEntries height e))
      (Edit.puts (walletEntries E height e)) := by
  unfold indexTransaction at h
  unfold idEntries listEntries walletEntries
  cases hid : e.1.id with
  | none =>
      rw [hid, pure_eq_ok] at h
      exact h ▸ ⟨rfl, rfl, rfl, rfl⟩
  | some id =>
      rw [hid] at h
      obtain ⟨addresses, haddresses, h⟩ := bind_eq_ok.mp h
      rw [pure_eq_ok] at h
      have htouched : touched E e.1 = addresses := by
        unfold touched
        rw [haddresses]
        rfl
      rw [← h, htouched, hplaced]
      refine ⟨rfl, rfl, ?_, rfl⟩
      simp only [Option.toList_some, List.flatMap_cons, List.flatMap_nil, List.append_nil]
      rw [Edit.run_puts, List.foldl_map]

/-- The part of a rollback's database transaction that leaves the transaction indexes alone. -/
def SameTxs (s s' : Store) : Prop := TxEdited s s' [] [] []

theorem SameTxs.trans {s s' s'' : Store} (h : SameTxs s s') (h' : SameTxs s' s'') :
    SameTxs s s'' :=
  TxEdited.trans h h'

theorem SameRecords.sameTxs {s s' : Store} (h : SameRecords s s') : SameTxs s s' := by
  rw [h]
  exact ⟨rfl, rfl, rfl, rfl⟩

theorem undoToken_sameTxs (height : Nat) (s : Store) (e : Transaction × Nat) :
    SameTxs s (undoToken height s e) := by
  unfold undoToken
  simp only
  split
  · split <;> exact ⟨rfl, rfl, rfl, rfl⟩
  · split <;> exact ⟨rfl, rfl, rfl, rfl⟩
  · split <;> exact ⟨rfl, rfl, rfl, rfl⟩
  · exact ⟨rfl, rfl, rfl, rfl⟩

theorem foldl_undoToken_sameTxs (height : Nat) (s : Store) (l : List (Transaction × Nat)) :
    SameTxs s (l.foldl (undoToken height) s) := by
  induction l generalizing s with
  | nil => exact ⟨rfl, rfl, rfl, rfl⟩
  | cons e rest ih => exact (undoToken_sameTxs height s e).trans (ih _)

theorem SobjUndone.sameTxs {E : Env} {owners : OrderedMap Text Text} {tx : Transaction}
    {s s' : Store} (h : SobjUndone E owners tx s s') : SameTxs s s' := by
  rcases h with ⟨e, -, hundo⟩ | ⟨-, rfl⟩
  · rcases undoSobj_cases hundo with ⟨-, name, -, rfl⟩ | ⟨-, reg, owner, -, -, rfl⟩ | ⟨rfl, -⟩
    · exact ⟨rfl, rfl, rfl, rfl⟩
    · exact ⟨rfl, rfl, rfl, rfl⟩
    · exact ⟨rfl, rfl, rfl, rfl⟩
  · exact ⟨rfl, rfl, rfl, rfl⟩

theorem undoInit_sameTxs (symbols : List (Text × Text)) (s : Store) (tx : Transaction) :
    SameTxs s (undoInit symbols s tx) := by
  unfold undoInit
  split <;> exact ⟨rfl, rfl, rfl, rfl⟩

theorem undoTransaction_edits {E : Env} {height : Nat} {owners : OrderedMap Text Text}
    {symbols : List (Text × Text)} {s s' : Store} {e : Transaction × Nat} (hplaced : Placed e)
    (h : undoTransaction E height owners symbols s e = .ok s') :
    TxEdited s s' (Edit.drops ((idEntries height e).map (·.1)))
      (Edit.drops ((listEntries height e).map (·.1)))
      (Edit.drops ((walletEntries E height e).map (·.1))) := by
  unfold idEntries listEntries walletEntries
  rcases undoTransaction_cases h with ⟨hid, rfl⟩ | ⟨id, s₁, addresses, hid, hsobj, haddresses, rfl⟩
  · rw [hid]
    exact ⟨rfl, rfl, rfl, rfl⟩
  · have htouched : touched E e.1 = addresses := by
      unfold touched
      rw [haddresses]
      rfl
    rw [hid, htouched, hplaced]
    refine TxEdited.trans (hsobj.sameTxs.trans (undoInit_sameTxs symbols s₁ e.1))
      ⟨rfl, rfl, ?_, rfl⟩
    simp only [Option.toList_some, List.flatMap_cons, List.flatMap_nil, List.append_nil,
      List.map_map]
    rw [Edit.run, List.foldl_map]
    rfl

/-! ## The stored blocks and their entries -/

/-- The stored blocks that read back, with the heights they lie under. -/
def storedBlocks (E : Env) (s : Store) : List (Nat × Block) :=
  s.blocks.toList.filterMap fun e => (decodeBlock E e.2).toOption.map fun b => (e.1, b)

def storedEntries {α : Type} (E : Env) (s : Store) (f : Nat → Transaction × Nat → List α) :
    List α :=
  (s.storedBlocks E).flatMap fun e => e.2.transactions.zipIdx.flatMap (f e.1)

/-- The indexes list exactly the transactions of the stored blocks, each once, under the height
of its block and its position there. -/
structure TxIndexed (E : Env) (s : Store) : Prop where
  readable : ∀ (height : Nat) record, s.blocks[height]? = some record →
    ∃ b, decodeBlock E record = .ok b
  identified : ∀ e ∈ s.storedBlocks E, ∀ tx ∈ e.2.transactions, tx.id.isSome
  byId : s.txs.toList.Perm (s.storedEntries E idEntries)
  list : s.txList.toList.Perm (s.storedEntries E listEntries)
  wallets : s.walletTxs.toList.Perm (s.storedEntries E (walletEntries E))
  count : s.txCount = ((s.storedBlocks E).map fun e => e.2.transactions.length).sum

/-- The lists of the chain and of the wallets are exact, whatever the ids are. -/
structure ListIndexed (E : Env) (s : Store) : Prop where
  readable : ∀ (height : Nat) record, s.blocks[height]? = some record →
    ∃ b, decodeBlock E record = .ok b
  identified : ∀ e ∈ s.storedBlocks E, ∀ tx ∈ e.2.transactions, tx.id.isSome
  list : s.txList.toList.Perm (s.storedEntries E listEntries)
  wallets : s.walletTxs.toList.Perm (s.storedEntries E (walletEntries E))
  count : s.txCount = ((s.storedBlocks E).map fun e => e.2.transactions.length).sum

theorem TxIndexed.lists {E : Env} {s : Store} (h : s.TxIndexed E) : s.ListIndexed E :=
  ⟨h.readable, h.identified, h.list, h.wallets, h.count⟩

theorem mem_storedBlocks {E : Env} {s : Store} {e : Nat × Block} :
    e ∈ s.storedBlocks E ↔ ∃ record, s.blocks[e.1]? = some record ∧
      decodeBlock E record = .ok e.2 := by
  unfold storedBlocks
  rw [List.mem_filterMap]
  constructor
  · rintro ⟨⟨height, record⟩, hmem, hdecode⟩
    obtain ⟨b, hb, rfl⟩ := Option.map_eq_some_iff.mp hdecode
    refine ⟨record, Std.ExtTreeMap.mem_toList_iff_getElem?_eq_some.mp hmem, ?_⟩
    cases h : decodeBlock E record with
    | error e => simp [h, Except.toOption] at hb
    | ok d => simpa [h, Except.toOption] using hb
  · rintro ⟨record, hrecord, hdecode⟩
    refine ⟨(e.1, record), Std.ExtTreeMap.mem_toList_iff_getElem?_eq_some.mpr hrecord, ?_⟩
    rw [hdecode]
    rfl

/-- A block written at a new height joins the stored ones. -/
theorem storedBlocks_insert {E : Env} {s s' : Store} {height : Nat} {record : List Bytes}
    {b : Block} (hblocks : s'.blocks = s.blocks.insert height record)
    (hnew : s.blocks[height]? = none) (hdecode : decodeBlock E record = .ok b) :
    (s'.storedBlocks E).Perm ((height, b) :: s.storedBlocks E) := by
  have hperm := OrderedMap.toList_insert_perm s.blocks height record
  rw [OrderedMap.erase_of_none s.blocks height hnew, ← hblocks] at hperm
  have hentries := hperm.filterMap fun e =>
    (decodeBlock E e.2).toOption.map fun b => (e.1, b)
  rw [List.filterMap_cons, hdecode] at hentries
  exact hentries

/-- The tip leaves the stored blocks. -/
theorem storedBlocks_erase {E : Env} {s s' : Store} {height : Nat} {record : List Bytes}
    {b : Block} (hblocks : s'.blocks = s.blocks.erase height)
    (hold : s.blocks[height]? = some record) (hdecode : decodeBlock E record = .ok b) :
    (s.storedBlocks E).Perm ((height, b) :: s'.storedBlocks E) := by
  refine storedBlocks_insert ?_ ?_ hdecode
  · rw [hblocks, OrderedMap.insert_erase_of_some s.blocks height record hold]
  · rw [hblocks, OrderedMap.getElem?_erase_eq, if_pos rfl]

/-- What the indexes hold of a transaction. -/
def mark (E : Env) (tx : Transaction) : Option Text × List Text := (tx.id, touched E tx)

/-- Transactions with the same marks have the same entries. -/
theorem flatMap_zipIdx_congr {α : Type} {E : Env} {f : Transaction × Nat → List α}
    (hf : ∀ t u i, mark E t = mark E u → f (t, i) = f (u, i)) {txs txs' : List Transaction}
    (h : txs.map (mark E) = txs'.map (mark E)) (start : Nat) :
    (txs.zipIdx start).flatMap f = (txs'.zipIdx start).flatMap f := by
  induction txs generalizing txs' start with
  | nil =>
      rw [List.map_nil, eq_comm, List.map_eq_nil_iff] at h
      rw [h]
  | cons t rest ih =>
      cases txs' with
      | nil => cases h
      | cons u rest' =>
          obtain ⟨hhead, htail⟩ := List.cons.inj h
          rw [List.zipIdx_cons, List.zipIdx_cons, List.flatMap_cons, List.flatMap_cons,
            hf t u start hhead, ih htail]

/-- Entries that carry their positions repeat no key. -/
theorem nodup_flatMap_zipIdx {α : Type} {f : Transaction × Nat → List α} (pos : α → UInt32)
    {txs : List Transaction} (hfew : txs.length < 2 ^ 32)
    (hone : ∀ e, (f e).Nodup) (hpos : ∀ e, ∀ k ∈ f e, pos k = UInt32.ofNat e.2) :
    (txs.zipIdx.flatMap f).Nodup := by
  rw [List.nodup_flatMap]
  refine ⟨fun e _ => hone e, ?_⟩
  rw [List.pairwise_iff_getElem]
  intro i j hi hj hij
  rw [List.length_zipIdx] at hi hj
  simp only [Function.onFun, List.getElem_zipIdx, Nat.zero_add]
  intro k hki hkj
  have hsame := (hpos _ k hki).symm.trans (hpos _ k hkj)
  have hi' : i < UInt32.size := Nat.lt_trans hi hfew
  have hj' : j < UInt32.size := Nat.lt_trans hj hfew
  have := congrArg UInt32.toNat hsame
  rw [UInt32.toNat_ofNat_of_lt' hi', UInt32.toNat_ofNat_of_lt' hj'] at this
  omega

/-- The stored record of a block gives back what the indexes hold of it, and the block counts its
transactions as their positions do. -/
structure ReadsBack (E : Env) (b : Block) : Prop where
  few : b.transactions.length < 2 ^ 32
  placed : ∀ e ∈ b.transactions.zipIdx, Placed e
  same : ∀ record, encodeBlock E b = .ok record → ∃ d, decodeBlock E record = .ok d ∧
    d.transactions.map (mark E) = b.transactions.map (mark E)

theorem writeBlock_txs {E : Env} {s s' : Store} {p : Block × List Bytes}
    (hplaced : ∀ e ∈ p.1.transactions.zipIdx, Placed e) (h : writeBlock E s p = .ok s') :
    s'.txs = Edit.run s.txs (Edit.puts (p.1.transactions.zipIdx.flatMap (idEntries p.1.height))) ∧
    s'.txList = Edit.run s.txList
      (Edit.puts (p.1.transactions.zipIdx.flatMap (listEntries p.1.height))) ∧
    s'.walletTxs = Edit.run s.walletTxs
      (Edit.puts (p.1.transactions.zipIdx.flatMap (walletEntries E p.1.height))) ∧
    s'.txCount = s.txCount + indexedCount p.1 := by
  obtain ⟨s₁, hs₁, h⟩ := bind_eq_ok.mp h
  rw [pure_eq_ok] at h
  have hedited := TxEdited.foldlM (fun e => Edit.puts (idEntries p.1.height e))
    (fun e => Edit.puts (listEntries p.1.height e))
    (fun e => Edit.puts (walletEntries E p.1.height e))
    (fun t t' e he ht => indexTransaction_edits (hplaced e he) ht) hs₁
  obtain ⟨htxs, hlist, hwallets, hcount⟩ := hedited
  simp only [Edit.puts, ← List.map_flatMap] at htxs hlist hwallets
  rw [← h]
  refine ⟨htxs, hlist, hwallets, ?_⟩
  simp only
  rw [hcount]

theorem storedEntries_perm {α : Type} {E : Env} {s s' : Store} {height : Nat} {b : Block}
    (h : (s'.storedBlocks E).Perm ((height, b) :: s.storedBlocks E))
    (f : Nat → Transaction × Nat → List α) :
    (s'.storedEntries E f).Perm
      (b.transactions.zipIdx.flatMap (f height) ++ s.storedEntries E f) :=
  h.flatMap_right _

/-- A key of the index is a key of a stored block. -/
theorem storedEntries_height {α : Type} {E : Env} {s : Store}
    {f : Nat → Transaction × Nat → List α} (height : α → Nat)
    (hf : ∀ n e, ∀ k ∈ f n e, height k = n) {k : α} (hk : k ∈ s.storedEntries E f) :
    (s.blocks[height k]?).isSome := by
  obtain ⟨e, he, hk⟩ := List.mem_flatMap.mp hk
  obtain ⟨entry, -, hk⟩ := List.mem_flatMap.mp hk
  obtain ⟨record, hrecord, -⟩ := mem_storedBlocks.mp he
  rw [hf e.1 entry k hk, hrecord]
  rfl

theorem height_of_mem_listEntries (n : Nat) (e : Transaction × Nat) :
    ∀ k ∈ listEntries n e, k.1.1 = n := by
  intro k hk
  obtain ⟨id, -, rfl⟩ := List.mem_map.mp hk
  rfl

theorem height_of_mem_walletEntries (E : Env) (n : Nat) (e : Transaction × Nat) :
    ∀ k ∈ walletEntries E n e, k.1.2.1 = n := by
  intro k hk
  obtain ⟨id, -, hk⟩ := List.mem_flatMap.mp hk
  obtain ⟨a, -, rfl⟩ := List.mem_map.mp hk
  rfl

theorem listKeys_nodup (n : Nat) {txs : List Transaction} (hfew : txs.length < 2 ^ 32) :
    ((txs.zipIdx.flatMap (listEntries n)).map (·.1)).Nodup := by
  rw [List.map_flatMap]
  refine nodup_flatMap_zipIdx (fun k => k.2) hfew ?_ ?_
  · intro e
    unfold listEntries
    cases e.1.id <;> simp
  · intro e k hk
    obtain ⟨entry, hentry, rfl⟩ := List.mem_map.mp hk
    obtain ⟨id, -, rfl⟩ := List.mem_map.mp hentry
    rfl

theorem walletKeys_nodup (E : Env) (n : Nat) {txs : List Transaction}
    (hfew : txs.length < 2 ^ 32) :
    ((txs.zipIdx.flatMap (walletEntries E n)).map (·.1)).Nodup := by
  rw [List.map_flatMap]
  refine nodup_flatMap_zipIdx (fun k => k.2.2) hfew ?_ ?_
  · intro e
    unfold walletEntries
    cases e.1.id with
    | none => exact List.nodup_nil
    | some id =>
        simp only [Option.toList_some, List.flatMap_cons, List.flatMap_nil, List.append_nil,
          List.map_map]
        refine (touched_nodup E e.1).map ?_
        intro a a' h
        exact (Prod.mk.inj h).1
  · intro e k hk
    obtain ⟨entry, hentry, rfl⟩ := List.mem_map.mp hk
    obtain ⟨id, -, hentry⟩ := List.mem_flatMap.mp hentry
    obtain ⟨a, -, rfl⟩ := List.mem_map.mp hentry
    rfl

theorem idKeys_nodup (n : Nat) {txs : List Transaction} (hids : ∀ tx ∈ txs, tx.id.isSome)
    (hnodup : (txs.map (·.id)).Nodup) :
    ((txs.zipIdx.flatMap (idEntries n)).map (·.1)).Nodup := by
  have hkeys : ∀ start, ((txs.zipIdx start).flatMap (idEntries n)).map (·.1) =
      txs.filterMap (·.id) := by
    clear hids hnodup
    induction txs with
    | nil => exact fun _ => rfl
    | cons tx rest ih =>
        intro start
        rw [List.zipIdx_cons, List.flatMap_cons, List.map_append, ih, List.filterMap_cons]
        unfold idEntries
        cases tx.id <;> rfl
  rw [hkeys]
  refine List.Nodup.of_map some ?_
  have hall : (txs.filterMap (·.id)).map some = txs.map (·.id) := by
    clear hnodup hkeys
    induction txs with
    | nil => rfl
    | cons tx rest ih =>
        obtain ⟨id, hid⟩ := Option.isSome_iff_exists.mp (hids tx List.mem_cons_self)
        rw [List.filterMap_cons, hid, List.map_cons, List.map_cons, hid,
          ih fun t ht => hids t (List.mem_cons_of_mem tx ht)]
  rw [hall]
  exact hnodup

theorem mark_entries {E : Env} {t u : Transaction} (h : mark E t = mark E u) (n i : Nat) :
    idEntries n (t, i) = idEntries n (u, i) ∧ listEntries n (t, i) = listEntries n (u, i) ∧
      walletEntries E n (t, i) = walletEntries E n (u, i) := by
  obtain ⟨hid, htouched⟩ := Prod.mk.inj h
  unfold idEntries listEntries walletEntries
  rw [hid, htouched]
  exact ⟨rfl, rfl, rfl⟩

/-- A block that reads back, at a new height. -/
theorem writeBlock_listIndexed {E : Env} {s s' : Store} {p : Block × List Bytes}
    (h : s.ListIndexed E) (hwrite : writeBlock E s p = .ok s')
    (hencode : encodeBlock E p.1 = .ok p.2) (hback : ReadsBack E p.1)
    (hids : ∀ tx ∈ p.1.transactions, tx.id.isSome) (hnew : s.blocks[p.1.height]? = none) :
    s'.ListIndexed E := by
  obtain ⟨d, hdecode, hmarks⟩ := hback.same p.2 hencode
  obtain ⟨hblocks, -⟩ := writeBlock_blocks hwrite
  obtain ⟨-, hlist, hwallets, hcount⟩ := writeBlock_txs hback.placed hwrite
  have hstored := storedBlocks_insert hblocks hnew hdecode
  have hsome : ∀ tx ∈ d.transactions, tx.id.isSome := by
    intro tx htx
    have hmem : mark E tx ∈ p.1.transactions.map (mark E) := hmarks ▸ List.mem_map_of_mem htx
    obtain ⟨u, hu, hmark⟩ := List.mem_map.mp hmem
    have hid : u.id = tx.id := congrArg Prod.fst hmark
    rw [← hid]
    exact hids u hu
  refine ⟨?_, ?_, ?_, ?_, ?_⟩
  · intro height record hrecord
    rw [hblocks, OrderedMap.getElem?_insert_eq] at hrecord
    split_ifs at hrecord
    · obtain rfl := Option.some.inj hrecord
      exact ⟨d, hdecode⟩
    · exact h.readable height record hrecord
  · intro e he
    rcases List.mem_cons.mp (hstored.mem_iff.mp he) with rfl | he
    · exact hsome
    · exact h.identified e he
  · refine List.Perm.trans ?_ (storedEntries_perm hstored listEntries).symm
    rw [flatMap_zipIdx_congr (fun t u i ht => (mark_entries ht p.1.height i).2.1) hmarks 0, hlist]
    refine (Edit.toList_run_puts (listKeys_nodup _ hback.few) ?_).trans (h.list.append_left _)
    intro e he
    by_contra hne
    obtain ⟨v, hv⟩ := Option.ne_none_iff_exists'.mp hne
    obtain ⟨entry, -, he⟩ := List.mem_flatMap.mp he
    have hold := storedEntries_height (fun k => k.1.1) height_of_mem_listEntries
      (h.list.mem_iff.mp (Std.ExtTreeMap.mem_toList_iff_getElem?_eq_some.mpr hv))
    rw [height_of_mem_listEntries _ _ e he, hnew] at hold
    cases hold
  · refine List.Perm.trans ?_ (storedEntries_perm hstored (walletEntries E)).symm
    rw [flatMap_zipIdx_congr (fun t u i ht => (mark_entries ht p.1.height i).2.2) hmarks 0,
      hwallets]
    refine (Edit.toList_run_puts (walletKeys_nodup E _ hback.few) ?_).trans
      (h.wallets.append_left _)
    intro e he
    by_contra hne
    obtain ⟨v, hv⟩ := Option.ne_none_iff_exists'.mp hne
    obtain ⟨entry, -, he⟩ := List.mem_flatMap.mp he
    have hold := storedEntries_height (fun k => k.1.2.1)
      (height_of_mem_walletEntries E)
      (h.wallets.mem_iff.mp (Std.ExtTreeMap.mem_toList_iff_getElem?_eq_some.mpr hv))
    rw [height_of_mem_walletEntries E _ _ e he, hnew] at hold
    cases hold
  · rw [hcount, (hstored.map _).sum_eq, List.map_cons, List.sum_cons, ← h.count, Nat.add_comm]
    congr 1
    have hlength : d.transactions.length = p.1.transactions.length := by
      simpa using congrArg List.length hmarks
    unfold indexedCount
    rw [hlength, List.filter_eq_self.mpr hids]

/-- A block that reads back, with new ids, at a new height. -/
theorem writeBlock_txIndexed {E : Env} {s s' : Store} {p : Block × List Bytes}
    (h : s.TxIndexed E) (hwrite : writeBlock E s p = .ok s')
    (hencode : encodeBlock E p.1 = .ok p.2) (hback : ReadsBack E p.1)
    (hids : ∀ tx ∈ p.1.transactions, tx.id.isSome)
    (hnodup : (p.1.transactions.map (·.id)).Nodup) (hnew : s.blocks[p.1.height]? = none)
    (hfresh : ∀ tx ∈ p.1.transactions, ∀ id, tx.id = some id → s.txs[id]? = none) :
    s'.TxIndexed E := by
  have hlists := writeBlock_listIndexed h.lists hwrite hencode hback hids hnew
  refine ⟨hlists.readable, hlists.identified, ?_, hlists.list, hlists.wallets, hlists.count⟩
  obtain ⟨d, hdecode, hmarks⟩ := hback.same p.2 hencode
  obtain ⟨hblocks, -⟩ := writeBlock_blocks hwrite
  obtain ⟨htxs, -⟩ := writeBlock_txs hback.placed hwrite
  have hstored := storedBlocks_insert hblocks hnew hdecode
  refine List.Perm.trans ?_ (storedEntries_perm hstored idEntries).symm
  rw [flatMap_zipIdx_congr (fun t u i ht => (mark_entries ht p.1.height i).1) hmarks 0, htxs]
  refine (Edit.toList_run_puts (idKeys_nodup _ hids hnodup) ?_).trans (h.byId.append_left _)
  intro e he
  obtain ⟨entry, hentry, he⟩ := List.mem_flatMap.mp he
  obtain ⟨id, hid, rfl⟩ := List.mem_map.mp he
  exact hfresh entry.1 (List.fst_mem_of_mem_zipIdx hentry) id (Option.mem_toList.mp hid)

/-- The indexes depend on the stored blocks alone. -/
theorem ListIndexed.congr {E : Env} {s s' : Store} (h : s.ListIndexed E)
    (hblocks : s'.blocks = s.blocks) (hlist : s'.txList = s.txList)
    (hwallets : s'.walletTxs = s.walletTxs) (hcount : s'.txCount = s.txCount) :
    s'.ListIndexed E := by
  have hstored : s'.storedBlocks E = s.storedBlocks E := by
    unfold storedBlocks
    rw [hblocks]
  refine ⟨?_, ?_, ?_, ?_, ?_⟩
  · rw [hblocks]
    exact h.readable
  · rw [hstored]
    exact h.identified
  · rw [hlist, storedEntries, hstored]
    exact h.list
  · rw [hwallets, storedEntries, hstored]
    exact h.wallets
  · rw [hcount, hstored]
    exact h.count

theorem TxIndexed.congr {E : Env} {s s' : Store} (h : s.TxIndexed E)
    (hblocks : s'.blocks = s.blocks) (htxs : s'.txs = s.txs) (hlist : s'.txList = s.txList)
    (hwallets : s'.walletTxs = s.walletTxs) (hcount : s'.txCount = s.txCount) :
    s'.TxIndexed E := by
  have hlists := h.lists.congr hblocks hlist hwallets hcount
  refine ⟨hlists.readable, hlists.identified, ?_, hlists.list, hlists.wallets, hlists.count⟩
  rw [htxs, storedEntries, storedBlocks, hblocks]
  exact h.byId

/-- The positions of a stored block are those of its list. -/
theorem decodeBlock_placed {E : Env} {record : List Bytes} {b : Block}
    (h : decodeBlock E record = .ok b) : ∀ e ∈ b.transactions.zipIdx, Placed e := by
  unfold decodeBlock at h
  cases record with
  | nil => cases h
  | cons header raws =>
      obtain ⟨header, -, h⟩ := bind_eq_ok.mp h
      obtain ⟨txs, -, h⟩ := bind_eq_ok.mp h
      rw [pure_eq_ok] at h
      subst h
      rintro ⟨tx, i⟩ he
      rw [List.mem_zipIdx_iff_getElem?] at he
      simp only [List.getElem?_mapIdx] at he
      obtain ⟨u, -, rfl⟩ := Option.map_eq_some_iff.mp he
      rfl

theorem revert_txs {E : Env} {s s' : Store} {height : Nat} {block : Block} {undo : UndoRecord}
    (hplaced : ∀ e ∈ block.transactions.zipIdx, Placed e)
    (h : s.revert E height block undo = .ok s') :
    s'.txs = Edit.run s.txs (Edit.drops
      ((block.transactions.zipIdx.flatMap (idEntries height)).map (·.1))) ∧
    s'.txList = Edit.run s.txList (Edit.drops
      ((block.transactions.zipIdx.flatMap (listEntries height)).map (·.1))) ∧
    s'.walletTxs = Edit.run s.walletTxs (Edit.drops
      ((block.transactions.zipIdx.flatMap (walletEntries E height)).map (·.1))) ∧
    s'.txCount = s.txCount - indexedCount block ∧ s'.blocks = s.blocks.erase height := by
  have hblocks : s'.blocks = s.blocks.erase height := by
    obtain ⟨r⟩ := revert_eq_ok h
    rw [r.result]
    exact congrArg (fun m => m.erase height)
      (r.same.chain.1.trans (restoreWallets_sameRecords s undo).chain.1)
  unfold revert at h
  simp only at h
  obtain ⟨s₁, hs₁, h⟩ := bind_eq_ok.mp h
  rw [pure_eq_ok] at h
  have hedited := TxEdited.foldlM (fun e => Edit.drops ((idEntries height e).map (·.1)))
    (fun e => Edit.drops ((listEntries height e).map (·.1)))
    (fun e => Edit.drops ((walletEntries E height e).map (·.1)))
    (fun t t' e he ht => undoTransaction_edits (hplaced e he) ht) hs₁
  have hsame : SameTxs s (block.transactions.zipIdx.reverse.foldl (undoToken height)
      (undo.foldl restoreWallet (s.dropListings undo))) :=
    (restoreWallets_sameRecords s undo).sameTxs.trans (foldl_undoToken_sameTxs height _ _)
  obtain ⟨htxs, hlist, hwallets, hcount⟩ := TxEdited.trans hsame hedited
  simp only [Edit.drops, List.nil_append, ← List.map_flatMap] at htxs hlist hwallets
  refine ⟨?_, ?_, ?_, ?_, hblocks⟩
  · rw [← h]
    exact htxs
  · rw [← h]
    exact hlist
  · rw [← h]
    exact hwallets
  · rw [← h]
    simp only
    rw [hcount]

theorem SameChain.indexes {s s' : Store} (h : SameChain s s') : s'.blocks = s.blocks ∧
    s'.txs = s.txs ∧ s'.txList = s.txList ∧ s'.walletTxs = s.walletTxs ∧
    s'.txCount = s.txCount := by
  rw [h]
  exact ⟨rfl, rfl, rfl, rfl, rfl⟩

/-- The block that a rollback reads is the stored one. -/
theorem RolledBack.record {E : Env} {s s' : Store} (r : RolledBack E s s') :
    ∃ record, s.blocks[s.lastHeight]? = some record ∧ decodeBlock E record = .ok r.block :=
  getBlockByHeight_some.mp r.stored

/-- A rollback takes the entries of the last block out again. -/
theorem RolledBack.listIndexed {E : Env} {s s' : Store} (r : RolledBack E s s')
    (h : s.ListIndexed E) : s'.ListIndexed E := by
  obtain ⟨record, hrecord, hdecode⟩ := r.record
  obtain ⟨-, hlist, hwallets, hcount, hblocks⟩ :=
    revert_txs (decodeBlock_placed hdecode) r.reverting
  have hstored := storedBlocks_erase (s := s) hblocks hrecord hdecode
  have hids := h.identified _ (hstored.mem_iff.mpr List.mem_cons_self)
  have hreverted : r.reverted.ListIndexed E := by
    refine ⟨?_, ?_, ?_, ?_, ?_⟩
    · intro height other hother
      rw [hblocks, OrderedMap.getElem?_erase_eq] at hother
      split_ifs at hother
      exact h.readable height other hother
    · exact fun e he => h.identified e (hstored.mem_iff.mpr (List.mem_cons_of_mem _ he))
    · rw [hlist]
      exact Edit.toList_run_drops (h.list.trans (storedEntries_perm hstored listEntries))
    · rw [hwallets]
      exact Edit.toList_run_drops (h.wallets.trans (storedEntries_perm hstored (walletEntries E)))
    · have hall : indexedCount r.block = r.block.transactions.length := by
        unfold indexedCount
        rw [List.filter_eq_self.mpr hids]
      have hsum : s.txCount = r.block.transactions.length +
          ((r.reverted.storedBlocks E).map fun e => e.2.transactions.length).sum :=
        h.count.trans (hstored.map fun e => e.2.transactions.length).sum_eq
      rw [hcount, hall]
      change s.txCount - r.block.transactions.length = _
      rw [hsum, Nat.add_sub_cancel_left]
  obtain ⟨hblocks', -, hlist', hwallets', hcount'⟩ := r.sameChain.indexes
  exact hreverted.congr hblocks' hlist' hwallets' hcount'

theorem RolledBack.txIndexed {E : Env} {s s' : Store} (r : RolledBack E s s')
    (h : s.TxIndexed E) : s'.TxIndexed E := by
  have hlists := r.listIndexed h.lists
  refine ⟨hlists.readable, hlists.identified, ?_, hlists.list, hlists.wallets, hlists.count⟩
  obtain ⟨record, hrecord, hdecode⟩ := r.record
  obtain ⟨htxs, -, -, -, hblocks⟩ := revert_txs (decodeBlock_placed hdecode) r.reverting
  obtain ⟨hblocks', htxs', -⟩ := r.sameChain.indexes
  have hstored := storedBlocks_erase (s := s) hblocks hrecord hdecode
  have hsame : s'.storedBlocks E = r.reverted.storedBlocks E := by
    unfold storedBlocks
    rw [hblocks']
  rw [htxs', htxs, storedEntries, hsame]
  exact Edit.toList_run_drops (h.byId.trans (storedEntries_perm hstored idEntries))

end Store

end SthCore
