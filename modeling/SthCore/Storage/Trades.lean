import SthCore.Storage.Postings

/-!
The fills of a sub-batch: the trade that each transaction records, and what the
trades of a token are once the sub-batch is written.
-/

namespace SthCore

open SthCore.Lib

namespace Op

def trades : Op → List TokenTrade
  | trade t => [t]
  | _ => []

theorem apply_trades (op : Op) (d : WalletDelta) :
    (op.apply d).trades = d.trades ++ op.trades := by
  cases op <;> simp [apply, trades]

/-- Whether a change writes an order or a trade. -/
def market : Op → Bool
  | putOrder _ _ => true
  | trade _ => true
  | _ => false

end Op

/-- Changes that record no trade. -/
def Ops.Tradeless (ops : Ops) : Prop := ∀ o ∈ ops, o.2.trades = []

/-- Changes that write neither orders nor trades. -/
def Ops.Marketless (ops : Ops) : Prop := ∀ o ∈ ops, o.2.market = false

theorem Ops.Marketless.tradeless {ops : Ops} (h : ops.Marketless) : ops.Tradeless := by
  rintro ⟨a, op⟩ ho
  have hop := h (a, op) ho
  cases op with
  | trade t => cases hop
  | _ => rfl

theorem Ops.Tradeless.flatMap {ops : Ops} (h : ops.Tradeless) :
    (ops.flatMap fun o => o.2.trades) = [] :=
  List.flatMap_eq_nil_iff.mpr h

namespace Accumulate

/-- The trade that a transaction of `sender` records. -/
def fillOf (s : Store) (block : Block) (index : Nat) (tx : Transaction) (sender : Text)
    (ds : Deltas) : Option TokenTrade :=
  match tx.sobjAsset, tx.tokenType, tx.tokenAsset with
  | none, some .buy, some a =>
      (orderOf s ds (a.orderId.getD "")).toOption.map fun o =>
        tradeOf block index tx sender a o
  | _, _, _ => none

/-- The trade that a transaction records when it meets the deltas `ds`. -/
def fill (E : Env) (s : Store) (block : Block) (index : Nat) (tx : Transaction) (ds : Deltas) :
    Option TokenTrade :=
  (E.addressOf tx.senderPublicKey).toOption.bind fun sender =>
    fillOf s block index tx sender (ds.run [(sender, .spend tx)])

section

variable {E : Env} {s : Store} {batch : List Block} {block : Block} {index : Nat}
  {tx : Transaction} {sender : Text} {ds ds' : Deltas} {ops : Ops}

theorem sobj_marketless (e : SmartObjectAsset) : Ops.Marketless (sobj E s tx sender e ds) := by
  have hhand : Ops.Marketless (handOver E s sender e ds) := by
    unfold handOver
    split
    · exact fun o ho => absurd ho List.not_mem_nil
    · split
      · exact fun o ho => absurd ho List.not_mem_nil
      · split
        · exact fun o ho => absurd ho List.not_mem_nil
        · unfold salePrice moveObject Ops.Marketless
          split_ifs <;> split <;> simp [Op.market]
  have hedit : Ops.Marketless (edit s sender e ds) := by
    unfold edit
    split
    · exact fun o ho => absurd ho List.not_mem_nil
    · split <;> simp [Ops.Marketless, Op.market]
  unfold sobj
  split
  · exact fun o ho => absurd ho List.not_mem_nil
  · split
    · exact hhand
    · exact hhand
    · simp [Ops.Marketless, Op.market]
    · exact hedit

theorem core_marketless {type : CoreType} (h : core E s batch block tx sender type = .ok ops) :
    ops.Marketless := by
  cases type with
  | transfer =>
      rw [← pure_eq_ok.mp h, transfer]
      split
      · exact fun o ho => absurd ho List.not_mem_nil
      · split <;> simp [Ops.Marketless, Op.market]
  | multiPayment =>
      rw [← pure_eq_ok.mp h]
      intro o ho
      obtain ⟨p, -, ho⟩ := List.mem_flatMap.mp ho
      rcases List.mem_pair.mp ho with rfl | rfl <;> rfl
  | vote =>
      rw [← pure_eq_ok.mp h]
      intro o ho
      obtain ⟨v, -, rfl⟩ := List.mem_map.mp ho
      rfl
  | secondSignature =>
      rw [← pure_eq_ok.mp h, secondSignature]
      split
      · exact fun o ho => absurd ho List.not_mem_nil
      · split_ifs <;> simp [Ops.Marketless, Op.market]
  | delegateRegistration | htlcLock =>
      simp only [core] at h
      split at h <;> rw [← pure_eq_ok.mp h] <;> simp [Ops.Marketless, Op.market]
  | delegateResignation | ipfs =>
      rw [← pure_eq_ok.mp h]
      simp [Ops.Marketless, Op.market]
  | multiSignature =>
      simp only [core] at h
      split at h
      · obtain ⟨address, -, h⟩ := bind_eq_ok.mp h
        rw [← pure_eq_ok.mp h]
        simp [Ops.Marketless, Op.market]
      · rw [← pure_eq_ok.mp h]
        exact fun o ho => absurd ho List.not_mem_nil
  | htlcClaim =>
      simp only [core] at h
      split at h
      · obtain ⟨found, -, h⟩ := bind_eq_ok.mp h
        split at h
        · rw [← pure_eq_ok.mp h]
          exact fun o ho => absurd ho List.not_mem_nil
        · obtain ⟨owner, -, h⟩ := bind_eq_ok.mp h
          rw [← pure_eq_ok.mp h]
          split <;> simp [Ops.Marketless, Op.market]
      · rw [← pure_eq_ok.mp h]
        exact fun o ho => absurd ho List.not_mem_nil
  | htlcRefund =>
      simp only [core] at h
      split at h
      · obtain ⟨found, -, h⟩ := bind_eq_ok.mp h
        split at h
        · rw [← pure_eq_ok.mp h]
          exact fun o ho => absurd ho List.not_mem_nil
        · obtain ⟨owner, -, h⟩ := bind_eq_ok.mp h
          rw [← pure_eq_ok.mp h]
          simp [Ops.Marketless, Op.market]
      · rw [← pure_eq_ok.mp h]
        exact fun o ho => absurd ho List.not_mem_nil

/-- A fill records its trade, and no other token transaction records one. -/
theorem token_trades {type : TokenType} {a : TokenAsset}
    (h : token E s block index tx sender type a ds = .ok ops) :
    (ops.flatMap fun o => o.2.trades) =
      if type = .buy then ((orderOf s ds (a.orderId.getD "")).toOption.map fun o =>
        tradeOf block index tx sender a o).toList
      else [] := by
  cases type with
  | buy =>
      obtain ⟨order, horder, h⟩ := bind_eq_ok.mp h
      rw [← pure_eq_ok.mp h, horder, if_pos rfl]
      rfl
  | init =>
      obtain ⟨held, -, h⟩ := bind_eq_ok.mp h
      rw [← pure_eq_ok.mp h]
      rfl
  | transfer =>
      rw [← pure_eq_ok.mp h]
      refine Ops.Tradeless.flatMap ?_
      intro o ho
      obtain ⟨it, -, ho⟩ := List.mem_flatMap.mp ho
      rcases List.mem_pair.mp ho with rfl | rfl <;> rfl
  | mint | burn | sell =>
      rw [← pure_eq_ok.mp h]
      rfl
  | tokenMeta =>
      simp only [token] at h
      split at h <;> rw [← pure_eq_ok.mp h] <;> rfl
  | cancel =>
      obtain ⟨order, -, h⟩ := bind_eq_ok.mp h
      rw [← pure_eq_ok.mp h]
      rfl

theorem effect_trades (h : effect E s batch block index tx sender ds = .ok ops) :
    (ops.flatMap fun o => o.2.trades) = (fillOf s block index tx sender ds).toList := by
  unfold effect at h
  unfold fillOf
  cases hsobj : tx.sobjAsset with
  | some e =>
      simp only [hsobj] at h ⊢
      rw [← Except.ok.inj h]
      exact (sobj_marketless e).tradeless.flatMap
  | none =>
      simp only [hsobj] at h ⊢
      cases htype : tx.tokenType with
      | none =>
          simp only [htype] at h
          split at h
          · exact (core_marketless h).tradeless.flatMap
          · rw [← Except.ok.inj h]
            rfl
      | some type =>
          cases hasset : tx.tokenAsset with
          | none =>
              have hnone : (ops.flatMap fun o => o.2.trades) = [] := by
                simp only [htype, hasset] at h
                split at h
                · exact (core_marketless h).tradeless.flatMap
                · rw [← Except.ok.inj h]
                  rfl
              rw [hnone]
              split
              · simp_all
              · rfl
          | some a =>
              simp only [htype, hasset] at h ⊢
              rw [token_trades h]
              cases type <;> rfl

/-- A transaction adds its fill to the trades of the deltas. -/
theorem transaction_trades (h : transaction E s batch block tx index ds = .ok ds') :
    (Deltas.collected WalletDelta.trades ds').Perm
      (Deltas.collected WalletDelta.trades ds ++ (fill E s block index tx ds).toList) := by
  obtain ⟨sender, hsender, h⟩ := bind_eq_ok.mp h
  obtain ⟨ops, heffect, h⟩ := bind_eq_ok.mp h
  obtain rfl := pure_eq_ok.mp h
  have hspend := Deltas.collected_run WalletDelta.trades rfl Op.trades Op.apply_trades ds
    [(sender, .spend tx)]
  have hrun := Deltas.collected_run WalletDelta.trades rfl Op.trades Op.apply_trades
    (ds.run [(sender, .spend tx)]) ops
  rw [effect_trades heffect] at hrun
  have hfill : fill E s block index tx ds =
      fillOf s block index tx sender (ds.run [(sender, .spend tx)]) := by
    unfold fill
    rw [hsender]
    rfl
  rw [hfill]
  refine hrun.trans (List.Perm.append_right _ ?_)
  simpa [Op.trades] using hspend

theorem sobjAsset_of_tokenType {type : TokenType} (h : tx.tokenType = some type) :
    tx.sobjAsset = none := by
  unfold Transaction.tokenType at h
  split_ifs at h with hgroup
  simp [Transaction.sobjAsset, Transaction.isSobj, hgroup, typeGroupToken, typeGroupSobj]

/-- What a transaction and its recorded trade have in common. -/
def Records (height : Nat) (tx : Transaction) : Option TokenTrade → Prop
  | some t => tx.tokenType = some .buy ∧ (∃ a, tx.tokenAsset = some a ∧ a.id = t.tokenId) ∧
      t.txId = tx.id.getD "" ∧ t.height = height
  | none => ¬ (tx.tokenType = some .buy ∧ tx.tokenAsset.isSome)

/-- An applied fill has its trade, and the trade is that of the fill. -/
theorem fill_records (h : transaction E s batch block tx index ds = .ok ds') :
    Records block.height tx (fill E s block index tx ds) := by
  obtain ⟨sender, hsender, h⟩ := bind_eq_ok.mp h
  obtain ⟨ops, heffect, -⟩ := bind_eq_ok.mp h
  have hfill : fill E s block index tx ds =
      fillOf s block index tx sender (ds.run [(sender, .spend tx)]) := by
    unfold fill
    rw [hsender]
    rfl
  rw [hfill]
  by_cases hbuy : tx.tokenType = some .buy ∧ tx.tokenAsset.isSome
  · obtain ⟨htype, hasset⟩ := hbuy
    obtain ⟨a, ha⟩ := Option.isSome_iff_exists.mp hasset
    have hsobj : tx.sobjAsset = none := sobjAsset_of_tokenType htype
    unfold effect at heffect
    simp only [hsobj, htype, ha] at heffect
    obtain ⟨order, horder, -⟩ := bind_eq_ok.mp heffect
    simp only [fillOf, hsobj, htype, ha, horder, Except.toOption, Option.map_some]
    exact ⟨htype, ⟨a, ha, rfl⟩, rfl, rfl⟩
  · have hnone : fillOf s block index tx sender (ds.run [(sender, .spend tx)]) = none := by
      unfold fillOf
      split
      · rename_i htype hasset
        exact absurd ⟨htype, by rw [hasset]; rfl⟩ hbuy
      · rfl
    rw [hnone]
    exact hbuy

end

end Accumulate

/-- Transactions with the trades that their block records for them. -/
abbrev Fills := List (Transaction × Option TokenTrade)

def Fills.trades (fills : Fills) : List TokenTrade := fills.filterMap fun p => p.2

theorem Fills.trades_append (l l' : Fills) : Fills.trades (l ++ l') = l.trades ++ l'.trades :=
  List.filterMap_append

/-- The transactions of a block, one after another. -/
def blockFills (E : Env) (s : Store) (batch : List Block) (block : Block) :
    List (Transaction × Nat) → Deltas → Fills
  | [], _ => []
  | e :: rest, ds =>
      (e.1, Accumulate.fill E s block e.2 e.1 ds) ::
        match Accumulate.transaction E s batch block e.1 e.2 ds with
        | .ok ds' => blockFills E s batch block rest ds'
        | .error _ => []

/-- The transactions of a sub-batch, block by block. -/
def batchFills (E : Env) (s : Store) (batch : List Block) : List Block → Deltas → Fills
  | [], _ => []
  | block :: rest, ds =>
      match Accumulate.forger E block, accumulateDeltas E s batch block ds with
      | .ok ops, .ok ds' =>
          blockFills E s batch block block.transactions.zipIdx (ds.run ops) ++
            batchFills E s batch rest ds'
      | _, _ => []

section

variable {E : Env} {s : Store} {batch : List Block} {block : Block} {ds ds' : Deltas}

theorem blockFills_perm {entries : List (Transaction × Nat)}
    (h : entries.foldlM (fun ds e => Accumulate.transaction E s batch block e.1 e.2 ds) ds =
      .ok ds') :
    (Deltas.collected WalletDelta.trades ds').Perm
      (Deltas.collected WalletDelta.trades ds ++
        (blockFills E s batch block entries ds).trades) := by
  induction entries generalizing ds with
  | nil =>
      rw [← foldlM_nil_ok.mp h]
      simp [blockFills, Fills.trades]
  | cons e rest ih =>
      obtain ⟨u, hu, hrest⟩ := foldlM_cons_ok.mp h
      have hfirst := Accumulate.transaction_trades hu
      refine (ih hrest).trans ?_
      have htrades : (blockFills E s batch block (e :: rest) ds).trades =
          (Accumulate.fill E s block e.2 e.1 ds).toList ++
            (blockFills E s batch block rest u).trades := by
        simp only [blockFills, hu, Fills.trades]
        cases Accumulate.fill E s block e.2 e.1 ds <;> simp
      rw [htrades, ← List.append_assoc]
      exact hfirst.append_right _

theorem blockFills_transactions {entries : List (Transaction × Nat)}
    (h : entries.foldlM (fun ds e => Accumulate.transaction E s batch block e.1 e.2 ds) ds =
      .ok ds') :
    (blockFills E s batch block entries ds).map (fun p => p.1) = entries.map fun e => e.1 := by
  induction entries generalizing ds with
  | nil => rfl
  | cons e rest ih =>
      obtain ⟨u, hu, hrest⟩ := foldlM_cons_ok.mp h
      simp only [blockFills, hu, List.map_cons, ih hrest]

theorem blockFills_records {entries : List (Transaction × Nat)}
    (h : entries.foldlM (fun ds e => Accumulate.transaction E s batch block e.1 e.2 ds) ds =
      .ok ds') :
    ∀ p ∈ blockFills E s batch block entries ds, Accumulate.Records block.height p.1 p.2 := by
  induction entries generalizing ds with
  | nil => exact fun p hp => absurd hp List.not_mem_nil
  | cons e rest ih =>
      obtain ⟨u, hu, hrest⟩ := foldlM_cons_ok.mp h
      intro p hp
      simp only [blockFills, hu] at hp
      rcases List.mem_cons.mp hp with rfl | hp
      · exact Accumulate.fill_records hu
      · exact ih hrest p hp

/-- The recorded trades of a sub-batch are the trades of its deltas. -/
theorem batchFills_perm {blocks : List Block}
    (h : blocks.foldlM (fun ds block => accumulateDeltas E s batch block ds) ds = .ok ds') :
    (Deltas.collected WalletDelta.trades ds').Perm
      (Deltas.collected WalletDelta.trades ds ++ (batchFills E s batch blocks ds).trades) := by
  induction blocks generalizing ds with
  | nil =>
      rw [← foldlM_nil_ok.mp h]
      simp [batchFills, Fills.trades]
  | cons block rest ih =>
      obtain ⟨u, hu, hrest⟩ := foldlM_cons_ok.mp h
      obtain ⟨ops, hops, hblock⟩ := bind_eq_ok.mp hu
      have hforger := Deltas.collected_run WalletDelta.trades rfl Op.trades Op.apply_trades ds ops
      have hnone : (ops.flatMap fun o => o.2.trades) = [] := by
        obtain ⟨generator, -, h⟩ := bind_eq_ok.mp hops
        rw [← pure_eq_ok.mp h]
        split_ifs <;> rfl
      rw [hnone, List.append_nil] at hforger
      have htrades : (batchFills E s batch (block :: rest) ds).trades =
          (blockFills E s batch block block.transactions.zipIdx (ds.run ops)).trades ++
            (batchFills E s batch rest u).trades := by
        simp only [batchFills, hops, hu, Fills.trades_append]
      rw [htrades, ← List.append_assoc]
      refine (ih hrest).trans (List.Perm.append_right _ ?_)
      exact (blockFills_perm hblock).trans (hforger.append_right _)

theorem batchFills_records {blocks : List Block}
    (h : blocks.foldlM (fun ds block => accumulateDeltas E s batch block ds) ds = .ok ds') :
    ∀ p ∈ batchFills E s batch blocks ds,
      ∃ b ∈ blocks, Accumulate.Records b.height p.1 p.2 ∧ p.1 ∈ b.transactions := by
  induction blocks generalizing ds with
  | nil => exact fun p hp => absurd hp List.not_mem_nil
  | cons block rest ih =>
      obtain ⟨u, hu, hrest⟩ := foldlM_cons_ok.mp h
      obtain ⟨ops, hops, hblock⟩ := bind_eq_ok.mp hu
      intro p hp
      simp only [batchFills, hops, hu] at hp
      rcases List.mem_append.mp hp with hp | hp
      · refine ⟨block, List.mem_cons_self, blockFills_records hblock p hp, ?_⟩
        have hmem := List.mem_map_of_mem (f := fun p : Transaction × Option TokenTrade => p.1) hp
        rw [blockFills_transactions hblock] at hmem
        obtain ⟨e, he, heq⟩ := List.mem_map.mp hmem
        rw [← heq]
        exact List.fst_mem_of_mem_zipIdx he
      · obtain ⟨b, hb, hrecords⟩ := ih hrest p hp
        exact ⟨b, List.mem_cons_of_mem _ hb, hrecords⟩

theorem batchFills_transactions {blocks : List Block}
    (h : blocks.foldlM (fun ds block => accumulateDeltas E s batch block ds) ds = .ok ds') :
    (batchFills E s batch blocks ds).map (fun p => p.1) =
      blocks.flatMap fun b => b.transactions := by
  induction blocks generalizing ds with
  | nil => rfl
  | cons block rest ih =>
      obtain ⟨u, hu, hrest⟩ := foldlM_cons_ok.mp h
      obtain ⟨ops, hops, hblock⟩ := bind_eq_ok.mp hu
      simp only [batchFills, hops, hu, List.map_append, ih hrest, List.flatMap_cons,
        blockFills_transactions hblock]
      rw [show (fun e : Transaction × Nat => e.1) = Prod.fst from rfl, List.zipIdx_map_fst]

end

/-- Where a trade is stored. -/
def TokenTrade.key (t : TokenTrade) : Text × Nat × UInt32 := (t.tokenId, t.height, t.seq)

namespace Store

/-- `token_trades`: the trades of a token, newest first. -/
def tokenTrades (s : Store) (id : Text) : List TokenTrade :=
  ((s.trades.toList.filter fun e => e.1.1 = id).map fun e => e.2).reverse

def putTrade (m : OrderedMap (Text × Nat × UInt32) TokenTrade) (t : TokenTrade) :
    OrderedMap (Text × Nat × UInt32) TokenTrade :=
  m.insert t.key t

theorem putTrades_of_not_mem {trades : List TokenTrade} {k : Text × Nat × UInt32}
    (h : k ∉ trades.map TokenTrade.key) (m : OrderedMap (Text × Nat × UInt32) TokenTrade) :
    (trades.foldl putTrade m)[k]? = m[k]? := by
  induction trades generalizing m with
  | nil => rfl
  | cons t rest ih =>
      rw [List.map_cons, List.mem_cons, not_or] at h
      rw [List.foldl_cons, ih h.2, putTrade, OrderedMap.getElem?_insert_eq, if_neg fun he => h.1 he.symm]

/-- Trades under different keys are all there. -/
theorem putTrades_of_mem {trades : List TokenTrade} (hnodup : (trades.map TokenTrade.key).Nodup)
    {t : TokenTrade} (ht : t ∈ trades) (m : OrderedMap (Text × Nat × UInt32) TokenTrade) :
    (trades.foldl putTrade m)[t.key]? = some t := by
  induction trades generalizing m with
  | nil => cases ht
  | cons u rest ih =>
      rw [List.map_cons, List.nodup_cons] at hnodup
      rw [List.foldl_cons]
      rcases List.mem_cons.mp ht with rfl | ht
      · rw [putTrades_of_not_mem hnodup.1, putTrade, OrderedMap.getElem?_insert_eq, if_pos rfl]
      · exact ih hnodup.2 ht _

theorem writeEntries_trades {s s' : Store} {entries : List (Text × WalletDelta)}
    (h : s.writeEntries entries = .ok s') :
    s'.trades = (entries.flatMap fun e => e.2.trades).foldl putTrade s.trades := by
  induction entries generalizing s with
  | nil =>
      rw [← foldlM_nil_ok.mp h]
      rfl
  | cons e rest ih =>
      obtain ⟨t, ht, hrest⟩ := foldlM_cons_ok.mp h
      obtain ⟨w, -, rfl⟩ := writeWallet_eq_ok ht
      rw [ih hrest, List.flatMap_cons, List.foldl_append]
      congr 1
      show e.2.trades.foldl _ (adjustVotes s _ _).trades = _
      rw [adjustVotes_eq]
      rfl

theorem SameLedger.trades {s s' : Store} (h : SameLedger s s') : s'.trades = s.trades := by
  rw [h]

/-- The trades after a committed sub-batch. -/
theorem Committed.trades {E : Env} {s s' : Store} {prepared : List (Block × List Bytes)}
    (c : Committed E s prepared s') :
    ∃ written : List TokenTrade, s'.trades = written.foldl putTrade s.trades ∧
      written.Perm (batchFills E s (prepared.map fun p => p.1) (prepared.map fun p => p.1) ∅).trades := by
  refine ⟨Deltas.collected WalletDelta.trades c.ds, ?_, ?_⟩
  · rw [c.sameLedger.trades, writeEntries_trades c.written]
    rfl
  · exact batchFills_perm c.deltas

end Store

end SthCore
