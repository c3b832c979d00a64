import SthCore.Chain.Run
import SthCore.Crypto.Signing
import SthCore.Storage.Names

/-!
The delegate registry along whole histories of accepted blocks and rollbacks.
Nothing refuses a name that is taken or a second registration; where neither
occurs, the registry is exact.
-/

namespace SthCore

open SthCore.Lib

namespace Chain

/-- Calls of `sync::apply_blocks` with verification, whatever tip they were given and whether they
fail or not, and rollbacks of the last block; with conditions on the sub-batches and on the
stores before rollbacks. -/
inductive History (P : Primitives) (N : Network) (good : Condition) (keep : Store → Prop) :
    Store → Prop
  | start (s : Store) (hwallets : s.wallets = ∅) (hnames : s.walletUsername = ∅)
      (hundo : s.undo = ∅) : History P N good keep s
  | accept {s : Store} (now : Int) (blocks : List Block) (tip : Sync.ChainTip)
      (hrun : History P N good keep s) (hmeets : CallMeets good ⟨P, N, now⟩ s blocks) :
      History P N good keep (Sync.applyBlocks ⟨P, N, now⟩ s blocks tip true).1
  | rollback {s : Store} (now : Int) (hrun : History P N good keep s) (hkeep : keep s) :
      History P N good keep (s.rollbackLastBlock ⟨P, N, now⟩).1
  | setUndo {s : Store} (on : Bool) (hrun : History P N good keep s) :
      History P N good keep { s with undoEnabled := on }

/-- Every registration of a sub-batch is by a wallet without another name, under a name that no
other wallet has or registers. -/
def NamesFree : Condition := fun E s blocks =>
  ∀ r ∈ registrations E blocks,
    (s.nameAt r.1 = none ∨ s.nameAt r.1 = some r.2) ∧
    (∀ b, s.nameAt b = some r.2 → b = r.1) ∧
    ∀ q ∈ registrations E blocks, q.2 = r.2 → q.1 = r.1

/-- The last block has given no name to a wallet that existed before it. -/
def NamesKept (s : Store) : Prop :=
  ∀ undo, s.undo[s.lastHeight]? = some undo →
    ∀ e ∈ undo, ∀ w, e.2 = some w → w.username = s.nameAt e.1

/-- What is kept along a history: an exact index, and undo records that name each wallet
once. -/
structure Registered (s : Store) : Prop where
  exact : s.NamesExact
  distinct : ∀ (height : Nat) undo, s.undo[height]? = some undo → (undo.map (·.1)).Nodup

theorem fillId_registered {P : Primitives} {tx tx' : Transaction} (h : fillId P tx = .ok tx') :
    tx'.registered = tx.registered ∧ tx'.senderPublicKey = tx.senderPublicKey := by
  unfold fillId at h
  split at h
  · injection h with h
    subst h
    exact ⟨rfl, rfl⟩
  · obtain ⟨id, -, h⟩ := bind_eq_ok.mp h
    rw [pure_eq_ok] at h
    subst h
    exact ⟨rfl, rfl⟩

theorem prepareBlock_transactions {E : Env} {block : Block} {p : Block × List Bytes}
    (h : prepareBlock E block = .ok p) :
    block.transactions.mapM (fillId E.prim) = .ok p.1.transactions := by
  unfold prepareBlock at h
  cases hid : block.id with
  | some own =>
      rw [hid] at h
      obtain ⟨id, -, h⟩ := bind_eq_ok.mp h
      obtain ⟨txs, htxs, h⟩ := bind_eq_ok.mp h
      obtain ⟨record, -, h⟩ := bind_eq_ok.mp h
      rw [pure_eq_ok] at h
      rw [htxs, ← h]
  | none =>
      rw [hid] at h
      obtain ⟨id, -, h⟩ := bind_eq_ok.mp h
      obtain ⟨txs, htxs, h⟩ := bind_eq_ok.mp h
      obtain ⟨record, -, h⟩ := bind_eq_ok.mp h
      rw [pure_eq_ok] at h
      rw [htxs, ← h]

/-- Filling in ids registers nobody. -/
theorem registrations_prepared {E : Env} {blocks : List Block}
    {prepared : List (Block × List Bytes)} (h : blocks.mapM (prepareBlock E) = .ok prepared) :
    registrations E (prepared.map (·.1)) = registrations E blocks := by
  have hall := forall₂_of_mapM_ok h
  clear h
  induction hall with
  | nil => rfl
  | cons hbp hrest ih =>
      rename_i b p l l'
      unfold registrations at ih ⊢
      rw [List.map_cons, List.flatMap_cons, List.flatMap_cons, ih]
      congr 1
      have hfilled := forall₂_of_mapM_ok (prepareBlock_transactions hbp)
      generalize b.transactions = txs at hfilled
      generalize p.1.transactions = filled at hfilled
      clear hbp
      induction hfilled with
      | nil => rfl
      | cons htx hrest ih =>
          obtain ⟨hname, hkey⟩ := fillId_registered htx
          rw [List.filterMap_cons, List.filterMap_cons, hname, hkey, ih]

theorem committed_registered {E : Env} {s s' : Store} {blocks : List Block}
    {prepared : List (Block × List Bytes)} (hprepared : blocks.mapM (prepareBlock E) = .ok prepared)
    (c : Store.Committed E s prepared s') (hfree : NamesFree E s blocks) (h : Registered s) :
    Registered s' := by
  have hnamed : ∀ e ∈ c.ds.toList, ∀ u, e.2.username = some u →
      (e.1, u) ∈ registrations E blocks := by
    intro e he u hu
    rw [← registrations_prepared hprepared]
    apply Accumulate.batchDeltas_username c.deltas
    rw [Deltas.get, Std.ExtTreeMap.mem_toList_iff_getElem?_eq_some.mp he]
    exact hu
  have hwritten : c.wallets.NamesExact := by
    refine Store.writeEntries_namesExact c.written h.exact (Store.toList_keys_nodup c.ds) ?_ ?_
    · intro e he u hu
      obtain ⟨hown, hothers, -⟩ := hfree (e.1, u) (hnamed e he u hu)
      exact ⟨hown, hothers⟩
    · intro e he e' he' u hu hu'
      exact (hfree (e'.1, u) (hnamed e' he' u hu')).2.2 (e.1, u) (hnamed e he u hu) rfl
  refine ⟨hwritten.congr c.sameLedger.wallets c.sameLedger.walletUsername, ?_⟩
  intro height undo hundo
  rcases c.logged with hsame | ⟨first, -, hlogged⟩
  · rw [hsame] at hundo
    exact h.distinct height undo hundo
  · have hentry : s.undo[height]? = some undo ∨ undo = s.undoOf c.ds.toList := by
      rw [hlogged] at hundo
      unfold Store.putUndo at hundo
      simp only at hundo
      split_ifs at hundo
      · rw [OrderedMap.getElem?_erase_eq] at hundo
        split_ifs at hundo
        rw [OrderedMap.getElem?_insert_eq] at hundo
        split_ifs at hundo
        · exact .inr (Option.some.inj hundo).symm
        · exact .inl hundo
      · rw [OrderedMap.getElem?_insert_eq] at hundo
        split_ifs at hundo
        · exact .inr (Option.some.inj hundo).symm
        · exact .inl hundo
    rcases hentry with hold | rfl
    · exact h.distinct height undo hold
    · unfold Store.undoOf
      rw [List.map_map]
      exact Store.toList_keys_nodup c.ds

theorem applyChunks_registered {E : Env} {s : Store} {chunks : List (List Block)} {force : Bool}
    (hmeets : EachChunk NamesFree E force s chunks) (h : Registered s) :
    Registered (s.applyChunks E chunks force).1 := by
  induction chunks generalizing s with
  | nil => exact h
  | cons c rest ih =>
      have hdone : Registered (s.applyLocked E c force).1 := by
        rcases Store.applyLocked_cases E s c force with ⟨e, he⟩ | ⟨prepared, hprepared, ⟨hc⟩⟩
        · rw [he]
          exact h
        · exact committed_registered hprepared hc hmeets.1 h
      rw [Store.applyChunks_cons]
      unfold Outcome.andThen
      split
      · rename_i hok
        exact ih (hmeets.2 _ (Prod.ext rfl hok)) hdone
      · exact hdone

theorem rollbackLastBlock_registered {E : Env} {s : Store} (hkept : NamesKept s)
    (h : Registered s) : Registered (s.rollbackLastBlock E).1 := by
  cases hback : s.rollbackLastBlock E with
  | mk s' result =>
      cases result with
      | error e =>
          obtain ⟨certs, rfl⟩ := Store.rollbackLastBlock_error hback
          exact ⟨Store.NamesExact.congr (s := s) rfl rfl h.exact, h.distinct⟩
      | ok tip =>
          obtain ⟨-, ⟨r⟩⟩ := Store.rollbackLastBlock_eq_ok hback
          obtain ⟨hwallets, -, hnames⟩ := r.accounts
          have hstart : (({ s with finality := r.certs } : Store).dropListings r.undo).NamesExact :=
            Store.NamesExact.congr (s := s) rfl rfl h.exact
          have hrestored := Store.foldl_restoreWallet_namesExact hstart
            (h.distinct s.lastHeight r.undo r.logged) (hkept r.undo r.logged)
          refine ⟨hrestored.congr hwallets hnames, ?_⟩
          intro height undo hundo
          rw [r.undoLog, OrderedMap.getElem?_erase_eq] at hundo
          split_ifs at hundo
          exact h.distinct height undo hundo

theorem History.registered {P : Primitives} {N : Network} {s : Store}
    (hrun : History P N NamesFree NamesKept s) : Registered s := by
  induction hrun with
  | start s hwallets hnames hundo =>
      constructor
      · intro u a
        unfold Store.nameAt Store.getWallet
        rw [hwallets, hnames]
        simp
      · intro height undo hmem
        rw [hundo] at hmem
        simp at hmem
  | accept now blocks tip _ hmeets ih =>
      unfold Sync.applyBlocks
      split
      · exact ih
      · rw [Store.applyBlocks_eq_applyChunks]
        exact applyChunks_registered hmeets.each ih
  | rollback now _ hkeep ih => exact rollbackLastBlock_registered hkeep ih
  | setUndo on _ ih => exact ⟨ih.exact, ih.distinct⟩

end Chain

open Chain

/-- The ranking lists every wallet with a username once and no other wallet, and no username
belongs to two wallets. -/
structure DelegateRegistry (s : Store) : Prop where
  ranking : (s.delegateRanking.map (·.1)).Perm
    ((s.wallets.toList.map (·.2)).filter (·.isDelegate))
  unique : ∀ (a b : Text) (w v : WalletState) (u : Text), s.getWallet a = some w →
    s.getWallet b = some v → w.username = some u → v.username = some u → a = b

/-- Histories without second registrations, taken names, and rollbacks of the registration of an
older wallet. -/
theorem history_delegateRegistry (P : Primitives) (N : Network) (s : Store)
    (hrun : History P N NamesFree NamesKept s) : DelegateRegistry s := by
  have hexact := hrun.registered.exact
  refine ⟨hexact.ranking, ?_⟩
  intro a b w v u ha hb hw hv
  apply Inverse.injective hexact (v := u)
  · unfold Store.nameAt
    rw [ha]
    exact hw
  · unfold Store.nameAt
    rw [hb]
    exact hv

namespace Reference

/-- A block in which the first key registers as a delegate. -/
def namingBlock : Block :=
  first.forge 2 8 (genesis.id.getD "") 0 [registration first 1 "one"]

/-- A block in which two keys register under one name. -/
def namesakeBlock : Block :=
  first.forge 2 8 (genesis.id.getD "") 0
    [registration first 1 "one", registration second 1 "one"]

/-- A node that has accepted `genesis`. -/
def startedStore : Store :=
  (Sync.applyBlocks ⟨primitives, network {}, 8000⟩ {} [genesis] ⟨0, none⟩ true).1

/-- A node that has accepted one more block. -/
def continued (block : Block) : Store :=
  (Sync.applyBlocks ⟨primitives, network {}, 8000⟩ startedStore [block] ⟨1, genesis.id⟩ true).1

theorem startedStore_history {keep : Store → Prop} :
    History primitives (network {}) NamesFree keep startedStore := by
  have hnone : registrations ⟨primitives, network {}, 8000⟩ [genesis] = [] := by decide +kernel
  refine (History.start {} rfl rfl rfl).accept 8000 [genesis] ⟨0, none⟩ (callMeets_single ?_)
  intro r hr
  rw [hnone] at hr
  cases hr

theorem continued_history {free : Condition} {keep : Store → Prop} (block : Block)
    (hstart : History primitives (network {}) free keep startedStore)
    (hmeets : CallMeets free ⟨primitives, network {}, 8000⟩ startedStore [block]) :
    History primitives (network {}) free keep (continued block) :=
  hstart.accept 8000 [block] ⟨1, genesis.id⟩ hmeets

end Reference

open Reference

theorem history_delegateRegistry_naming :
    (continued namingBlock).delegateRanking.length = 1 ∧
    DelegateRegistry (continued namingBlock) := by
  obtain ⟨hranking, hregistered, hunnamed⟩ :
      (continued namingBlock).delegateRanking.length = 1 ∧
      registrations ⟨primitives, network {}, 8000⟩ [namingBlock] =
        [(first.address, Text.ofString "one")] ∧
      startedStore.walletUsername.toList = [] := by
    decide +kernel
  refine ⟨hranking, ?_⟩
  have hnames : ∀ b, startedStore.nameAt b = none := by
    intro b
    cases hb : startedStore.nameAt b with
    | none => rfl
    | some u =>
        have hstart : History primitives (network {}) NamesFree NamesKept startedStore :=
          startedStore_history
        have hexact := hstart.registered.exact
        have hentry := (hexact u b).mpr hb
        rw [Std.ExtTreeMap.toList_eq_nil_iff.mp hunnamed] at hentry
        simp at hentry
  apply history_delegateRegistry primitives (network {})
  refine continued_history namingBlock startedStore_history (callMeets_single ?_)
  intro r hr
  rw [hregistered] at hr
  refine ⟨.inl (hnames r.1), ?_, ?_⟩
  · intro b hb
    rw [hnames b] at hb
    cases hb
  · intro q hq _
    rw [hregistered] at hq
    rw [List.mem_singleton.mp hr, List.mem_singleton.mp hq]

/-- Two wallets register under one name in an accepted block. -/
theorem namesakes_accepted :
    (Sync.applyBlocks ⟨primitives, network {}, 8000⟩ startedStore [namesakeBlock]
      ⟨1, genesis.id⟩ true).2.toOption.isSome ∧
    History primitives (network {}) unconditional (fun _ => True) (continued namesakeBlock) ∧
    ¬ DelegateRegistry (continued namesakeBlock) := by
  obtain ⟨haccepted, hfirst, hsecond, hdiffer⟩ :
      (Sync.applyBlocks ⟨primitives, network {}, 8000⟩ startedStore [namesakeBlock]
        ⟨1, genesis.id⟩ true).2.toOption.isSome ∧
      (continued namesakeBlock).nameAt first.address = some "one" ∧
      (continued namesakeBlock).nameAt second.address = some "one" ∧
      first.address ≠ second.address := by
    decide +kernel
  refine ⟨haccepted, ?_, ?_⟩
  · have hstart : History primitives (network {}) unconditional (fun _ => True) startedStore :=
      (History.start {} rfl rfl rfl).accept 8000 [genesis] ⟨0, none⟩
        (callMeets_unconditional _ _ _)
    exact continued_history namesakeBlock hstart (callMeets_unconditional _ _ _)
  · intro h
    obtain ⟨w, hw, hwname⟩ := Option.bind_eq_some_iff.mp hfirst
    obtain ⟨v, hv, hvname⟩ := Option.bind_eq_some_iff.mp hsecond
    exact hdiffer (h.unique first.address second.address w v "one" hw hv hwname hvname)

end SthCore
