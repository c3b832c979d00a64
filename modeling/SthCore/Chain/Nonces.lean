import SthCore.Chain.Run
import SthCore.Storage.Effects
import SthCore.Crypto.Codec
import SthCore.Crypto.Signing

/-!
Nonces over whole chains.  Storage advances the nonce of a wallet by counting
its transactions; nothing compares the count with the nonces they carry.
-/

namespace SthCore

open SthCore.Lib

namespace Chain

/-- The transactions of a list of blocks, in chain order. -/
def transactions (blocks : List Block) : List Transaction :=
  blocks.flatMap fun b => b.transactions

@[simp] theorem transactions_nil : transactions [] = [] := rfl

@[simp] theorem transactions_append (l l' : List Block) :
    transactions (l ++ l') = transactions l ++ transactions l' := by
  simp [transactions]

theorem mem_transactions {blocks : List Block} {tx : Transaction} :
    tx ∈ transactions blocks ↔ ∃ b ∈ blocks, tx ∈ b.transactions := by
  simp [transactions]

/-- Whether an address is that of the sender. -/
def sentBy (P : Primitives) (N : Network) (address : Text) (tx : Transaction) : Bool :=
  match addressFromPublicKey P tx.senderPublicKey N.pubkeyHash with
  | .ok sender => sender = address
  | .error _ => false

theorem sentBy_iff {P : Primitives} {N : Network} {address : Text} {tx : Transaction} :
    sentBy P N address tx = true ↔
      addressFromPublicKey P tx.senderPublicKey N.pubkeyHash = .ok address := by
  unfold sentBy
  cases addressFromPublicKey P tx.senderPublicKey N.pubkeyHash with
  | error e => simp
  | ok sender => simp

/-- The transactions an address sends. -/
def sent (P : Primitives) (N : Network) (address : Text) (txs : List Transaction) :
    List Transaction :=
  txs.filter (sentBy P N address)

/-- Consecutive nonces from `first` on. -/
def counting (first count : Nat) : List (Option UInt64) :=
  (List.range' first count).map fun n => some (UInt64.ofNat n)

theorem counting_append (first m n : Nat) :
    counting first m ++ counting (first + m) n = counting first (m + n) := by
  rw [counting, counting, counting, ← List.map_append, List.range'_append_1]

/-- The nonces of every sender continue from the stored one. -/
def NoncesFollow : Condition := fun E s blocks =>
  ∀ a, (sent E.prim E.network a (transactions blocks)).map (fun tx => tx.nonce) =
    counting ((s.walletAt a).nonce + 1) (sent E.prim E.network a (transactions blocks)).length

/-- Different bytes among the transactions of a list have different hashes. -/
def NoCollision (P : Primitives) (txs : List Transaction) : Prop :=
  ∀ t ∈ txs, ∀ u ∈ txs, ∀ x y, serializeTransaction P t {} mainnetByte = .ok x →
    serializeTransaction P u {} mainnetByte = .ok y → P.sha256 x = P.sha256 y → x = y

section Step

variable {P : Primitives} {N : Network} {good : Condition} {s s' : Store} {blocks : List Block}

/-- The deltas count the transactions of every sender. -/
theorem batchDeltas_nonce {E : Env} {ds : Deltas} (h : batchDeltas E s blocks = .ok ds)
    (a : Text) :
    (ds.get a).nonce = (sent E.prim E.network a (transactions blocks)).length := by
  have hcount := Accumulate.batchDeltas_induction
    (R := fun _ done ds => (ds.get a).nonce =
      (sent E.prim E.network a (done.map fun p => p.2)).length)
    (by simp [sent]) ?_ ?_ h
  · have hplaced : (Accumulate.placed blocks).map (fun p => p.2) = transactions blocks := by
      simp [Accumulate.placed, transactions, List.map_flatMap]
    rwa [hplaced] at hcount
  · intro forged done ds block ops _ hops hR
    obtain ⟨generator, -, rfl⟩ := Accumulate.forger_eq_ok hops
    rw [Deltas.run_frame WalletDelta.nonce, hR]
    intro o ho d
    rw [Op.apply_nonce]
    split_ifs at ho <;> simp at ho <;> rcases ho with rfl | rfl <;> rfl
  · intro forged done ds block tx index address ops _ _ haddress hops hR
    rw [Deltas.run_cons, Deltas.run_frame WalletDelta.nonce]
    · rw [Deltas.get_upd]
      have hsent : sentBy E.prim E.network a tx = decide (address = a) := by
        unfold sentBy
        rw [show addressFromPublicKey _ _ _ = _ from haddress]
      by_cases ha : address = a
      · subst ha
        simp_all [sent, Op.apply_nonce, Op.nonces]
      · simp_all [sent]
    · intro o ho d
      rw [Op.apply_nonce, (Accumulate.effect_moves hops).nonces o ho, Nat.add_zero]

theorem Step.walletAt_eq (st : Step P N good s blocks s') (a : Text) :
    s'.walletAt a = st.committed.wallets.walletAt a := by
  rw [Store.walletAt, Store.walletAt, Store.getWallet, Store.getWallet,
    st.committed.sameLedger.wallets]

theorem Step.nonce (st : Step P N good s blocks s') (a : Text) :
    (s'.walletAt a).nonce =
      (s.walletAt a).nonce + (sent P N a (transactions blocks)).length := by
  rw [st.walletAt_eq, Store.writeEntries_nonce st.committed.written, batchDeltas_nonce st.deltas]

end Step

section Replay

variable {P : Primitives} {N : Network}

/-- The part of a transaction that its id commits to. -/
structure Identified (P : Primitives) (N : Network) (tx : Transaction) : Prop where
  id : ∃ id, tx.id = some id ∧ transactionId P tx = .ok id
  sender : ∃ a, addressFromPublicKey P tx.senderPublicKey N.pubkeyHash = .ok a

theorem addressFromPublicKey_eq_ok {publicKey : Text} {net : UInt8} {a : Text}
    (h : addressFromPublicKey P publicKey net = .ok a) :
    ∃ key, Hex.decode publicKey = .ok key ∧ key.length = 33 ∧
      a = P.base58CheckEncode (net :: P.ripemd160 key) := by
  obtain ⟨key, hkey, h⟩ := bind_eq_ok.mp h
  simp only [throw_bind, ite_error_eq_ok, not_not] at h
  exact ⟨key, hkey, h.1, (pure_eq_ok.mp h.2).symm⟩

/-- Transactions with one id have one sender and one nonce. -/
theorem same_of_id_eq {t u : Transaction} {txs : List Transaction} (hcoll : NoCollision P txs)
    (ht : t ∈ txs) (hu : u ∈ txs) (hti : Identified P N t) (hui : Identified P N u)
    (htn : t.nonce.isSome) (hun : u.nonce.isSome) (hid : t.id = u.id) :
    t.nonce = u.nonce ∧ ∀ a, sentBy P N a t = sentBy P N a u := by
  obtain ⟨id, htid, htx⟩ := hti.id
  obtain ⟨id', huid, hux⟩ := hui.id
  obtain ⟨a, ha⟩ := hti.sender
  obtain ⟨a', ha'⟩ := hui.sender
  obtain ⟨n, hn⟩ := Option.isSome_iff_exists.mp htn
  obtain ⟨m, hm⟩ := Option.isSome_iff_exists.mp hun
  obtain ⟨x, hx, htx⟩ := bind_eq_ok.mp htx
  obtain ⟨y, hy, hux⟩ := bind_eq_ok.mp hux
  have hsame : id = id' := by
    rw [htid, huid] at hid
    exact Option.some.inj hid
  have hhash : P.sha256 x = P.sha256 y := by
    apply Hex.encode_injective
    rw [pure_eq_ok.mp htx, pure_eq_ok.mp hux, hsame]
  have hbytes : x = y := hcoll t ht u hu x y hx hy hhash
  obtain ⟨key, hkey, hlen, rfl⟩ := addressFromPublicKey_eq_ok ha
  obtain ⟨key', hkey', hlen', rfl⟩ := addressFromPublicKey_eq_ok ha'
  obtain ⟨hnm, hkeys⟩ := nonce_sender_of_bytes_eq hn hm hkey hkey' (hlen.trans hlen'.symm) hx
    (hbytes ▸ hy)
  refine ⟨by rw [hn, hm, hnm], fun b => ?_⟩
  rw [sentBy, sentBy, ha, ha', hkeys]

theorem counting_nodup {count : Nat} (h : count < 2 ^ 64) : (counting 1 count).Nodup := by
  refine List.Nodup.map_on ?_ List.nodup_range'
  intro x hx y hy heq
  rw [List.mem_range'_1] at hx hy
  injection heq with heq
  have hmod := congrArg UInt64.toNat heq
  rw [UInt64.toNat_ofNat', UInt64.toNat_ofNat', Nat.mod_eq_of_lt, Nat.mod_eq_of_lt] at hmod
  · exact hmod
  · omega
  · omega

/-- Ids are unique when every sender uses every nonce once. -/
theorem ids_nodup {txs all : List Transaction} (hcoll : NoCollision P all)
    (hsub : ∀ tx ∈ txs, tx ∈ all) (hid : ∀ tx ∈ txs, Identified P N tx)
    (hsome : ∀ tx ∈ txs, tx.nonce.isSome)
    (hnodup : ∀ a, ((sent P N a txs).map fun tx => tx.nonce).Nodup) :
    (txs.map fun tx => tx.id).Nodup := by
  induction txs with
  | nil => simp
  | cons t rest ih =>
      rw [List.map_cons, List.nodup_cons]
      constructor
      · intro hmem
        obtain ⟨u, hu, heq⟩ := List.mem_map.mp hmem
        have hu' := List.mem_cons_of_mem t hu
        have ht' : t ∈ t :: rest := List.mem_cons_self
        obtain ⟨hnonce, hsent⟩ := same_of_id_eq hcoll (hsub u hu') (hsub t ht') (hid u hu')
          (hid t ht') (hsome u hu') (hsome t ht') heq
        obtain ⟨a, ha⟩ := (hid t ht').sender
        have hta : sentBy P N a t = true := sentBy_iff.mpr ha
        have hlist := hnodup a
        rw [sent, List.filter_cons_of_pos hta, List.map_cons, List.nodup_cons] at hlist
        refine hlist.1 (List.mem_map.mpr ⟨u, List.mem_filter.mpr ⟨hu, ?_⟩, hnonce⟩)
        rw [hsent a, hta]
      · refine ih (fun tx h => hsub tx (List.mem_cons_of_mem t h))
          (fun tx h => hid tx (List.mem_cons_of_mem t h))
          (fun tx h => hsome tx (List.mem_cons_of_mem t h)) fun a => ?_
        exact (hnodup a).sublist
          (((List.sublist_cons_self t rest).filter (sentBy P N a)).map fun tx => tx.nonce)

/-- What holds of every chain whose nonces follow the stored ones. -/
structure Counted (P : Primitives) (N : Network) (chain : List Block) (s : Store) : Prop where
  nonces : ∀ a, (sent P N a (transactions chain)).map (fun tx => tx.nonce) =
    counting 1 (s.walletAt a).nonce
  bound : ∀ a, (s.walletAt a).nonce < 2 ^ 64
  identified : ∀ tx ∈ transactions chain, Identified P N tx

/-- The deltas exist only when every sender key has an address. -/
theorem batchDeltas_senders {E : Env} {s : Store} {blocks : List Block} {ds : Deltas}
    (h : batchDeltas E s blocks = .ok ds) :
    ∀ tx ∈ transactions blocks, ∃ a, E.addressOf tx.senderPublicKey = .ok a := by
  have hall := Accumulate.batchDeltas_induction
    (R := fun _ done _ => ∀ p ∈ done, ∃ a, E.addressOf p.2.senderPublicKey = .ok a)
    (by simp) (fun _ _ _ _ _ _ _ hR => hR) ?_ h
  · intro tx htx
    obtain ⟨b, hb, htx⟩ := mem_transactions.mp htx
    exact hall (b, tx) (Accumulate.mem_placed.mpr ⟨hb, htx⟩)
  · intro forged done ds block tx index address ops _ _ haddress _ hR p hp
    rcases List.mem_append.mp hp with hp | hp
    · exact hR p hp
    · rw [List.mem_singleton.mp hp]
      exact ⟨address, haddress⟩

theorem Step.identified {good : Condition} {s s' : Store} {blocks : List Block}
    (st : Step P N good s blocks s') : ∀ tx ∈ transactions blocks, Identified P N tx := by
  intro tx htx
  obtain ⟨b, hb, hbtx⟩ := mem_transactions.mp htx
  have hv := st.verified b hb
  obtain ⟨id, hid⟩ := Option.isSome_iff_exists.mp (hv.txIds tx hbtx)
  exact ⟨⟨id, hid, hv.txId tx hbtx id hid⟩, batchDeltas_senders st.deltas tx htx⟩

theorem Step.nonce_bound {good : Condition} {s s' : Store} {blocks : List Block}
    (st : Step P N good s blocks s') (h : ∀ a, (s.walletAt a).nonce < 2 ^ 64) (a : Text) :
    (s'.walletAt a).nonce < 2 ^ 64 := by
  rw [st.walletAt_eq, Store.walletAt]
  rcases Store.writeEntries_wallet st.committed.written a with ⟨-, hget⟩ | ⟨d, w, -, hw, hget⟩
  · rw [hget]
    exact h a
  · rw [hget, Option.getD_some, WalletState.apply_nonce hw]
    exact (WalletState.apply_eq_ok hw).2.1

theorem Counted.step {chain blocks : List Block} {s s' : Store}
    (st : Step P N NoncesFollow s blocks s') (h : Counted P N chain s) :
    Counted P N (chain ++ blocks) s' := by
  refine ⟨fun a => ?_, st.nonce_bound h.bound, fun tx htx => ?_⟩
  · have hmeets := st.meets a
    rw [transactions_append, sent, List.filter_append, List.map_append, st.nonce a]
    rw [← counting_append, Nat.add_comm 1]
    exact congrArg₂ (· ++ ·) (h.nonces a) hmeets
  · rw [transactions_append, List.mem_append] at htx
    rcases htx with htx | htx
    · exact h.identified tx htx
    · exact st.identified tx htx

/-- In a chain whose nonces follow the stored ones no transaction occurs twice,
every sender uses the nonces 1, 2, 3, … in chain order, and the stored nonce is
that of its last transaction. -/
theorem run_no_replay {undo : Bool} {chain : List Block} {s : Store} {tip : Sync.ChainTip}
    (hrun : Run P N NoncesFollow { undoEnabled := undo } ⟨0, none⟩ chain s tip)
    (hcoll : NoCollision P (transactions chain)) :
    ((transactions chain).map fun tx => tx.id).Nodup ∧
    ∀ a, (sent P N a (transactions chain)).map (fun tx => tx.nonce) =
        counting 1 (sent P N a (transactions chain)).length ∧
      ∀ tx, (sent P N a (transactions chain)).getLast? = some tx →
        tx.nonce = some (UInt64.ofNat (s.walletAt a).nonce) := by
  have hstart : Counted P N [] { undoEnabled := undo } := by
    refine ⟨fun a => ?_, fun a => ?_, by simp⟩
    · simp [sent, counting, Store.walletAt, Store.getWallet, WalletState.new]
    · simp [Store.walletAt, Store.getWallet, WalletState.new]
  have hcount : Counted P N chain s :=
    Run.induction hstart (fun _ _ _ h => ⟨h.nonces, h.bound, h.identified⟩)
      (fun _ _ _ _ st h => h.step st) hrun
  have hlength (a : Text) :
      (sent P N a (transactions chain)).length = (s.walletAt a).nonce := by
    simpa [counting] using congrArg List.length (hcount.nonces a)
  refine ⟨?_, fun a => ⟨?_, ?_⟩⟩
  · refine ids_nodup hcoll (fun tx h => h) hcount.identified ?_ ?_
    · intro tx htx
      obtain ⟨a, ha⟩ := (hcount.identified tx htx).sender
      have hmem : tx.nonce ∈ counting 1 (s.walletAt a).nonce := by
        rw [← hcount.nonces a]
        exact List.mem_map_of_mem (List.mem_filter.mpr ⟨htx, sentBy_iff.mpr ha⟩)
      obtain ⟨n, -, hn⟩ := List.mem_map.mp hmem
      simp [← hn]
    · intro a
      rw [hcount.nonces a]
      exact counting_nodup (hcount.bound a)
  · rw [hlength a]
    exact hcount.nonces a
  · intro tx hlast
    have hmap := congrArg List.getLast? (hcount.nonces a)
    rw [List.getLast?_map, hlast, Option.map_some, counting, List.getLast?_map,
      List.getLast?_range'] at hmap
    split_ifs at hmap with hzero
    · simp at hmap
    · simpa using hmap

end Replay

section Sample

open Reference

theorem transactionId_of_bytes {P : Primitives} {tx : Transaction} {bytes : Bytes}
    (h : serializeTransaction P tx {} mainnetByte = .ok bytes) :
    transactionId P tx = .ok (Hex.encode (P.sha256 bytes)) := by
  rw [transactionId, h]
  rfl

/-- Two transactions with different ids do not collide. -/
theorem noCollision_pair {P : Primitives} {t u : Transaction}
    (hid : transactionId P t ≠ transactionId P u) : NoCollision P [t, u] := by
  intro a ha b hb x y hx hy hhash
  have hsame : transactionId P a = transactionId P b := by
    rw [transactionId_of_bytes hx, transactionId_of_bytes hy, hhash]
  rw [List.mem_pair] at ha hb
  rcases ha with rfl | rfl <;> rcases hb with rfl | rfl
  · exact Except.ok.inj (hx.symm.trans hy)
  · exact absurd hsame hid
  · exact absurd hsame.symm hid
  · exact Except.ok.inj (hx.symm.trans hy)

/-- The first block after the genesis block, with two transfers of one sender. -/
def countedBlock : Block :=
  first.forge 2 8 (genesis.id.getD "") 0 [transfer first second 1 5, transfer first second 2 5]

/-- Blocks 2 and 3 with one and the same transfer. -/
def replayedBlock : Block := first.forge 2 8 (genesis.id.getD "") 0 [transfer first second 1 5]

def replayingBlock : Block :=
  first.forge 3 16 (replayedBlock.id.getD "") 0 [transfer first second 1 5]

/-- Both chains are accepted, and the transfers of the first one have two ids. -/
theorem samples_accepted :
    (Sync.applyBlocks ⟨primitives, network {}, 8000⟩ {} [genesis, countedBlock]
      ⟨0, none⟩ true).2 = .ok ⟨2, countedBlock.id⟩ ∧
    transactionId primitives (transfer first second 1 5) ≠
      transactionId primitives (transfer first second 2 5) ∧
    (Sync.applyBlocks ⟨primitives, network {}, 16000⟩ {}
      [genesis, replayedBlock, replayingBlock] ⟨0, none⟩ true).2 = .ok ⟨3, replayingBlock.id⟩ := by
  decide +kernel

theorem countedBlock_follows (now : Int) :
    CallMeets NoncesFollow ⟨primitives, network {}, now⟩ {} [genesis, countedBlock] := by
  refine ⟨fun a => ?_, fun _ _ => trivial⟩
  have hsent (nonce amount : UInt64) :
      sentBy primitives (network {}) a (transfer first second nonce amount) =
        sentBy primitives (network {}) a (transfer first second 1 5) := rfl
  change List.map _ (sent primitives (network {}) a
      [transfer first second 1 5, transfer first second 2 5]) =
    counting 1 (sent primitives (network {}) a
      [transfer first second 1 5, transfer first second 2 5]).length
  simp only [sent, List.filter_cons, hsent 2 5]
  split_ifs <;> rfl

/-- Two transfers in the block after the genesis block: both are kept apart. -/
theorem run_no_replay_counted :
    ∃ s, Run primitives (network {}) NoncesFollow {} ⟨0, none⟩ [genesis, countedBlock] s
        ⟨2, countedBlock.id⟩ ∧
      ((transactions [genesis, countedBlock]).map fun tx => tx.id).Nodup := by
  obtain ⟨haccepted, hids, -⟩ := samples_accepted
  have hcoll : NoCollision primitives (transactions [genesis, countedBlock]) :=
    noCollision_pair hids
  have hrun := Run.single 8000 haccepted (countedBlock_follows 8000)
  exact ⟨_, hrun, (run_no_replay hrun hcoll).1⟩

/-- A transfer that is accepted a second time. -/
theorem replay_accepted :
    ∃ s, Run primitives (network {}) unconditional {} ⟨0, none⟩
        [genesis, replayedBlock, replayingBlock] s ⟨3, replayingBlock.id⟩ ∧
      ¬ ((transactions [genesis, replayedBlock, replayingBlock]).map fun tx => tx.id).Nodup := by
  obtain ⟨-, -, haccepted⟩ := samples_accepted
  refine ⟨_, Run.single 16000 haccepted (callMeets_unconditional _ _ _), ?_⟩
  intro hnodup
  exact (List.nodup_cons.mp hnodup).1 (List.mem_singleton.mpr rfl)

end Sample

end Chain

end SthCore
