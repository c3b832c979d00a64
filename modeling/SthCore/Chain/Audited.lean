import SthCore.Chain.Growth
import SthCore.Storage.Audit
import SthCore.Storage.Effects
import SthCore.Storage.Names

/-!
The wallets that the audit books for a block, against the wallets that the block
changes.  Only the seller of a purchase is changed and not booked.
-/

namespace SthCore

open SthCore.Lib

namespace Audit

/-- The stored lock that a claim or refund names. -/
def lockOf (E : Env) (s : Store) (tx : Transaction) : Option Transaction :=
  (storedLock E s tx).toOption.join

/-- The wallets that the audit books for a core transaction besides the sender. -/
def coreParties (E : Env) (s : Store) (tx : Transaction) : List Text :=
  match tx.coreType with
  | some .multiPayment => tx.payments.map fun p => p.recipientId
  | some .htlcClaim => (lockOf E s tx).toList.map fun l => l.recipientId.getD ""
  | some .htlcRefund =>
      (lockOf E s tx).toList.flatMap fun l => (E.addressOf l.senderPublicKey).toOption.toList
  | some .htlcLock => []
  | _ => tx.recipientId.toList

/-- The wallets that the audit books for a transaction. -/
def txParties (E : Env) (s : Store) (tx : Transaction) : List Text :=
  (E.addressOf tx.senderPublicKey).toOption.toList ++
    if tx.typeGroup = typeGroupCore then coreParties E s tx else []

/-- The wallets that the audit books for a block. -/
def blockParties (E : Env) (s : Store) (b : Block) : List Text :=
  (if burnedBy E b > 0 then [E.network.burnAddress] else []) ++
    (E.addressOf b.generatorPublicKey).toOption.toList ++
      b.transactions.flatMap (txParties E s)

section Booked

variable {E : Env} {s : Store} {tx : Transaction} {sender : Text} {entries : Entries}

theorem mem_mine {x : Text} :
    x ∈ (mine tx).toList.map (fun e => e.1) ↔ x ∈ tx.payments.map fun p => p.recipientId := by
  have hfold : ∀ (l : List Payment) (m : OrderedMap Text Int),
      x ∈ l.foldl (fun m p => OrderedMap.upsert m p.recipientId 0
          fun v => v + (p.amount.toNat : Int)) m ↔
        x ∈ m ∨ x ∈ l.map fun p => p.recipientId := by
    intro l
    induction l with
    | nil => simp
    | cons p rest ih =>
        intro m
        rw [List.foldl_cons, ih, OrderedMap.upsert, Std.ExtTreeMap.mem_insert,
          Std.LawfulEqCmp.compare_eq_iff_eq, List.map_cons, List.mem_cons, eq_comm (a := x)]
        exact or_assoc.trans (by rw [or_left_comm])
  rw [Std.ExtTreeMap.map_fst_toList_eq_keys, Std.ExtTreeMap.mem_keys]
  unfold mine
  rw [hfold]
  simp

/-- Claims and refunds book the payee, or the sender when there is no lock. -/
theorem settlement_parties
    (htype : tx.coreType = some .htlcClaim ∨ tx.coreType = some .htlcRefund)
    (h : settlement E s tx sender = .ok entries) (x : Text) :
    x = sender ∨ x ∈ entries.map (fun e => e.1) ↔ x = sender ∨ x ∈ coreParties E s tx := by
  obtain ⟨lock, hlock, h⟩ := bind_eq_ok.mp h
  unfold coreParties lockOf
  rw [hlock]
  cases lock with
  | none =>
      rw [← pure_eq_ok.mp h]
      rcases htype with htype | htype <;> simp [htype, Except.toOption]
  | some l =>
      obtain ⟨payee, hpayee, h⟩ := bind_eq_ok.mp h
      rw [← pure_eq_ok.mp h]
      unfold payeeOf at hpayee
      rcases htype with htype | htype
      · rw [if_pos htype] at hpayee
        simp [htype, Except.ok.inj hpayee, Except.toOption]
      · rw [if_neg (by simp [htype])] at hpayee
        simp [htype, hpayee, Except.toOption]

theorem auditTx_parties (h : auditTx E s tx = .ok entries) (x : Text) :
    x ∈ entries.map (fun e => e.1) ↔ x ∈ txParties E s tx := by
  obtain ⟨sender, hsender, h⟩ := bind_eq_ok.mp h
  obtain ⟨others, hothers, h⟩ := bind_eq_ok.mp h
  rw [← pure_eq_ok.mp h]
  unfold txParties
  rw [hsender, List.map_cons, List.mem_cons, List.mem_append]
  have hself : x ∈ (Except.ok (ε := Error) sender).toOption.toList ↔ x = sender := by
    simp [Except.toOption]
  rw [hself]
  unfold coreReceived at hothers
  by_cases hcore : tx.typeGroup = typeGroupCore
  · rw [if_neg (not_not.mpr hcore)] at hothers
    rw [if_pos hcore]
    split at hothers
    · rename_i htype
      rw [← Except.ok.inj hothers]
      unfold coreParties
      rw [htype, List.map_map]
      exact or_congr Iff.rfl mem_mine
    · rename_i htype
      exact settlement_parties (.inl htype) hothers x
    · rename_i htype
      exact settlement_parties (.inr htype) hothers x
    · rename_i htype
      rw [← Except.ok.inj hothers]
      unfold coreParties
      rw [htype]
      rfl
    · rename_i hmulti hclaim hrefund hlock
      rw [← Except.ok.inj hothers, List.map_map]
      have hparties : coreParties E s tx = tx.recipientId.toList := by
        unfold coreParties
        split
        · exact absurd (by assumption) hmulti
        · exact absurd (by assumption) hclaim
        · exact absurd (by assumption) hrefund
        · exact absurd (by assumption) hlock
        · rfl
      rw [hparties]
      cases tx.recipientId <;> simp
  · rw [if_pos hcore] at hothers
    rw [if_neg hcore, ← Except.ok.inj hothers]
    rfl

theorem auditForger_parties {b : Block} (h : auditForger E b = .ok entries) :
    entries.map (fun e => e.1) = (if burnedBy E b > 0 then [E.network.burnAddress] else []) ++
      (E.addressOf b.generatorPublicKey).toOption.toList := by
  obtain ⟨generator, hgenerator, h⟩ := bind_eq_ok.mp h
  rw [← pure_eq_ok.mp h, hgenerator, List.map_append]
  split_ifs <;> rfl

theorem auditBlock_parties {b : Block} (h : auditBlock E s b = .ok entries) (x : Text) :
    x ∈ entries.map (fun e => e.1) ↔ x ∈ blockParties E s b := by
  obtain ⟨forged, hforged, h⟩ := bind_eq_ok.mp h
  obtain ⟨txs, htxs, h⟩ := bind_eq_ok.mp h
  rw [← pure_eq_ok.mp h, List.map_append, List.mem_append, auditForger_parties hforged]
  unfold blockParties
  rw [List.mem_append (s := _ ++ _)]
  refine or_congr Iff.rfl ?_
  have hall := forall₂_of_mapM_ok htxs
  clear h htxs
  generalize b.transactions = l at hall
  induction hall with
  | nil => rfl
  | cons hfirst _ ih =>
      rw [List.flatten_cons, List.map_append, List.mem_append, List.flatMap_cons, List.mem_append]
      exact or_congr (auditTx_parties hfirst x) ih

/-- A scan books the wallets of the stored blocks in its range. -/
theorem auditScan_parties {lo hi : Nat} (h : auditScan E s lo hi = .ok entries) (x : Text) :
    x ∈ entries.map (fun e => e.1) ↔
      ∃ e ∈ s.storedBlocks E, (lo ≤ e.1 ∧ e.1 ≤ hi) ∧ x ∈ blockParties E s e.2 := by
  obtain ⟨found, hfound, h⟩ := bind_eq_ok.mp h
  rw [← pure_eq_ok.mp h]
  have hall := forall₂_of_mapM_ok hfound
  have hrange : ∀ e : Nat × List Bytes, e ∈ s.blocks.toList.filter (inRange lo hi) ↔
      s.blocks[e.1]? = some e.2 ∧ lo ≤ e.1 ∧ e.1 ≤ hi := by
    rintro e
    rw [List.mem_filter, Std.ExtTreeMap.mem_toList_iff_getElem?_eq_some]
    unfold inRange
    rw [Bool.and_eq_true, decide_eq_true_eq, decide_eq_true_eq]
  rw [List.mem_map]
  constructor
  · rintro ⟨entry, hentry, rfl⟩
    obtain ⟨ls, hls, hmem⟩ := List.mem_flatten.mp hentry
    obtain ⟨e, he, hrecord⟩ := mapM_ok_mem hfound ls hls
    obtain ⟨hstored, hheight⟩ := (hrange e).mp he
    obtain ⟨b, hdecode, hblock⟩ := bind_eq_ok.mp hrecord
    exact ⟨(e.1, b), Store.mem_storedBlocks.mpr ⟨e.2, hstored, hdecode⟩, hheight,
      (auditBlock_parties hblock entry.1).mp (List.mem_map_of_mem hmem)⟩
  · rintro ⟨e, he, hheight, hx⟩
    obtain ⟨record, hrecord, hdecode⟩ := Store.mem_storedBlocks.mp he
    obtain ⟨ls, hls, hbooked⟩ := forall₂_mem_left hall (e.1, record)
      ((hrange _).mpr ⟨hrecord, hheight⟩)
    unfold auditRecord at hbooked
    rw [hdecode, ok_bind] at hbooked
    obtain ⟨entry, hentry, rfl⟩ := List.mem_map.mp ((auditBlock_parties hbooked x).mpr hx)
    exact ⟨entry, List.mem_flatten.mpr ⟨ls, hls, hentry⟩, rfl⟩

end Booked

/-- What of a transaction names its wallets. -/
structure AuditKey where
  id : Option Text
  senderPublicKey : Text
  typeGroup : UInt32
  type : UInt16
  recipientId : Option Text
  payees : List Text
  lock : Option Text
  deriving DecidableEq

def auditKey (tx : Transaction) : AuditKey where
  id := tx.id
  senderPublicKey := tx.senderPublicKey
  typeGroup := tx.typeGroup
  type := tx.type
  recipientId := tx.recipientId
  payees := tx.payments.map fun p => p.recipientId
  lock := lockId tx

/-- The stored record of a block names the wallets of the block, and a refund names its lock as
such. -/
structure Retold (E : Env) (b : Block) : Prop where
  back : ∀ record, encodeBlock E b = .ok record → ∃ d, decodeBlock E record = .ok d ∧
    d.height = b.height ∧ d.generatorPublicKey = b.generatorPublicKey ∧
    d.transactions.map auditKey = b.transactions.map auditKey
  refunds : ∀ tx ∈ b.transactions, tx.coreType = some .htlcRefund →
    (tx.asset.bind fun a => a.claim) = none

section Congr

variable {E : Env} {s s' : Store}

theorem txParties_congr {d tx : Transaction} (h : auditKey d = auditKey tx) :
    txParties E s d = txParties E s tx := by
  unfold auditKey at h
  simp only [AuditKey.mk.injEq] at h
  obtain ⟨-, hsender, hgroup, htype, hrecipient, hpayments, hlock⟩ := h
  have hcore : d.coreType = tx.coreType := by
    unfold Transaction.coreType
    rw [hgroup, htype]
  unfold txParties coreParties lockOf storedLock
  rw [hsender, hgroup, hcore, hrecipient, hpayments, hlock]

theorem burnedBy_congr {d b : Block} (hheight : d.height = b.height)
    (h : d.transactions.map auditKey = b.transactions.map auditKey) :
    burnedBy E d = burnedBy E b := by
  have hkinds : d.transactions.map (fun tx => (tx.typeGroup, tx.type)) =
      b.transactions.map fun tx => (tx.typeGroup, tx.type) := by
    have hmapped := congrArg (List.map fun k => (k.typeGroup, k.type)) h
    rwa [List.map_map, List.map_map] at hmapped
  have hinits : ∀ l : List Transaction,
      (l.filter fun t => t.typeGroup = typeGroupToken && t.type = 0).length =
        ((l.map fun tx => (tx.typeGroup, tx.type)).filter fun k =>
          k.1 = typeGroupToken && k.2 = 0).length := by
    intro l
    rw [List.filter_map, List.length_map]
    rfl
  unfold burnedBy
  rw [hinits, hinits, hkinds, hheight]

theorem blockParties_congr {d b : Block} (hheight : d.height = b.height)
    (hgenerator : d.generatorPublicKey = b.generatorPublicKey)
    (h : d.transactions.map auditKey = b.transactions.map auditKey) :
    blockParties E s d = blockParties E s b := by
  have hsame : d.transactions.flatMap (txParties E s) = b.transactions.flatMap (txParties E s) := by
    generalize d.transactions = l at h
    generalize b.transactions = l' at h
    induction l generalizing l' with
    | nil =>
        rw [List.map_nil, eq_comm, List.map_eq_nil_iff] at h
        rw [h]
    | cons tx rest ih =>
        cases l' with
        | nil => cases h
        | cons tx' rest' =>
            obtain ⟨hfirst, hrest⟩ := List.cons.inj h
            rw [List.flatMap_cons, List.flatMap_cons, txParties_congr hfirst, ih rest' hrest]
  unfold blockParties
  rw [burnedBy_congr hheight h, hgenerator, hsame]

theorem storedLock_congr {tx : Transaction}
    (h : ∀ id, lockId tx = some id → s'.getTransaction E id = s.getTransaction E id) :
    storedLock E s' tx = storedLock E s tx := by
  unfold storedLock
  cases hid : lockId tx with
  | none => rfl
  | some id => exact h id hid

/-- The same stored locks give the same bookings. -/
theorem auditTx_congr {tx : Transaction}
    (h : ∀ id, lockId tx = some id → s'.getTransaction E id = s.getTransaction E id) :
    auditTx E s' tx = auditTx E s tx := by
  unfold auditTx coreReceived settlement
  rw [storedLock_congr h]

theorem txParties_stays {tx : Transaction}
    (h : ∀ id, lockId tx = some id → s'.getTransaction E id = s.getTransaction E id) :
    txParties E s' tx = txParties E s tx := by
  unfold txParties coreParties lockOf
  rw [storedLock_congr h]

end Congr

/-- What the audit compares of a wallet. -/
def figures (w : WalletState) : Int × Nat × Bool :=
  (w.balance, w.nonce, w.username.isSome || w.producedBlocks > 0)

/-- A delta that changes nothing that the audit compares. -/
structure Still (d : WalletDelta) : Prop where
  balance : d.balance = 0
  nonce : d.nonce = 0
  username : d.username = none
  produced : d.producedBlocks = 0

theorem Still.figures {d : WalletDelta} (h : Still d) {w w' : WalletState}
    (happly : w.apply d = .ok w') : figures w' = figures w := by
  obtain ⟨-, -, issued, tokens, -, -, rfl⟩ := WalletState.apply_eq_ok happly
  unfold Audit.figures
  simp only [h.balance, h.nonce, h.username, h.produced, add_zero, Option.none_or]

/-- A change that is no payment, counts no transaction and registers no name. -/
def Quiet (op : Op) : Prop := op.payment = none ∧ op.nonces = 0 ∧ op.name = none

theorem Still.apply {op : Op} (hquiet : Quiet op) {d : WalletDelta} (h : Still d) :
    Still (op.apply d) := by
  obtain ⟨hpay, hnonce, hname⟩ := hquiet
  refine ⟨?_, ?_, ?_, ?_⟩
  · rw [Op.apply_balance, hpay, h.balance]
    rfl
  · rw [Op.apply_nonce, hnonce, h.nonce]
  · rw [Op.apply_username, hname, h.username]
    rfl
  · cases op with
    | forge block burned => cases hpay
    | _ => exact h.produced

theorem Still.run {ds : Deltas} {ops : Ops} {x : Text} (hquiet : ∀ o ∈ ops, o.1 = x → Quiet o.2)
    (h : Still (ds.get x)) : Still ((ds.run ops).get x) := by
  induction ops generalizing ds with
  | nil => exact h
  | cons o rest ih =>
      rw [Deltas.run_cons]
      refine ih (fun o' ho' => hquiet o' (List.mem_cons_of_mem o ho')) ?_
      rw [Deltas.get_upd]
      split_ifs with hx
      · rw [← hx] at h
        exact h.apply (hquiet o List.mem_cons_self hx)
      · exact h

section Changed

variable {E : Env} {s s' : Store} {batch : List Block} {block : Block} {index : Nat}
  {tx : Transaction} {sender : Text} {ds : Deltas} {ops : Ops}

/-- The lock that a transaction settles is stored afterwards. -/
def LocksStored (E : Env) (s : Store) (batch : List Block) (s' : Store) : Prop :=
  ∀ id lock, findLock E s batch id = .ok (some lock) → ∃ stored,
    s'.getTransaction E id = .ok (some stored) ∧ auditKey stored = auditKey lock

theorem lockOf_of_settled (hstored : LocksStored E s batch s')
    (hrefund : tx.coreType = some .htlcRefund → (tx.asset.bind fun a => a.claim) = none)
    {id : Text} {lock : Transaction} (h : Accumulate.settled E s batch tx = some (id, lock)) :
    ∃ stored, lockOf E s' tx = some stored ∧ auditKey stored = auditKey lock := by
  unfold Accumulate.settled at h
  obtain ⟨named, hnamed, h⟩ := Option.bind_eq_some_iff.mp h
  obtain ⟨found, hfound, hpair⟩ := Option.map_eq_some_iff.mp h
  obtain ⟨rfl, rfl⟩ := Prod.mk.inj hpair
  have hlock : findLock E s batch named = .ok (some found) := by
    cases hresult : findLock E s batch named with
    | error e =>
        rw [hresult] at hfound
        cases hfound
    | ok result =>
        rw [hresult] at hfound
        cases result with
        | none => cases hfound
        | some t => rw [← Option.some.inj hfound]
  obtain ⟨stored, hget, hkey⟩ := hstored named found hlock
  refine ⟨stored, ?_, hkey⟩
  have hid : lockId tx = some named := by
    unfold Accumulate.settledId at hnamed
    unfold lockId
    split at hnamed
    · rw [hnamed]
      rfl
    · rename_i htype
      rw [hrefund htype, hnamed]
      rfl
    · cases hnamed
  unfold lockOf storedLock
  rw [hid]
  simp only [hget]
  rfl

/-- The payments of a core transaction go to its sender or to wallets that the audit books. -/
theorem corePayments_parties
    (hrefund : tx.coreType = some .htlcRefund → (tx.asset.bind fun a => a.claim) = none)
    (hstored : LocksStored E s batch s') {p : Text × Int}
    (hp : p ∈ Accumulate.corePayments E s batch tx sender) :
    p.1 = sender ∨ tx.typeGroup = typeGroupCore ∧ p.1 ∈ coreParties E s' tx := by
  have hgroup : ∀ type, tx.coreType = some type → tx.typeGroup = typeGroupCore := by
    intro type htype
    by_contra hother
    rw [Accumulate.coreType_none_of_group hother] at htype
    cases htype
  unfold Accumulate.corePayments at hp
  split at hp
  · rename_i htype
    obtain ⟨r, hr, rfl⟩ := List.mem_map.mp hp
    refine .inr ⟨hgroup _ htype, ?_⟩
    unfold coreParties
    rw [htype]
    exact hr
  · rename_i htype
    obtain ⟨payment, hpayment, hp⟩ := List.mem_flatMap.mp hp
    simp only [List.mem_cons, List.not_mem_nil, or_false] at hp
    rcases hp with rfl | rfl
    · refine .inr ⟨hgroup _ htype, ?_⟩
      unfold coreParties
      rw [htype]
      exact List.mem_map_of_mem hpayment
    · exact .inl rfl
  · obtain ⟨⟨id, lock⟩, hsettled, hp⟩ := List.mem_flatMap.mp hp
    obtain ⟨payee, hpayee, rfl⟩ := List.mem_map.mp hp
    rw [Option.mem_toList] at hsettled hpayee
    obtain ⟨stored, hof, hkey⟩ := lockOf_of_settled hstored hrefund hsettled
    unfold auditKey at hkey
    simp only [AuditKey.mk.injEq] at hkey
    obtain ⟨-, hkeySender, -, -, hkeyRecipient, -, -⟩ := hkey
    unfold Accumulate.lockPayee at hpayee
    right
    by_cases hclaim : tx.coreType = some .htlcClaim
    · rw [if_pos hclaim] at hpayee
      refine ⟨hgroup _ hclaim, ?_⟩
      unfold coreParties
      rw [hclaim, hof]
      simp only at hpayee
      simp [hkeyRecipient, hpayee]
    · have hrefunded : tx.coreType = some .htlcRefund := by
        by_contra hother
        rw [Accumulate.settled_of_ne hclaim hother] at hsettled
        cases hsettled
      rw [if_neg hclaim] at hpayee
      refine ⟨hgroup _ hrefunded, ?_⟩
      unfold coreParties
      rw [hrefunded, hof]
      simp only at hpayee
      simp [hkeySender, hpayee]

/-- The payments of a transaction that is no purchase go to wallets that the audit books. -/
theorem effectPayments_parties (hpurchase : isPurchase tx = false)
    (hsender : E.addressOf tx.senderPublicKey = .ok sender)
    (hrefund : tx.coreType = some .htlcRefund → (tx.asset.bind fun a => a.claim) = none)
    (hstored : LocksStored E s batch s') {p : Text × Int}
    (hp : p ∈ Accumulate.effectPayments E s batch tx sender ds) : p.1 ∈ txParties E s' tx := by
  unfold isPurchase at hpurchase
  obtain ⟨hsobj, htoken⟩ := Bool.or_eq_false_iff.mp hpurchase
  have hself : sender ∈ txParties E s' tx := by
    unfold txParties
    rw [hsender]
    exact List.mem_append_left _ (List.mem_singleton.mpr rfl)
  unfold Accumulate.effectPayments at hp
  split at hp
  · rename_i e hasset
    unfold Accumulate.sobjPayments at hp
    split_ifs at hp with hbuy
    · rw [hasset] at hsobj
      simp [hbuy.2] at hsobj
    · cases hp
  · split at hp
    · rename_i type a htype _
      unfold Accumulate.tokenPayments at hp
      split at hp
      · simp [htype] at htoken
      · cases hp
    · rcases corePayments_parties hrefund hstored hp with rfl | ⟨hcore, hmem⟩
      · exact hself
      · unfold txParties
        rw [if_pos hcore]
        exact List.mem_append_right _ hmem

/-- The changes of a transaction that is no purchase are quiet for the wallets that the audit does
not book. -/
theorem effect_quiet (h : Accumulate.effect E s batch block index tx sender ds = .ok ops)
    (hpurchase : isPurchase tx = false) (hsender : E.addressOf tx.senderPublicKey = .ok sender)
    (hrefund : tx.coreType = some .htlcRefund → (tx.asset.bind fun a => a.claim) = none)
    (hstored : LocksStored E s batch s') {x : Text} (hx : x ∉ txParties E s' tx) :
    ∀ o ∈ ops, o.1 = x → Quiet o.2 := by
  rintro o ho rfl
  have hmoves := Accumulate.effect_moves h
  refine ⟨?_, hmoves.nonces o ho, ?_⟩
  · cases hpay : o.2.payment with
    | none => rfl
    | some v =>
        exfalso
        have hposted : (o.1, v) ∈ ops.postings :=
          List.mem_filterMap.mpr ⟨o, ho, by rw [hpay]; rfl⟩
        rw [hmoves.postings] at hposted
        exact hx (effectPayments_parties hpurchase hsender hrefund hstored hposted)
  · cases hname : o.2.name with
    | none => rfl
    | some u =>
        exfalso
        obtain ⟨howner, -⟩ := Accumulate.effect_named h o ho u hname
        refine hx ?_
        unfold txParties
        rw [hsender, howner]
        exact List.mem_append_left _ (List.mem_singleton.mpr rfl)

/-- The deltas of a sub-batch without purchases keep the figures of every wallet that the audit
does not book. -/
theorem batchDeltas_still (h : batchDeltas E s batch = .ok ds)
    (hpurchase : ∀ b ∈ batch, ∀ tx ∈ b.transactions, isPurchase tx = false)
    (hrefund : ∀ b ∈ batch, ∀ tx ∈ b.transactions, tx.coreType = some .htlcRefund →
      (tx.asset.bind fun a => a.claim) = none)
    (hstored : LocksStored E s batch s') {x : Text} (hx : ∀ b ∈ batch, x ∉ blockParties E s' b) :
    Still (ds.get x) := by
  refine Accumulate.batchDeltas_induction (R := fun _ _ ds => Still (ds.get x)) ?_ ?_ ?_ h
  · refine ⟨?_, ?_, ?_, ?_⟩ <;> simp
  · intro _ _ ds b ops hb hforger hstill
    obtain ⟨generator, hgenerator, rfl⟩ := Accumulate.forger_eq_ok hforger
    refine hstill.run ?_
    rintro o ho rfl
    refine absurd ?_ (hx b hb)
    unfold blockParties
    refine List.mem_append_left _ ?_
    rw [hgenerator]
    rcases List.mem_append.mp ho with hburn | hforge
    · refine List.mem_append_left _ ?_
      split_ifs at hburn ⊢ with hburned
      · rw [List.mem_singleton.mp hburn]
        exact List.mem_singleton.mpr rfl
      · cases hburn
    · rw [List.mem_singleton.mp hforge]
      exact List.mem_append_right _ (List.mem_singleton.mpr rfl)
  · intro _ _ ds b tx index address ops hb htx haddress heffect hstill
    have hother : x ∉ txParties E s' tx := by
      refine fun hmem => hx b hb ?_
      unfold blockParties
      exact List.mem_append_right _ (List.mem_flatMap.mpr ⟨tx, htx, hmem⟩)
    refine hstill.run ?_
    rintro o ho rfl
    rcases List.mem_cons.mp ho with rfl | ho
    · refine absurd ?_ hother
      unfold txParties
      rw [haddress]
      exact List.mem_append_left _ (List.mem_singleton.mpr rfl)
    · exact effect_quiet heffect (hpurchase b hb tx htx) haddress (hrefund b hb tx htx) hstored
        hother o ho rfl

/-- A commit without purchases keeps the figures of every wallet that the audit does not book. -/
theorem figures_of_committed {prepared : List (Block × List Bytes)}
    (c : Store.Committed E s prepared s')
    (hpurchase : ∀ p ∈ prepared, ∀ tx ∈ p.1.transactions, isPurchase tx = false)
    (hrefund : ∀ p ∈ prepared, ∀ tx ∈ p.1.transactions, tx.coreType = some .htlcRefund →
      (tx.asset.bind fun a => a.claim) = none)
    (hstored : LocksStored E s (prepared.map fun p => p.1) s') {x : Text}
    (hx : ∀ p ∈ prepared, x ∉ blockParties E s' p.1) :
    figures (s'.walletAt x) = figures (s.walletAt x) := by
  have hstill : Still (c.ds.get x) := by
    refine batchDeltas_still c.deltas ?_ ?_ hstored ?_
    · rintro b hb
      obtain ⟨p, hp, rfl⟩ := List.mem_map.mp hb
      exact hpurchase p hp
    · rintro b hb
      obtain ⟨p, hp, rfl⟩ := List.mem_map.mp hb
      exact hrefund p hp
    · rintro b hb
      obtain ⟨p, hp, rfl⟩ := List.mem_map.mp hb
      exact hx p hp
  have hwallet : s'.getWallet x = c.wallets.getWallet x := by
    unfold Store.getWallet
    rw [c.sameLedger.wallets]
  unfold Store.walletAt
  rw [hwallet]
  rcases Store.writeEntries_wallet c.written x with ⟨-, hget⟩ | ⟨d, w, hd, happly, hget⟩
  · rw [hget]
  · rw [hget]
    unfold Deltas.get at hstill
    rw [hd] at hstill
    exact Still.figures hstill happly

end Changed

/-- The stored transaction under an id has the key of the first one of its block. -/
theorem find?_auditKey (l : List Transaction) (id : Text) :
    (l.find? (Store.hasId id)).map auditKey = (l.map auditKey).find? fun k => k.id = some id := by
  rw [List.find?_map]
  rfl

/-- The locks that a sub-batch settles are stored after it. -/
theorem locksStored {E : Env} {s s' : Store} {blocks : List Block}
    {prepared : List (Block × List Bytes)} (hgrown : Chain.Grown s prepared s')
    (h : Chain.Listed E s) (h' : Chain.Listed E s')
    (hprepared : blocks.mapM (prepareBlock E) = .ok prepared)
    (hback : ∀ p ∈ prepared, Store.ReadsBack E p.1) (hretold : ∀ p ∈ prepared, Retold E p.1) :
    LocksStored E s (prepared.map fun p => p.1) s' := by
  intro id lock hlock
  unfold findLock at hlock
  split at hlock
  · rename_i found hfound
    obtain rfl := Option.some.inj (Except.ok.inj hlock)
    obtain ⟨b, hb, hfind⟩ := List.exists_of_findSome?_eq_some hfound
    obtain ⟨p, hp, rfl⟩ := List.mem_map.mp hb
    obtain ⟨own, -, hown⟩ := mapM_ok_mem hprepared p hp
    obtain ⟨d, hdecode, -, -, hkeys⟩ := (hretold p hp).back p.2 (prepareBlock_ok hown).1
    have hd : (p.1.height, d) ∈ s'.storedBlocks E :=
      Store.mem_storedBlocks.mpr ⟨p.2, (hgrown.written p hp).1, hdecode⟩
    have hsame := find?_auditKey d.transactions id
    rw [hkeys, ← find?_auditKey, hfind, Option.map_some] at hsame
    obtain ⟨stored, hstored, hkey⟩ := Option.map_eq_some_iff.mp hsame
    refine ⟨stored, ?_, hkey⟩
    have hid : stored.id = some id := by
      simpa [Store.hasId] using List.find?_some hstored
    rw [h'.getTransaction hd (List.mem_of_find?_eq_some hstored) hid, hstored]
  · rename_i hnone
    refine ⟨lock, ?_, rfl⟩
    rw [hgrown.getTransaction_eq h h' hprepared hback, hlock]
    rintro p hp tx htx hid
    have hfind := List.findSome?_eq_none_iff.mp hnone p.1 (List.mem_map_of_mem hp)
    exact absurd (by simpa [Store.hasId] using hid) (List.find?_eq_none.mp hfind tx htx)

end Audit

end SthCore
