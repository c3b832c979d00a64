import SthCore.Chain.Run
import SthCore.Storage.Effects
import SthCore.Crypto.Signing

/-!
Conservation of STH.  Balances move by the payments of the transactions and by
the entries of the forgers; what a sender loses without a payee sits in the lock
it opens, and comes back out when the lock is settled.
-/

namespace SthCore

open SthCore.Lib

namespace Store

/-- All balances and the amounts of all open locks. -/
def sthTotal (s : Store) : Int :=
  OrderedMap.total (fun _ w => WalletState.balance w) s.wallets +
    OrderedMap.total (fun _ l => (LockRecord.amount l).toNat) s.locks

end Store

namespace Chain

open Accumulate

/-- The ids of the locks that a list of blocks opens. -/
def openedIds (blocks : List Block) : List Text :=
  (placed blocks).flatMap fun p => (opened p.1 p.2).toList.map fun l => l.lockId

/-- The ids under which the claims and refunds of a list of blocks find a
transaction. -/
def settledIds (E : Env) (s : Store) (blocks : List Block) : List Text :=
  (placed blocks).flatMap fun p => (settled E s blocks p.2).toList.map fun q => q.1

/-- The amount of a transaction goes to a recipient or into a lock. -/
abbrev AmountUsed (block : Block) (tx : Transaction) : Prop :=
  tx.amount = 0 ∨ (tx.coreType = some .transfer ∧ tx.recipientId.isSome) ∨ (opened block tx).isSome

/-- A claim or refund pays out an open lock: what it finds agrees with it. -/
abbrev PaysOpenLock (E : Env) (s : Store) (blocks : List Block) (tx : Transaction) : Prop :=
  ∀ q ∈ settled E s blocks tx, (lockPayee E tx q.2).isSome ∧
    ∃ l ∈ s.getLock q.1, l.amount = q.2.amount

/-- Every lock is opened once and settled at most once, not in the sub-batch
that opens it, and no amount is lost. -/
structure KeepsLocks (E : Env) (s : Store) (blocks : List Block) : Prop where
  amounts : ∀ b ∈ blocks, ∀ tx ∈ b.transactions, AmountUsed b tx
  pays : ∀ b ∈ blocks, ∀ tx ∈ b.transactions, PaysOpenLock E s blocks tx
  settled : (settledIds E s blocks).Nodup
  opened : (openedIds blocks).Nodup
  fresh : ∀ id ∈ openedIds blocks, s.getLock id = none

instance (E : Env) (s : Store) (blocks : List Block) : Decidable (KeepsLocks E s blocks) :=
  decidable_of_iff
    ((∀ b ∈ blocks, ∀ tx ∈ b.transactions, AmountUsed b tx ∧ PaysOpenLock E s blocks tx) ∧
      (settledIds E s blocks).Nodup ∧ (openedIds blocks).Nodup ∧
      ∀ id ∈ openedIds blocks, (s.getLock id).isNone)
    ⟨fun ⟨htxs, hsettled, hopened, hfresh⟩ =>
      ⟨fun b hb tx htx => (htxs b hb tx htx).1, fun b hb tx htx => (htxs b hb tx htx).2, hsettled,
        hopened, fun id hid => Option.isNone_iff_eq_none.mp (hfresh id hid)⟩,
    fun h =>
      ⟨fun b hb tx htx => ⟨h.amounts b hb tx htx, h.pays b hb tx htx⟩, h.settled, h.opened,
        fun id hid => Option.isNone_iff_eq_none.mpr (h.fresh id hid)⟩⟩

/-- The sum of a quantity over the opened locks of a list of transactions. -/
def openedAmount (done : List (Block × Transaction)) : Int :=
  (done.flatMap fun p => (opened p.1 p.2).toList.map fun l => (l.amount.toNat : Int)).sum

/-- The sum of what the claims and refunds of a list of transactions find. -/
def settledAmount (E : Env) (s : Store) (batch : List Block) (done : List (Block × Transaction)) :
    Int :=
  (done.flatMap fun p => (settled E s batch p.2).toList.map fun q => (q.2.amount.toNat : Int)).sum

section Payments

variable {E : Env} {s : Store} {batch : List Block} {block : Block} {tx : Transaction}
  {sender : Text} {ds : Deltas}

theorem opened_amount {l : LockRecord} (h : opened block tx = some l) : l.amount = tx.amount := by
  unfold opened at h
  split_ifs at h
  unfold lockRecord at h
  cases hasset : tx.asset.bind fun a => a.lock with
  | none => simp [hasset] at h
  | some lock =>
      cases hid : tx.id with
      | none => simp [hasset, hid] at h
      | some id =>
          cases hr : tx.recipientId with
          | none => simp [hasset, hid, hr] at h
          | some r =>
              simp only [hasset, hid, hr, Option.bind_eq_bind, Option.bind_some, Option.pure_def,
                Option.some.injEq] at h
              rw [← h]

theorem coreType_of_opened (h : (opened block tx).isSome) : tx.coreType = some .htlcLock := by
  unfold opened at h
  split_ifs at h with htype
  · exact htype
  · simp at h

theorem total_salePayments (e : SmartObjectAsset) :
    (salePayments E s sender e ds).total = 0 := by
  unfold salePayments
  split
  · rfl
  · split
    · rfl
    · split
      · rfl
      · split_ifs
        · exact Postings.total_move _ _ _
        · rfl

theorem total_tokenPayments (type : TokenType) (a : TokenAsset) :
    (tokenPayments s sender type a ds).total = 0 := by
  unfold tokenPayments
  split
  · exact Postings.total_move _ _ _
  · rfl

theorem total_multiPayments (payments : List Payment) :
    Postings.total (payments.flatMap fun p =>
      [(p.recipientId, (p.amount.toNat : Int)), (sender, -(p.amount.toNat : Int))]) = 0 := by
  induction payments with
  | nil => rfl
  | cons p rest ih =>
      rw [List.flatMap_cons, Postings.total_append, ih]
      simp

/-- A transaction of another group carries no amount. -/
theorem amount_of_no_core (hamount : AmountUsed block tx) (h : tx.coreType = none) :
    tx.amount = 0 := by
  rcases hamount with hzero | ⟨htype, -⟩ | hopened
  · exact hzero
  · simp [h] at htype
  · simp [coreType_of_opened hopened] at h

theorem total_corePayments (hamount : AmountUsed block tx) (hpays : PaysOpenLock E s batch tx) :
    (corePayments E s batch tx sender).total =
      tx.amount.toNat - openedAmount [(block, tx)] + settledAmount E s batch [(block, tx)] := by
  have hopenedNone (h : tx.coreType ≠ some .htlcLock) : openedAmount [(block, tx)] = 0 := by
    have hopened : opened block tx = none := if_neg h
    simp [openedAmount, hopened]
  have hsettledNone (h : tx.coreType ≠ some .htlcClaim) (h' : tx.coreType ≠ some .htlcRefund) :
      settledAmount E s batch [(block, tx)] = 0 := by
    simp [settledAmount, settled_of_ne h h']
  by_cases htransfer : tx.coreType = some .transfer
  · rw [hopenedNone (by simp [htransfer]), hsettledNone (by simp [htransfer]) (by simp [htransfer]),
      corePayments, htransfer]
    rcases hamount with hzero | ⟨-, hrecipient⟩ | hopened
    · cases tx.recipientId <;> simp [hzero]
    · obtain ⟨r, hr⟩ := Option.isSome_iff_exists.mp hrecipient
      simp [hr]
    · simp [coreType_of_opened hopened] at htransfer
  by_cases hmulti : tx.coreType = some .multiPayment
  · have hzero : tx.amount = 0 := by
      rcases hamount with hzero | ⟨htype, -⟩ | hopened
      · exact hzero
      · exact absurd htype htransfer
      · simp [coreType_of_opened hopened] at hmulti
    rw [hopenedNone (by simp [hmulti]), hsettledNone (by simp [hmulti]) (by simp [hmulti]),
      corePayments, hmulti, total_multiPayments]
    simp [hzero]
  have hpayments : (corePayments E s batch tx sender).total =
      settledAmount E s batch [(block, tx)] := by
    have hbranch : corePayments E s batch tx sender =
        (settled E s batch tx).toList.flatMap fun p =>
          (lockPayee E tx p.2).toList.map fun payee => (payee, (p.2.amount.toNat : Int)) := by
      unfold corePayments
      split
      · contradiction
      · contradiction
      · rfl
    rw [hbranch, settledAmount]
    cases hsettled : settled E s batch tx with
    | none => simp [hsettled]
    | some q =>
        obtain ⟨payee, hpayee⟩ := Option.isSome_iff_exists.mp (hpays q hsettled).1
        simp [hsettled, hpayee]
  have hamounts : (tx.amount.toNat : Int) = openedAmount [(block, tx)] := by
    cases hopened : opened block tx with
    | some l => simp [openedAmount, hopened, opened_amount hopened]
    | none =>
        rcases hamount with hzero | ⟨htype, -⟩ | hsome
        · simp [openedAmount, hopened, hzero]
        · exact absurd htype htransfer
        · simp [hopened] at hsome
  rw [hpayments, hamounts]
  ring

/-- Payments move the amount of the transaction, less what is locked, plus what
is unlocked. -/
theorem total_effectPayments (hamount : AmountUsed block tx) (hpays : PaysOpenLock E s batch tx) :
    (effectPayments E s batch tx sender ds).total =
      tx.amount.toNat - openedAmount [(block, tx)] + settledAmount E s batch [(block, tx)] := by
  have hno (h : tx.coreType = none) :
      (tx.amount.toNat : Int) - openedAmount [(block, tx)] + settledAmount E s batch [(block, tx)] =
        0 := by
    have hopened : opened block tx = none := if_neg (by simp [h])
    have hsettled : settled E s batch tx = none := settled_of_ne (by simp [h]) (by simp [h])
    simp [amount_of_no_core hamount h, openedAmount, settledAmount, hopened, hsettled]
  unfold effectPayments
  cases hsobj : tx.sobjAsset with
  | some e =>
      have hcore : tx.coreType = none := by
        refine coreType_none_of_group fun hgroup => ?_
        simp [Transaction.sobjAsset, Transaction.isSobj, hgroup, typeGroupCore, typeGroupSobj]
          at hsobj
      simp only [hno hcore, sobjPayments]
      split_ifs
      · exact total_salePayments e
      · rfl
  | none =>
      dsimp only
      split
      · rename_i type a htype hasset
        have hcore : tx.coreType = none := by
          refine coreType_none_of_group fun hgroup => ?_
          simp [Transaction.tokenType, hgroup, typeGroupCore, typeGroupToken] at htype
        rw [hno hcore]
        exact total_tokenPayments type a
      · exact total_corePayments hamount hpays

end Payments

/-- The fees of verified blocks are those of their transactions. -/
theorem sum_fees {E : Env} {blocks : List Block} (hv : ∀ b ∈ blocks, Verified E b) :
    (blocks.map fun b => (b.reward.toNat + b.totalFee.toNat : Int)).sum -
      ((placed blocks).map fun p => (p.2.fee.toNat : Int)).sum =
        (blocks.map fun b => (b.reward.toNat : Int)).sum := by
  induction blocks with
  | nil => rfl
  | cons b rest ih =>
      have hrest := ih fun b' hb' => hv b' (List.mem_cons_of_mem b hb')
      have hfees := (hv b List.mem_cons_self).fees
      have hcast : (b.transactions.map fun tx => (tx.fee.toNat : Int)).sum = b.totalFee.toNat := by
        rw [← hfees]
        push_cast
        simp [Function.comp_def]
      have hplaced : placed (b :: rest) =
          (b.transactions.map fun tx => (b, tx)) ++ placed rest := rfl
      rw [hplaced, List.map_append, List.sum_append, List.map_map, List.map_cons, List.sum_cons,
        List.map_cons, List.sum_cons, ← hrest]
      simp only [Function.comp_def, hcast]
      ring

section Step

variable {E : Env} {s : Store} {blocks : List Block} {ds : Deltas}

/-- What the deltas of a sub-batch are known to move. -/
structure Moved (E : Env) (s : Store) (batch forged : List Block)
    (done : List (Block × Transaction)) (ds : Deltas) : Prop where
  posts : ∃ p, Posts (Deltas.bal ∅) ds.bal p ∧ p.total =
    (forged.map fun b => (b.reward.toNat + b.totalFee.toNat : Int)).sum -
      (done.map fun p => (p.2.fee.toNat : Int)).sum - openedAmount done +
      settledAmount E s batch done
  opened : (Deltas.collected WalletDelta.locksAdded ds).Perm
    (done.flatMap fun p => (opened p.1 p.2).toList)
  settled : (Deltas.collected WalletDelta.locksRemoved ds).Perm
    (done.flatMap fun p => (settled E s batch p.2).toList.map fun q => q.1)

theorem openedAmount_append (l l' : List (Block × Transaction)) :
    openedAmount (l ++ l') = openedAmount l + openedAmount l' := by
  simp [openedAmount]

theorem settledAmount_append (batch : List Block) (l l' : List (Block × Transaction)) :
    settledAmount E s batch (l ++ l') = settledAmount E s batch l + settledAmount E s batch l' := by
  simp [settledAmount]

theorem collected_locksAdded (ds : Deltas) (ops : Ops) :
    (Deltas.collected WalletDelta.locksAdded (ds.run ops)).Perm
      (Deltas.collected WalletDelta.locksAdded ds ++ ops.locksAdded) :=
  Deltas.collected_run _ rfl Op.locksAdded Op.apply_locksAdded ds ops

theorem collected_locksRemoved (ds : Deltas) (ops : Ops) :
    (Deltas.collected WalletDelta.locksRemoved (ds.run ops)).Perm
      (Deltas.collected WalletDelta.locksRemoved ds ++ ops.locksRemoved) :=
  Deltas.collected_run _ rfl Op.locksRemoved Op.apply_locksRemoved ds ops

/-- The entries of a forger: reward and fees, and no lock. -/
theorem forger_moves {block : Block} {ops : Ops} (h : forger E block = .ok ops) :
    (ops.postings).total = block.reward.toNat + block.totalFee.toNat ∧ ops.locksAdded = [] ∧
      ops.locksRemoved = [] := by
  obtain ⟨generator, -, rfl⟩ := forger_eq_ok h
  split_ifs
  · refine ⟨?_, rfl, rfl⟩
    simp [Ops.postings, Op.payment]
  · refine ⟨?_, rfl, rfl⟩
    have hzero : burnedBy E block = 0 := by
      rename_i hburned
      simpa using hburned
    simp [Ops.postings, Op.payment, hzero]

theorem moved_of_batchDeltas (hkeeps : KeepsLocks E s blocks)
    (h : batchDeltas E s blocks = .ok ds) : Moved E s blocks blocks (placed blocks) ds := by
  refine batchDeltas_induction (R := Moved E s blocks) ?_ ?_ ?_ h
  · exact ⟨⟨[], Posts.refl _, rfl⟩, by simp [Deltas.collected], by simp [Deltas.collected]⟩
  · intro forged done ds block ops _ hops hR
    obtain ⟨p, hp, htotal⟩ := hR.posts
    obtain ⟨hpost, hadd, hrem⟩ := forger_moves hops
    refine ⟨⟨_, hp.trans (Ops.run_posts ds ops), ?_⟩, ?_, ?_⟩
    · rw [Postings.total_append, htotal, hpost, List.map_append, List.sum_append]
      simp
      ring
    · have hperm := collected_locksAdded ds ops
      rw [hadd, List.append_nil] at hperm
      exact hperm.trans hR.opened
    · have hperm := collected_locksRemoved ds ops
      rw [hrem, List.append_nil] at hperm
      exact hperm.trans hR.settled
  · intro forged done ds block tx index address ops hb htx _ hops hR
    obtain ⟨p, hp, htotal⟩ := hR.posts
    have hmoves := effect_moves hops
    have hspend : Ops.postings ((address, Op.spend tx) :: ops) =
        (address, -(tx.amount.toNat + tx.fee.toNat : Int)) :: ops.postings := rfl
    refine ⟨⟨_, hp.trans (Ops.run_posts ds _), ?_⟩, ?_, ?_⟩
    · rw [Postings.total_append, htotal, hspend, Postings.total_cons, hmoves.postings,
        total_effectPayments (hkeeps.amounts block hb tx htx) (hkeeps.pays block hb tx htx),
        openedAmount_append, settledAmount_append, List.map_append, List.sum_append]
      simp
      ring
    · refine (collected_locksAdded ds _).trans ?_
      rw [List.flatMap_append]
      refine hR.opened.append ?_
      have hadded : Ops.locksAdded ((address, Op.spend tx) :: ops) = ops.locksAdded := rfl
      rw [hadded, hmoves.locksAdded]
      simp
    · refine (collected_locksRemoved ds _).trans ?_
      rw [List.flatMap_append]
      refine hR.settled.append ?_
      have hremoved : Ops.locksRemoved ((address, Op.spend tx) :: ops) = ops.locksRemoved := rfl
      rw [hremoved, hmoves.locksRemoved]
      simp

/-- The edits of the lock index that the deltas ask for, in writing order. -/
def lockEdits (ds : Deltas) : List (Edit Text LockRecord) :=
  ds.toList.flatMap fun e =>
    Edit.drops e.2.locksRemoved ++ Edit.puts (e.2.locksAdded.map fun l => (l.lockId, l))

theorem writeWallet_locks {s s' : Store} {a : Text} {d : WalletDelta}
    (h : s.writeWallet a d = .ok s') : s'.locks = Store.indexLocks s.locks d := by
  obtain ⟨w, -, rfl⟩ := Store.writeWallet_eq_ok h
  have hvotes : (s.adjustVotes (voteWeight (s.getWallet a)) (voteWeight (some w))).locks = s.locks := by
    rw [Store.adjustVotes_eq]
  simp [Store.writeIndexes, Store.putWallet, hvotes]

theorem writeEntries_locks {s s' : Store} (h : s.writeEntries ds.toList = .ok s') :
    s'.locks = Edit.run s.locks (lockEdits ds) := by
  have hfold := Store.writeEntries_family (fun s => s.locks)
    (fun m (e : Text × WalletDelta) => Store.indexLocks m e.2)
    (fun _ _ _ _ hw => writeWallet_locks hw) h
  rw [hfold, lockEdits, Edit.run, List.foldl_flatMap]
  congr 1
  funext m e
  rw [List.foldl_append]
  change _ = Edit.run (Edit.run m (Edit.drops e.2.locksRemoved)) (Edit.puts _)
  rw [Edit.run_drops, Edit.run_puts, List.foldl_map]
  rfl

/-- The edits are those of all removals and all additions. -/
theorem lockEdits_perm (ds : Deltas) :
    (lockEdits ds).Perm (Edit.drops (Deltas.collected WalletDelta.locksRemoved ds) ++
      Edit.puts ((Deltas.collected WalletDelta.locksAdded ds).map fun l => (l.lockId, l))) := by
  have hdrops : Edit.drops (Deltas.collected WalletDelta.locksRemoved ds) =
      ds.toList.flatMap fun e => (Edit.drops e.2.locksRemoved : List (Edit Text LockRecord)) := by
    simp [Edit.drops, Deltas.collected, List.map_flatMap]
  have hputs : Edit.puts ((Deltas.collected WalletDelta.locksAdded ds).map fun l => (l.lockId, l)) =
      ds.toList.flatMap fun e => Edit.puts (e.2.locksAdded.map fun l => (l.lockId, l)) := by
    simp [Edit.puts, Deltas.collected, List.map_flatMap]
  rw [hdrops, hputs]
  exact (List.flatMap_append_perm _ _ _).symm

/-- The amount of the open lock under an id, zero when there is none. -/
def lockValue (s : Store) (id : Text) : Int :=
  OrderedMap.value (fun _ l => ((LockRecord.amount l).toNat : Int)) s.locks id

/-- Settled locks were worth what their claims and refunds find. -/
theorem sum_settled_value (hkeeps : KeepsLocks E s blocks) :
    ((settledIds E s blocks).map (lockValue s)).sum = settledAmount E s blocks (placed blocks) := by
  have hone : ∀ p ∈ placed blocks,
      ((settled E s blocks p.2).toList.map fun q => q.1).map (lockValue s) =
        (settled E s blocks p.2).toList.map fun q => (q.2.amount.toNat : Int) := by
    rintro ⟨b, tx⟩ hp
    obtain ⟨hb, htx⟩ := mem_placed.mp hp
    cases hsettled : settled E s blocks tx with
    | none => simp
    | some q =>
        obtain ⟨-, l, hl, hamount⟩ := hkeeps.pays b hb tx htx q hsettled
        have hvalue : s.locks[q.1]? = some l := hl
        simp [lockValue, OrderedMap.value, hvalue, hamount]
  rw [settledIds, settledAmount, List.map_flatMap]
  congr 1
  exact List.flatMap_congr hone

theorem settledId_open (hkeeps : KeepsLocks E s blocks) {id : Text}
    (h : id ∈ settledIds E s blocks) : (s.getLock id).isSome := by
  obtain ⟨⟨b, tx⟩, hp, hid⟩ := List.mem_flatMap.mp h
  obtain ⟨hb, htx⟩ := mem_placed.mp hp
  obtain ⟨q, hq, rfl⟩ := List.mem_map.mp hid
  obtain ⟨-, l, hl, -⟩ := hkeeps.pays b hb tx htx q (Option.mem_toList.mp hq)
  simp [Option.mem_def.mp hl]

theorem openedIds_eq : openedIds blocks =
    ((placed blocks).flatMap fun p => (opened p.1 p.2).toList).map fun l => l.lockId := by
  simp [openedIds, List.map_flatMap]

/-- The open locks grow by what is opened and shrink by what is settled. -/
theorem total_locks {s' : Store} (hkeeps : KeepsLocks E s blocks)
    (hmoved : Moved E s blocks blocks (placed blocks) ds)
    (h : s.writeEntries ds.toList = .ok s') :
    OrderedMap.total (fun _ l => ((LockRecord.amount l).toNat : Int)) s'.locks =
      OrderedMap.total (fun _ l => ((LockRecord.amount l).toNat : Int)) s.locks +
        openedAmount (placed blocks) - settledAmount E s blocks (placed blocks) := by
  have hperm : (lockEdits ds).Perm (Edit.drops (settledIds E s blocks) ++
      Edit.puts (((placed blocks).flatMap fun p => (opened p.1 p.2).toList).map fun l =>
        (l.lockId, l))) :=
    (lockEdits_perm ds).trans ((hmoved.settled.map _).append ((hmoved.opened.map _).map _))
  have hnodup : ((lockEdits ds).map fun e => e.1).Nodup := by
    rw [(hperm.map fun e => e.1).nodup_iff, List.map_append, Edit.keys_drops, Edit.keys_puts,
      List.map_map]
    refine List.Nodup.append hkeeps.settled ?_ ?_
    · simpa [openedIds_eq, Function.comp_def] using hkeeps.opened
    · intro id hsettled hopened
      have hfresh : s.getLock id = none := by
        refine hkeeps.fresh id ?_
        simpa [openedIds_eq, Function.comp_def] using hopened
      have hopen := settledId_open hkeeps hsettled
      simp [hfresh] at hopen
  have hfresh : ∀ l ∈ (placed blocks).flatMap fun p => (opened p.1 p.2).toList,
      lockValue s l.lockId = 0 := by
    intro l hl
    have hnone : s.locks[l.lockId]? = none := by
      refine hkeeps.fresh l.lockId ?_
      rw [openedIds_eq]
      exact List.mem_map_of_mem hl
    simp [lockValue, OrderedMap.value, hnone]
  rw [writeEntries_locks h, Edit.total_run _ _ _ hnodup, (hperm.map _).sum_eq, List.map_append,
    List.sum_append]
  have hdrops : ((Edit.drops (settledIds E s blocks)).map fun (e : Edit Text LockRecord) =>
      e.2.elim 0 (fun l => ((LockRecord.amount l).toNat : Int)) - lockValue s e.1).sum =
        -settledAmount E s blocks (placed blocks) := by
    rw [← sum_settled_value hkeeps, Edit.drops, List.map_map]
    induction settledIds E s blocks with
    | nil => rfl
    | cons id rest ih =>
        simp only [List.map_cons, List.sum_cons, ih]
        simp
        ring
  have hputs : ((Edit.puts (((placed blocks).flatMap fun p => (opened p.1 p.2).toList).map fun l =>
      (l.lockId, l))).map fun (e : Edit Text LockRecord) =>
        e.2.elim 0 (fun l => ((LockRecord.amount l).toNat : Int)) - lockValue s e.1).sum =
          openedAmount (placed blocks) := by
    rw [Edit.puts, List.map_map, List.map_map, openedAmount]
    congr 1
    rw [← List.map_flatMap]
    refine List.map_congr_left fun l hl => ?_
    simp [hfresh l hl]
  unfold lockValue at hdrops hputs
  rw [hdrops, hputs]
  ring

/-- A committed sub-batch grows the total by the rewards of its blocks. -/
theorem Step.sthTotal {P : Primitives} {N : Network} {s s' : Store} {blocks : List Block}
    (st : Step P N KeepsLocks s blocks s') :
    s'.sthTotal = s.sthTotal + (blocks.map fun b => (b.reward.toNat : Int)).sum := by
  have hmoved := moved_of_batchDeltas st.meets st.deltas
  have hlocks := total_locks st.meets hmoved st.committed.written
  obtain ⟨p, hp, htotal⟩ := hmoved.posts
  have hbalances := OrderedMap.total_posts (fun _ w => WalletState.balance w)
    (fun _ w => WalletState.balance w) s.wallets st.committed.wallets.wallets p ?_
  · have hfees : (blocks.map fun b => (b.reward.toNat + b.totalFee.toNat : Int)).sum -
        ((placed blocks).map fun p => (p.2.fee.toNat : Int)).sum =
          (blocks.map fun b => (b.reward.toNat : Int)).sum :=
      sum_fees st.verified
    have hsame := st.committed.sameLedger
    rw [Store.sthTotal, Store.sthTotal, hsame.wallets, hsame.locks, hbalances, hlocks, htotal]
    linarith
  · intro x
    have hwritten := Store.writeEntries_balance st.committed.written x
    have hposted := hp x
    rw [Deltas.bal_empty, zero_add] at hposted
    rw [← hposted]
    exact hwritten

end Step

/-- Over a run that keeps its locks, the total grows by exactly the rewards. -/
theorem run_conserves {P : Primitives} {N : Network} {s s' : Store} {tip tip' : Sync.ChainTip}
    {chain : List Block} (hrun : Run P N KeepsLocks s tip chain s' tip') :
    s'.sthTotal = s.sthTotal + (chain.map fun b => (b.reward.toNat : Int)).sum := by
  refine Run.induction (R := fun chain s' =>
    s'.sthTotal = s.sthTotal + (chain.map fun b => (b.reward.toNat : Int)).sum) ?_ ?_ ?_ hrun
  · simp
  · exact fun _ _ _ h => h
  · intro chain s₁ c s₂ st h
    rw [st.sthTotal, h, List.map_append, List.sum_append]
    ring

section Sample

open Reference

/-- A lock of 7 that the first key pair opens for the second. -/
def lockTransaction : Transaction :=
  first.sign { type := 8, nonce := some 1, senderPublicKey := "", fee := 10, amount := 7,
               recipientId := some second.address,
               asset := some { lock := some { secretHash := Hex.encode (beBytes 32 1),
                                              expiration := { type := 1, value := 100 } } } }

/-- A claim by the second key pair of the lock with a given id. -/
def claimOf (id : Text) : Transaction :=
  second.sign { type := 9, nonce := some 1, senderPublicKey := "", fee := 10,
                asset := some { claim := some { lockTransactionId := id,
                                                unlockSecret := Hex.encode (beBytes 32 1) } } }

def lockBlock : Block := first.forge 2 8 (genesis.id.getD "") 0 [lockTransaction]

def claimBlock : Block :=
  first.forge 3 16 (lockBlock.id.getD "") 0 [claimOf (lockTransaction.id.getD "")]

/-- The store after the genesis block. -/
def started : Store :=
  (Sync.applyBlocks ⟨primitives, network {}, 0⟩ {} [genesis] ⟨0, none⟩ true).1

/-- The store after a lock of 7 is opened. -/
def locked : Store :=
  (Sync.applyBlocks ⟨primitives, network {}, 8000⟩ started [lockBlock] ⟨1, genesis.id⟩ true).1

/-- A lock is opened in one block and claimed in the next. -/
theorem run_conserves_claim :
    ∃ s, Run primitives (network {}) KeepsLocks started ⟨1, genesis.id⟩ [lockBlock, claimBlock] s
        ⟨3, claimBlock.id⟩ ∧ s.sthTotal = started.sthTotal := by
  obtain ⟨hlock, hopens, hclaim, hsettles, hrewards⟩ :
      (Sync.applyBlocks ⟨primitives, network {}, 8000⟩ started [lockBlock] ⟨1, genesis.id⟩
        true).2 = .ok ⟨2, lockBlock.id⟩ ∧
      KeepsLocks ⟨primitives, network {}, 8000⟩ started [lockBlock] ∧
      (Sync.applyBlocks ⟨primitives, network {}, 16000⟩
        (Sync.applyBlocks ⟨primitives, network {}, 8000⟩ started [lockBlock] ⟨1, genesis.id⟩
          true).1 [claimBlock] ⟨2, lockBlock.id⟩ true).2 = .ok ⟨3, claimBlock.id⟩ ∧
      KeepsLocks ⟨primitives, network {}, 16000⟩
        (Sync.applyBlocks ⟨primitives, network {}, 8000⟩ started [lockBlock] ⟨1, genesis.id⟩
          true).1 [claimBlock] ∧
      (([lockBlock] ++ [claimBlock]).map fun b => (b.reward.toNat : Int)).sum = 0 := by
    decide +kernel
  have hfirst := Run.single 8000 hlock (callMeets_single hopens)
  have hrun := Run.next 16000 hfirst hclaim (callMeets_single hsettles)
  refine ⟨_, hrun, ?_⟩
  rw [run_conserves hrun, hrewards, add_zero]

/-- A block with a transfer of 5, and a block that claims it like a lock. -/
def paidBlock : Block := first.forge 2 8 (genesis.id.getD "") 0 [transfer first second 1 5]

def payingBlock : Block :=
  first.forge 3 16 (paidBlock.id.getD "") 0 [claimOf ((transfer first second 1 5).id.getD "")]

/-- An ordinary transfer can be claimed: its amount is paid out again. -/
theorem claim_creates :
    ∃ s, Run primitives (network {}) unconditional started ⟨1, genesis.id⟩ [paidBlock, payingBlock]
        s ⟨3, payingBlock.id⟩ ∧
      s.sthTotal ≠ started.sthTotal +
        ([paidBlock, payingBlock].map fun b => (b.reward.toNat : Int)).sum := by
  obtain ⟨haccepted, hcreated⟩ :
      (Sync.applyBlocks ⟨primitives, network {}, 16000⟩ started [paidBlock, payingBlock]
        ⟨1, genesis.id⟩ true).2 = .ok ⟨3, payingBlock.id⟩ ∧
      (Sync.applyBlocks ⟨primitives, network {}, 16000⟩ started [paidBlock, payingBlock]
        ⟨1, genesis.id⟩ true).1.sthTotal ≠ started.sthTotal +
          ([paidBlock, payingBlock].map fun b => (b.reward.toNat : Int)).sum := by
    decide +kernel
  exact ⟨_, Run.single 16000 haccepted (callMeets_unconditional _ _ _), hcreated⟩

end Sample

end Chain

end SthCore
