import SthCore.Storage.Postings

/-!
What the effects of each kind of transaction move: payments, opened and settled
locks.  Everything that the deltas say about STH follows from these.
-/

namespace SthCore

open SthCore.Lib

namespace Accumulate

variable {E : Env} {s : Store} {batch : List Block} {block : Block} {index : Nat}
  {tx : Transaction} {sender : Text} {ds : Deltas} {ops : Ops}

/-- The payment of a purchase. -/
def salePayments (E : Env) (s : Store) (sender : Text) (e : SmartObjectAsset) (ds : Deltas) :
    Postings Text :=
  match e.registrationId with
  | none => []
  | some reg =>
      match parties E s ds sender reg e with
      | none => []
      | some (previous, _) =>
          match recordAt s ds previous reg with
          | none => []
          | some rec =>
              if SobjAction.ofCode e.action = some .buy then
                Postings.move sender previous (rec.price.getD 0).toNat
              else []

theorem handOver_moves (e : SmartObjectAsset) :
    Ops.Moves (handOver E s sender e ds) (salePayments E s sender e ds) [] [] := by
  cases hreg : e.registrationId with
  | none =>
      simp only [handOver, salePayments, hreg]
      exact .nil
  | some reg =>
      cases hparties : parties E s ds sender reg e with
      | none =>
          simp only [handOver, salePayments, hreg, hparties]
          exact .nil
      | some sides =>
          cases hrec : recordAt s ds sides.1 reg with
          | none =>
              simp only [handOver, salePayments, hreg, hparties, hrec]
              exact .nil
          | some rec =>
              simp only [handOver, salePayments, hreg, hparties, hrec]
              unfold salePrice moveObject Postings.move
              split_ifs <;> split <;> exact ⟨rfl, rfl, rfl, by simp [Op.nonces]⟩

theorem edit_moves (e : SmartObjectAsset) : Ops.Moves (edit s sender e ds) [] [] [] := by
  unfold edit
  split
  · exact .nil
  · split <;> exact ⟨rfl, rfl, rfl, by simp [Op.nonces]⟩

/-- The payment of a smart object transaction. -/
def sobjPayments (E : Env) (s : Store) (tx : Transaction) (sender : Text) (e : SmartObjectAsset)
    (ds : Deltas) : Postings Text :=
  if tx.id.isSome ∧ SobjAction.ofCode e.action = some .buy then salePayments E s sender e ds else []

theorem salePayments_of_ne {e : SmartObjectAsset} (h : SobjAction.ofCode e.action ≠ some .buy) :
    salePayments E s sender e ds = [] := by
  unfold salePayments
  split
  · rfl
  · split
    · rfl
    · split
      · rfl
      · rw [if_neg h]

theorem sobj_moves (e : SmartObjectAsset) :
    Ops.Moves (sobj E s tx sender e ds) (sobjPayments E s tx sender e ds) [] [] := by
  unfold sobj sobjPayments
  split
  · rename_i hid
    rw [if_neg (by simp [hid])]
    exact .nil
  · rename_i id hid
    split
    · rename_i haction
      have hmoves : Ops.Moves (handOver E s sender e ds) (salePayments E s sender e ds) [] [] :=
        handOver_moves e
      rw [salePayments_of_ne (by simp [haction])] at hmoves
      rwa [if_neg (by simp [haction])]
    · rename_i haction
      rw [if_pos ⟨by simp [hid], haction⟩]
      exact handOver_moves e
    · rename_i haction
      rw [if_neg (by simp [haction])]
      exact ⟨rfl, rfl, rfl, by simp [Op.nonces]⟩
    · rename_i hbuy _
      rw [if_neg fun h => hbuy h.2]
      exact edit_moves e

/-- The payment of a fill. -/
def tokenPayments (s : Store) (sender : Text) (type : TokenType) (a : TokenAsset) (ds : Deltas) :
    Postings Text :=
  match type, orderOf s ds (a.orderId.getD "") with
  | .buy, .ok o => Postings.move sender o.seller (satMul (a.amount.getD 0) o.price).toNat
  | _, _ => []

theorem tokenTransfers_moves (id : Text) (items : List TokenTransferItem) :
    Ops.Moves (items.flatMap fun it =>
      [(sender, .payToken id (-(it.amount.toNat : Int))),
        (it.recipientId, .payToken id it.amount.toNat)]) [] [] [] := by
  induction items with
  | nil => exact .nil
  | cons it rest ih => exact Ops.Moves.append (p := []) ⟨rfl, rfl, rfl, by simp [Op.nonces]⟩ ih

theorem token_moves {type : TokenType} {a : TokenAsset}
    (h : token E s block index tx sender type a ds = .ok ops) :
    Ops.Moves ops (tokenPayments s sender type a ds) [] [] := by
  cases type with
  | init =>
      obtain ⟨held, -, h⟩ := bind_eq_ok.mp h
      rw [← pure_eq_ok.mp h]
      exact ⟨rfl, rfl, rfl, by simp [Op.nonces]⟩
  | transfer =>
      rw [← pure_eq_ok.mp h]
      exact tokenTransfers_moves a.id _
  | mint | burn | sell =>
      rw [← pure_eq_ok.mp h]
      exact ⟨rfl, rfl, rfl, by simp [Op.nonces]⟩
  | tokenMeta =>
      simp only [token] at h
      split at h <;> rw [← pure_eq_ok.mp h] <;> exact ⟨rfl, rfl, rfl, by simp [Op.nonces]⟩
  | buy =>
      obtain ⟨order, horder, h⟩ := bind_eq_ok.mp h
      rw [← pure_eq_ok.mp h]
      simp only [tokenPayments, horder]
      exact ⟨rfl, rfl, rfl, by simp [buy, Op.nonces]⟩
  | cancel =>
      obtain ⟨order, -, h⟩ := bind_eq_ok.mp h
      rw [← pure_eq_ok.mp h]
      exact ⟨rfl, rfl, rfl, by simp [cancel, Op.nonces]⟩

/-- The lock a transaction opens. -/
def opened (block : Block) (tx : Transaction) : Option LockRecord :=
  if tx.coreType = some .htlcLock then lockRecord block tx else none

/-- The lock id a claim or refund names. -/
def settledId (tx : Transaction) : Option Text :=
  match tx.coreType with
  | some .htlcClaim => (tx.asset.bind fun a => a.claim).map fun c => c.lockTransactionId
  | some .htlcRefund => (tx.asset.bind fun a => a.refund).map fun r => r.lockTransactionId
  | _ => none

/-- The transaction under the id that a claim or refund names. -/
def settled (E : Env) (s : Store) (batch : List Block) (tx : Transaction) :
    Option (Text × Transaction) :=
  (settledId tx).bind fun id => ((findLock E s batch id).toOption.join).map fun t => (id, t)

/-- The payee of a claim or refund, when there is one. -/
def lockPayee (E : Env) (tx t : Transaction) : Option Text :=
  if tx.coreType = some .htlcClaim then t.recipientId else (E.addressOf t.senderPublicKey).toOption

/-- The payments of a core transaction. -/
def corePayments (E : Env) (s : Store) (batch : List Block) (tx : Transaction) (sender : Text) :
    Postings Text :=
  match tx.coreType with
  | some .transfer => tx.recipientId.toList.map fun r => (r, (tx.amount.toNat : Int))
  | some .multiPayment => tx.payments.flatMap fun p =>
      [(p.recipientId, (p.amount.toNat : Int)), (sender, -(p.amount.toNat : Int))]
  | _ =>
      (settled E s batch tx).toList.flatMap fun p =>
        (lockPayee E tx p.2).toList.map fun payee => (payee, (p.2.amount.toNat : Int))

theorem multiPayment_moves (payments : List Payment) :
    Ops.Moves (payments.flatMap fun p =>
      [(p.recipientId, .pay p.amount.toNat), (sender, .pay (-(p.amount.toNat : Int)))])
      (payments.flatMap fun p =>
        [(p.recipientId, (p.amount.toNat : Int)), (sender, -(p.amount.toNat : Int))]) [] [] := by
  induction payments with
  | nil => exact .nil
  | cons p rest ih =>
      exact Ops.Moves.append (a := []) (r := []) ⟨rfl, rfl, rfl, by simp [Op.nonces]⟩ ih

theorem votes_moves (votes : List Text) :
    Ops.Moves (votes.map fun v => (sender, .vote (voteOf v))) [] [] [] := by
  induction votes with
  | nil => exact .nil
  | cons v rest ih => exact Ops.Moves.cons rfl ih

theorem htlcClaim_moves {id : Text} (h : htlcClaim E s batch id = .ok ops) :
    ∃ found, findLock E s batch id = .ok found ∧
      Ops.Moves ops (found.toList.flatMap fun t =>
        t.recipientId.toList.map fun r => (r, (t.amount.toNat : Int))) []
        (found.toList.map fun _ => id) := by
  obtain ⟨found, hfound, h⟩ := bind_eq_ok.mp h
  refine ⟨found, hfound, ?_⟩
  cases found with
  | none =>
      rw [← pure_eq_ok.mp h]
      exact .nil
  | some lock =>
      obtain ⟨owner, -, h⟩ := bind_eq_ok.mp h
      rw [← pure_eq_ok.mp h]
      cases hr : lock.recipientId <;> refine ⟨?_, rfl, rfl, by simp [Op.nonces]⟩ <;>
        simp [Ops.postings, Op.payment, hr]

theorem htlcRefund_moves {id : Text} (h : htlcRefund E s batch id = .ok ops) :
    ∃ found, findLock E s batch id = .ok found ∧
      Ops.Moves ops (found.toList.flatMap fun t =>
        (E.addressOf t.senderPublicKey).toOption.toList.map fun r => (r, (t.amount.toNat : Int))) []
        (found.toList.map fun _ => id) := by
  obtain ⟨found, hfound, h⟩ := bind_eq_ok.mp h
  refine ⟨found, hfound, ?_⟩
  cases found with
  | none =>
      rw [← pure_eq_ok.mp h]
      exact .nil
  | some lock =>
      obtain ⟨owner, howner, h⟩ := bind_eq_ok.mp h
      rw [← pure_eq_ok.mp h]
      refine ⟨?_, rfl, rfl, by simp [Op.nonces]⟩
      simp [Ops.postings, Op.payment, howner, Except.toOption]

theorem settled_of_ne (hclaim : tx.coreType ≠ some .htlcClaim)
    (hrefund : tx.coreType ≠ some .htlcRefund) : settled E s batch tx = none := by
  have hid : settledId tx = none := by
    unfold settledId
    split
    · exact absurd (by assumption) hclaim
    · exact absurd (by assumption) hrefund
    · rfl
  simp [settled, hid]

/-- A core type without payments and locks. -/
theorem moves_of_other {type : CoreType} (htype : tx.coreType = some type)
    (h : type ≠ .transfer ∧ type ≠ .multiPayment ∧ type ≠ .htlcLock ∧ type ≠ .htlcClaim ∧
      type ≠ .htlcRefund) (hops : Ops.Moves ops [] [] []) :
    Ops.Moves ops (corePayments E s batch tx sender) (opened block tx).toList
      ((settled E s batch tx).toList.map fun p => p.1) := by
  have hsettled : settled E s batch tx = none :=
    settled_of_ne (by simp [htype, h]) (by simp [htype, h])
  have hopened : opened block tx = none := if_neg (by simp [htype, h])
  have hpay : corePayments E s batch tx sender = [] := by
    unfold corePayments
    rw [htype, hsettled]
    obtain ⟨htransfer, hmulti, -⟩ := h
    cases type <;> first | rfl | contradiction
  rwa [hpay, hopened, hsettled]

theorem core_moves {type : CoreType} (htype : tx.coreType = some type)
    (h : core E s batch block tx sender type = .ok ops) :
    Ops.Moves ops (corePayments E s batch tx sender) (opened block tx).toList
      ((settled E s batch tx).toList.map fun p => p.1) := by
  cases type with
  | transfer =>
      have hsettled : settled E s batch tx = none := settled_of_ne (by simp [htype]) (by simp [htype])
      have hopened : opened block tx = none := if_neg (by simp [htype])
      rw [← pure_eq_ok.mp h, hsettled, hopened, corePayments, htype, transfer]
      cases tx.recipientId with
      | none => exact .nil
      | some r =>
          dsimp only
          split <;> exact ⟨rfl, rfl, rfl, by simp [Op.nonces]⟩
  | multiPayment =>
      have hsettled : settled E s batch tx = none := settled_of_ne (by simp [htype]) (by simp [htype])
      have hopened : opened block tx = none := if_neg (by simp [htype])
      rw [← pure_eq_ok.mp h, hsettled, hopened, corePayments, htype, multiPayment]
      exact multiPayment_moves tx.payments
  | vote =>
      rw [← pure_eq_ok.mp h]
      exact moves_of_other htype (by simp) (votes_moves _)
  | delegateRegistration =>
      refine moves_of_other htype (by simp) ?_
      simp only [core] at h
      split at h <;> rw [← pure_eq_ok.mp h] <;> exact ⟨rfl, rfl, rfl, by simp [Op.nonces]⟩
  | secondSignature =>
      refine moves_of_other htype (by simp) ?_
      rw [← pure_eq_ok.mp h, secondSignature]
      split
      · exact .nil
      · split_ifs <;> exact ⟨rfl, rfl, rfl, by simp [Op.nonces]⟩
  | delegateResignation =>
      rw [← pure_eq_ok.mp h]
      exact moves_of_other htype (by simp) ⟨rfl, rfl, rfl, by simp [Op.nonces]⟩
  | multiSignature =>
      refine moves_of_other htype (by simp) ?_
      simp only [core] at h
      split at h
      · obtain ⟨address, -, h⟩ := bind_eq_ok.mp h
        rw [← pure_eq_ok.mp h]
        exact ⟨rfl, rfl, rfl, by simp [Op.nonces]⟩
      · rw [← pure_eq_ok.mp h]
        exact .nil
  | ipfs =>
      rw [← pure_eq_ok.mp h]
      exact moves_of_other htype (by simp) .nil
  | htlcLock =>
      have hsettled : settled E s batch tx = none := settled_of_ne (by simp [htype]) (by simp [htype])
      rw [hsettled, opened, if_pos htype, corePayments, htype]
      simp only [core, hsettled] at h ⊢
      cases hl : lockRecord block tx <;> simp only [hl] at h <;> rw [← pure_eq_ok.mp h] <;>
        exact ⟨rfl, rfl, rfl, by simp [Op.nonces]⟩
  | htlcClaim =>
      have hopened : opened block tx = none := if_neg (by simp [htype])
      simp only [core] at h
      rw [hopened, corePayments, htype]
      cases hasset : tx.asset.bind fun a => a.claim with
      | none =>
          simp only [hasset] at h
          rw [← pure_eq_ok.mp h]
          simpa [settled, settledId, htype, hasset] using Ops.Moves.nil
      | some c =>
          simp only [hasset] at h
          obtain ⟨found, hfound, hmoves⟩ := htlcClaim_moves h
          have hsettled : settled E s batch tx = found.map fun t => (c.lockTransactionId, t) := by
            simp [settled, settledId, htype, hasset, hfound, Except.toOption]
          rw [hsettled]
          cases found <;> simpa [lockPayee, htype] using hmoves
  | htlcRefund =>
      have hopened : opened block tx = none := if_neg (by simp [htype])
      simp only [core] at h
      rw [hopened, corePayments, htype]
      cases hasset : tx.asset.bind fun a => a.refund with
      | none =>
          simp only [hasset] at h
          rw [← pure_eq_ok.mp h]
          simpa [settled, settledId, htype, hasset] using Ops.Moves.nil
      | some c =>
          simp only [hasset] at h
          obtain ⟨found, hfound, hmoves⟩ := htlcRefund_moves h
          have hsettled : settled E s batch tx = found.map fun t => (c.lockTransactionId, t) := by
            simp [settled, settledId, htype, hasset, hfound, Except.toOption]
          rw [hsettled]
          cases found <;> simpa [lockPayee, htype] using hmoves

/-- The payments of a transaction beyond its sender's debit. -/
def effectPayments (E : Env) (s : Store) (batch : List Block) (tx : Transaction) (sender : Text)
    (ds : Deltas) : Postings Text :=
  match tx.sobjAsset with
  | some e => sobjPayments E s tx sender e ds
  | none =>
      match tx.tokenType, tx.tokenAsset with
      | some type, some a => tokenPayments s sender type a ds
      | _, _ => corePayments E s batch tx sender

/-- A transaction of another group opens and settles no lock. -/
theorem coreType_none_of_group (h : tx.typeGroup ≠ typeGroupCore) : tx.coreType = none :=
  if_neg h

theorem moves_of_no_core (htype : tx.coreType = none) {p : Postings Text}
    (h : Ops.Moves ops p [] []) :
    Ops.Moves ops p (opened block tx).toList ((settled E s batch tx).toList.map fun p => p.1) := by
  have hsettled : settled E s batch tx = none := settled_of_ne (by simp [htype]) (by simp [htype])
  have hopened : opened block tx = none := if_neg (by simp [htype])
  rwa [hsettled, hopened]

theorem effect_moves (h : effect E s batch block index tx sender ds = .ok ops) :
    Ops.Moves ops (effectPayments E s batch tx sender ds) (opened block tx).toList
      ((settled E s batch tx).toList.map fun p => p.1) := by
  unfold effect at h
  unfold effectPayments
  cases hsobj : tx.sobjAsset with
  | some e =>
      simp only [hsobj] at h ⊢
      rw [← Except.ok.inj h]
      refine moves_of_no_core (coreType_none_of_group ?_) (sobj_moves e)
      intro hgroup
      simp [Transaction.sobjAsset, Transaction.isSobj, hgroup, typeGroupCore, typeGroupSobj] at hsobj
  | none =>
      simp only [hsobj] at h ⊢
      cases htype : tx.tokenType with
      | some type =>
          have hcore : tx.coreType = none := by
            refine coreType_none_of_group fun hgroup => ?_
            simp [Transaction.tokenType, hgroup, typeGroupCore, typeGroupToken] at htype
          cases hasset : tx.tokenAsset with
          | some a =>
              simp only [htype, hasset] at h ⊢
              exact moves_of_no_core hcore (token_moves h)
          | none =>
              simp only [htype, hasset, hcore] at h ⊢
              rw [← Except.ok.inj h]
              refine moves_of_no_core hcore ?_
              have hsettled : settled E s batch tx = none :=
                settled_of_ne (by simp [hcore]) (by simp [hcore])
              simpa [corePayments, hcore, hsettled] using Ops.Moves.nil
      | none =>
          simp only [htype] at h ⊢
          cases hcore : tx.coreType with
          | some type =>
              simp only [hcore] at h
              exact core_moves hcore h
          | none =>
              simp only [hcore] at h
              rw [← Except.ok.inj h]
              refine moves_of_no_core hcore ?_
              have hsettled : settled E s batch tx = none :=
                settled_of_ne (by simp [hcore]) (by simp [hcore])
              simpa [corePayments, hcore, hsettled] using Ops.Moves.nil

end Accumulate

end SthCore
