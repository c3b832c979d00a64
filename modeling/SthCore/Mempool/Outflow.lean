import SthCore.Mempool.Accounting
import SthCore.Storage.Effects

/-!
Whether what the pool counts for a transaction covers what the chain takes from its sender.
-/

namespace SthCore

open SthCore.Lib

namespace Lib.Postings

variable {κ : Type*} [DecidableEq κ]

/-- What an account pays in a list of movements. -/
def paid (p : Postings κ) (x : κ) : Int := (p.map fun e => if e.1 = x then max (-e.2) 0 else 0).sum

@[simp] theorem paid_nil (x : κ) : paid ([] : Postings κ) x = 0 := rfl

@[simp] theorem paid_cons (e : κ × Int) (p : Postings κ) (x : κ) :
    paid (e :: p) x = (if e.1 = x then max (-e.2) 0 else 0) + paid p x := rfl

theorem paid_append (p q : Postings κ) (x : κ) : paid (p ++ q) x = paid p x + paid q x := by
  unfold paid
  rw [List.map_append, List.sum_append]

/-- Receipts are not paid. -/
theorem paid_eq_zero {p : Postings κ} (h : ∀ e ∈ p, 0 ≤ e.2) (x : κ) : paid p x = 0 := by
  induction p with
  | nil => rfl
  | cons e p ih =>
      have hhead := h e List.mem_cons_self
      rw [paid_cons, ih fun e' he' => h e' (List.mem_cons_of_mem e he'), max_eq_right (by omega)]
      simp

theorem paid_move (payer payee : κ) {amount : Int} (h : 0 ≤ amount) :
    paid (move payer payee amount) payer = amount := by
  unfold move
  rw [paid_cons, paid_cons, if_pos rfl, neg_neg, max_eq_left h, max_eq_right (by simpa using h)]
  simp

/-- The loss of an account is at most what it pays. -/
theorem neg_net_le_paid (p : Postings κ) (x : κ) : -p.net x ≤ paid p x := by
  induction p with
  | nil => simp
  | cons e p ih =>
      rw [net_cons, paid_cons]
      split_ifs
      · have := le_max_left (-e.2) 0
        omega
      · omega

end Lib.Postings

namespace Accumulate

/-- The price that a purchase meets when its turn comes. -/
def due (E : Env) (s : Store) (sender : Text) (ds : Deltas) (tx : Transaction) : UInt64 :=
  match tx.sobjAsset with
  | some e =>
      if tx.id.isSome ∧ SobjAction.ofCode e.action = some .buy then
        (e.registrationId.bind fun reg => (parties E s ds sender reg e).bind fun sides =>
          (recordAt s ds sides.1 reg).bind fun rec => rec.price).getD 0
      else 0
  | none =>
      match tx.tokenType, tx.tokenAsset with
      | some .buy, some a =>
          match orderOf s ds (a.orderId.getD "") with
          | .ok o => satMul (a.amount.getD 0) o.price
          | .error _ => 0
      | _, _ => 0

/-- The STH that a transaction takes from its sender. -/
def debit (E : Env) (s : Store) (batch : List Block) (block : Block) (ds : Deltas)
    (tx : Transaction) (index : Nat) : Int :=
  match E.addressOf tx.senderPublicKey with
  | .error _ => 0
  | .ok sender =>
      match effect E s batch block index tx sender (ds.run [(sender, .spend tx)]) with
      | .error _ => 0
      | .ok ops => (Ops.postings ((sender, .spend tx) :: ops)).paid sender

/-- The transactions of a list, each with the deltas before it. -/
def turns (E : Env) (s : Store) (batch : List Block) (block : Block) :
    List (Transaction × Nat) → Deltas → List (Deltas × Transaction × Nat)
  | [], _ => []
  | e :: rest, ds =>
      (ds, e) :: match transaction E s batch block e.1 e.2 ds with
        | .ok ds' => turns E s batch block rest ds'
        | .error _ => []

variable {E : Env} {s : Store} {batch : List Block} {block : Block} {tx : Transaction}
  {sender : Text} {ds ds' : Deltas} {index : Nat}

theorem paid_sobjPayments {e : SmartObjectAsset} (hasset : tx.sobjAsset = some e) :
    (sobjPayments E s tx sender e ds).paid sender = (due E s sender ds tx).toNat := by
  unfold sobjPayments due
  simp only [hasset]
  split_ifs with hbuy
  · unfold salePayments
    cases hreg : e.registrationId with
    | none => rfl
    | some reg =>
        simp only [Option.bind_some]
        cases hparties : parties E s ds sender reg e with
        | none => rfl
        | some sides =>
            simp only [Option.bind_some]
            cases hrec : recordAt s ds sides.1 reg with
            | none => rfl
            | some rec =>
                simp only [Option.bind_some, if_pos hbuy.2]
                exact Postings.paid_move _ _ (Int.natCast_nonneg _)
  · rfl

theorem paid_tokenPayments {type : TokenType} {a : TokenAsset} (hsobj : tx.sobjAsset = none)
    (htype : tx.tokenType = some type) (hasset : tx.tokenAsset = some a) :
    (tokenPayments s sender type a ds).paid sender = (due E s sender ds tx).toNat := by
  unfold tokenPayments due
  simp only [hsobj, htype, hasset]
  cases type with
  | buy =>
      simp only
      cases horder : orderOf s ds (a.orderId.getD "") with
      | error e => rfl
      | ok o => exact Postings.paid_move _ _ (Int.natCast_nonneg _)
  | _ => rfl

theorem paid_multiPayment (payments : List Payment) :
    Postings.paid (payments.flatMap fun p =>
      [(p.recipientId, (p.amount.toNat : Int)), (sender, -(p.amount.toNat : Int))]) sender =
      (payments.map fun p => (p.amount.toNat : Int)).sum := by
  induction payments with
  | nil => rfl
  | cons p rest ih =>
      rw [List.flatMap_cons, Postings.paid_append, ih, List.map_cons, List.sum_cons]
      simp

/-- A core transaction pays its list of payments when it is a multipayment, and else nothing. -/
theorem paid_corePayments :
    (corePayments E s batch tx sender).paid sender =
      if tx.coreType = some .multiPayment then
        (tx.payments.map fun p => (p.amount.toNat : Int)).sum else 0 := by
  unfold corePayments
  split
  · rename_i htype
    rw [if_neg (by simp [htype])]
    refine Postings.paid_eq_zero ?_ _
    rintro e he
    obtain ⟨r, -, rfl⟩ := List.mem_map.mp he
    exact Int.natCast_nonneg _
  · rename_i htype
    rw [if_pos htype]
    exact paid_multiPayment _
  · rename_i hmulti
    rw [if_neg hmulti]
    refine Postings.paid_eq_zero ?_ _
    rintro e he
    obtain ⟨p, -, he⟩ := List.mem_flatMap.mp he
    obtain ⟨r, -, rfl⟩ := List.mem_map.mp he
    exact Int.natCast_nonneg _

theorem due_of_coreType {type : CoreType} (h : tx.coreType = some type) :
    due E s sender ds tx = 0 := by
  have hgroup : tx.typeGroup = typeGroupCore := by
    unfold Transaction.coreType at h
    split_ifs at h with hgroup
    exact hgroup
  have hsobj : tx.sobjAsset = none := by
    simp [Transaction.sobjAsset, Transaction.isSobj, hgroup, typeGroupCore, typeGroupSobj]
  have htoken : tx.tokenType = none := by
    simp [Transaction.tokenType, hgroup, typeGroupCore, typeGroupToken]
  unfold due
  simp only [hsobj, htoken]

/-- Beyond amount and fee a sender pays the price of a purchase or the sum of a multipayment. -/
theorem paid_effectPayments :
    (effectPayments E s batch tx sender ds).paid sender =
      (due E s sender ds tx).toNat + if tx.coreType = some .multiPayment then
        (tx.payments.map fun p => (p.amount.toNat : Int)).sum else 0 := by
  unfold effectPayments
  cases hsobj : tx.sobjAsset with
  | some e =>
      have hcore : tx.coreType = none := by
        refine coreType_none_of_group fun hgroup => ?_
        simp [Transaction.sobjAsset, Transaction.isSobj, hgroup, typeGroupCore,
          typeGroupSobj] at hsobj
      simp only [paid_sobjPayments hsobj, hcore]
      simp
  | none =>
      simp only
      cases htype : tx.tokenType with
      | some type =>
          have hcore : tx.coreType = none := by
            refine coreType_none_of_group fun hgroup => ?_
            simp [Transaction.tokenType, hgroup, typeGroupCore, typeGroupToken] at htype
          cases hasset : tx.tokenAsset with
          | some a =>
              simp only [paid_tokenPayments (E := E) hsobj htype hasset, hcore]
              simp
          | none =>
              simp only [paid_corePayments, hcore]
              unfold due
              simp [hsobj, htype, hasset]
      | none =>
          simp only [paid_corePayments]
          unfold due
          simp [hsobj, htype]

theorem debit_eq (haddress : E.addressOf tx.senderPublicKey = .ok sender)
    (h : transaction E s batch block tx index ds = .ok ds') :
    debit E s batch block ds tx index = tx.amount.toNat + tx.fee.toNat +
      (due E s sender (ds.run [(sender, .spend tx)]) tx).toNat +
      if tx.coreType = some .multiPayment then
        (tx.payments.map fun p => (p.amount.toNat : Int)).sum else 0 := by
  obtain ⟨address, ops, hsame, heffect, -⟩ := transaction_eq_ok h
  obtain rfl : sender = address := Except.ok.inj (haddress.symm.trans hsame)
  have hmoves := effect_moves heffect
  unfold debit
  simp only [haddress, heffect]
  have hsplit : Ops.postings ((sender, .spend tx) :: ops) =
      (sender, -((tx.amount.toNat : Int) + tx.fee.toNat)) :: Ops.postings ops := rfl
  rw [hsplit, hmoves.postings, Postings.paid_cons, if_pos rfl, neg_neg,
    max_eq_left (by positivity), paid_effectPayments]
  omega

theorem turns_transactions (l : List (Transaction × Nat)) (ds : Deltas) :
    (turns E s batch block l ds).map (fun t => t.2) <+: l := by
  induction l generalizing ds with
  | nil => exact List.prefix_rfl
  | cons e rest ih =>
      unfold turns
      cases htx : transaction E s batch block e.1 e.2 ds with
      | error err => exact ⟨rest, rfl⟩
      | ok ds' =>
          obtain ⟨tail, htail⟩ := ih ds'
          exact ⟨tail, congrArg (e :: ·) htail⟩

theorem debit_of_error {e : Error} (h : transaction E s batch block tx index ds = .error e) :
    debit E s batch block ds tx index = 0 := by
  unfold debit
  unfold transaction at h
  cases haddress : E.addressOf tx.senderPublicKey with
  | error e => rfl
  | ok sender =>
      simp only
      cases heffect : effect E s batch block index tx sender (ds.run [(sender, .spend tx)]) with
      | error e => rfl
      | ok ops =>
          rw [haddress] at h
          simp only [bind, Except.bind, heffect] at h
          cases h

end Accumulate

namespace PoolConfig

variable {C : PoolConfig} {E : Env} {s : Store} {p : Pool} {tx : Transaction} {sender : Text}
  {batch : List Block} {block : Block}

/-- The stored price of what a transaction buys. -/
def storedPrice (E : Env) (s : Store) (tx : Transaction) : Nat :=
  let bought := ((tx.sobjAsset.filter fun e => SobjAction.ofCode e.action = some .buy).bind
    fun e => e.registrationId.bind fun reg => s.findSobject E reg).bind fun r => r.2.price
  let filled := ((tx.tokenAsset.filter fun _ => isMarket .buy tx).bind fun a =>
    (a.orderId.bind s.tokenOrder).map fun o => satMul (a.amount.getD 0) o.price).getD 0
  (bought.getD 0).toNat + filled.toNat

/-- The sum of a list of payments, which the pool counts for every type. -/
def listedPayments (tx : Transaction) : Nat := (tx.payments.map fun p => p.amount.toNat).sum

theorem spent_eq (E : Env) (s : Store) (tx : Transaction) :
    spent E s tx = tx.amount.toNat + tx.fee.toNat + listedPayments tx + storedPrice E s tx := by
  unfold spent listedPayments storedPrice
  push_cast
  rw [List.map_map]
  simp only [Function.comp_def]
  omega

theorem spent_nonneg (E : Env) (s : Store) (tx : Transaction) : 0 ≤ spent E s tx := by
  rw [spent_eq]
  positivity

/-- At its turn a purchase costs no more than its stored price and the payments it lists. -/
def Covered (E : Env) (s : Store) (sender : Text) (ds : Deltas) (tx : Transaction) : Prop :=
  (Accumulate.due E s sender (ds.run [(sender, .spend tx)]) tx).toNat ≤
    storedPrice E s tx + listedPayments tx

theorem debit_le_spent_iff {ds ds' : Deltas} {index : Nat}
    (haddress : E.addressOf tx.senderPublicKey = .ok sender)
    (h : Accumulate.transaction E s batch block tx index ds = .ok ds') :
    Accumulate.debit E s batch block ds tx index ≤ spent E s tx ↔ Covered E s sender ds tx := by
  have hlisted : (tx.payments.map fun p => (p.amount.toNat : Int)).sum = listedPayments tx := by
    unfold listedPayments
    push_cast
    rw [List.map_map]
    rfl
  unfold Covered
  rw [Accumulate.debit_eq haddress h, spent_eq, hlisted]
  split_ifs with hmulti
  · rw [Accumulate.due_of_coreType hmulti]
    constructor
    · rintro -
      exact Nat.zero_le _
    · rintro -
      have : ((0 : UInt64).toNat : Int) = 0 := rfl
      omega
  · omega

/-- What the balance rule has found. -/
theorem validate_balance {grant : Admit} (h : C.validate E s p tx = .ok grant)
    (haddress : E.addressOf tx.senderPublicKey = .ok sender) :
    (((C.pendingOf p tx.senderPublicKey).filter fun t => t.nonce ≠ tx.nonce).map
      (spent E s)).sum + spent E s tx ≤ s.balanceAt sender := by
  unfold validate at h
  obtain ⟨_, -, h⟩ := bind_eq_ok.mp h
  obtain ⟨evicts, -, h⟩ := bind_eq_ok.mp h
  obtain ⟨_, -, h⟩ := bind_eq_ok.mp h
  obtain ⟨broadcast, -, h⟩ := bind_eq_ok.mp h
  obtain ⟨address, hsigned, h⟩ := bind_eq_ok.mp h
  obtain ⟨_, -, h⟩ := bind_eq_ok.mp h
  obtain ⟨replaces, -, h⟩ := bind_eq_ok.mp h
  obtain ⟨_, -, h⟩ := bind_eq_ok.mp h
  obtain ⟨_, -, h⟩ := bind_eq_ok.mp h
  obtain ⟨_, -, h⟩ := bind_eq_ok.mp h
  obtain ⟨_, hbalance, -⟩ := bind_eq_ok.mp h
  obtain rfl := Except.ok.inj ((checkSigned_ok hsigned).symm.trans haddress)
  unfold checkPoolBalance at hbalance
  split_ifs at hbalance with hlow hrecipient
  · cases hbalance
  · cases hbalance
  · have hwallet : ((s.getWallet address).map fun w => w.balance).getD 0 = s.balanceAt address := by
      rw [Store.balanceAt_eq, Store.walletAt]
      cases s.getWallet address <;> rfl
    rw [hwallet] at hlow
    omega

/-- The pending transactions from an address after a newcomer with some nonce has come in. -/
def pendingFrom (C : PoolConfig) (E : Env) (p : Pool) (sender : Text) (tx : Transaction) :
    List Transaction :=
  tx :: (((C.entries p).map fun e => e.2).filter fun t =>
    Chain.sentBy E.prim E.network sender t && t.nonce ≠ tx.nonce)

theorem pendingFrom_perm (haddress : E.addressOf tx.senderPublicKey = .ok sender)
    (hspelling : OneSpelling E p tx) : (C.pendingFrom E p sender tx).Perm
      (tx :: (C.pendingOf p tx.senderPublicKey).filter fun t => t.nonce ≠ tx.nonce) := by
  refine List.Perm.cons tx ?_
  unfold pendingOf
  refine List.Perm.trans ?_ ((List.perm_insertionSort _ _).symm.filter _)
  rw [List.filter_filter]
  refine List.Perm.of_eq (List.filter_congr fun t ht => ?_)
  obtain ⟨e, he, rfl⟩ := List.mem_map.mp ht
  rw [(C.entries_perm p).mem_iff] at he
  have hsame : Chain.sentBy E.prim E.network sender e.2 = true ↔
      e.2.senderPublicKey = tx.senderPublicKey := by
    rw [Chain.sentBy_iff]
    constructor
    · intro hsent
      exact hspelling e he (hsent.trans haddress.symm)
    · intro hkey
      rw [hkey]
      exact haddress
  rw [Bool.eq_iff_iff, Bool.and_eq_true, Bool.and_eq_true, hsame, decide_eq_true_eq,
    decide_eq_true_eq]
  exact and_comm

/-- What an address pays over a list of turns. -/
def paidBy (E : Env) (s : Store) (batch : List Block) (block : Block) (sender : Text)
    (turns : List (Deltas × Transaction × Nat)) : Int :=
  ((turns.filter fun t => Chain.sentBy E.prim E.network sender t.2.1).map fun t =>
    Accumulate.debit E s batch block t.1 t.2.1 t.2.2).sum

theorem paidBy_le {l : List (Transaction × Nat)} {ds : Deltas}
    (hcovered : ∀ t ∈ Accumulate.turns E s batch block l ds,
      E.addressOf t.2.1.senderPublicKey = .ok sender → Covered E s sender t.1 t.2.1) :
    paidBy E s batch block sender (Accumulate.turns E s batch block l ds) ≤
      (((l.map fun e => e.1).filter (Chain.sentBy E.prim E.network sender)).map (spent E s)).sum := by
  induction l generalizing ds with
  | nil => rfl
  | cons e rest ih =>
      have hrest : paidBy E s batch block sender
          (match Accumulate.transaction E s batch block e.1 e.2 ds with
            | .ok ds' => Accumulate.turns E s batch block rest ds'
            | .error _ => []) ≤
          (((rest.map fun e => e.1).filter (Chain.sentBy E.prim E.network sender)).map
            (spent E s)).sum := by
        unfold Accumulate.turns at hcovered
        cases htx : Accumulate.transaction E s batch block e.1 e.2 ds with
        | error err =>
            refine (List.sum_nonneg fun x hx => ?_ : (0 : Int) ≤ _)
            obtain ⟨t, -, rfl⟩ := List.mem_map.mp hx
            exact spent_nonneg E s t
        | ok ds' =>
            rw [htx] at hcovered
            exact ih fun t ht => hcovered t (List.mem_cons_of_mem _ ht)
      have hhead : Chain.sentBy E.prim E.network sender e.1 = true →
          Accumulate.debit E s batch block ds e.1 e.2 ≤ spent E s e.1 := by
        intro hsent
        have haddress := Chain.sentBy_iff.mp hsent
        cases htx : Accumulate.transaction E s batch block e.1 e.2 ds with
        | error err =>
            rw [Accumulate.debit_of_error htx]
            exact spent_nonneg E s e.1
        | ok ds' =>
            refine (debit_le_spent_iff haddress htx).mpr ?_
            exact hcovered (ds, e) (by
              unfold Accumulate.turns
              exact List.mem_cons_self) haddress
      unfold Accumulate.turns
      unfold paidBy at hrest ⊢
      rw [List.map_cons, List.filter_cons, List.filter_cons]
      by_cases hsent : Chain.sentBy E.prim E.network sender e.1 = true
      · rw [if_pos hsent, if_pos hsent, List.map_cons, List.map_cons, List.sum_cons, List.sum_cons]
        exact add_le_add (hhead hsent) hrest
      · rw [if_neg hsent, if_neg hsent]
        exact hrest

end PoolConfig

/-- The pool counts what a transaction takes from its sender exactly when a purchase costs at its
turn no more than storage says; and then the balance of the sender pays for all that it has
pending, in whatever order the transactions of the pool are applied. -/
theorem pool_outflow_covers_debit (C : PoolConfig) (E : Env) (s : Store) :
    (∀ batch block tx index ds ds' sender, E.addressOf tx.senderPublicKey = .ok sender →
      Accumulate.transaction E s batch block tx index ds = .ok ds' →
      (Accumulate.debit E s batch block ds tx index ≤ PoolConfig.spent E s tx ↔
        PoolConfig.Covered E s sender ds tx)) ∧
    ∀ p tx grant sender, C.validate E s p tx = .ok grant →
      E.addressOf tx.senderPublicKey = .ok sender → PoolConfig.OneSpelling E p tx →
      ∀ batch block l ds, ((l.map fun e => e.1).filter
          (Chain.sentBy E.prim E.network sender)).Perm (C.pendingFrom E p sender tx) →
        (∀ t ∈ Accumulate.turns E s batch block l ds,
          E.addressOf t.2.1.senderPublicKey = .ok sender →
            PoolConfig.Covered E s sender t.1 t.2.1) →
        PoolConfig.paidBy E s batch block sender (Accumulate.turns E s batch block l ds) ≤
          s.balanceAt sender := by
  refine ⟨fun batch block tx index ds ds' sender haddress h =>
    PoolConfig.debit_le_spent_iff haddress h, ?_⟩
  intro p tx grant sender hvalidate haddress hspelling batch block l ds hperm hcovered
  have hbalance := PoolConfig.validate_balance hvalidate haddress
  have hspent := ((hperm.trans (PoolConfig.pendingFrom_perm haddress hspelling)).map
    (PoolConfig.spent E s)).sum_eq
  rw [List.map_cons, List.sum_cons] at hspent
  have hpaid := PoolConfig.paidBy_le hcovered
  omega

namespace Reference

def piecesId : Text := Hex.encode (beBytes 32 7)

/-- A network with tokens and their market. -/
def pooledEnv : Env :=
  ⟨primitives, network { tokens := true, tokenMarket := { enabled := true } }, 8000⟩

/-- The first key pair holds 100 pieces; each of the two has the fee of its transaction. -/
def pooledStore : Store where
  wallets := ((∅ : OrderedMap Text WalletState).insert first.address
    { address := first.address, balance := 100000000
      tokens := (∅ : OrderedMap Text UInt64).insert piecesId 100
      tokensIssued := (∅ : OrderedMap Text TokenState).insert piecesId
        { symbol := "PIECE", decimals := 0, flags := 0, supply := 100, supplyCap := 100
          owner := first.address, initHeight := 1 } }).insert second.address
    { address := second.address, balance := 10000000 }
  tokenOwner := (∅ : OrderedMap Text Text).insert piecesId first.address

/-- The first key pair offers 10 pieces at a price of 5. -/
def pendingSell : Transaction :=
  first.sign {
    type := 5, typeGroup := typeGroupToken, nonce := some 1, senderPublicKey := ""
    fee := 100000000
    asset := some { token := some { id := piecesId, amount := some 10, price := some 5 } } }

/-- The second key pair buys them. -/
def pooledBuy : Transaction :=
  second.sign {
    type := 6, typeGroup := typeGroupToken, nonce := some 1, senderPublicKey := ""
    fee := 10000000
    asset := some { token := some { id := piecesId, amount := some 10
                                    orderId := pendingSell.id } } }

/-- The pool after the offer has come in. -/
def pooled : Pool := (poolConfig.addMany pooledEnv pooledStore {} [pendingSell]).1

end Reference

open Reference

/-- A single transfer is paid by the balance that the pool has checked. -/
theorem pool_outflow_covers_debit_transfer :
    PoolConfig.paidBy poolEnv purseStore [] genesis first.address
        (Accumulate.turns poolEnv purseStore [] genesis [(transfer first second 1 5, 0)] ∅) ≤
      purseStore.balanceAt first.address := by
  obtain ⟨hvalid, haddress, hcore⟩ :
      (poolConfig.validate poolEnv purseStore {} (transfer first second 1 5)).isOk = true ∧
      Chain.sentBy primitives poolEnv.network first.address (transfer first second 1 5) = true ∧
      (transfer first second 1 5).coreType = some .transfer := by
    decide +kernel
  obtain ⟨grant, hgrant⟩ := exists_ok_of_isOk hvalid
  refine (pool_outflow_covers_debit poolConfig poolEnv purseStore).2 {} _ grant first.address hgrant
    (Chain.sentBy_iff.mp haddress) ?_ [] genesis _ ∅ ?_ ?_
  · rintro e he
    cases he
  · rw [List.map_cons, List.map_nil, List.filter_cons]
    change (if Chain.sentBy primitives poolEnv.network first.address
      (transfer first second 1 5) = true then _ else _ : List Transaction).Perm _
    rw [if_pos haddress]
    rfl
  · rintro t ht -
    have hmem := List.mem_map_of_mem (f := fun t => t.2) ht
    have hone := (Accumulate.turns_transactions _ _).subset hmem
    unfold PoolConfig.Covered
    rw [show t.2.1 = transfer first second 1 5 from congrArg Prod.fst (List.mem_singleton.mp hone),
      Accumulate.due_of_coreType hcore]
    exact Nat.zero_le _

/-- A purchase of an order that is still pending counts with its fee alone. -/
theorem pooled_purchase_uncovered :
    (∃ grant, poolConfig.validate pooledEnv pooledStore pooled pooledBuy = .ok grant) ∧
    pooled.txs.toList.map (fun e => e.2) = [pendingSell] ∧
    PoolConfig.spent pooledEnv pooledStore pooledBuy = 10000000 ∧
    (∃ ds ds', Accumulate.transaction pooledEnv pooledStore [] genesis pendingSell 0 ∅ = .ok ds ∧
      Accumulate.transaction pooledEnv pooledStore [] genesis pooledBuy 1 ds = .ok ds' ∧
      Accumulate.debit pooledEnv pooledStore [] genesis ds pooledBuy 1 = 10000050) ∧
    pooledStore.balanceAt second.address = 10000000 := by
  obtain ⟨hvalid, hpooled, hspent, hsell, hbuy, hbalance⟩ :
      (poolConfig.validate pooledEnv pooledStore pooled pooledBuy).isOk = true ∧
      pooled.txs.toList.map (fun e => e.2) = [pendingSell] ∧
      PoolConfig.spent pooledEnv pooledStore pooledBuy = 10000000 ∧
      (Accumulate.transaction pooledEnv pooledStore [] genesis pendingSell 0 ∅).isOk = true ∧
      (∀ ds ∈ (Accumulate.transaction pooledEnv pooledStore [] genesis pendingSell 0 ∅).toOption,
        (Accumulate.transaction pooledEnv pooledStore [] genesis pooledBuy 1 ds).isOk = true ∧
        Accumulate.debit pooledEnv pooledStore [] genesis ds pooledBuy 1 = 10000050) ∧
      pooledStore.balanceAt second.address = 10000000 := by
    decide +kernel
  obtain ⟨ds, hds⟩ := exists_ok_of_isOk hsell
  obtain ⟨happlies, hdebit⟩ := hbuy ds (by rw [hds]; rfl)
  obtain ⟨ds', hds'⟩ := exists_ok_of_isOk happlies
  exact ⟨exists_ok_of_isOk hvalid, hpooled, hspent, ⟨ds, ds', hds, hds', hdebit⟩, hbalance⟩

end SthCore
