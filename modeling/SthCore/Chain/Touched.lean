import SthCore.Chain.Conservation
import SthCore.Storage.TxIndex

/-!
The wallets that a transaction changes, against the list of wallets that it is
indexed under.  The list is read from the transaction, while a settlement, a
fill or a purchase also reaches a wallet that only the state names.
-/

namespace SthCore

open SthCore.Lib

/-- The part of a delta about STH, tokens, locks and smart objects. -/
structure Holding where
  balance : Int
  tokens : Text → Int
  locksAdded : List LockRecord
  locksRemoved : List Text
  sobjects : List (Text × SmartObject)
  sobjectsRemoved : List Text

def WalletDelta.holding (d : WalletDelta) : Holding where
  balance := d.balance
  tokens := fun id => d.tokens[id]?.getD 0
  locksAdded := d.locksAdded
  locksRemoved := d.locksRemoved
  sobjects := d.sobjects
  sobjectsRemoved := d.sobjectsRemoved

namespace Op

/-- The changes that show in a holding. -/
def alters : Op → Prop
  | forge _ _ | spend _ | putObject _ _ | dropObject _ _ | addLock _ | removeLock _ => True
  | pay amount | payToken _ amount => amount ≠ 0
  | _ => False

theorem apply_holding {op : Op} (h : ¬ op.alters) (d : WalletDelta) :
    (op.apply d).holding = d.holding := by
  cases op with
  | forge | spend | putObject | dropObject | addLock | removeLock => exact absurd trivial h
  | pay amount =>
      obtain rfl := not_not.mp h
      simp [apply, WalletDelta.holding]
  | payToken id amount =>
      obtain rfl := not_not.mp h
      have hsame : (fun k : Text => (OrderedMap.upsert d.tokens id 0 fun v => v + 0)[k]?.getD 0) =
          fun k : Text => d.tokens[k]?.getD 0 := by
        funext k
        rw [OrderedMap.getD_upsert]
        split_ifs with hk
        · rw [hk, add_zero]
        · rfl
      simp only [apply, WalletDelta.holding, hsame]
  | _ => rfl

/-- The tokens of a kind that a change moves. -/
def tokensOf (id : Text) : Op → Int
  | payToken k amount => if k = id then amount else 0
  | _ => 0

theorem apply_tokensOf (id : Text) (op : Op) (d : WalletDelta) :
    (op.apply d).holding.tokens id = d.holding.tokens id + op.tokensOf id := by
  cases op with
  | payToken k amount =>
      show (OrderedMap.upsert d.tokens k 0 fun v => v + amount)[id]?.getD 0 =
        d.tokens[id]?.getD 0 + if k = id then amount else 0
      rw [OrderedMap.getD_upsert]
      split_ifs with hk
      · rw [hk]
      · rw [add_zero]
  | _ => exact (add_zero _).symm

def drops : Op → Nat
  | dropObject _ _ => 1
  | _ => 0

theorem apply_drops (op : Op) (d : WalletDelta) :
    (op.apply d).holding.sobjectsRemoved.length =
      d.holding.sobjectsRemoved.length + op.drops := by
  cases op <;> simp [apply, WalletDelta.holding, drops]

end Op

namespace Deltas

/-- An address whose changes do not show keeps its holding. -/
theorem run_holding (ds : Deltas) (ops : Ops) (x : Text)
    (h : ∀ o ∈ ops, o.1 = x → ¬ o.2.alters) :
    ((ds.run ops).get x).holding = (ds.get x).holding := by
  induction ops generalizing ds with
  | nil => rfl
  | cons o ops ih =>
      rw [run_cons, ih _ fun o' ho' => h o' (List.mem_cons_of_mem o ho'), get_upd]
      split_ifs with hx
      · rw [hx, Op.apply_holding (h o List.mem_cons_self hx)]
      · rfl

end Deltas

namespace Ops

/-- What a list of changes does to holdings: besides the addresses in `known` it alters at most
the `reached` ones, and these it does alter. -/
structure Touches (ops : Ops) (known reached : List Text) : Prop where
  only : ∀ o ∈ ops, o.2.alters → o.1 ∈ known ∨ o.1 ∈ reached
  all : ∀ x ∈ reached, x ∉ known → ∀ ds : Deltas,
    ((ds.run ops).get x).holding ≠ (ds.get x).holding

/-- Changes of known addresses. -/
theorem Touches.of_known {ops : Ops} {known : List Text}
    (h : ∀ o ∈ ops, o.2.alters → o.1 ∈ known) : Touches ops known [] where
  only o ho halters := .inl (h o ho halters)
  all _ hx := absurd hx List.not_mem_nil

section

variable {ops : Ops} {x : Text} {ds : Deltas}

theorem holding_ne_of_balance
    (h : (ops.map fun o => if o.1 = x then o.2.payment.getD 0 else 0).sum ≠ 0) :
    ((ds.run ops).get x).holding ≠ (ds.get x).holding := by
  intro hsame
  have hbalance : ((ds.run ops).get x).balance = (ds.get x).balance :=
    congrArg Holding.balance hsame
  rw [Deltas.run_add WalletDelta.balance (fun op => op.payment.getD 0) Op.apply_balance] at hbalance
  exact h (add_eq_left.mp hbalance)

theorem holding_ne_of_tokens (id : Text)
    (h : (ops.map fun o => if o.1 = x then o.2.tokensOf id else 0).sum ≠ 0) :
    ((ds.run ops).get x).holding ≠ (ds.get x).holding := by
  intro hsame
  have htokens : ((ds.run ops).get x).holding.tokens id = (ds.get x).holding.tokens id := by
    rw [hsame]
  rw [Deltas.run_add (fun d => d.holding.tokens id) (Op.tokensOf id) (Op.apply_tokensOf id)]
    at htokens
  exact h (add_eq_left.mp htokens)

theorem holding_ne_of_drops
    (h : (ops.map fun o => if o.1 = x then o.2.drops else 0).sum ≠ 0) :
    ((ds.run ops).get x).holding ≠ (ds.get x).holding := by
  intro hsame
  have hdrops : ((ds.run ops).get x).holding.sobjectsRemoved.length =
      (ds.get x).holding.sobjectsRemoved.length := by
    rw [hsame]
  rw [Deltas.run_add (fun d => d.holding.sobjectsRemoved.length) Op.drops Op.apply_drops] at hdrops
  exact h (add_eq_left.mp hdrops)

theorem holding_ne_of_settled
    (h : (ops.map fun o => if o.1 = x then o.2.locksRemoved.length else 0).sum ≠ 0) :
    ((ds.run ops).get x).holding ≠ (ds.get x).holding := by
  intro hsame
  have hlocks : ((ds.run ops).get x).locksRemoved.length = (ds.get x).locksRemoved.length :=
    congrArg (fun d => d.locksRemoved.length) hsame
  rw [Deltas.run_add (fun d => d.locksRemoved.length) (fun op => op.locksRemoved.length)] at hlocks
  · exact h (add_eq_left.mp hlocks)
  · intro op d
    rw [Op.apply_locksRemoved, List.length_append]

end

end Ops

theorem mem_touched {E : Env} {tx : Transaction} {sender x : Text}
    (hsender : E.addressOf tx.senderPublicKey = .ok sender) (h : x ∈ namedWallets tx sender) :
    x ∈ touched E tx := by
  exact (mem_touched_iff hsender).mpr h

namespace Accumulate

/-! The wallets that a transaction reaches through the state: the owner of a bought object, the
seller of an order, both sides of a lock, and the nameless address of a mint without recipient. -/

def soldBy (E : Env) (s : Store) (tx : Transaction) (sender : Text) (e : SmartObjectAsset)
    (ds : Deltas) : Option Text :=
  if tx.id.isSome ∧ SobjAction.ofCode e.action = some .buy then
    e.registrationId.bind fun reg => (parties E s ds sender reg e).bind fun p =>
      (recordAt s ds p.1 reg).map fun _ => p.1
  else none

def tokenReached (s : Store) (type : TokenType) (a : TokenAsset) (ds : Deltas) : List Text :=
  match type, orderOf s ds (a.orderId.getD "") with
  | .mint, _ => if a.amount.getD 0 = 0 then [] else [a.recipientId.getD ""]
  | .buy, .ok o => if satMul (a.amount.getD 0) o.price = 0 then [] else [o.seller]
  | .cancel, .ok o => if o.remaining = 0 then [] else [o.seller]
  | _, _ => []

def coreReached (E : Env) (s : Store) (batch : List Block) (tx : Transaction) : List Text :=
  match settled E s batch tx with
  | some (_, lock) =>
      (if tx.coreType = some .htlcClaim ∧ lock.amount ≠ 0 then lock.recipientId.toList else []) ++
        (E.addressOf lock.senderPublicKey).toOption.toList
  | none => []

def effectReached (E : Env) (s : Store) (batch : List Block) (tx : Transaction) (sender : Text)
    (ds : Deltas) : List Text :=
  match tx.sobjAsset with
  | some e => (soldBy E s tx sender e ds).toList
  | none =>
      match tx.tokenType, tx.tokenAsset with
      | some type, some a => tokenReached s type a ds
      | _, _ => coreReached E s batch tx

/-- The wallets that a transaction reaches when it meets the deltas `ds`. -/
def reached (E : Env) (s : Store) (batch : List Block) (tx : Transaction) (ds : Deltas) :
    List Text :=
  match E.addressOf tx.senderPublicKey with
  | .ok sender => effectReached E s batch tx sender (ds.run [(sender, .spend tx)])
  | .error _ => []

section

variable {E : Env} {s : Store} {batch : List Block} {block : Block} {index : Nat}
  {tx : Transaction} {sender : Text} {ds : Deltas} {ops : Ops} {known : List Text}

/-- The object goes to the buyer, or from the sender to the recipient it names. -/
theorem parties_eq_some {e : SmartObjectAsset} {reg previous next : Text}
    (h : parties E s ds sender reg e = some (previous, next)) :
    if SobjAction.ofCode e.action = some .buy then next = sender
    else previous = sender ∧ e.recipientId = some next := by
  unfold parties at h
  split_ifs at h ⊢
  · obtain ⟨owner, -, howner⟩ := Option.map_eq_some_iff.mp h
    exact (Prod.mk.inj howner).2.symm
  · obtain ⟨r, hr, heq⟩ := Option.map_eq_some_iff.mp h
    obtain ⟨rfl, rfl⟩ := Prod.mk.inj heq
    exact ⟨rfl, hr⟩

theorem moveObject_mem {reg previous next : Text} {rec : SmartObject} {token : Option TokenState}
    {o : Text × Op} (h : o ∈ moveObject reg rec token previous next) :
    o.1 = previous ∨ o.1 = next := by
  unfold moveObject at h
  rcases List.mem_append.mp h with hmove | hissue
  · rcases List.mem_cons.mp hmove with rfl | hnext
    · exact .inl rfl
    · rcases List.mem_pair.mp hnext with rfl | rfl <;> exact .inr rfl
  · split at hissue
    · rw [List.mem_singleton.mp hissue]
      exact .inr rfl
    · cases hissue

theorem handOver_touches (E : Env) (s : Store) (ds : Deltas) {e : SmartObjectAsset}
    (hsender : sender ∈ known)
    (hrecipient : ∀ r ∈ e.recipientId, r ∈ known) :
    Ops.Touches (handOver E s sender e ds) known
      (if SobjAction.ofCode e.action = some .buy then
        (e.registrationId.bind fun reg => (parties E s ds sender reg e).bind fun p =>
          (recordAt s ds p.1 reg).map fun _ => p.1).toList
      else []) := by
  have hnone : Ops.Touches [] known [] := .of_known (by simp)
  cases hreg : e.registrationId with
  | none => simpa [handOver, hreg] using hnone
  | some reg =>
      cases hparties : parties E s ds sender reg e with
      | none => simpa [handOver, hreg, hparties] using hnone
      | some sides =>
          obtain ⟨previous, next⟩ := sides
          cases hrec : recordAt s ds previous reg with
          | none => simpa [handOver, hreg, hparties, hrec] using hnone
          | some rec =>
              have hsides := parties_eq_some hparties
              simp only [handOver, hreg, hparties, hrec, Option.bind_some, Option.map_some,
                Option.toList_some]
              by_cases hbuy : SobjAction.ofCode e.action = some .buy
              · rw [if_pos hbuy] at hsides ⊢
                subst hsides
                rw [if_pos hbuy]
                constructor
                · intro o ho _
                  have howner : o.1 = previous ∨ o.1 = next := by
                    rcases List.mem_append.mp ho with hprice | hmove
                    · rcases List.mem_pair.mp hprice with rfl | rfl
                      · exact .inr rfl
                      · exact .inl rfl
                    · exact moveObject_mem hmove
                  rcases howner with hfrom | hto
                  · exact .inr (List.mem_singleton.mpr hfrom)
                  · rw [hto]
                    exact .inl hsender
                · intro x hx hknown ds'
                  obtain rfl := List.mem_singleton.mp hx
                  have hne : next ≠ x := by
                    rintro rfl
                    exact hknown hsender
                  refine Ops.holding_ne_of_drops ?_
                  unfold salePrice moveObject
                  split <;> simp [Op.drops, hne]
              · rw [if_neg hbuy] at hsides ⊢
                obtain ⟨rfl, hnext⟩ := hsides
                rw [if_neg hbuy]
                refine .of_known fun o ho _ => ?_
                rcases moveObject_mem ho with hfrom | hto
                · rw [hfrom]
                  exact hsender
                · rw [hto]
                  exact hrecipient next hnext

theorem sobj_touches {e : SmartObjectAsset} (hsender : sender ∈ known)
    (hrecipient : ∀ r ∈ e.recipientId, r ∈ known) :
    Ops.Touches (sobj E s tx sender e ds) known (soldBy E s tx sender e ds).toList := by
  have hhand := handOver_touches E s ds hsender hrecipient
  unfold sobj soldBy
  split
  · rename_i hid
    rw [if_neg (by simp [hid])]
    exact .of_known (by simp)
  · rename_i id hid
    split
    · rename_i haction
      rw [if_neg (by simp [haction])] at hhand ⊢
      exact hhand
    · rename_i haction
      rw [if_pos haction] at hhand
      rw [if_pos ⟨by simp [hid], haction⟩]
      exact hhand
    · rename_i haction
      rw [if_neg (by simp [haction])]
      refine .of_known fun o ho _ => ?_
      rw [List.mem_singleton.mp ho]
      exact hsender
    · rename_i hbuy _
      rw [if_neg fun h => hbuy h.2]
      refine .of_known fun o ho _ => ?_
      unfold edit at ho
      split at ho
      · cases ho
      · split at ho
        · cases ho
        · rw [List.mem_singleton.mp ho]
          exact hsender

theorem toNat_ne_zero {v : UInt64} (h : v ≠ 0) : v.toNat ≠ 0 :=
  fun hzero => h (UInt64.toNat_inj.mp hzero)

theorem token_touches {type : TokenType} {a : TokenAsset} (hsender : sender ∈ known)
    (htransfers : ∀ it ∈ a.transfers.getD [], it.recipientId ∈ known)
    (h : token E s block index tx sender type a ds = .ok ops) :
    Ops.Touches ops known (tokenReached s type a ds) := by
  cases type with
  | init =>
      obtain ⟨held, -, h⟩ := bind_eq_ok.mp h
      rw [← pure_eq_ok.mp h]
      exact .of_known (by simp [hsender])
  | transfer =>
      rw [← pure_eq_ok.mp h]
      refine .of_known fun o ho _ => ?_
      obtain ⟨it, hit, ho⟩ := List.mem_flatMap.mp ho
      rcases List.mem_pair.mp ho with rfl | rfl
      · exact hsender
      · exact htransfers it hit
  | burn | sell =>
      rw [← pure_eq_ok.mp h]
      exact .of_known (by simp [hsender, Op.alters])
  | tokenMeta =>
      simp only [token] at h
      split at h <;> rw [← pure_eq_ok.mp h] <;> exact .of_known (by simp [hsender])
  | mint =>
      rw [← pure_eq_ok.mp h]
      show Ops.Touches _ known (if a.amount.getD 0 = 0 then [] else [a.recipientId.getD ""])
      split_ifs with hamount
      · refine .of_known ?_
        simp [Op.alters, hamount]
      · constructor
        · simp [Op.alters]
        · intro x hx hknown ds
          obtain rfl := List.mem_singleton.mp hx
          refine Ops.holding_ne_of_tokens a.id ?_
          simp [Op.tokensOf, toNat_ne_zero hamount]
  | buy =>
      obtain ⟨order, horder, h⟩ := bind_eq_ok.mp h
      rw [← pure_eq_ok.mp h]
      simp only [tokenReached, horder]
      split_ifs with htotal
      · refine .of_known ?_
        simp [buy, Op.alters, hsender, htotal]
      · constructor
        · simp [buy, Op.alters, hsender]
        · intro x hx hknown ds
          obtain rfl := List.mem_singleton.mp hx
          have hne : sender ≠ order.seller := by
            rintro rfl
            exact hknown hsender
          refine Ops.holding_ne_of_balance ?_
          simp [buy, Op.payment, hne, toNat_ne_zero htotal]
  | cancel =>
      obtain ⟨order, horder, h⟩ := bind_eq_ok.mp h
      rw [← pure_eq_ok.mp h]
      simp only [tokenReached, horder]
      split_ifs with hleft
      · refine .of_known ?_
        simp [cancel, Op.alters, hleft]
      · constructor
        · simp [cancel, Op.alters]
        · intro x hx hknown ds
          obtain rfl := List.mem_singleton.mp hx
          refine Ops.holding_ne_of_tokens a.id ?_
          simp [cancel, Op.tokensOf, toNat_ne_zero hleft]

theorem coreReached_of_ne (hclaim : tx.coreType ≠ some .htlcClaim)
    (hrefund : tx.coreType ≠ some .htlcRefund) : coreReached E s batch tx = [] := by
  rw [coreReached, settled_of_ne hclaim hrefund]

/-- A claim takes the lock from its owner and pays what is in it. -/
theorem claim_touches (lock : Transaction) (owner id : Text) :
    Ops.Touches ((match lock.recipientId with
        | some r => [(r, Op.pay lock.amount.toNat)]
        | none => []) ++ [(owner, Op.removeLock id)]) known
      ((if lock.amount ≠ 0 then lock.recipientId.toList else []) ++ [owner]) := by
  constructor
  · intro o ho halters
    right
    rcases List.mem_append.mp ho with hpay | hremove
    · split at hpay
      · rename_i r hr
        obtain rfl := List.mem_singleton.mp hpay
        have hamount : lock.amount ≠ 0 := by
          rintro hzero
          simp [Op.alters, hzero] at halters
        rw [if_pos hamount, hr]
        exact List.mem_append_left _ (List.mem_singleton.mpr rfl)
      · cases hpay
    · rw [List.mem_singleton.mp hremove]
      exact List.mem_append_right _ (List.mem_singleton.mpr rfl)
  · intro x hx _ ds
    rcases List.mem_append.mp hx with hpaid | howned
    · split_ifs at hpaid with hamount
      · rw [Option.mem_toList] at hpaid
        refine Ops.holding_ne_of_balance ?_
        rw [Option.mem_def.mp hpaid]
        simp [Op.payment, toNat_ne_zero hamount]
      · cases hpaid
    · rw [List.mem_singleton.mp howned]
      refine Ops.holding_ne_of_settled ?_
      split <;> simp [Op.locksRemoved]

theorem core_touches {type : CoreType} (hsender : sender ∈ known)
    (hrecipient : ∀ r ∈ tx.recipientId, r ∈ known)
    (hpayments : ∀ p ∈ tx.payments, p.recipientId ∈ known)
    (htype : tx.coreType = some type) (h : core E s batch block tx sender type = .ok ops) :
    Ops.Touches ops known (coreReached E s batch tx) := by
  cases type with
  | transfer =>
      rw [coreReached_of_ne (by simp [htype]) (by simp [htype]), ← pure_eq_ok.mp h]
      refine .of_known fun o ho _ => ?_
      unfold transfer at ho
      split at ho
      · cases ho
      · rename_i r hr
        rcases List.mem_cons.mp ho with rfl | ho
        · exact hrecipient r hr
        · split at ho
          · rw [List.mem_singleton.mp ho]
            exact hsender
          · cases ho
  | multiPayment =>
      rw [coreReached_of_ne (by simp [htype]) (by simp [htype]), ← pure_eq_ok.mp h]
      refine .of_known fun o ho _ => ?_
      obtain ⟨p, hp, ho⟩ := List.mem_flatMap.mp ho
      rcases List.mem_pair.mp ho with rfl | rfl
      · exact hpayments p hp
      · exact hsender
  | vote =>
      rw [coreReached_of_ne (by simp [htype]) (by simp [htype]), ← pure_eq_ok.mp h]
      refine .of_known fun o ho _ => ?_
      obtain ⟨v, -, rfl⟩ := List.mem_map.mp ho
      exact hsender
  | delegateRegistration =>
      rw [coreReached_of_ne (by simp [htype]) (by simp [htype])]
      simp only [core] at h
      split at h <;> rw [← pure_eq_ok.mp h] <;> exact .of_known (by simp [hsender])
  | secondSignature =>
      rw [coreReached_of_ne (by simp [htype]) (by simp [htype]), ← pure_eq_ok.mp h]
      refine .of_known fun o ho _ => ?_
      unfold secondSignature at ho
      split at ho
      · cases ho
      · split_ifs at ho <;> rw [List.mem_singleton.mp ho] <;> exact hsender
  | delegateResignation =>
      rw [coreReached_of_ne (by simp [htype]) (by simp [htype]), ← pure_eq_ok.mp h]
      exact .of_known (by simp [hsender])
  | multiSignature =>
      rw [coreReached_of_ne (by simp [htype]) (by simp [htype])]
      simp only [core] at h
      split at h
      · obtain ⟨address, -, h⟩ := bind_eq_ok.mp h
        rw [← pure_eq_ok.mp h]
        exact .of_known (by simp [Op.alters])
      · rw [← pure_eq_ok.mp h]
        exact .of_known (by simp)
  | ipfs =>
      rw [coreReached_of_ne (by simp [htype]) (by simp [htype]), ← pure_eq_ok.mp h]
      exact .of_known (by simp)
  | htlcLock =>
      rw [coreReached_of_ne (by simp [htype]) (by simp [htype])]
      simp only [core] at h
      split at h <;> rw [← pure_eq_ok.mp h] <;> exact .of_known (by simp [hsender])
  | htlcClaim =>
      simp only [core] at h
      cases hasset : tx.asset.bind fun a => a.claim with
      | none =>
          have hsettled : settled E s batch tx = none := by
            simp [settled, settledId, htype, hasset]
          simp only [hasset] at h
          rw [← pure_eq_ok.mp h, coreReached, hsettled]
          exact .of_known (by simp)
      | some c =>
          simp only [hasset] at h
          obtain ⟨found, hfound, h⟩ := bind_eq_ok.mp h
          have hsettled : settled E s batch tx = found.map fun t => (c.lockTransactionId, t) := by
            simp [settled, settledId, htype, hasset, hfound, Except.toOption]
          rw [coreReached, hsettled]
          cases found with
          | none =>
              rw [← pure_eq_ok.mp h]
              exact .of_known (by simp)
          | some lock =>
              obtain ⟨owner, howner, h⟩ := bind_eq_ok.mp h
              rw [← pure_eq_ok.mp h]
              simp only [Option.map_some, howner, Except.toOption, Option.toList_some, htype,
                true_and]
              exact claim_touches lock owner c.lockTransactionId
  | htlcRefund =>
      simp only [core] at h
      cases hasset : tx.asset.bind fun a => a.refund with
      | none =>
          have hsettled : settled E s batch tx = none := by
            simp [settled, settledId, htype, hasset]
          simp only [hasset] at h
          rw [← pure_eq_ok.mp h, coreReached, hsettled]
          exact .of_known (by simp)
      | some c =>
          simp only [hasset] at h
          obtain ⟨found, hfound, h⟩ := bind_eq_ok.mp h
          have hsettled : settled E s batch tx = found.map fun t => (c.lockTransactionId, t) := by
            simp [settled, settledId, htype, hasset, hfound, Except.toOption]
          rw [coreReached, hsettled]
          cases found with
          | none =>
              rw [← pure_eq_ok.mp h]
              exact .of_known (by simp)
          | some lock =>
              obtain ⟨owner, howner, h⟩ := bind_eq_ok.mp h
              rw [← pure_eq_ok.mp h]
              simp only [Option.map_some, howner, Except.toOption, Option.toList_some, htype]
              constructor
              · intro o ho _
                rcases List.mem_pair.mp ho with rfl | rfl <;> simp
              · intro x hx hknown ds
                have howned : x = owner := by simpa using hx
                refine Ops.holding_ne_of_settled ?_
                simp [Op.locksRemoved, howned]

theorem effect_touches (h : effect E s batch block index tx sender ds = .ok ops) :
    Ops.Touches ops (namedWallets tx sender) (effectReached E s batch tx sender ds) := by
  have hsender : sender ∈ namedWallets tx sender := List.mem_cons_self
  unfold effect at h
  unfold effectReached
  cases hsobj : tx.sobjAsset with
  | some e =>
      simp only [hsobj] at h ⊢
      rw [← Except.ok.inj h]
      refine sobj_touches hsender fun r hr => ?_
      simp only [namedWallets, hsobj, List.mem_cons, List.mem_append, Option.mem_toList]
      exact .inr (.inr hr)
  | none =>
      have hcore : ∀ type, tx.coreType = some type →
          core E s batch block tx sender type = .ok ops →
          Ops.Touches ops (namedWallets tx sender) (coreReached E s batch tx) := by
        intro type htype h
        refine core_touches hsender (fun r hr => ?_) (fun p hp => ?_) htype h
        · simp only [namedWallets, List.mem_cons, List.mem_append, Option.mem_toList]
          exact .inr (.inl (.inl (.inl hr)))
        · simp only [namedWallets, List.mem_cons, List.mem_append, List.mem_map]
          exact .inr (.inl (.inl (.inr ⟨p, hp, rfl⟩)))
      have hother : tx.coreType = none → ops = [] →
          Ops.Touches ops (namedWallets tx sender) (coreReached E s batch tx) := by
        rintro htype rfl
        rw [coreReached_of_ne (by simp [htype]) (by simp [htype])]
        exact .of_known (by simp)
      simp only [hsobj] at h ⊢
      cases htype : tx.tokenType with
      | some type =>
          have hgroup : tx.coreType = none := by
            refine coreType_none_of_group fun hgroup => ?_
            simp [Transaction.tokenType, hgroup, typeGroupCore, typeGroupToken] at htype
          cases hasset : tx.tokenAsset with
          | some a =>
              simp only [htype, hasset] at h ⊢
              refine token_touches hsender (fun it hit => ?_) h
              simp only [namedWallets, hasset, List.mem_cons, List.mem_append, List.mem_map]
              exact .inr (.inl (.inr (.inl ⟨it, hit, rfl⟩)))
          | none =>
              simp only [htype, hasset, hgroup] at h ⊢
              exact hother hgroup (Except.ok.inj h).symm
      | none =>
          simp only [htype] at h ⊢
          cases hgroup : tx.coreType with
          | some type =>
              simp only [hgroup] at h
              exact hcore type hgroup h
          | none =>
              simp only [hgroup] at h
              exact hother hgroup (Except.ok.inj h).symm

/-- A wallet that is not listed for a transaction is changed by it exactly when the transaction
reaches it through the state. -/
theorem changed_touched_iff {ds' : Deltas}
    (h : transaction E s batch block tx index ds = .ok ds') (x : Text) :
    ((ds'.get x).holding ≠ (ds.get x).holding → x ∈ touched E tx) ↔
      (x ∈ reached E s batch tx ds → x ∈ touched E tx) := by
  obtain ⟨sender, hsender, h⟩ := bind_eq_ok.mp h
  obtain ⟨ops, heffect, h⟩ := bind_eq_ok.mp h
  obtain rfl := pure_eq_ok.mp h
  have htouches := effect_touches heffect
  have hreached : reached E s batch tx ds =
      effectReached E s batch tx sender (ds.run [(sender, .spend tx)]) := by
    unfold reached
    rw [hsender]
  rw [hreached]
  have hnamed : x ∈ namedWallets tx sender → x ∈ touched E tx := mem_touched hsender
  by_cases hlisted : x ∈ touched E tx
  · exact iff_of_true (fun _ => hlisted) fun _ => hlisted
  · have hknown : x ∉ namedWallets tx sender := fun hx => hlisted (hnamed hx)
    -- only the sender pays for the transaction
    have hbefore : (ds.run [(sender, .spend tx)]).get x = ds.get x := by
      refine Deltas.run_get_of_notMem ds _ x ?_
      rintro hx
      rw [List.map_singleton, List.mem_singleton] at hx
      rw [hx] at hknown
      exact hknown List.mem_cons_self
    constructor
    · intro hchanged hx
      refine hchanged ?_
      rw [← hbefore]
      exact htouches.all x hx hknown _
    · intro hreach hchanged
      refine absurd ?_ hchanged
      rw [Deltas.run_holding, hbefore]
      rintro o ho rfl halters
      rcases htouches.only o ho halters with hnames | hreaches
      · exact hknown hnames
      · exact hlisted (hreach hreaches)

end

end Accumulate

namespace Chain

/-- A transaction of a block, with the deltas before it and after it. -/
def Passes (E : Env) (s : Store) (batch : List Block) (block : Block) (ds : Deltas)
    (tx : Transaction) (d d' : Deltas) : Prop :=
  ∃ ops front index rest, Accumulate.forger E block = .ok ops ∧
    block.transactions.zipIdx = front ++ (tx, index) :: rest ∧
    front.foldlM (fun d e => Accumulate.transaction E s batch block e.1 e.2 d) (ds.run ops) =
      .ok d ∧
    Accumulate.transaction E s batch block tx index d = .ok d'

theorem Passes.transaction {E : Env} {s : Store} {batch : List Block} {block : Block}
    {ds d d' : Deltas} {tx : Transaction} (h : Passes E s batch block ds tx d d') :
    ∃ index, Accumulate.transaction E s batch block tx index d = .ok d' := by
  obtain ⟨_, _, index, _, _, _, _, htx⟩ := h
  exact ⟨index, htx⟩

/-- A wallet other than the generator of the block and the burn address. -/
def Party (E : Env) (block : Block) (x : Text) : Prop :=
  x ≠ E.network.burnAddress ∧ E.addressOf block.generatorPublicKey ≠ .ok x

/-- The transactions of a block are listed for every wallet that they change exactly when they
are listed for every wallet that they reach through the state. -/
theorem changes_listed (E : Env) (s : Store) (batch : List Block) (block : Block) (ds : Deltas) :
    (∀ tx d d', Passes E s batch block ds tx d d' → ∀ x, Party E block x →
        (d'.get x).holding ≠ (d.get x).holding → x ∈ touched E tx) ↔
      ∀ tx d d', Passes E s batch block ds tx d d' → ∀ x, Party E block x →
        x ∈ Accumulate.reached E s batch tx d → x ∈ touched E tx := by
  constructor
  · intro hall tx d d' hpass x hparty
    obtain ⟨index, htx⟩ := hpass.transaction
    exact (Accumulate.changed_touched_iff htx x).mp (hall tx d d' hpass x hparty)
  · intro hall tx d d' hpass x hparty
    obtain ⟨index, htx⟩ := hpass.transaction
    exact (Accumulate.changed_touched_iff htx x).mpr (hall tx d d' hpass x hparty)

open Reference

/-- The second key pair forges the block in which it claims its lock. -/
def settledBlock : Block :=
  second.forge 3 16 (lockBlock.id.getD "") 0 [claimOf (lockTransaction.id.getD "")]

def settledEnv : Env := ⟨primitives, network {}, 16000⟩

def settledClaim : Transaction := claimOf (lockTransaction.id.getD "")

/-- The deltas before and after the first transaction of a block. -/
def around (forger : Except Error Ops) (next : Deltas → Except Error Deltas) :
    Option (Deltas × Deltas) :=
  forger.toOption.bind fun ops =>
    (next ((∅ : Deltas).run ops)).toOption.map fun d' => ((∅ : Deltas).run ops, d')

theorem around_eq_some {forger : Except Error Ops} {next : Deltas → Except Error Deltas}
    {p : Deltas × Deltas} (h : around forger next = some p) :
    ∃ ops, forger = .ok ops ∧ p.1 = (∅ : Deltas).run ops ∧ next p.1 = .ok p.2 := by
  unfold around at h
  cases forger with
  | error e => cases h
  | ok ops =>
      obtain ⟨d', hd', rfl⟩ := Option.map_eq_some_iff.mp h
      refine ⟨ops, rfl, rfl, ?_⟩
      show next ((∅ : Deltas).run ops) = .ok d'
      cases hnext : next ((∅ : Deltas).run ops) with
      | error e =>
          rw [hnext] at hd'
          cases hd'
      | ok d =>
          rw [hnext] at hd'
          exact congrArg Except.ok (Option.some.inj hd')

def settledDeltas : Option (Deltas × Deltas) :=
  around (Accumulate.forger settledEnv settledBlock)
    (Accumulate.transaction settledEnv locked [settledBlock] settledBlock settledClaim 0)

/-- The claim is accepted and takes the lock from the wallet that opened it, and it is not listed
for that wallet. -/
theorem claimed_lock_unlisted :
    (Sync.applyBlocks settledEnv locked [settledBlock] ⟨2, lockBlock.id⟩ true).2 =
        .ok ⟨3, settledBlock.id⟩ ∧
      ∃ d d', Passes settledEnv locked [settledBlock] settledBlock ∅ settledClaim d d' ∧
        Party settledEnv settledBlock first.address ∧
        (d'.get first.address).holding ≠ (d.get first.address).holding ∧
        first.address ∉ touched settledEnv settledClaim := by
  obtain ⟨haccepted, hunlisted, hburn, hgenerator, hsettles, hsome⟩ :
      (Sync.applyBlocks settledEnv locked [settledBlock] ⟨2, lockBlock.id⟩ true).2 =
        .ok ⟨3, settledBlock.id⟩ ∧
      first.address ∉ touched settledEnv settledClaim ∧
      first.address ≠ settledEnv.network.burnAddress ∧
      settledEnv.addressOf settledBlock.generatorPublicKey ≠ .ok first.address ∧
      (∀ p ∈ settledDeltas, (p.2.get first.address).locksRemoved ≠
        (p.1.get first.address).locksRemoved) ∧ settledDeltas.isSome := by
    decide +kernel
  have hplace : settledBlock.transactions.zipIdx = [(settledClaim, 0)] := rfl
  obtain ⟨⟨d, d'⟩, hdeltas⟩ := Option.isSome_iff_exists.mp hsome
  have hremoved := hsettles _ hdeltas
  refine ⟨haccepted, d, d', ?_, ⟨hburn, hgenerator⟩, ?_, hunlisted⟩
  · obtain ⟨ops, hops, hbefore, hafter⟩ := around_eq_some hdeltas
    exact ⟨ops, [], 0, [], hops, hplace, congrArg Except.ok hbefore.symm, hafter⟩
  · intro hsame
    refine hremoved ?_
    exact congrArg Holding.locksRemoved hsame

end Chain

end SthCore
