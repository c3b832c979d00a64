import SthCore.Chain.Chronicle
import SthCore.Chain.Nonces
import SthCore.Crypto.Signing
import SthCore.Crypto.Tokens
import SthCore.Storage.Orders

/-!
How many open orders a seller has after it places one.
-/

namespace SthCore

open SthCore.Lib

namespace Sync

namespace Batch

theorem modifyState_orders (s : Store) (b : Batch) (id : Text) (f : TokenState → TokenState) :
    (b.modifyState s id f).orders = b.orders := by
  unfold modifyState
  split <;> rfl

theorem dropSobject_orders (b : Batch) (address reg : Text) :
    (b.dropSobject address reg).orders = b.orders := by
  unfold dropSobject
  split <;> rfl

theorem foldl_orders {α : Type} {f : Batch → α → Batch} (hf : ∀ b x, (f b x).orders = b.orders)
    (l : List α) (b : Batch) : (l.foldl f b).orders = b.orders := by
  induction l generalizing b with
  | nil => rfl
  | cons x rest ih => rw [List.foldl_cons, ih, hf]

/-- The version of an order that the rules write for a token transaction. -/
def written (s : Store) (b : Batch) (block : Block) (tx : Transaction) (sender : Text) :
    Option (Text × TokenOrder) :=
  match tx.tokenType, tx.tokenAsset with
  | some .sell, some a =>
      some (tx.id.getD "", Accumulate.newOrder a (tx.id.getD "") sender block.height)
  | some .buy, some a => (a.orderId.bind (b.order s)).map fun o =>
      let filled := o.filled + a.amount.getD 0
      (a.orderId.getD "",
        { o with filled, closed := if filled ≥ o.amount then some block.height else o.closed })
  | some .cancel, some a => (a.orderId.bind (b.order s)).map fun o =>
      (a.orderId.getD "", { o with closed := some block.height })
  | _, _ => none

/-- The orders after one of them is written, or none. -/
def withOrder (orders : OrderedMap Text TokenOrder) (w : Option (Text × TokenOrder)) :
    OrderedMap Text TokenOrder :=
  w.elim orders fun p => orders.insert p.1 p.2

theorem applyToken_orders {E : Env} {s : Store} {b : Batch} {block : Block} {tx : Transaction}
    {sender : Text} {type : TokenType} {a : TokenAsset} (htype : tx.tokenType = some type)
    (hasset : tx.tokenAsset = some a) :
    (b.applyToken E s type a sender block.height (tx.id.getD "")).orders =
      withOrder b.orders (b.written s block tx sender) := by
  unfold applyToken written
  rw [htype, hasset]
  cases type with
  | sell => rfl
  | buy =>
      simp only
      cases a.orderId.bind (b.order s) <;> rfl
  | cancel =>
      simp only
      cases a.orderId.bind (b.order s) <;> rfl
  | init => rfl
  | transfer =>
      simp only
      rw [foldl_orders]
      · rfl
      · intro b it
        rfl
  | mint | burn | tokenMeta =>
      simp only
      rw [modifyState_orders]
      rfl

theorem written_congr {s : Store} {b b' : Batch} (h : b'.orders = b.orders) (block : Block)
    (tx : Transaction) (sender : Text) :
    b'.written s block tx sender = b.written s block tx sender := by
  have horder : b'.order s = b.order s := by
    funext id
    unfold order
    rw [h]
  unfold written
  rw [horder]

end Batch

variable {E : Env} {s : Store} {b b' : Batch} {block : Block} {tx : Transaction} {sender : Text}

theorem creditCore_orders (E : Env) (s : Store) (b : Batch) (tx : Transaction) (sender : Text) :
    (creditCore E s b tx sender).orders = b.orders := by
  have hlock : ∀ claim, (creditLock E s b tx claim).orders = b.orders := by
    intro claim
    unfold creditLock
    split
    · rfl
    · split <;> rfl
  unfold creditCore
  split
  · split <;> rfl
  · refine Batch.foldl_orders ?_ _ b
    intro b p
    rfl
  · split <;> rfl
  · exact hlock true
  · exact hlock false
  · rfl

theorem creditForger_orders (E : Env) (b : Batch) (block : Block) :
    (creditForger E b block).orders = b.orders := by
  unfold creditForger
  split <;> rfl

theorem checkKeys_orders {wallet : Option WalletState}
    (h : checkKeys E b block tx sender wallet = .ok b') : b'.orders = b.orders := by
  unfold checkKeys at h
  extract_lets b₁ key at h
  have hb₁ : b₁.orders = b.orders := by
    simp only [b₁]
    split <;> rfl
  obtain ⟨installed, -, h⟩ := bind_eq_ok.mp h
  extract_lets b₂ at h
  have hb₂ : b₂.orders = b.orders := by
    rw [← hb₁]
    simp only [b₂]
    split <;> rfl
  obtain ⟨u, -, h⟩ := bind_eq_ok.mp h
  obtain ⟨registered, -, h⟩ := bind_eq_ok.mp h
  split at h
  · rw [← pure_eq_ok.mp h]
    exact hb₂
  · rw [← pure_eq_ok.mp h]
    exact hb₂

theorem handOver_orders {e : SmartObjectAsset} (h : handOver E s b block tx sender e = .ok b') :
    b'.orders = b.orders := by
  have hmoved : ∀ (b₁ : Batch) (previous next reg : Text) (rec : SmartObject),
      (((b₁.dropSobject previous reg).putSobject next reg rec).setOwner s reg next).orders =
        b₁.orders := by
    intro b₁ previous next reg rec
    unfold Batch.setOwner
    rw [Batch.modifyState_orders]
    exact b₁.dropSobject_orders previous reg
  unfold handOver at h
  extract_lets missing reg at h
  by_cases hbuy : SobjAction.ofCode e.action = some .buy
  · rw [if_pos hbuy] at h
    split at h
    · cases h
    · rename_i owner rec _
      extract_lets price at h
      simp only [pure_bind] at h
      cases hheld : ((((b.credit sender (-price)).credit owner price).held owner)[reg]?).or
          (s.heldSobject owner reg) with
      | none =>
          simp +zetaDelta only [hheld] at h
          cases h
      | some rec =>
          simp +zetaDelta only [hheld] at h
          rw [← pure_eq_ok.mp h]
          exact hmoved _ owner sender reg _
  · rw [if_neg hbuy] at h
    simp only [pure_bind] at h
    cases hheld : ((b.held sender)[reg]?).or (s.heldSobject sender reg) with
    | none =>
        simp +zetaDelta only [hheld] at h
        cases h
    | some rec =>
        simp +zetaDelta only [hheld] at h
        rw [← pure_eq_ok.mp h]
        exact hmoved b sender _ reg _

theorem sobjStep_orders {wallet : Option WalletState}
    (h : sobjStep E s b block tx sender wallet = .ok b') : b'.orders = b.orders := by
  unfold sobjStep at h
  extract_lets missing e action gone name at h
  clear_value name gone action
  split_ifs at h
  · cases h
  · obtain ⟨_, -, h⟩ := bind_eq_ok.mp h
    split at h
    · exact handOver_orders h
    · exact handOver_orders h
    · rw [← pure_eq_ok.mp h]
      rfl
    · split at h
      · cases h
      · rw [← pure_eq_ok.mp h]
        rfl

/-- What a token transaction has passed when it is accepted in the state `b`. -/
structure TokenPassed (E : Env) (s : Store) (b : Batch) (block : Block) (tx : Transaction)
    (sender : Text) (a : TokenAsset) : Prop where
  asset : tx.tokenAsset = some a
  sell : tx.tokenType = some .sell → (b.openOrderIds s sender a.id).length < Rules.maxOpenOrders
  names : tx.tokenType = some .buy ∨ tx.tokenType = some .cancel → a.orderId.isSome

theorem tokenStep_orders {type : TokenType} {wallet : Option WalletState}
    (htype : tx.tokenType = some type) (h : tokenStep E s b block tx sender type wallet = .ok b') :
    b'.orders = Batch.withOrder b.orders (b.written s block tx sender) ∧
      ∃ a, TokenPassed E s b block tx sender a := by
  unfold tokenStep at h
  extract_lets ms at h
  split_ifs at h
  · cases h
  · obtain ⟨a, hformat, h⟩ := bind_eq_ok.mp h
    obtain ⟨u, hcheck, h⟩ := bind_eq_ok.mp h
    obtain ⟨type', htype', hasset, -, -, -, fee, hfee, -⟩ :=
      Rules.checkTokenFormat_ok.mp (ruled_ok.mp hformat)
    obtain rfl := Option.some.inj (htype.symm.trans htype')
    obtain ⟨b₁, horders, h⟩ : ∃ b₁ : Batch, b₁.orders = b.orders ∧
        pure (b₁.applyToken E s type a sender block.height (tx.id.getD "")) = Except.ok b' := by
      by_cases hbuy : type = .buy
      · rw [if_pos hbuy] at h
        obtain ⟨b₁, hb₁, h⟩ := bind_eq_ok.mp h
        refine ⟨b₁, ?_, h⟩
        unfold checkTokenBuy at hb₁
        extract_lets total balance seller at hb₁
        split_ifs at hb₁
        rw [← Except.ok.inj hb₁]
        rfl
      · rw [if_neg hbuy] at h
        obtain ⟨b₁, hb₁, h⟩ := bind_eq_ok.mp h
        exact ⟨b₁, by rw [← Except.ok.inj hb₁], h⟩
    refine ⟨?_, a, hasset, ?_, ?_⟩
    · rw [← pure_eq_ok.mp h, Batch.applyToken_orders htype hasset, Batch.written_congr horders,
        horders]
    · intro hsell
      obtain rfl := Option.some.inj (htype.symm.trans hsell)
      have hcount := ruled_ok.mp hcheck
      unfold Rules.checkToken Rules.checkSell at hcount
      simp only [bind_eq_ok, Rules.need_ok, Rules.refuse_ok, exists_and_left,
        decide_eq_false_iff_not, not_le] at hcount
      obtain ⟨st, -, u, -, hfew⟩ := hcount
      exact hfew
    · intro hmarket
      have hid : ∀ t, t ≠ .sell → Rules.checkMarketFormat ms a t = .ok () → a.orderId.isSome := by
        intro t ht hok
        obtain ⟨-, hany, -⟩ := (Rules.checkMarketFormat_ok ht).mp hok
        cases horder : a.orderId with
        | none => simp [horder] at hany
        | some id => rfl
      rcases hmarket with hbuy | hcancel
      · obtain rfl := Option.some.inj (htype.symm.trans hbuy)
        obtain ⟨u, hok, -⟩ := bind_eq_ok.mp hfee
        exact hid .buy (by decide) hok
      · obtain rfl := Option.some.inj (htype.symm.trans hcancel)
        obtain ⟨u, hok, -⟩ := bind_eq_ok.mp hfee
        exact hid .cancel (by decide) hok

/-- An accepted transaction writes its order into the state of the rules, and no other. -/
theorem checkTx_orders (h : checkTx E s block b tx = .ok b') :
    ∃ sender, E.addressOf tx.senderPublicKey = .ok sender ∧
      b'.orders = Batch.withOrder b.orders (b.written s block tx sender) ∧
      (tx.tokenType.isSome → ∃ a, TokenPassed E s b block tx sender a) := by
  obtain ⟨sender, hsender, h⟩ := bind_eq_ok.mp h
  extract_lets wallet cost b₁ at h
  obtain ⟨_, -, h⟩ := bind_eq_ok.mp h
  obtain ⟨b₂, hkeys, h⟩ := bind_eq_ok.mp h
  have hb₂ : b₂.orders = b.orders := (checkKeys_orders hkeys).trans (creditCore_orders E s _ tx sender)
  refine ⟨sender, hsender, ?_⟩
  cases htype : tx.tokenType with
  | some type =>
      simp only [htype] at h
      obtain ⟨horders, a, hpassed⟩ := tokenStep_orders htype h
      refine ⟨?_, fun _ => ⟨a, hpassed.asset, ?_, hpassed.names⟩⟩
      · rw [horders, Batch.written_congr hb₂, hb₂]
      · intro hsell
        have hfew := hpassed.sell hsell
        unfold Batch.openOrderIds at hfew ⊢
        rwa [hb₂] at hfew
  | none =>
      simp only [htype] at h
      have hnone : b.written s block tx sender = none := by
        unfold Batch.written
        rw [htype]
      refine ⟨?_, fun hsome => by cases hsome⟩
      rw [hnone]
      change b'.orders = b.orders
      rw [← hb₂]
      split_ifs at h
      · exact sobjStep_orders h
      · rw [← pure_eq_ok.mp h]

end Sync

namespace Chain

open Sync (Batch)

/-- One transaction of a sub-batch with the deltas before and after it. -/
structure Turn where
  block : Block
  tx : Transaction
  before : Deltas
  after : Deltas

/-- The transactions of a block, one after another. -/
def blockTurns (E : Env) (s : Store) (batch : List Block) (block : Block) :
    List (Transaction × Nat) → Deltas → List Turn
  | [], _ => []
  | e :: rest, ds =>
      match Accumulate.transaction E s batch block e.1 e.2 ds with
      | .ok ds' => ⟨block, e.1, ds, ds'⟩ :: blockTurns E s batch block rest ds'
      | .error _ => []

/-- The transactions of a sub-batch, block by block. -/
def batchTurns (E : Env) (s : Store) (batch : List Block) : List Block → Deltas → List Turn
  | [], _ => []
  | block :: rest, ds =>
      match Accumulate.forger E block, accumulateDeltas E s batch block ds with
      | .ok ops, .ok ds' =>
          blockTurns E s batch block block.transactions.zipIdx (ds.run ops) ++
            batchTurns E s batch rest ds'
      | _, _ => []

/-- An open order of a seller for a token, after some deltas. -/
def OpenOrder (s : Store) (ds : Deltas) (seller tokenId id : Text) : Prop :=
  ∃ o, s.liveOrder ds id = some o ∧ o.isOpen ∧ o.seller = seller ∧ o.tokenId = tokenId

/-- The limit of a milestone, which means 64 when it says 0. -/
def openOrderLimit (ms : Milestone) : Nat :=
  if ms.tokenMarket.maxOpenOrders = 0 then 64 else ms.tokenMarket.maxOpenOrders.toNat

/-- After a sell its seller has at most the limit of open orders for the token. -/
def Turn.Within (E : Env) (s : Store) (t : Turn) : Prop :=
  t.tx.tokenType = some .sell → ∀ seller a, E.addressOf t.tx.senderPublicKey = .ok seller →
    t.tx.tokenAsset = some a → ∀ ids : List Text, ids.Nodup →
      (∀ id ∈ ids, OpenOrder s t.after seller a.id id) →
      ids.length ≤ openOrderLimit (E.network.milestone t.block.height)

/-- A sell does not come under the id of another seller's order that is pending. -/
def Turn.Fresh (E : Env) (t : Turn) : Prop :=
  t.tx.tokenType = some .sell → ∀ p, t.before.pendingOrder (t.tx.id.getD "") = some p →
    E.addressOf t.tx.senderPublicKey = .ok p.seller

/-- The condition that all sells of a sub-batch are fresh, and that they respect the limit. -/
def SellsFresh : Condition := fun E s c => ∀ t ∈ batchTurns E s c c ∅, t.Fresh E

def SellsWithin : Condition := fun E s c => ∀ t ∈ batchTurns E s c c ∅, t.Within E s

/-- A block that holds a sell has no limit below the constant of the rules. -/
def LimitAgrees (E : Env) (block : Block) : Prop :=
  (∃ tx ∈ block.transactions, tx.tokenType = some .sell) →
    Rules.maxOpenOrders ≤ openOrderLimit (E.network.milestone block.height)

/-- The rules, which read the store at the start of a call, and the deltas over the store so far
see the same orders. -/
structure Aligned (start s : Store) (b : Batch) (ds : Deltas) : Prop where
  same : ∀ id, (b.order start id).map TokenOrder.bare = (s.liveOrder ds id).map TokenOrder.bare
  placed : ds.Placed
  keyed : ∀ (id : Text) o, b.orders[id]? = some o → o.id = id

variable {E : Env} {start s : Store} {b b' : Batch} {ds ds' : Deltas} {batch : List Block}
  {block : Block} {tx : Transaction} {index : Nat}

theorem bare_fields {o p : TokenOrder} (h : o.bare = p.bare) :
    o.id = p.id ∧ o.tokenId = p.tokenId ∧ o.seller = p.seller ∧ o.amount = p.amount ∧
    o.filled = p.filled ∧ o.price = p.price ∧ o.height = p.height ∧ o.closed = p.closed := by
  unfold TokenOrder.bare at h
  injection h with h₁ h₂ h₃ h₄ h₅ h₆ h₇ h₈
  exact ⟨h₁, h₂, h₃, h₄, h₅, h₆, h₇, h₈⟩

theorem exists_bare {x y : Option TokenOrder} (h : x.map TokenOrder.bare = y.map TokenOrder.bare)
    {o : TokenOrder} (ho : y = some o) : ∃ p, x = some p ∧ p.bare = o.bare := by
  rw [ho] at h
  obtain ⟨p, hp, hbare⟩ := Option.map_eq_some_iff.mp h
  exact ⟨p, hp, hbare⟩

/-- A fold that puts open orders into a list of ids and takes closed ones out of it. -/
theorem mem_foldl_ids {l : List TokenOrder} {o : TokenOrder} (ho : o ∈ l) (hopen : o.isOpen)
    (hone : ∀ p ∈ l, p.id = o.id → p = o) (ids : List Text) :
    o.id ∈ l.foldl (fun ids o => if o.isOpen then ids.insert o.id else ids.filter (· ≠ o.id))
      ids := by
  have hkeep : ∀ (l : List TokenOrder) (ids : List Text), (∀ p ∈ l, p.id = o.id → p = o) →
      o.id ∈ ids → o.id ∈ l.foldl (fun ids o =>
        if o.isOpen then ids.insert o.id else ids.filter (· ≠ o.id)) ids := by
    intro l
    induction l with
    | nil => exact fun ids _ h => h
    | cons p rest ih =>
        intro ids hone h
        refine ih _ (fun q hq => hone q (List.mem_cons_of_mem p hq)) ?_
        dsimp only
        split_ifs with hp
        · exact List.mem_insert_of_mem h
        · refine List.mem_filter.mpr ⟨h, decide_eq_true fun hid => hp ?_⟩
          rw [hone p List.mem_cons_self hid.symm]
          exact hopen
  induction l generalizing ids with
  | nil => cases ho
  | cons p rest ih =>
      have hrest := fun q hq => hone q (List.mem_cons_of_mem p hq)
      rw [List.foldl_cons]
      rcases List.mem_cons.mp ho with rfl | hlater
      · refine hkeep rest _ hrest ?_
        rw [if_pos hopen]
        exact List.mem_insert_self
      · exact ih hlater hrest _

theorem mem_foldl_ids_of_ne {l : List TokenOrder} {id : Text} (h : ∀ p ∈ l, p.id ≠ id)
    {ids : List Text} (hid : id ∈ ids) :
    id ∈ l.foldl (fun ids o => if o.isOpen then ids.insert o.id else ids.filter (· ≠ o.id))
      ids := by
  induction l generalizing ids with
  | nil => exact hid
  | cons p rest ih =>
      refine ih (fun q hq => h q (List.mem_cons_of_mem p hq)) ?_
      dsimp only
      split_ifs
      · exact List.mem_insert_of_mem hid
      · exact List.mem_filter.mpr ⟨hid, decide_eq_true fun heq => h p List.mem_cons_self heq.symm⟩

/-- The book that the rules count holds every open order that they see. -/
theorem mem_openOrderIds (hstart : start.OrdersIndexed)
    (hkeyed : ∀ (id : Text) o, b.orders[id]? = some o → o.id = id) {id : Text} {o : TokenOrder}
    (ho : b.order start id = some o) (hopen : o.isOpen) :
    id ∈ b.openOrderIds start o.seller o.tokenId := by
  unfold Sync.Batch.openOrderIds
  simp only
  have htouched : ∀ p, p ∈ ((b.orders.toList.map (·.2)).filter fun p =>
      p.seller = o.seller && p.tokenId = o.tokenId) ↔
      (b.orders[p.id]? = some p ∧ p.seller = o.seller ∧ p.tokenId = o.tokenId) := by
    intro p
    rw [List.mem_filter, List.mem_map, Bool.and_eq_true, decide_eq_true_eq, decide_eq_true_eq]
    refine and_congr_left fun _ => ?_
    constructor
    · rintro ⟨e, he, rfl⟩
      have hget := Std.ExtTreeMap.mem_toList_iff_getElem?_eq_some.mp he
      rwa [hkeyed e.1 e.2 hget]
    · intro hget
      exact ⟨(p.id, p), Std.ExtTreeMap.mem_toList_iff_getElem?_eq_some.mpr hget, rfl⟩
  unfold Sync.Batch.order at ho
  cases hpending : b.orders[id]? with
  | some p =>
      rw [hpending] at ho
      obtain rfl := Option.some.inj ho
      obtain rfl := hkeyed id p hpending
      refine mem_foldl_ids ((htouched p).mpr ⟨hpending, rfl, rfl⟩) hopen (fun q hq hid => ?_) _
      obtain ⟨hget, -⟩ := (htouched q).mp hq
      rw [hid, hpending] at hget
      exact (Option.some.inj hget).symm
  | none =>
      rw [hpending, Option.none_or] at ho
      refine mem_foldl_ids_of_ne (fun q hq hid => ?_) ?_
      · obtain ⟨hget, -⟩ := (htouched q).mp hq
        rw [hid, hpending] at hget
        cases hget
      · have hid := hstart.own id o ho
        rw [List.mem_dedup, List.mem_map]
        refine ⟨o, List.mem_filter.mpr ⟨?_, decide_eq_true rfl⟩, hid⟩
        unfold Store.walletOrders
        rw [List.mem_insertionSort, List.mem_filterMap]
        refine ⟨((o.seller, id), id), List.mem_filter.mpr ⟨?_, decide_eq_true rfl⟩, ho⟩
        exact Std.ExtTreeMap.mem_toList_iff_getElem?_eq_some.mpr (hstart.listed id o ho hopen)

/-- Rules and deltas write the same version of the same order, or both none. -/
theorem Aligned.written (h : Aligned start s b ds) (hs : s.OrdersIndexed) {sender : Text}
    (hpassed : tx.tokenType.isSome → ∃ a, Sync.TokenPassed E start b block tx sender a)
    (hfresh : tx.tokenType = some .sell → ∀ p, ds.pendingOrder (tx.id.getD "") = some p →
      p.seller = sender) :
    (b.written start block tx sender = none ∧
      Accumulate.writtenOrder s ds block tx sender = none) ∨
    ∃ oid p o, b.written start block tx sender = some (oid, p) ∧
      Accumulate.writtenOrder s ds block tx sender = some (o.seller, oid, o) ∧
      p.bare = o.bare ∧ o.id = oid ∧
      ∀ q, ds.pendingOrder oid = some q → q.seller = o.seller := by
  unfold Sync.Batch.written Accumulate.writtenOrder
  have hown : ∀ oid o, s.liveOrder ds oid = some o → o.id = oid := by
    intro oid o ho
    unfold Store.liveOrder at ho
    cases hpending : ds.pendingOrder oid with
    | some p =>
        rw [hpending] at ho
        obtain ⟨a, ha⟩ := (Deltas.pendingOrder_eq_some h.placed).mp hpending
        rw [← Option.some.inj ho]
        exact (h.placed.own a oid p ha).1
    | none =>
        rw [hpending] at ho
        exact hs.own oid o ho
  have hlive : ∀ oid o, s.liveOrder ds oid = some o → ∀ q, ds.pendingOrder oid = some q →
      q.seller = o.seller := by
    intro oid o ho q hq
    unfold Store.liveOrder at ho
    rw [hq] at ho
    rw [Option.some.inj ho]
  have horderOf : ∀ oid, (Accumulate.orderOf s ds oid).toOption = s.liveOrder ds oid := by
    intro oid
    unfold Accumulate.orderOf Store.liveOrder
    cases (ds.pendingOrder oid).or (s.tokenOrder oid) <;> rfl
  cases htype : tx.tokenType with
  | none => exact .inl ⟨rfl, rfl⟩
  | some type =>
      obtain ⟨a, hpass⟩ := hpassed (by rw [htype]; rfl)
      simp only [hpass.asset, horderOf]
      have hcase : ∀ (update : TokenOrder → TokenOrder) (change : TokenOrder → TokenOrder),
          a.orderId.isSome → (∀ o, (change o).id = o.id ∧ (change o).seller = o.seller) →
          (∀ p o : TokenOrder, p.bare = o.bare → (update p).bare = (change o).bare) →
          (((a.orderId.bind (b.order start)).map fun p => (a.orderId.getD "", update p)) = none ∧
            ((s.liveOrder ds (a.orderId.getD "")).map fun o =>
              (o.seller, a.orderId.getD "", change o)) = none) ∨
          ∃ oid p o, ((a.orderId.bind (b.order start)).map fun p =>
              (a.orderId.getD "", update p)) = some (oid, p) ∧
            ((s.liveOrder ds (a.orderId.getD "")).map fun o =>
              (o.seller, a.orderId.getD "", change o)) = some (o.seller, oid, o) ∧
            p.bare = o.bare ∧ o.id = oid ∧
            ∀ q, ds.pendingOrder oid = some q → q.seller = o.seller := by
        intro update change hid hkept hsame
        obtain ⟨oid, horder⟩ := Option.isSome_iff_exists.mp hid
        rw [horder]
        simp only [Option.bind_some, Option.getD_some]
        have hbare := h.same oid
        cases hfound : s.liveOrder ds oid with
        | none =>
            rw [hfound, Option.map_none, Option.map_eq_none_iff] at hbare
            rw [hbare]
            exact .inl ⟨rfl, rfl⟩
        | some o =>
            obtain ⟨p, hp, hpo⟩ := exists_bare hbare hfound
            rw [hp]
            refine .inr ⟨oid, update p, change o, rfl, ?_, hsame p o hpo, ?_, ?_⟩
            · rw [Option.map_some, (hkept o).2]
            · rw [(hkept o).1]
              exact hown oid o hfound
            · rw [(hkept o).2]
              exact hlive oid o hfound
      cases type with
      | sell =>
          exact .inr ⟨_, _, Accumulate.newOrder a (tx.id.getD "") sender block.height, rfl, rfl, rfl,
            rfl, hfresh htype⟩
      | buy =>
          refine hcase _ (fun o => Accumulate.fillOrder o (a.amount.getD 0) (tx.id.getD "")
            block.height) (hpass.names (.inl htype)) (fun o => ⟨rfl, rfl⟩) ?_
          intro p o hpo
          obtain ⟨hid, htoken, hseller, hamount, hfilled, hprice, hheight, hclosed⟩ :=
            bare_fields hpo
          unfold TokenOrder.bare Accumulate.fillOrder
          simp only [hid, htoken, hseller, hamount, hfilled, hprice, hheight, hclosed]
      | cancel =>
          refine hcase _ (fun o => Accumulate.closeOrder o block.height)
            (hpass.names (.inr htype)) (fun o => ⟨rfl, rfl⟩) ?_
          intro p o hpo
          obtain ⟨hid, htoken, hseller, hamount, hfilled, hprice, hheight, -⟩ := bare_fields hpo
          unfold TokenOrder.bare Accumulate.closeOrder
          simp only [hid, htoken, hseller, hamount, hfilled, hprice, hheight]
      | _ => exact .inl ⟨rfl, rfl⟩

theorem aligned_congr (h : Aligned start s b ds) (hb : b'.orders = b.orders)
    (hds : ∀ x id, ds'.orderAt x id = ds.orderAt x id) : Aligned start s b' ds' := by
  have hplaced : ds'.Placed := by
    constructor
    · intro a id o ho
      rw [hds] at ho
      exact h.placed.own a id o ho
    · intro a c id ha hc
      rw [hds] at ha hc
      exact h.placed.alone a c id ha hc
  refine ⟨fun id => ?_, hplaced, ?_⟩
  · have hsame := h.same id
    unfold Sync.Batch.order Store.liveOrder at hsame ⊢
    rwa [hb, Deltas.pendingOrder_congr h.placed hplaced fun a => hds a id]
  · rw [hb]
    exact h.keyed

theorem Aligned.step (h : Aligned start s b ds) (hs : s.OrdersIndexed)
    (hrules : Sync.checkTx E start block b tx = .ok b')
    (htx : Accumulate.transaction E s batch block tx index ds = .ok ds')
    (hfresh : Turn.Fresh E ⟨block, tx, ds, ds'⟩) : Aligned start s b' ds' := by
  obtain ⟨sender, hsender, horders, hpassed⟩ := Sync.checkTx_orders hrules
  obtain ⟨address, ops, haddress, heffect, rfl⟩ := Accumulate.transaction_eq_ok htx
  obtain rfl := Except.ok.inj (hsender.symm.trans haddress)
  have hspend : ∀ x id, (ds.run [(sender, .spend tx)]).orderAt x id = ds.orderAt x id :=
    Deltas.run_orderAt_of_nil rfl
  have hbase : Aligned start s b (ds.run [(sender, .spend tx)]) := aligned_congr h rfl hspend
  have hwrites := Accumulate.effect_orders heffect
  change Aligned start s b' ((ds.run [(sender, .spend tx)]).run ops)
  have hsell : tx.tokenType = some .sell → ∀ p,
      (ds.run [(sender, .spend tx)]).pendingOrder (tx.id.getD "") = some p → p.seller = sender := by
    intro htype p hp
    rw [Deltas.pendingOrder_congr h.placed hbase.placed fun a => hspend a _] at hp
    exact Except.ok.inj ((hfresh htype p hp).symm.trans haddress)
  rcases hbase.written hs hpassed hsell with ⟨hrule, hdelta⟩ | ⟨oid, p, o, hrule, hdelta, hbare, hid,
    hfree⟩
  · rw [hdelta] at hwrites
    rw [hrule] at horders
    exact aligned_congr hbase horders (Deltas.run_orderAt_of_nil hwrites)
  · rw [hdelta] at hwrites
    rw [hrule] at horders
    obtain ⟨hplaced, hpending⟩ := hbase.placed.put hid rfl hfree (Deltas.run_orderAt hwrites)
    change b'.orders = b.orders.insert oid p at horders
    refine ⟨fun id => ?_, hplaced, fun id q hq => ?_⟩
    · have hsame := hbase.same id
      unfold Sync.Batch.order Store.liveOrder at hsame ⊢
      rw [horders, hpending, OrderedMap.getElem?_insert_eq]
      split_ifs
      · exact congrArg some hbare
      · exact hsame
    · rw [horders, OrderedMap.getElem?_insert_eq] at hq
      split_ifs at hq with hoid
      · rw [← Option.some.inj hq, ← hoid, ← hid]
        exact (bare_fields hbare).1
      · exact h.keyed id q hq

/-- The new order and those that the rules have counted are all that the seller has. -/
theorem Aligned.within (h : Aligned start s b ds) (hstart : start.OrdersIndexed)
    (hrules : Sync.checkTx E start block b tx = .ok b') (hafter : Aligned start s b' ds')
    (hlimit : tx.tokenType = some .sell →
      Rules.maxOpenOrders ≤ openOrderLimit (E.network.milestone block.height)) :
    Turn.Within E s ⟨block, tx, ds, ds'⟩ := by
  intro htype seller a hseller hasset ids hnodup hopen
  simp only at htype hseller hasset hopen ⊢
  obtain ⟨sender, hsender, horders, hpassed⟩ := Sync.checkTx_orders hrules
  obtain rfl := Except.ok.inj (hsender.symm.trans hseller)
  obtain ⟨a', hpass⟩ := hpassed (by rw [htype]; rfl)
  obtain rfl := Option.some.inj (hasset.symm.trans hpass.asset)
  have hfew := hpass.sell htype
  have hsub : ids.erase (tx.id.getD "") ⊆ b.openOrderIds start sender a.id := by
    intro id hid
    obtain ⟨hne, hmem⟩ := (List.Nodup.mem_erase_iff hnodup).mp hid
    obtain ⟨o, ho, hopens, hsame, htoken⟩ := hopen id hmem
    obtain ⟨p, hp, hbare⟩ := exists_bare (hafter.same id) ho
    obtain ⟨-, htoken', hseller', -, -, -, -, hclosed⟩ := bare_fields hbare
    have hold : b.order start id = some p := by
      unfold Sync.Batch.order at hp ⊢
      unfold Sync.Batch.written at horders
      rw [htype, hasset] at horders
      change b'.orders = b.orders.insert _ _ at horders
      rwa [horders, OrderedMap.getElem?_insert_eq, if_neg fun heq => hne heq.symm] at hp
    have hpopen : p.isOpen := by
      unfold TokenOrder.isOpen at hopens ⊢
      rwa [hclosed]
    have hlisted := mem_openOrderIds hstart h.keyed hold hpopen
    rwa [hseller', hsame, htoken', htoken] at hlisted
  have hcount := (List.subperm_of_subset (hnodup.erase _) hsub).length_le
  have herase := List.length_erase (a := tx.id.getD "") (l := ids)
  have := hlimit htype
  split_ifs at herase <;> omega

/-- The transactions of one block. -/
theorem blockTurns_within (hstart : start.OrdersIndexed) (hs : s.OrdersIndexed)
    (hlimit : LimitAgrees E block) {txs : List Transaction}
    (hmem : ∀ tx ∈ txs, tx ∈ block.transactions) {first : Nat}
    (hfresh : ∀ t ∈ blockTurns E s batch block (txs.zipIdx first) ds, t.Fresh E)
    (hrules : txs.foldlM (Sync.checkTx E start block) b = .ok b') (h : Aligned start s b ds) :
    (∀ t ∈ blockTurns E s batch block (txs.zipIdx first) ds, t.Within E s) ∧
    ∀ ds', (txs.zipIdx first).foldlM (fun ds e =>
      Accumulate.transaction E s batch block e.1 e.2 ds) ds = .ok ds' → Aligned start s b' ds' := by
  induction txs generalizing first b ds with
  | nil =>
      rw [List.foldlM_nil, pure_eq_ok] at hrules
      refine ⟨fun t ht => absurd ht List.not_mem_nil, fun ds' hds => ?_⟩
      rw [List.zipIdx_nil, List.foldlM_nil, pure_eq_ok] at hds
      rw [← hrules, ← hds]
      exact h
  | cons tx rest ih =>
      obtain ⟨b₁, hcheck, hrules⟩ := foldlM_cons_ok.mp hrules
      rw [List.zipIdx_cons] at hfresh ⊢
      unfold blockTurns at hfresh ⊢
      cases htx : Accumulate.transaction E s batch block tx first ds with
      | error e =>
          refine ⟨fun t ht => absurd ht List.not_mem_nil, fun ds' hds => ?_⟩
          obtain ⟨ds₁, hds₁, -⟩ := foldlM_cons_ok.mp hds
          rw [htx] at hds₁
          cases hds₁
      | ok ds₁ =>
          simp only [htx] at hfresh ⊢
          have hnext := h.step hs hcheck htx (hfresh _ List.mem_cons_self)
          obtain ⟨hrest, hdone⟩ := ih (fun t ht => hmem t (List.mem_cons_of_mem tx ht))
            (fun t ht => hfresh t (List.mem_cons_of_mem _ ht)) hrules hnext
          refine ⟨fun t ht => ?_, fun ds' hds => ?_⟩
          · rcases List.mem_cons.mp ht with rfl | ht
            · exact h.within hstart hcheck hnext fun hsell =>
                hlimit ⟨tx, hmem tx List.mem_cons_self, hsell⟩
            · exact hrest t ht
          · obtain ⟨ds₂, hds₂, hds⟩ := foldlM_cons_ok.mp hds
            rw [htx] at hds₂
            rw [← Except.ok.inj hds₂] at hds
            exact hdone ds' hds

theorem forger_orders {ops : Ops} (h : Accumulate.forger E block = .ok ops) : ops.orders = [] := by
  obtain ⟨generator, -, rfl⟩ := Accumulate.forger_eq_ok h
  split_ifs <;> rfl

/-- The blocks of a sub-batch. -/
theorem batchTurns_within (hstart : start.OrdersIndexed) (hs : s.OrdersIndexed)
    {blocks : List Block} (hlimit : ∀ block ∈ blocks, LimitAgrees E block)
    (hfresh : ∀ t ∈ batchTurns E s batch blocks ds, t.Fresh E)
    (hrules : blocks.foldlM (Sync.checkBlock E start) b = .ok b') (h : Aligned start s b ds) :
    (∀ t ∈ batchTurns E s batch blocks ds, t.Within E s) ∧
    ∀ ds', blocks.foldlM (fun ds block => accumulateDeltas E s batch block ds) ds = .ok ds' →
      Aligned start s b' ds' := by
  induction blocks generalizing b ds with
  | nil =>
      rw [List.foldlM_nil, pure_eq_ok] at hrules
      refine ⟨fun t ht => absurd ht List.not_mem_nil, fun ds' hds => ?_⟩
      rw [List.foldlM_nil, pure_eq_ok] at hds
      rw [← hrules, ← hds]
      exact h
  | cons block rest ih =>
      obtain ⟨b₁, hcheck, hrules⟩ := foldlM_cons_ok.mp hrules
      obtain ⟨u, -, hcheck⟩ := bind_eq_ok.mp hcheck
      obtain ⟨b₂, hchecked, hcheck⟩ := bind_eq_ok.mp hcheck
      rw [pure_eq_ok] at hcheck
      unfold batchTurns at hfresh ⊢
      cases hblock : accumulateDeltas E s batch block ds with
      | error e =>
          refine ⟨fun t ht => ?_, fun ds' hds => ?_⟩
          · cases hops : Accumulate.forger E block with
            | error e' =>
                rw [hops] at ht
                cases ht
            | ok ops =>
                rw [hops] at ht
                cases ht
          · obtain ⟨ds₁, hds₁, -⟩ := foldlM_cons_ok.mp hds
            rw [hblock] at hds₁
            cases hds₁
      | ok ds₁ =>
          obtain ⟨ops, hops, htxs⟩ := bind_eq_ok.mp hblock
          simp only [hblock, hops] at hfresh ⊢
          have hforged : Aligned start s b (ds.run ops) :=
            aligned_congr h rfl (Deltas.run_orderAt_of_nil (forger_orders hops))
          obtain ⟨hown, hdone⟩ := blockTurns_within hstart hs (hlimit block List.mem_cons_self)
            (fun _ ht => ht) (fun t ht => hfresh t (List.mem_append_left _ ht)) hchecked hforged
          have hcredited : Aligned start s b₁ ds₁ := by
            refine aligned_congr (hdone ds₁ htxs) ?_ fun _ _ => rfl
            rw [← hcheck]
            exact Sync.creditForger_orders E b₂ block
          obtain ⟨hrest, hlast⟩ := ih (fun c hc => hlimit c (List.mem_cons_of_mem block hc))
            (fun t ht => hfresh t (List.mem_append_right _ ht)) hrules hcredited
          refine ⟨fun t ht => ?_, fun ds' hds => ?_⟩
          · rcases List.mem_append.mp ht with ht | ht
            · exact hown t ht
            · exact hrest t ht
          · obtain ⟨ds₂, hds₂, hds⟩ := foldlM_cons_ok.mp hds
            rw [hblock] at hds₂
            rw [← Except.ok.inj hds₂] at hds
            exact hlast ds' hds

theorem Aligned.committed {s' : Store} {prepared : List (Block × List Bytes)}
    (c : Store.Committed E s prepared s') (h : Aligned start s b c.ds) :
    Aligned start s' b ∅ := by
  have hsame : s'.orders = c.wallets.orders := c.sameLedger.sameOrders.1
  refine ⟨fun id => ?_, Deltas.placed_empty, h.keyed⟩
  rw [h.same]
  have hstored := Store.writeEntries_tokenOrder c.written h.placed id
  unfold Store.tokenOrder at hstored
  change _ = (s'.orders[id]?).map TokenOrder.bare
  rw [hsame, hstored]

theorem ordersIndexed_committed {s' : Store} {prepared : List (Block × List Bytes)}
    (c : Store.Committed E s prepared s') (hs : s.OrdersIndexed) : s'.OrdersIndexed := by
  have hledger := (c.sameLedger).sameOrders
  exact (hs.written c.written).congr hledger.1 hledger.2

/-- The sub-batches of a call, each on the store that those before it leave. -/
theorem eachChunk_within {P : Primitives} {N : Network} {now : Int} {force : Bool}
    (hstart : start.OrdersIndexed) {chunks : List (List Block)}
    (hverified : ∀ block ∈ chunks.flatten, Verified ⟨P, N, now⟩ block)
    (hlimit : ∀ block ∈ chunks.flatten, LimitAgrees ⟨P, N, now⟩ block)
    (hfresh : EachChunk SellsFresh ⟨P, N, now⟩ force s chunks)
    (hrules : chunks.flatten.foldlM (Sync.checkBlock ⟨P, N, now⟩ start) b = .ok b')
    (hs : s.OrdersIndexed) (h : Aligned start s b ∅) :
    EachChunk SellsWithin ⟨P, N, now⟩ force s chunks := by
  induction chunks generalizing b s with
  | nil => trivial
  | cons c rest ih =>
      rw [List.flatten_cons, List.foldlM_append] at hrules
      obtain ⟨b₁, hc, hrest⟩ := bind_eq_ok.mp hrules
      rw [List.flatten_cons] at hverified hlimit
      obtain ⟨hwithin, hdone⟩ := batchTurns_within hstart hs
        (fun block hblock => hlimit block (List.mem_append_left _ hblock)) hfresh.1 hc h
      refine ⟨hwithin, fun s' hs' => ?_⟩
      obtain ⟨prepared, hprepared, ⟨committed⟩⟩ := Store.applyLocked_eq_ok hs'
      have hsame : prepared.map (fun p => p.1) = c := prepared_eq
        (fun block hblock => hverified block (List.mem_append_left _ hblock)) hprepared
      have hdeltas := committed.deltas
      rw [hsame] at hdeltas
      exact ih (fun block hblock => hverified block (List.mem_append_right _ hblock))
        (fun block hblock => hlimit block (List.mem_append_right _ hblock)) (hfresh.2 s' hs') hrest
        (ordersIndexed_committed committed hs) ((hdone _ hdeltas).committed committed)

theorem Chronicle.ordersIndexed {P : Primitives} {N : Network} {good : Condition}
    {keep : Store → Prop} {s₀ : Store} (h : Chronicle P N good keep s₀ s)
    (hstart : s₀.OrdersIndexed) : s.OrdersIndexed := by
  refine h.induction_step ?_ ?_ ?_ ?_ hstart
  · rintro start b s c b' s' hstep hs
    exact ordersIndexed_committed hstep.committed hs
  · rintro now s s' hrolled - hs
    exact hs.rolledBack hrolled
  · rintro s certs hs
    exact hs.congr rfl rfl
  · rintro s on hs
    exact hs.congr rfl rfl

theorem ordersIndexed_empty (on : Bool) : ({ undoEnabled := on } : Store).OrdersIndexed := by
  constructor
  · rintro id o h
    cases h
  · rintro id o h
    cases h

end Chain

/-- Whatever has been accepted and rolled back before: in an accepted call whose sells are at
heights with no limit below 64, the seller has after each of them at most the limit of the
milestone of open orders for the token. -/
theorem open_orders_limited (P : Primitives) (N : Network) (on : Bool) (s : Store)
    (hrun : Chain.Chronicle P N Chain.unconditional (fun _ => True) { undoEnabled := on } s)
    (now : Int) (blocks : List Block) (tip tip' : Sync.ChainTip)
    (hchecked : Sync.checkBlocks ⟨P, N, now⟩ s blocks tip true = .ok tip')
    (hlimit : ∀ block ∈ blocks, Chain.LimitAgrees ⟨P, N, now⟩ block)
    (hfresh : Chain.CallMeets Chain.SellsFresh ⟨P, N, now⟩ s blocks) :
    Chain.CallMeets Chain.SellsWithin ⟨P, N, now⟩ s blocks := by
  have hindexed := hrun.ordersIndexed (Chain.ordersIndexed_empty on)
  obtain ⟨b, haccepted⟩ := Chain.accepted_of_checkBlocks hchecked
  have hflat := Store.chunks_flatten ⟨P, N, now⟩ s blocks
  constructor
  have heach := hfresh.each
  generalize s.chunks ⟨P, N, now⟩ blocks = chunks at hflat heach
  rw [← hflat] at haccepted hlimit
  refine Chain.eachChunk_within hindexed haccepted.verified hlimit heach haccepted.rules hindexed ?_
  refine ⟨fun id => rfl, Deltas.placed_empty, ?_⟩
  rintro id o h
  cases h

namespace Reference

/-- The first key pair registers a ticker. -/
def tickerRegistration : Transaction :=
  first.sign {
    type := sobjType, typeGroup := typeGroupSobj, nonce := some 1, senderPublicKey := ""
    fee := 5000000000
    asset := some { sobj := some { type := 5, subType := 0, action := 0
                                   data := { name := some "PIECE" } } } }

def tickerId : Text := tickerRegistration.id.getD ""

/-- It issues 100 pieces of the token. -/
def tickerInit : Transaction :=
  first.sign {
    type := 0, typeGroup := typeGroupToken, nonce := some 2, senderPublicKey := ""
    fee := 50000000000
    asset := some { token := some { id := tickerId, decimals := some 0, flags := some 0
                                    initialSupply := some 100, supplyCap := some 100 } } }

/-- It offers ten of them. -/
def tickerSell (nonce : UInt64) : Transaction :=
  first.sign {
    type := 5, typeGroup := typeGroupToken, nonce := some nonce, senderPublicKey := ""
    fee := 100000000
    asset := some { token := some { id := tickerId, amount := some 10, price := some 5 } } }

/-- A first block with two orders. -/
def marketGenesis : Block :=
  first.forge 1 0 (Hex.encode (beBytes 32 0)) 0
    [tickerRegistration, tickerInit, tickerSell 3, tickerSell 4]

/-- Its network, with a limit of open orders. -/
def marketEnv (maxOpenOrders : UInt32) : Env :=
  ⟨primitives, { network { sobjActive := true, sobjV2 := true, tokens := true
                           tokenMarket := { enabled := true, maxOpenOrders } } with
    nethash := marketGenesis.payloadHash, genesisBlockId := marketGenesis.id.getD "" }, 8000⟩

/-- The transactions of the block when it is written. -/
def marketTurns (maxOpenOrders : UInt32) : List Chain.Turn :=
  Chain.batchTurns (marketEnv maxOpenOrders) {} [marketGenesis] [marketGenesis] ∅

end Reference

open Reference

/-- The sells of the block find no pending order with their id. -/
def turnsFresh (maxOpenOrders : UInt32) : Bool :=
  (marketTurns maxOpenOrders).all fun t => (t.before.pendingOrder (t.tx.id.getD "")).isNone

theorem marketGenesis_fresh (maxOpenOrders : UInt32) (hturns : turnsFresh maxOpenOrders = true) :
    Chain.CallMeets Chain.SellsFresh (marketEnv maxOpenOrders) {} [marketGenesis] := by
  refine Chain.callMeets_single fun t ht _ p hp => ?_
  have hnone := List.all_eq_true.mp hturns t ht
  rw [hp] at hnone
  cases hnone

/-- The first block is accepted with both limits, and with a limit of 1 two orders are open after
the last sell. -/
theorem marketGenesis_accepted :
    ((Sync.checkBlocks (marketEnv 0) {} [marketGenesis] ⟨0, none⟩ true).isOk = true ∧
      Rules.maxOpenOrders ≤
        Chain.openOrderLimit ((marketEnv 0).network.milestone marketGenesis.height) ∧
      turnsFresh 0 = true) ∧
    ((Sync.applyBlocks (marketEnv 1) {} [marketGenesis] ⟨0, none⟩ true).2.isOk = true ∧
      Chain.openOrderLimit ((marketEnv 1).network.milestone 1) = 1 ∧ turnsFresh 1 = true) ∧
    (marketTurns 1).any (fun t =>
      decide (t.tx = tickerSell 4 ∧ t.block.height = 1) &&
      [tickerSell 3, tickerSell 4].all fun tx =>
        (({} : Store).liveOrder t.after (tx.id.getD "")).any fun o =>
          o.isOpen && decide (o.seller = first.address ∧ o.tokenId = tickerId)) = true ∧
    (tickerSell 4).tokenType = some .sell ∧
    Chain.sentBy primitives (marketEnv 1).network first.address (tickerSell 4) = true ∧
    ((tickerSell 4).tokenAsset.map fun a => a.id) = some tickerId ∧
    (tickerSell 3).id.getD "" ≠ (tickerSell 4).id.getD "" := by
  decide +kernel

/-- A limit of 0 stands for 64, and two orders are below it. -/
theorem open_orders_limited_market :
    Chain.CallMeets Chain.SellsWithin (marketEnv 0) {} [marketGenesis] := by
  obtain ⟨⟨hchecked, hlimit, hturns⟩, -⟩ := marketGenesis_accepted
  obtain ⟨tip', htip⟩ := exists_ok_of_isOk hchecked
  refine open_orders_limited primitives (marketEnv 0).network false {} .start 8000 [marketGenesis]
    ⟨0, none⟩ tip' htip ?_ (marketGenesis_fresh 0 hturns)
  rintro block hblock -
  obtain rfl := List.mem_singleton.mp hblock
  exact hlimit

/-- With a limit of 1 the block with two orders is accepted all the same. -/
theorem second_order_accepted :
    (∃ tip, (Sync.applyBlocks (marketEnv 1) {} [marketGenesis] ⟨0, none⟩ true).2 = .ok tip) ∧
    Chain.CallMeets Chain.SellsFresh (marketEnv 1) {} [marketGenesis] ∧
    Chain.openOrderLimit ((marketEnv 1).network.milestone 1) = 1 ∧
    ¬ Chain.CallMeets Chain.SellsWithin (marketEnv 1) {} [marketGenesis] := by
  obtain ⟨-, ⟨haccepted, hlimit, hturns⟩, hlast, htype, haddress, hasset, hne⟩ :=
    marketGenesis_accepted
  refine ⟨exists_ok_of_isOk haccepted, marketGenesis_fresh 1 hturns, hlimit, ?_⟩
  intro hwithin
  obtain ⟨t, ht, hgood⟩ := List.any_eq_true.mp hlast
  rw [Bool.and_eq_true, decide_eq_true_eq] at hgood
  obtain ⟨⟨htx, hheight⟩, hopen⟩ := hgood
  obtain ⟨a, ha, hid⟩ := Option.map_eq_some_iff.mp hasset
  have hseller : (marketEnv 1).addressOf t.tx.senderPublicKey = .ok first.address := by
    rw [htx]
    exact Chain.sentBy_iff.mp haddress
  have hcount := hwithin.each.1 t ht (htx ▸ htype) first.address a hseller (htx ▸ ha)
    [(tickerSell 3).id.getD "", (tickerSell 4).id.getD ""] (by simp [hne]) (by
      intro id hmem
      have hboth : ∃ tx ∈ [tickerSell 3, tickerSell 4], tx.id.getD "" = id := by
        simpa [eq_comm] using hmem
      obtain ⟨tx, hin, rfl⟩ := hboth
      obtain ⟨o, ho, hfields⟩ := (Option.any_eq_true _ _).mp (List.all_eq_true.mp hopen tx hin)
      rw [Bool.and_eq_true, decide_eq_true_eq] at hfields
      exact ⟨o, ho, hfields.1, hfields.2.1, hfields.2.2.trans hid.symm⟩)
  rw [hheight, hlimit] at hcount
  exact absurd hcount (by decide)

end SthCore
