import SthCore.Storage.Reverted
import SthCore.Storage.Trades

/-!
Orders of the token market: what a transaction does to them in the deltas, what a write leaves of
them in the store, and the book of each seller.
-/

namespace SthCore

open SthCore.Lib

/-- An order without the list of its fills. -/
def TokenOrder.bare (o : TokenOrder) : TokenOrder := { o with fills := [] }

/-- The order that a change writes. -/
def Op.order : Op → Option (Text × TokenOrder)
  | putOrder id o => some (id, o)
  | _ => none

/-- The orders that a list of changes writes, each with the address of its delta and its id. -/
def Ops.orders (ops : Ops) : List (Text × Text × TokenOrder) :=
  ops.filterMap fun o => o.2.order.map fun p => (o.1, p.1, p.2)

theorem Op.apply_orders_of_none {op : Op} (h : op.order = none) (d : WalletDelta) :
    (op.apply d).orders = d.orders := by
  cases op with
  | putOrder id o => cases h
  | _ => rfl

theorem Ops.Marketless.orders {ops : Ops} (h : ops.Marketless) : ops.orders = [] := by
  unfold Ops.orders
  rw [List.filterMap_eq_nil_iff]
  rintro ⟨a, op⟩ ho
  have hop := h (a, op) ho
  cases op with
  | putOrder id o => cases hop
  | _ => rfl

namespace Deltas

variable {ds : Deltas} {ops : Ops}

/-- The pending version of an order at an address. -/
def orderAt (ds : Deltas) (address id : Text) : Option TokenOrder := (ds.get address).orders[id]?

theorem run_orderAt_of_nil (h : ops.orders = []) (x id : Text) :
    (ds.run ops).orderAt x id = ds.orderAt x id := by
  unfold orderAt
  rw [run_frame WalletDelta.orders]
  intro o ho d
  refine Op.apply_orders_of_none ?_ d
  have hnone := List.filterMap_eq_nil_iff.mp h o ho
  rwa [Option.map_eq_none_iff] at hnone

theorem run_orderAt {a oid : Text} {o : TokenOrder} (h : ops.orders = [(a, oid, o)])
    (x id : Text) :
    (ds.run ops).orderAt x id = if a = x ∧ oid = id then some o else ds.orderAt x id := by
  induction ops generalizing ds with
  | nil => cases h
  | cons e rest ih =>
      unfold Ops.orders at h
      rw [List.filterMap_cons] at h
      rw [run_cons]
      cases horder : e.2.order with
      | none =>
          rw [horder] at h
          rw [ih h]
          unfold orderAt
          rw [get_upd_frame WalletDelta.orders _ _ _ (Op.apply_orders_of_none horder)]
      | some p =>
          rw [horder] at h
          injection h with hhead hrest
          obtain ⟨rfl, rfl, rfl⟩ : e.1 = a ∧ p.1 = oid ∧ p.2 = o := by
            simpa [Prod.ext_iff] using hhead
          rw [run_orderAt_of_nil hrest]
          unfold orderAt
          rcases e with ⟨address, op⟩
          cases op with
          | putOrder oid o =>
              obtain rfl := Option.some.inj horder
              rw [get_upd]
              by_cases hx : address = x
              · subst hx
                simp only [Op.apply, if_true, true_and]
                rw [OrderedMap.getElem?_insert_eq]
              · simp only [hx, if_false, false_and]
          | _ => cases horder

/-- Every pending order is at its seller, under its id. -/
structure Placed (ds : Deltas) : Prop where
  own : ∀ a id o, ds.orderAt a id = some o → o.id = id ∧ o.seller = a
  alone : ∀ a b id, (ds.orderAt a id).isSome → (ds.orderAt b id).isSome → a = b

theorem placed_empty : Placed ∅ := by
  constructor
  · rintro a id o h
    cases h
  · rintro a b id h
    cases h

theorem pendingOrder_eq_some (h : ds.Placed) {id : Text} {o : TokenOrder} :
    ds.pendingOrder id = some o ↔ ∃ a, ds.orderAt a id = some o := by
  have hat : ∀ e ∈ ds.toList, ds.orderAt e.1 id = e.2.orders[id]? := by
    intro e he
    unfold orderAt get
    rw [Std.ExtTreeMap.mem_toList_iff_getElem?_eq_some.mp he]
    rfl
  constructor
  · intro hpending
    obtain ⟨e, he, ho⟩ := List.exists_of_findSome?_eq_some hpending
    exact ⟨e.1, (hat e he).trans ho⟩
  · rintro ⟨a, ha⟩
    cases hd : ds[a]? with
    | none =>
        unfold orderAt get at ha
        rw [hd] at ha
        cases ha
    | some d =>
        have hmem : (a, d) ∈ ds.toList := Std.ExtTreeMap.mem_toList_iff_getElem?_eq_some.mpr hd
        have hsome : (ds.toList.findSome? fun e => e.2.orders[id]?).isSome := by
          rw [List.findSome?_isSome_iff]
          refine ⟨(a, d), hmem, ?_⟩
          rw [← hat _ hmem, ha]
          rfl
        obtain ⟨p, hp⟩ := Option.isSome_iff_exists.mp hsome
        obtain ⟨e, he, hep⟩ := List.exists_of_findSome?_eq_some hp
        rw [← hat e he] at hep
        obtain rfl := h.alone e.1 a id (by rw [hep]; rfl) (by rw [ha]; rfl)
        rw [ha] at hep
        obtain rfl := Option.some.inj hep
        exact hp

theorem pendingOrder_congr {ds' : Deltas} (h : ds.Placed) (h' : ds'.Placed) {id : Text}
    (hsame : ∀ a, ds'.orderAt a id = ds.orderAt a id) : ds'.pendingOrder id = ds.pendingOrder id := by
  refine Option.ext fun o => ?_
  rw [pendingOrder_eq_some h, pendingOrder_eq_some h']
  simp only [hsame]

/-- A placed order stays placed when its next version goes to its seller. -/
theorem Placed.put {ds' : Deltas} (h : ds.Placed) {a oid : Text} {o : TokenOrder}
    (hid : o.id = oid) (hseller : o.seller = a)
    (hfree : ∀ p, ds.pendingOrder oid = some p → p.seller = a)
    (hput : ∀ x id, ds'.orderAt x id = if a = x ∧ oid = id then some o else ds.orderAt x id) :
    ds'.Placed ∧ ∀ id, ds'.pendingOrder id = if oid = id then some o else ds.pendingOrder id := by
  have hother : ∀ x, (ds.orderAt x oid).isSome → x = a := by
    intro x hx
    obtain ⟨p, hp⟩ := Option.isSome_iff_exists.mp hx
    rw [← hfree p ((pendingOrder_eq_some h).mpr ⟨x, hp⟩)]
    exact ((h.own x oid p hp).2).symm
  have hplaced : ds'.Placed := by
    constructor
    · intro x id p hp
      rw [hput] at hp
      split_ifs at hp with hhere
      · obtain ⟨rfl, rfl⟩ := hhere
        obtain rfl := Option.some.inj hp
        exact ⟨hid, hseller⟩
      · exact h.own x id p hp
    · intro x y id hx hy
      rw [hput] at hx hy
      by_cases hoid : oid = id
      · subst hoid
        have hat : ∀ z, (if a = z ∧ oid = oid then some o else ds.orderAt z oid).isSome → z = a := by
          intro z hz
          split_ifs at hz with hhere
          · exact hhere.1.symm
          · exact hother z hz
        rw [hat x hx, hat y hy]
      · rw [if_neg fun hboth => hoid hboth.2] at hx hy
        exact h.alone x y id hx hy
  refine ⟨hplaced, fun id => ?_⟩
  split_ifs with hoid
  · rw [pendingOrder_eq_some hplaced]
    exact ⟨a, by rw [hput, if_pos ⟨rfl, hoid⟩]⟩
  · refine pendingOrder_congr h hplaced fun x => ?_
    rw [hput, if_neg fun hboth => hoid hboth.2]

end Deltas

namespace Accumulate

variable {E : Env} {s : Store} {batch : List Block} {block : Block} {index : Nat}
  {tx : Transaction} {sender : Text} {ds : Deltas} {ops : Ops}

/-- The version of an order that a token transaction writes: the seller's address, the id and
the order. -/
def writtenOrder (s : Store) (ds : Deltas) (block : Block) (tx : Transaction) (sender : Text) :
    Option (Text × Text × TokenOrder) :=
  match tx.tokenType, tx.tokenAsset with
  | some .sell, some a =>
      some (sender, tx.id.getD "", newOrder a (tx.id.getD "") sender block.height)
  | some .buy, some a => (orderOf s ds (a.orderId.getD "")).toOption.map fun o =>
      (o.seller, a.orderId.getD "", fillOrder o (a.amount.getD 0) (tx.id.getD "") block.height)
  | some .cancel, some a => (orderOf s ds (a.orderId.getD "")).toOption.map fun o =>
      (o.seller, a.orderId.getD "", closeOrder o block.height)
  | _, _ => none

theorem effect_orders (h : effect E s batch block index tx sender ds = .ok ops) :
    ops.orders = (writtenOrder s ds block tx sender).toList := by
  unfold effect at h
  unfold writtenOrder
  cases hsobj : tx.sobjAsset with
  | some e =>
      have htype : tx.tokenType = none := by
        cases htype : tx.tokenType with
        | none => rfl
        | some type =>
            rw [sobjAsset_of_tokenType htype] at hsobj
            cases hsobj
      simp only [hsobj] at h
      rw [← Except.ok.inj h, htype]
      exact (sobj_marketless e).orders
  | none =>
      simp only [hsobj] at h
      cases htype : tx.tokenType with
      | none =>
          simp only [htype] at h ⊢
          split at h
          · exact (core_marketless h).orders
          · rw [← Except.ok.inj h]
            rfl
      | some type =>
          cases hasset : tx.tokenAsset with
          | none =>
              simp only [htype, hasset] at h
              have horders : ops.orders = [] := by
                split at h
                · exact (core_marketless h).orders
                · rw [← Except.ok.inj h]
                  rfl
              rw [horders]
              split <;> first | rfl | simp_all
          | some a =>
              simp only [htype, hasset] at h ⊢
              cases type with
              | sell =>
                  rw [← pure_eq_ok.mp h]
                  rfl
              | buy =>
                  obtain ⟨o, ho, h⟩ := bind_eq_ok.mp h
                  rw [← pure_eq_ok.mp h]
                  simp only [ho]
                  rfl
              | cancel =>
                  obtain ⟨o, ho, h⟩ := bind_eq_ok.mp h
                  rw [← pure_eq_ok.mp h]
                  simp only [ho]
                  rfl
              | init =>
                  obtain ⟨held, -, h⟩ := bind_eq_ok.mp h
                  rw [← pure_eq_ok.mp h]
                  rfl
              | transfer =>
                  rw [← pure_eq_ok.mp h]
                  refine Ops.Marketless.orders ?_
                  rintro o ho
                  obtain ⟨it, -, ho⟩ := List.mem_flatMap.mp ho
                  rcases List.mem_pair.mp ho with rfl | rfl <;> rfl
              | mint | burn =>
                  rw [← pure_eq_ok.mp h]
                  rfl
              | tokenMeta =>
                  simp only [token] at h
                  split at h <;> rw [← pure_eq_ok.mp h] <;> rfl

end Accumulate

namespace Store

variable {s s' : Store}

/-- The order under an id as `accumulate_deltas` sees it. -/
def liveOrder (s : Store) (ds : Deltas) (id : Text) : Option TokenOrder :=
  (ds.pendingOrder id).or (s.tokenOrder id)

/-- Stored orders are under their ids, and the open ones in the books of their sellers. -/
structure OrdersIndexed (s : Store) : Prop where
  own : ∀ id o, s.tokenOrder id = some o → o.id = id
  listed : ∀ id o, s.tokenOrder id = some o → o.isOpen → s.sellerBook[(o.seller, id)]? = some id

theorem OrdersIndexed.congr (h : s.OrdersIndexed) (horders : s'.orders = s.orders)
    (hbook : s'.sellerBook = s.sellerBook) : s'.OrdersIndexed := by
  constructor
  · intro id o ho
    unfold tokenOrder at ho
    rw [horders] at ho
    exact h.own id o ho
  · intro id o ho hopen
    unfold tokenOrder at ho
    rw [horders] at ho
    rw [hbook]
    exact h.listed id o ho hopen

/-- One written order. -/
theorem OrdersIndexed.write (h : s.OrdersIndexed) (o : TokenOrder) :
    (s.writeOrder o).OrdersIndexed := by
  have hget : ∀ id, (s.writeOrder o).tokenOrder id = if o.id = id then some o else s.tokenOrder id :=
    fun id => OrderedMap.getElem?_insert_eq _ _ _ _
  constructor
  · intro id p hp
    rw [hget] at hp
    split_ifs at hp with hid
    · rw [← Option.some.inj hp]
      exact hid
    · exact h.own id p hp
  · intro id p hp hopen
    rw [hget] at hp
    change (sellerOrder s.sellerBook o)[(p.seller, id)]? = some id
    unfold sellerOrder
    split_ifs at hp with hid
    · obtain rfl := Option.some.inj hp
      rw [if_pos hopen, OrderedMap.getElem?_insert_eq, hid, if_pos rfl]
    · have hne : (o.seller, o.id) ≠ (p.seller, id) := fun heq => hid (Prod.mk.inj heq).2
      have hold := h.listed id p hp hopen
      split_ifs
      · rw [OrderedMap.getElem?_insert_eq, if_neg hne]
        exact hold
      · rw [OrderedMap.getElem?_erase_eq, if_neg hne]
        exact hold

theorem foldl_writeOrder (l : List TokenOrder) (s : Store) :
    (l.foldl writeOrder s).orders = l.foldl (fun m o => m.insert o.id o) s.orders ∧
    (l.foldl writeOrder s).sellerBook = l.foldl sellerOrder s.sellerBook := by
  induction l generalizing s with
  | nil => exact ⟨rfl, rfl⟩
  | cons o rest ih => exact ih (s.writeOrder o)

theorem OrdersIndexed.writeAll (h : s.OrdersIndexed) (l : List TokenOrder) :
    (l.foldl writeOrder s).OrdersIndexed := by
  induction l generalizing s with
  | nil => exact h
  | cons o rest ih => exact ih (h.write o)

/-- The orders of one delta. -/
def ordersOf (d : WalletDelta) : List TokenOrder := d.orders.toList.map fun e => e.2

theorem writeEntries_orders {entries : List (Text × WalletDelta)}
    (h : s.writeEntries entries = .ok s') :
    s'.orders = ((entries.flatMap fun e => ordersOf e.2).foldl writeOrder s).orders ∧
    s'.sellerBook = ((entries.flatMap fun e => ordersOf e.2).foldl writeOrder s).sellerBook := by
  rw [(foldl_writeOrder _ s).1, (foldl_writeOrder _ s).2]
  induction entries generalizing s with
  | nil =>
      rw [← foldlM_nil_ok.mp h]
      exact ⟨rfl, rfl⟩
  | cons e rest ih =>
      obtain ⟨t, ht, hrest⟩ := foldlM_cons_ok.mp h
      obtain ⟨w, -, rfl⟩ := writeWallet_eq_ok ht
      obtain ⟨horders, hbook⟩ := ih hrest
      rw [horders, hbook, List.flatMap_cons, List.foldl_append, List.foldl_append, adjustVotes_eq]
      exact ⟨rfl, rfl⟩

theorem foldl_writeOrder_of_ne {l : List TokenOrder} {id : Text} (h : ∀ o ∈ l, o.id ≠ id)
    (s : Store) : (l.foldl writeOrder s).tokenOrder id = s.tokenOrder id := by
  induction l generalizing s with
  | nil => rfl
  | cons o rest ih =>
      rw [List.foldl_cons, ih fun p hp => h p (List.mem_cons_of_mem o hp)]
      unfold tokenOrder writeOrder
      rw [OrderedMap.getElem?_insert_eq, if_neg (h o List.mem_cons_self)]

theorem foldl_writeOrder_of_mem {l : List TokenOrder} {o : TokenOrder} (ho : o ∈ l)
    (hone : ∀ p ∈ l, p.id = o.id → p = o) (s : Store) :
    (l.foldl writeOrder s).tokenOrder o.id = some o := by
  induction l generalizing s with
  | nil => cases ho
  | cons p rest ih =>
      rw [List.foldl_cons]
      have hrest := fun q hq => hone q (List.mem_cons_of_mem p hq)
      by_cases hlater : o ∈ rest
      · exact ih hlater hrest (s.writeOrder p)
      · obtain rfl : o = p := (List.mem_cons.mp ho).resolve_right hlater
        rw [foldl_writeOrder_of_ne fun q hq hid => hlater (hrest q hq hid ▸ hq)]
        unfold tokenOrder writeOrder
        rw [OrderedMap.getElem?_insert_eq, if_pos rfl]

/-- The store after a write holds the orders that the deltas have shown. -/
theorem writeEntries_tokenOrder {ds : Deltas} (h : s.writeEntries ds.toList = .ok s')
    (hplaced : ds.Placed) (id : Text) : s'.tokenOrder id = s.liveOrder ds id := by
  have hmem : ∀ o, o ∈ (ds.toList.flatMap fun e => ordersOf e.2) ↔
      ∃ a k, ds.orderAt a k = some o := by
    intro o
    unfold ordersOf Deltas.orderAt Deltas.get
    simp only [List.mem_flatMap, List.mem_map]
    constructor
    · rintro ⟨e, he, ⟨k, p⟩, hkp, rfl⟩
      refine ⟨e.1, k, ?_⟩
      rw [Std.ExtTreeMap.mem_toList_iff_getElem?_eq_some.mp he]
      exact Std.ExtTreeMap.mem_toList_iff_getElem?_eq_some.mp hkp
    · rintro ⟨a, k, hak⟩
      cases hd : ds[a]? with
      | none =>
          rw [hd] at hak
          cases hak
      | some d =>
          rw [hd] at hak
          exact ⟨(a, d), Std.ExtTreeMap.mem_toList_iff_getElem?_eq_some.mpr hd, (k, o),
            Std.ExtTreeMap.mem_toList_iff_getElem?_eq_some.mpr hak, rfl⟩
  have hsame : s'.tokenOrder id =
      ((ds.toList.flatMap fun e => ordersOf e.2).foldl writeOrder s).tokenOrder id := by
    unfold tokenOrder
    rw [(writeEntries_orders h).1]
  rw [hsame]
  unfold liveOrder
  cases hpending : ds.pendingOrder id with
  | none =>
      rw [Option.none_or]
      refine foldl_writeOrder_of_ne (fun o ho hid => ?_) s
      obtain ⟨a, k, hak⟩ := (hmem o).mp ho
      obtain rfl : k = id := (hplaced.own a k o hak).1.symm.trans hid
      rw [(Deltas.pendingOrder_eq_some hplaced).mpr ⟨a, hak⟩] at hpending
      cases hpending
  | some o =>
      rw [Option.some_or]
      obtain ⟨a, ha⟩ := (Deltas.pendingOrder_eq_some hplaced).mp hpending
      obtain rfl := (hplaced.own a id o ha).1
      refine foldl_writeOrder_of_mem ((hmem o).mpr ⟨a, o.id, ha⟩) (fun p hp hid => ?_) s
      obtain ⟨b, k, hbk⟩ := (hmem p).mp hp
      obtain rfl : k = o.id := (hplaced.own b k p hbk).1.symm.trans hid
      obtain rfl := hplaced.alone b a o.id (by rw [hbk]; rfl) (by rw [ha]; rfl)
      exact Option.some.inj (hbk.symm.trans ha)

theorem OrdersIndexed.written {ds : Deltas} (h : s.OrdersIndexed)
    (hwritten : s.writeEntries ds.toList = .ok s') : s'.OrdersIndexed :=
  (h.writeAll _).congr (writeEntries_orders hwritten).1 (writeEntries_orders hwritten).2

/-- Orders and seller books stay. -/
def SameOrders (s s' : Store) : Prop := s'.orders = s.orders ∧ s'.sellerBook = s.sellerBook

theorem SameOrders.trans {s'' : Store} (h : SameOrders s s') (h' : SameOrders s' s'') :
    SameOrders s s'' :=
  ⟨h'.1.trans h.1, h'.2.trans h.2⟩

theorem SameLedger.sameOrders (h : SameLedger s s') : SameOrders s s' := by
  rw [h]
  exact ⟨rfl, rfl⟩

theorem restoreWallets_sameOrders (s : Store) (undo : UndoRecord) :
    SameOrders s (s.restoreWallets undo) := by
  have hfold : ∀ t : Store, SameOrders t (undo.foldl restoreWallet t) := by
    induction undo with
    | nil => exact fun t => ⟨rfl, rfl⟩
    | cons e rest ih =>
        intro t
        have hvotes : ∀ before after, SameOrders t (t.adjustVotes before after) := by
          intro before after
          rw [adjustVotes_eq]
          exact ⟨rfl, rfl⟩
        refine SameOrders.trans ?_ (ih _)
        unfold restoreWallet restoreIndexes
        simp only
        split
        · exact hvotes _ _
        · exact hvotes _ _
  exact hfold (s.dropListings undo)

theorem OrdersIndexed.undoToken (h : s.OrdersIndexed) (height : Nat) (e : Transaction × Nat) :
    (undoToken height s e).OrdersIndexed := by
  unfold Store.undoToken
  simp only
  split
  · split
    · rename_i o ho
      have hid := h.own _ o ho
      constructor
      · intro id p hp
        unfold tokenOrder at hp
        rw [OrderedMap.getElem?_erase_eq] at hp
        split_ifs at hp
        exact h.own id p hp
      · intro id p hp hopen
        unfold tokenOrder at hp
        rw [OrderedMap.getElem?_erase_eq] at hp
        split_ifs at hp with hother
        simp only
        rw [OrderedMap.getElem?_erase_eq, if_neg fun heq => hother (hid ▸ (Prod.mk.inj heq).2)]
        exact h.listed id p hp hopen
    · exact h
  · split
    · refine OrdersIndexed.write ?_ _
      exact h.congr rfl rfl
    · exact h.congr rfl rfl
  · split
    · exact h.write _
    · exact h
  · exact h

theorem undoTransaction_sameOrders {E : Env} {height : Nat} {owners : OrderedMap Text Text}
    {symbols : List (Text × Text)} {e : Transaction × Nat}
    (h : undoTransaction E height owners symbols s e = .ok s') : SameOrders s s' := by
  have hinit : ∀ t : Store, SameOrders t (undoInit symbols t e.1) := by
    intro t
    unfold undoInit
    split <;> exact ⟨rfl, rfl⟩
  rcases undoTransaction_cases h with ⟨-, rfl⟩ | ⟨id, t, addresses, -, hsobj, -, rfl⟩
  · exact ⟨rfl, rfl⟩
  · have ht : SameOrders s t := by
      rcases hsobj with ⟨asset, -, hundo⟩ | ⟨-, rfl⟩
      · rcases undoSobj_cases hundo with ⟨-, name, -, rfl⟩ | ⟨-, reg, owner, -, -, rfl⟩ | ⟨rfl, -⟩
        · exact ⟨rfl, rfl⟩
        · exact ⟨rfl, rfl⟩
        · exact ⟨rfl, rfl⟩
      · exact ⟨rfl, rfl⟩
    exact ht.trans (hinit t)

/-- A rollback keeps orders and books together. -/
theorem OrdersIndexed.rolledBack {E : Env} (h : s.OrdersIndexed) (r : RolledBack E s s') :
    s'.OrdersIndexed := by
  obtain ⟨t, ht, hreverted⟩ := bind_eq_ok.mp r.reverting
  have hrestored := restoreWallets_sameOrders { s with finality := r.certs } r.undo
  have hbase := h.congr hrestored.1 hrestored.2
  have htokens : ∀ (l : List (Transaction × Nat)) (u : Store), u.OrdersIndexed →
      (l.foldl (Store.undoToken s.lastHeight) u).OrdersIndexed := by
    intro l
    induction l with
    | nil => exact fun u hu => hu
    | cons e rest ih => exact fun u hu => ih _ (hu.undoToken _ e)
  have hindexes : SameOrders (r.block.transactions.zipIdx.reverse.foldl
      (Store.undoToken s.lastHeight) (restoreWallets { s with finality := r.certs } r.undo)) t :=
    foldlM_preserves (P := SameOrders _) (fun u e u' _ hu hsame =>
      hsame.trans (undoTransaction_sameOrders hu)) ht ⟨rfl, rfl⟩
  have ht' := (htokens _ _ hbase).congr hindexes.1 hindexes.2
  have hlater : SameOrders t s' := by
    have hlog := (dropMissedAt_sameLog r.reverted s.lastHeight).trans
      (dropRound_sameLog E _ s.lastHeight)
    rw [← r.result, ← pure_eq_ok.mp hreverted] at hlog
    rw [hlog]
    exact ⟨rfl, rfl⟩
  exact ht'.congr hlater.1 hlater.2

end Store

end SthCore
