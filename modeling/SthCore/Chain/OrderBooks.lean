import SthCore.Chain.OpenOrders
import SthCore.Chain.Depth

/-!
The books that a client reads: after any history they list every open order,
cheapest first in the book of its token and oldest first in that of its seller.
-/

namespace SthCore

open SthCore.Lib

namespace Store

/-- An ask comes before another: cheaper, or as cheap and not younger. -/
def Cheaper (a b : TokenOrder) : Prop :=
  a.price < b.price ∨ a.price = b.price ∧ a.height ≤ b.height

instance (a b : TokenOrder) : Decidable (Cheaper a b) :=
  inferInstanceAs (Decidable (_ ∨ _))

/-- Open asks of a token, cheapest first, then older first. -/
def tokenOrders (s : Store) (tokenId : Text) : List TokenOrder :=
  let entries := s.book.toList.filter fun e => e.1.1 = tokenId
  (entries.filterMap fun e => s.tokenOrder e.2).insertionSort Cheaper

variable {s s' : Store}

/-- Open orders are in the books of their tokens. -/
def Booked (s : Store) : Prop :=
  ∀ id o, s.tokenOrder id = some o → o.isOpen → s.book[(o.tokenId, o.price, id)]? = some id

/-- Orders and token books stay. -/
def SameBooks (s s' : Store) : Prop := s'.orders = s.orders ∧ s'.book = s.book

theorem SameBooks.trans {s'' : Store} (h : SameBooks s s') (h' : SameBooks s' s'') :
    SameBooks s s'' :=
  ⟨h'.1.trans h.1, h'.2.trans h.2⟩

theorem SameLedger.sameBooks (h : SameLedger s s') : SameBooks s s' := by
  rw [h]
  exact ⟨rfl, rfl⟩

theorem Booked.congr (h : s.Booked) (hsame : SameBooks s s') : s'.Booked := by
  intro id o ho hopen
  unfold tokenOrder at ho
  rw [hsame.1] at ho
  rw [hsame.2]
  exact h id o ho hopen

/-- One written order. -/
theorem Booked.write (h : s.Booked) (o : TokenOrder) : (s.writeOrder o).Booked := by
  have hget : ∀ id, (s.writeOrder o).tokenOrder id = if o.id = id then some o else s.tokenOrder id :=
    fun id => OrderedMap.getElem?_insert_eq _ _ _ _
  intro id p hp hopen
  rw [hget] at hp
  show (bookOrder s.book o)[(p.tokenId, p.price, id)]? = some id
  unfold bookOrder
  split_ifs at hp with hid
  · obtain rfl := Option.some.inj hp
    rw [if_pos hopen, OrderedMap.getElem?_insert_eq, hid, if_pos rfl]
  · have hne : (o.tokenId, o.price, o.id) ≠ (p.tokenId, p.price, id) := by
      rintro heq
      exact hid (congrArg (fun k => k.2.2) heq)
    have hold := h id p hp hopen
    split_ifs
    · rw [OrderedMap.getElem?_insert_eq, if_neg hne]
      exact hold
    · rw [OrderedMap.getElem?_erase_eq, if_neg hne]
      exact hold

theorem Booked.writeAll (h : s.Booked) (l : List TokenOrder) : (l.foldl writeOrder s).Booked := by
  induction l generalizing s with
  | nil => exact h
  | cons o rest ih => exact ih (h.write o)

theorem foldl_writeOrder_book (l : List TokenOrder) (s : Store) :
    (l.foldl writeOrder s).book = l.foldl bookOrder s.book := by
  induction l generalizing s with
  | nil => rfl
  | cons o rest ih => exact ih (s.writeOrder o)

theorem writeEntries_sameBooks {entries : List (Text × WalletDelta)}
    (h : s.writeEntries entries = .ok s') :
    SameBooks ((entries.flatMap fun e => ordersOf e.2).foldl writeOrder s) s' := by
  refine ⟨(writeEntries_orders h).1, ?_⟩
  rw [foldl_writeOrder_book]
  induction entries generalizing s with
  | nil =>
      rw [← foldlM_nil_ok.mp h]
      rfl
  | cons e rest ih =>
      obtain ⟨t, ht, hrest⟩ := foldlM_cons_ok.mp h
      obtain ⟨w, -, rfl⟩ := writeWallet_eq_ok ht
      rw [ih hrest, List.flatMap_cons, List.foldl_append, adjustVotes_eq]
      rfl

theorem restoreWallets_sameBooks (s : Store) (undo : UndoRecord) :
    SameBooks s (s.restoreWallets undo) := by
  have hfold : ∀ t : Store, SameBooks t (undo.foldl restoreWallet t) := by
    induction undo with
    | nil => exact fun t => ⟨rfl, rfl⟩
    | cons e rest ih =>
        intro t
        have hvotes : ∀ before after, SameBooks t (t.adjustVotes before after) := by
          intro before after
          rw [adjustVotes_eq]
          exact ⟨rfl, rfl⟩
        refine SameBooks.trans ?_ (ih _)
        unfold restoreWallet restoreIndexes
        simp only
        split
        · exact hvotes _ _
        · exact hvotes _ _
  exact hfold (s.dropListings undo)

/-- One token transaction, taken back: a sell takes its entry with it, the others write theirs. -/
theorem Booked.undoToken (h : s.Booked) (hown : s.OrdersIndexed) (height : Nat)
    (e : Transaction × Nat) : (undoToken height s e).Booked := by
  unfold Store.undoToken
  simp only
  split
  · split
    · rename_i o ho
      have hid := hown.own _ o ho
      intro id p hp hopen
      unfold tokenOrder at hp
      rw [OrderedMap.getElem?_erase_eq] at hp
      split_ifs at hp with hother
      simp only
      rw [OrderedMap.getElem?_erase_eq,
        if_neg fun heq => hother (hid ▸ congrArg (fun k => k.2.2) heq)]
      exact h id p hp hopen
    · exact h
  · split
    · refine Booked.write ?_ _
      exact h.congr ⟨rfl, rfl⟩
    · exact h.congr ⟨rfl, rfl⟩
  · split
    · exact h.write _
    · exact h
  · exact h

theorem undoTransaction_sameBooks {E : Env} {height : Nat} {owners : OrderedMap Text Text}
    {symbols : List (Text × Text)} {e : Transaction × Nat}
    (h : undoTransaction E height owners symbols s e = .ok s') : SameBooks s s' := by
  have hinit : ∀ t : Store, SameBooks t (undoInit symbols t e.1) := by
    intro t
    unfold undoInit
    split <;> exact ⟨rfl, rfl⟩
  rcases undoTransaction_cases h with ⟨-, rfl⟩ | ⟨id, t, addresses, -, hsobj, -, rfl⟩
  · exact ⟨rfl, rfl⟩
  · have ht : SameBooks s t := by
      rcases hsobj with ⟨asset, -, hundo⟩ | ⟨-, rfl⟩
      · rcases undoSobj_cases hundo with ⟨-, name, -, rfl⟩ | ⟨-, reg, owner, -, -, rfl⟩ | ⟨rfl, -⟩
        · exact ⟨rfl, rfl⟩
        · exact ⟨rfl, rfl⟩
        · exact ⟨rfl, rfl⟩
      · exact ⟨rfl, rfl⟩
    exact ht.trans (hinit t)

/-- A rollback keeps orders and token books together. -/
theorem Booked.rolledBack {E : Env} (h : s.Booked) (hown : s.OrdersIndexed)
    (r : RolledBack E s s') : s'.Booked := by
  obtain ⟨t, ht, hreverted⟩ := bind_eq_ok.mp r.reverting
  have hrestored := restoreWallets_sameOrders { s with finality := r.certs } r.undo
  have hbooks := restoreWallets_sameBooks { s with finality := r.certs } r.undo
  have htokens : ∀ (l : List (Transaction × Nat)) (u : Store), u.Booked → u.OrdersIndexed →
      (l.foldl (Store.undoToken s.lastHeight) u).Booked := by
    intro l
    induction l with
    | nil => exact fun u hu _ => hu
    | cons e rest ih => exact fun u hu ho => ih _ (hu.undoToken ho _ e) (ho.undoToken _ e)
  have hindexes : SameBooks (r.block.transactions.zipIdx.reverse.foldl
      (Store.undoToken s.lastHeight) (restoreWallets { s with finality := r.certs } r.undo)) t :=
    foldlM_preserves (P := SameBooks _) (fun u e u' _ hu hsame =>
      hsame.trans (undoTransaction_sameBooks hu)) ht ⟨rfl, rfl⟩
  have ht' := (htokens _ _ (h.congr hbooks) (hown.congr hrestored.1 hrestored.2)).congr hindexes
  have hlater : SameBooks t s' := by
    have hlog := (dropMissedAt_sameLog r.reverted s.lastHeight).trans
      (dropRound_sameLog E _ s.lastHeight)
    rw [← r.result, ← pure_eq_ok.mp hreverted] at hlog
    rw [hlog]
    exact ⟨rfl, rfl⟩
  exact ht'.congr hlater

/-- What is booked is listed to a client. -/
theorem Booked.mem_tokenOrders (h : s.Booked) {id : Text} {o : TokenOrder}
    (ho : s.tokenOrder id = some o) (hopen : o.isOpen) : o ∈ s.tokenOrders o.tokenId := by
  refine (List.perm_insertionSort _ _).mem_iff.mpr (List.mem_filterMap.mpr
    ⟨((o.tokenId, o.price, id), id), List.mem_filter.mpr ⟨?_, decide_eq_true rfl⟩, ho⟩)
  exact Std.ExtTreeMap.mem_toList_iff_getElem?_eq_some.mpr (h id o ho hopen)

theorem OrdersIndexed.mem_walletOrders (h : s.OrdersIndexed) {id : Text} {o : TokenOrder}
    (ho : s.tokenOrder id = some o) (hopen : o.isOpen) : o ∈ s.walletOrders o.seller := by
  refine (List.perm_insertionSort _ _).mem_iff.mpr (List.mem_filterMap.mpr
    ⟨((o.seller, id), id), List.mem_filter.mpr ⟨?_, decide_eq_true rfl⟩, ho⟩)
  exact Std.ExtTreeMap.mem_toList_iff_getElem?_eq_some.mpr (h.listed id o ho hopen)

theorem cheaper_iff {a b : TokenOrder} : Cheaper a b ↔ a.price.toNat < b.price.toNat ∨
    a.price.toNat = b.price.toNat ∧ a.height ≤ b.height := by
  unfold Cheaper
  rw [UInt64.lt_iff_toNat_lt, UInt64.toNat_inj]

theorem tokenOrders_sorted (s : Store) (tokenId : Text) :
    (s.tokenOrders tokenId).Pairwise Cheaper := by
  have htotal : Std.Total Cheaper := ⟨fun a b => by
    rw [cheaper_iff, cheaper_iff]
    omega⟩
  have htrans : IsTrans TokenOrder Cheaper := ⟨fun a b c => by
    rw [cheaper_iff, cheaper_iff, cheaper_iff]
    omega⟩
  exact List.pairwise_insertionSort _ _

theorem walletOrders_sorted (s : Store) (seller : Text) :
    (s.walletOrders seller).Pairwise fun a b => a.height ≤ b.height := by
  have htotal : Std.Total fun a b : TokenOrder => a.height ≤ b.height :=
    ⟨fun a b => Nat.le_total _ _⟩
  have htrans : IsTrans TokenOrder fun a b => a.height ≤ b.height :=
    ⟨fun a b c hab hbc => Nat.le_trans hab hbc⟩
  exact List.pairwise_insertionSort _ _

end Store

namespace Chain

variable {P : Primitives} {N : Network} {s : Store}

/-- Any sub-batches and rollbacks keep the books of tokens and sellers. -/
theorem Sequence.booked {good : Env → Store → List Block → Bool → Prop} {on : Bool}
    (h : Sequence P N good { undoEnabled := on } s) : s.Booked ∧ s.OrdersIndexed := by
  induction h with
  | start =>
      refine ⟨?_, ordersIndexed_empty on⟩
      rintro id o ho
      cases ho
  | batch now blocks force _ _ ih =>
      rename_i s _ _
      obtain ⟨hbooked, hindexed⟩ := ih
      rcases Store.applyLocked_cases ⟨P, N, now⟩ s blocks force with ⟨e, he⟩ | ⟨prepared, -, ⟨c⟩⟩
      · rw [he]
        exact ⟨hbooked, hindexed⟩
      · refine ⟨?_, ordersIndexed_committed c hindexed⟩
        have hwritten := (hbooked.writeAll _).congr (Store.writeEntries_sameBooks c.written)
        exact hwritten.congr c.sameLedger.sameBooks
  | rollback now _ ih =>
      rename_i s _
      obtain ⟨hbooked, hindexed⟩ := ih
      cases hback : s.rollbackLastBlock ⟨P, N, now⟩ with
      | mk s' result =>
          cases result with
          | error e =>
              obtain ⟨certs, rfl⟩ := Store.rollbackLastBlock_error hback
              exact ⟨hbooked.congr ⟨rfl, rfl⟩, hindexed.congr rfl rfl⟩
          | ok tip =>
              obtain ⟨-, ⟨r⟩⟩ := Store.rollbackLastBlock_eq_ok hback
              exact ⟨hbooked.rolledBack hindexed r, hindexed.rolledBack r⟩
  | setUndo on _ ih => exact ⟨ih.1.congr ⟨rfl, rfl⟩, ih.2.congr rfl rfl⟩

end Chain

/-- Whatever was written and rolled back, an open order is in the book of its token, which lists
the cheapest first, and in the book of its seller, which lists the oldest first. -/
theorem order_books_complete (P : Primitives) (N : Network) (on : Bool) (s : Store)
    (h : Chain.Sequence P N (fun _ _ _ _ => True) { undoEnabled := on } s) :
    (∀ tokenId, (s.tokenOrders tokenId).Pairwise Store.Cheaper) ∧
    (∀ seller, (s.walletOrders seller).Pairwise fun a b => a.height ≤ b.height) ∧
    ∀ id o, s.tokenOrder id = some o → o.isOpen →
      o ∈ s.tokenOrders o.tokenId ∧ o ∈ s.walletOrders o.seller :=
  ⟨s.tokenOrders_sorted, s.walletOrders_sorted, fun _ _ ho hopen =>
    ⟨h.booked.1.mem_tokenOrders ho hopen, h.booked.2.mem_walletOrders ho hopen⟩⟩

open Reference in
theorem order_books_complete_market :
    let s := (({} : Store).applyLocked (marketEnv 64) [marketGenesis] true).1
    (∀ tokenId, (s.tokenOrders tokenId).Pairwise Store.Cheaper) ∧
    (∀ seller, (s.walletOrders seller).Pairwise fun a b => a.height ≤ b.height) ∧
    ∀ id o, s.tokenOrder id = some o → o.isOpen →
      o ∈ s.tokenOrders o.tokenId ∧ o ∈ s.walletOrders o.seller :=
  order_books_complete (marketEnv 64).prim (marketEnv 64).network false _
    (.batch (marketEnv 64).nowMs [marketGenesis] true .start trivial)

end SthCore
