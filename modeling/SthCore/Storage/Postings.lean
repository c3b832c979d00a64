import SthCore.Lib.Edits
import SthCore.Storage.Committed

/-!
What a list of changes does to the deltas, one quantity at a time: balances and
nonces add up, and the entries collected over all addresses grow by what every
change appends.
-/

namespace SthCore

open SthCore.Lib

namespace Deltas

@[simp] theorem run_nil (ds : Deltas) : ds.run [] = ds := rfl

@[simp] theorem run_cons (ds : Deltas) (o : Text × Op) (ops : Ops) :
    ds.run (o :: ops) = (ds.upd o.1 o.2.apply).run ops := rfl

theorem run_append (ds : Deltas) (l l' : Ops) : ds.run (l ++ l') = (ds.run l).run l' :=
  List.foldl_append

/-- A number in every delta to which every change adds its own amount. -/
theorem run_add {M : Type*} [AddCommMonoid M] (π : WalletDelta → M) (g : Op → M)
    (hg : ∀ op d, π (op.apply d) = π d + g op) (ds : Deltas) (ops : Ops) (x : Text) :
    π ((ds.run ops).get x) =
      π (ds.get x) + (ops.map fun o => if o.1 = x then g o.2 else 0).sum := by
  induction ops generalizing ds with
  | nil => simp
  | cons o ops ih =>
      rw [run_cons, ih, get_upd, List.map_cons, List.sum_cons]
      by_cases h : o.1 = x
      · subst h
        simp [hg, add_assoc]
      · simp [h]

/-- A field that no change of the list touches. -/
theorem run_frame {α : Type*} (π : WalletDelta → α) (ds : Deltas) (ops : Ops)
    (h : ∀ o ∈ ops, ∀ d, π (o.2.apply d) = π d) (x : Text) :
    π ((ds.run ops).get x) = π (ds.get x) := by
  induction ops generalizing ds with
  | nil => rfl
  | cons o ops ih =>
      rw [run_cons, ih _ fun o' ho' => h o' (List.mem_cons_of_mem o ho')]
      exact get_upd_frame π ds o.1 o.2.apply (h o List.mem_cons_self) x

/-- Changes of other addresses leave an entry alone. -/
theorem run_get_of_notMem (ds : Deltas) (ops : Ops) (x : Text)
    (h : x ∉ ops.map fun o => o.1) : (ds.run ops).get x = ds.get x := by
  induction ops generalizing ds with
  | nil => rfl
  | cons o ops ih =>
      simp only [List.map_cons, List.mem_cons, not_or] at h
      rw [run_cons, ih _ h.2, get_upd_of_ne _ _ fun he => h.1 he.symm]

section Collected

variable {α : Type*} (π : WalletDelta → List α)

/-- The entries of a list-valued field over all addresses. -/
def collected (ds : Deltas) : List α := ds.toList.flatMap fun e => π e.2

theorem collected_perm_erase (hπ : π {} = []) (ds : Deltas) (a : Text) :
    (collected π ds).Perm (π (ds.get a) ++ collected π (ds.erase a)) := by
  cases h : ds[a]? with
  | none =>
      rw [OrderedMap.erase_of_none ds a h, get, h, Option.getD_none, hπ, List.nil_append]
  | some d =>
      have hins := OrderedMap.toList_insert_perm (ds.erase a) a d
      rw [OrderedMap.insert_erase_of_some ds a d h] at hins
      have herase : ((ds.erase a).erase a : Deltas) = ds.erase a :=
        OrderedMap.erase_of_none _ _ (by simp)
      rw [herase] at hins
      have hflat := hins.flatMap_right fun e => π e.2
      simpa [collected, get, h] using hflat

theorem collected_upd (ds : Deltas) (a : Text) (f : WalletDelta → WalletDelta) :
    (collected π (ds.upd a f)).Perm (π (f (ds.get a)) ++ collected π (ds.erase a)) := by
  have hins := OrderedMap.toList_insert_perm ds a (f (ds.get a))
  have hflat := hins.flatMap_right fun e => π e.2
  simpa [collected, upd, OrderedMap.upsert, get] using hflat

/-- Every change appends its own entries to a list-valued field. -/
theorem collected_run (hπ : π {} = []) (g : Op → List α)
    (hg : ∀ op d, π (op.apply d) = π d ++ g op) (ds : Deltas) (ops : Ops) :
    (collected π (ds.run ops)).Perm (collected π ds ++ ops.flatMap fun o => g o.2) := by
  induction ops generalizing ds with
  | nil => simp
  | cons o ops ih =>
      have hstep : (collected π (ds.upd o.1 o.2.apply)).Perm (collected π ds ++ g o.2) := by
        refine (collected_upd π ds o.1 o.2.apply).trans ?_
        rw [hg, List.append_assoc]
        refine (List.Perm.append_left _ List.perm_append_comm).trans ?_
        rw [← List.append_assoc]
        exact (collected_perm_erase π hπ ds o.1).symm.append_right _
      rw [run_cons, List.flatMap_cons, ← List.append_assoc]
      exact (ih _).trans (hstep.append_right _)

end Collected

/-- The balance change of an address. -/
def bal (ds : Deltas) (x : Text) : Int := (ds.get x).balance

@[simp] theorem bal_empty (x : Text) : bal ∅ x = 0 := by
  simp [bal]

end Deltas

namespace Op

/-- The STH a change moves, for the changes that are payments. -/
def payment : Op → Option Int
  | forge block burned => some (block.reward.toNat + block.totalFee.toNat - burned.toNat)
  | spend tx => some (-(tx.amount.toNat + tx.fee.toNat))
  | pay v => some v
  | _ => none

theorem apply_balance (op : Op) (d : WalletDelta) :
    (op.apply d).balance = d.balance + op.payment.getD 0 := by
  cases op <;> simp [apply, payment, sub_eq_add_neg]

/-- Transactions a change counts. -/
def nonces : Op → Nat
  | spend _ => 1
  | _ => 0

theorem apply_nonce (op : Op) (d : WalletDelta) : (op.apply d).nonce = d.nonce + op.nonces := by
  cases op <;> simp [apply, nonces]

def locksAdded : Op → List LockRecord
  | addLock l => [l]
  | _ => []

theorem apply_locksAdded (op : Op) (d : WalletDelta) :
    (op.apply d).locksAdded = d.locksAdded ++ op.locksAdded := by
  cases op <;> simp [apply, locksAdded]

def locksRemoved : Op → List Text
  | removeLock id => [id]
  | _ => []

theorem apply_locksRemoved (op : Op) (d : WalletDelta) :
    (op.apply d).locksRemoved = d.locksRemoved ++ op.locksRemoved := by
  cases op <;> simp [apply, locksRemoved]

end Op

namespace Ops

/-- The STH movements of a list of changes. -/
def postings (ops : Ops) : Postings Text :=
  ops.filterMap fun o => o.2.payment.map fun v => (o.1, v)

def locksAdded (ops : Ops) : List LockRecord := ops.flatMap fun o => o.2.locksAdded

def locksRemoved (ops : Ops) : List Text := ops.flatMap fun o => o.2.locksRemoved

@[simp] theorem postings_append (l l' : Ops) : postings (l ++ l') = postings l ++ postings l' :=
  List.filterMap_append

theorem net_postings (ops : Ops) (x : Text) :
    (postings ops).net x = (ops.map fun o => if o.1 = x then o.2.payment.getD 0 else 0).sum := by
  induction ops with
  | nil => rfl
  | cons o ops ih =>
      rw [List.map_cons, List.sum_cons, ← ih, postings, List.filterMap_cons]
      cases o.2.payment <;> simp [postings]

theorem run_posts (ds : Deltas) (ops : Ops) : Posts ds.bal (ds.run ops).bal (postings ops) := by
  intro x
  rw [net_postings]
  exact Deltas.run_add WalletDelta.balance (fun op => op.payment.getD 0) Op.apply_balance ds ops x

/-- What a list of effects moves: payments, opened locks and settled locks.
Effects never count a transaction of their own. -/
structure Moves (ops : Ops) (payments : Postings Text) (opened : List LockRecord)
    (settled : List Text) : Prop where
  postings : ops.postings = payments
  locksAdded : ops.locksAdded = opened
  locksRemoved : ops.locksRemoved = settled
  nonces : ∀ o ∈ ops, o.2.nonces = 0

@[simp] theorem locksAdded_append (l l' : Ops) :
    Ops.locksAdded (l ++ l') = Ops.locksAdded l ++ Ops.locksAdded l' :=
  List.flatMap_append

@[simp] theorem locksRemoved_append (l l' : Ops) :
    Ops.locksRemoved (l ++ l') = Ops.locksRemoved l ++ Ops.locksRemoved l' :=
  List.flatMap_append

theorem Moves.append {l l' : Ops} {p p' : Postings Text} {a a' : List LockRecord} {r r' : List Text}
    (h : Moves l p a r) (h' : Moves l' p' a' r') : Moves (l ++ l') (p ++ p') (a ++ a') (r ++ r') where
  postings := by rw [postings_append, h.postings, h'.postings]
  locksAdded := by rw [locksAdded_append, h.locksAdded, h'.locksAdded]
  locksRemoved := by rw [locksRemoved_append, h.locksRemoved, h'.locksRemoved]
  nonces o ho := (List.mem_append.mp ho).elim (h.nonces o) (h'.nonces o)

theorem Moves.nil : Moves [] [] [] [] := ⟨rfl, rfl, rfl, by simp⟩

theorem Moves.cons {o : Text × Op} {ops : Ops} {p : Postings Text} {a : List LockRecord}
    {r : List Text} (ho : o.2.nonces = 0) (h : Moves ops p a r) :
    Moves (o :: ops) ((o.2.payment.map fun v => (o.1, v)).toList ++ p) (o.2.locksAdded ++ a)
      (o.2.locksRemoved ++ r) := by
  refine Moves.append (l := [o]) ⟨?_, ?_, ?_, by simpa using ho⟩ h
  · cases hp : o.2.payment <;> simp [Ops.postings, hp]
  · simp [Ops.locksAdded]
  · simp [Ops.locksRemoved]

end Ops

namespace Accumulate

/-- A whole transaction is the spending of its sender and its effect. -/
theorem transaction_eq_ok {E : Env} {s : Store} {batch : List Block} {block : Block}
    {tx : Transaction} {index : Nat} {ds ds' : Deltas}
    (h : transaction E s batch block tx index ds = .ok ds') :
    ∃ address ops, E.addressOf tx.senderPublicKey = .ok address ∧
      effect E s batch block index tx address (ds.run [(address, .spend tx)]) = .ok ops ∧
      ds' = ds.run ((address, .spend tx) :: ops) := by
  obtain ⟨address, haddress, h⟩ := bind_eq_ok.mp h
  obtain ⟨ops, hops, h⟩ := bind_eq_ok.mp h
  exact ⟨address, ops, haddress, hops, (pure_eq_ok.mp h).symm⟩

theorem forger_eq_ok {E : Env} {block : Block} {ops : Ops} (h : forger E block = .ok ops) :
    ∃ generator, E.addressOf block.generatorPublicKey = .ok generator ∧
      ops = (if burnedBy E block > 0 then
          [(E.network.burnAddress, .pay (burnedBy E block).toNat)] else []) ++
        [(generator, .forge block (burnedBy E block))] := by
  obtain ⟨generator, hgen, h⟩ := bind_eq_ok.mp h
  exact ⟨generator, hgen, (pure_eq_ok.mp h).symm⟩

/-- The transactions of a list of blocks, each with its block. -/
def placed (blocks : List Block) : List (Block × Transaction) :=
  blocks.flatMap fun b => b.transactions.map fun tx => (b, tx)

theorem placed_append (l l' : List Block) : placed (l ++ l') = placed l ++ placed l' := by
  simp [placed]

theorem mem_placed {blocks : List Block} {b : Block} {tx : Transaction} :
    (b, tx) ∈ placed blocks ↔ b ∈ blocks ∧ tx ∈ b.transactions := by
  simp [placed]

section Induction

variable {E : Env} {s : Store} {batch : List Block}
  {R : List Block → List (Block × Transaction) → Deltas → Prop}

/-- A fold over the transactions of one block. -/
theorem transactions_induction {block : Block}
    (htx : ∀ forged done ds tx index address ops, tx ∈ block.transactions →
      E.addressOf tx.senderPublicKey = .ok address →
      effect E s batch block index tx address (ds.run [(address, .spend tx)]) = .ok ops →
      R forged done ds → R forged (done ++ [(block, tx)]) (ds.run ((address, .spend tx) :: ops)))
    {forged : List Block} {done : List (Block × Transaction)} {ds ds' : Deltas}
    {l : List (Transaction × Nat)} (hmem : ∀ e ∈ l, e.1 ∈ block.transactions)
    (h : l.foldlM (fun ds e => transaction E s batch block e.1 e.2 ds) ds = .ok ds')
    (hR : R forged done ds) : R forged (done ++ l.map fun e => (block, e.1)) ds' := by
  induction l generalizing done ds with
  | nil =>
      rw [foldlM_nil_ok] at h
      simpa [h] using hR
  | cons e rest ih =>
      obtain ⟨ds₁, hstep, hrest⟩ := foldlM_cons_ok.mp h
      obtain ⟨address, ops, haddress, hops, rfl⟩ := transaction_eq_ok hstep
      have hR₁ := htx forged done ds e.1 e.2 address ops (hmem e List.mem_cons_self) haddress
        hops hR
      have hrest' := ih (fun e' he' => hmem e' (List.mem_cons_of_mem e he')) hrest hR₁
      simpa using hrest'

/-- The deltas of a batch are built by forger entries and transactions. -/
theorem batchDeltas_induction (hstart : R [] [] ∅)
    (hforge : ∀ forged done ds block ops, block ∈ batch → forger E block = .ok ops →
      R forged done ds → R (forged ++ [block]) done (ds.run ops))
    (htx : ∀ forged done ds block tx index address ops, block ∈ batch →
      tx ∈ block.transactions → E.addressOf tx.senderPublicKey = .ok address →
      effect E s batch block index tx address (ds.run [(address, .spend tx)]) = .ok ops →
      R forged done ds → R forged (done ++ [(block, tx)]) (ds.run ((address, .spend tx) :: ops)))
    {ds : Deltas} (h : batchDeltas E s batch = .ok ds) : R batch (placed batch) ds := by
  suffices hgen : ∀ (l : List Block) (forged : List Block) (ds₀ : Deltas),
      (∀ b ∈ l, b ∈ batch) → R forged (placed forged) ds₀ →
      l.foldlM (fun ds block => accumulateDeltas E s batch block ds) ds₀ = .ok ds →
      R (forged ++ l) (placed (forged ++ l)) ds by
    simpa using hgen batch [] ∅ (fun b hb => hb) hstart h
  intro l
  induction l with
  | nil =>
      intro forged ds₀ _ hR hfold
      rw [foldlM_nil_ok] at hfold
      simpa [← hfold] using hR
  | cons block rest ih =>
      intro forged ds₀ hmem hR hfold
      obtain ⟨ds₁, hblock, hrest⟩ := foldlM_cons_ok.mp hfold
      obtain ⟨ops, hops, htxs⟩ := bind_eq_ok.mp hblock
      have hb : block ∈ batch := hmem block List.mem_cons_self
      have hR₁ := hforge forged (placed forged) ds₀ block ops hb hops hR
      have hR₂ := transactions_induction (R := R)
        (fun forged done ds tx index address ops' => htx forged done ds block tx index address ops' hb)
        (fun e he => (List.mem_zipIdx' he).2 ▸ List.getElem_mem _) htxs hR₁
      have hplaced : placed forged ++ block.transactions.zipIdx.map (fun e => (block, e.1)) =
          placed (forged ++ [block]) := by
        have hfst : block.transactions.zipIdx.map (fun e => (block, e.1)) =
            block.transactions.map fun tx => (block, tx) := by
          conv_rhs => rw [← List.zipIdx_map_fst 0 block.transactions, List.map_map]
          rfl
        rw [placed_append, hfst]
        simp [placed]
      rw [hplaced] at hR₂
      have hfinal := ih (forged ++ [block]) ds₁ (fun b hb => hmem b (List.mem_cons_of_mem block hb))
        hR₂ hrest
      simpa using hfinal

end Induction

end Accumulate

namespace Store

/-- After a commit every balance has moved by its delta. -/
theorem writeEntries_balance {s s' : Store} {ds : Deltas}
    (h : s.writeEntries ds.toList = .ok s') (x : Text) :
    s'.balanceAt x = s.balanceAt x + ds.bal x := by
  rw [balanceAt_eq, balanceAt_eq, Deltas.bal, Deltas.get]
  rcases writeEntries_wallet h x with ⟨hx, hget⟩ | ⟨d, w, hx, hw, hget⟩
  · simp [walletAt, hget, hx]
  · simpa [walletAt, hget, hx] using WalletState.apply_balance hw

/-- After a commit every nonce has moved by the number of transactions sent. -/
theorem writeEntries_nonce {s s' : Store} {ds : Deltas}
    (h : s.writeEntries ds.toList = .ok s') (x : Text) :
    (s'.walletAt x).nonce = (s.walletAt x).nonce + (ds.get x).nonce := by
  rw [Deltas.get]
  rcases writeEntries_wallet h x with ⟨hx, hget⟩ | ⟨d, w, hx, hw, hget⟩
  · simp [walletAt, hget, hx]
  · simpa [walletAt, hget, hx] using WalletState.apply_nonce hw

end Store

end SthCore
