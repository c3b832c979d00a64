import SthCore.Lib.Result
import SthCore.Lib.Ledger
import SthCore.Storage.Apply

/-!
What a committed sub-batch leaves in the store, family by family: every wallet
is its old state with its delta applied, every index is a fold over the deltas.
-/

namespace SthCore

open SthCore.Lib

namespace Deltas

@[simp] theorem get_empty (x : Text) : get (∅ : Deltas) x = {} := by
  simp [get]

theorem get_upd (ds : Deltas) (a : Text) (f : WalletDelta → WalletDelta) (x : Text) :
    (ds.upd a f).get x = if a = x then f (ds.get a) else ds.get x :=
  OrderedMap.getD_upsert ds a {} f x

@[simp] theorem get_upd_self (ds : Deltas) (a : Text) (f : WalletDelta → WalletDelta) :
    (ds.upd a f).get a = f (ds.get a) := by
  simp [get_upd]

theorem get_upd_of_ne (ds : Deltas) {a x : Text} (f : WalletDelta → WalletDelta) (h : a ≠ x) :
    (ds.upd a f).get x = ds.get x := by
  simp [get_upd, h]

/-- A field that an update of one entry leaves alone is left alone everywhere. -/
theorem get_upd_frame {α : Type*} (π : WalletDelta → α) (ds : Deltas) (a : Text)
    (f : WalletDelta → WalletDelta) (hf : ∀ d, π (f d) = π d) (x : Text) :
    π ((ds.upd a f).get x) = π (ds.get x) := by
  rw [get_upd]
  by_cases h : a = x
  · subst h
    simp [hf]
  · simp [h]

/-- A field that an update of one entry maps through `g`. -/
theorem get_upd_map {α : Type*} (π : WalletDelta → α) (g : α → α) (ds : Deltas) (a : Text)
    (f : WalletDelta → WalletDelta) (hf : ∀ d, π (f d) = g (π d)) (x : Text) :
    π ((ds.upd a f).get x) = if a = x then g (π (ds.get x)) else π (ds.get x) := by
  rw [get_upd]
  by_cases h : a = x
  · subst h
    simp [hf]
  · simp [h]

end Deltas

namespace WalletState

/-- A delta that applies, and the wallet it gives. -/
theorem apply_eq_ok {w w' : WalletState} {d : WalletDelta} (h : w.apply d = .ok w') :
    (i64Min ≤ w.balance + d.balance ∧ w.balance + d.balance ≤ i64Max) ∧
    w.nonce + d.nonce < 2 ^ 64 ∧
    ∃ issued tokens, issuedAfter w d = .ok issued ∧
      d.tokens.toList.foldlM (applyTokenBalance w.address) w.tokens = .ok tokens ∧
      w' = {
        address := w.address
        publicKey := w.publicKey.or d.publicKey
        balance := w.balance + d.balance
        nonce := w.nonce + d.nonce
        username := d.username.or w.username
        vote := d.vote.getD w.vote
        secondPublicKey :=
          if d.pqKey.isSome then none else d.secondPublicKey.or w.secondPublicKey
        producedBlocks := w.producedBlocks + d.producedBlocks
        forgedFees := satAdd w.forgedFees d.forgedFees
        forgedRewards := satAdd w.forgedRewards d.forgedRewards
        lastBlock := d.lastBlock.or w.lastBlock
        resigned := w.resigned || d.resigned
        locks := locksAfter w d
        multiSignature := d.multiSignature.or w.multiSignature
        sobjects := sobjectsAfter w d
        pqCommitment := d.pqCommitment.or w.pqCommitment
        pqKey := d.pqKey.or w.pqKey
        tokens
        tokensIssued := d.tokensRemoved.foldl (fun m id => m.erase id) issued } := by
  simp only [apply, throw_bind, ite_error_eq_ok] at h
  obtain ⟨hbal, hnonce, h⟩ := h
  obtain ⟨issued, hissued, h⟩ := bind_eq_ok.mp h
  obtain ⟨tokens, htokens, h⟩ := bind_eq_ok.mp h
  refine ⟨?_, by omega, issued, tokens, hissued, htokens, (pure_eq_ok.mp h).symm⟩
  constructor
  · omega
  · omega

theorem apply_balance {w w' : WalletState} {d : WalletDelta} (h : w.apply d = .ok w') :
    w'.balance = w.balance + d.balance := by
  obtain ⟨-, -, issued, tokens, -, -, rfl⟩ := apply_eq_ok h
  rfl

theorem apply_nonce {w w' : WalletState} {d : WalletDelta} (h : w.apply d = .ok w') :
    w'.nonce = w.nonce + d.nonce := by
  obtain ⟨-, -, issued, tokens, -, -, rfl⟩ := apply_eq_ok h
  rfl

theorem apply_sobjects {w w' : WalletState} {d : WalletDelta} (h : w.apply d = .ok w') :
    w'.sobjects = sobjectsAfter w d := by
  obtain ⟨-, -, issued, tokens, -, -, rfl⟩ := apply_eq_ok h
  rfl

end WalletState

namespace Store

/-- The wallet of an address, a new one when there is none. -/
def walletAt (s : Store) (address : Text) : WalletState :=
  (s.getWallet address).getD (WalletState.new address)

/-- The balance of an address. -/
def balanceAt (s : Store) (address : Text) : Int :=
  OrderedMap.value (fun _ w => WalletState.balance w) s.wallets address

theorem balanceAt_eq (s : Store) (address : Text) :
    s.balanceAt address = (s.walletAt address).balance := by
  unfold balanceAt walletAt getWallet OrderedMap.value
  cases s.wallets[address]? <;> rfl

@[simp] theorem adjustVotes_wallets (s : Store) (b a : Option (Text × UInt64)) :
    (s.adjustVotes b a).wallets = s.wallets := by
  unfold adjustVotes
  split_ifs
  · rfl
  · rcases b with _ | ⟨_, _⟩ <;> rcases a with _ | ⟨_, _⟩ <;> simp [addVotes]
    split_ifs <;> rfl

/-- `adjust_votes` writes the vote index only. -/
theorem adjustVotes_eq (s : Store) (b a : Option (Text × UInt64)) :
    s.adjustVotes b a = { s with votes := (s.adjustVotes b a).votes } := by
  unfold adjustVotes
  split_ifs
  · rfl
  · rcases b with _ | ⟨_, _⟩ <;> rcases a with _ | ⟨_, _⟩ <;> simp [addVotes]
    split_ifs <;> rfl

/-- One written wallet: its delta applied, votes moved, indexes updated. -/
theorem writeWallet_eq_ok {s s' : Store} {a : Text} {d : WalletDelta}
    (h : s.writeWallet a d = .ok s') :
    ∃ w, (s.walletAt a).apply d = .ok w ∧
      s' = ((s.adjustVotes (voteWeight (s.getWallet a)) (voteWeight (some w))).putWallet
        a w).writeIndexes a d := by
  obtain ⟨w, hw, h⟩ := bind_eq_ok.mp h
  exact ⟨w, hw, (pure_eq_ok.mp h).symm⟩

theorem writeWallet_getWallet {s s' : Store} {a : Text} {d : WalletDelta}
    (h : s.writeWallet a d = .ok s') (x : Text) (hx : a ≠ x) :
    s'.getWallet x = s.getWallet x := by
  obtain ⟨w, -, rfl⟩ := writeWallet_eq_ok h
  simp [getWallet, writeIndexes, putWallet, OrderedMap.getElem?_insert_eq, hx]

theorem writeWallet_getWallet_self {s s' : Store} {a : Text} {d : WalletDelta}
    (h : s.writeWallet a d = .ok s') :
    ∃ w, (s.walletAt a).apply d = .ok w ∧ s'.getWallet a = some w := by
  obtain ⟨w, hw, rfl⟩ := writeWallet_eq_ok h
  exact ⟨w, hw, by simp [getWallet, writeIndexes, putWallet]⟩

/-- The fold of `write_wallets_undo` over a list of entries. -/
def writeEntries (s : Store) (entries : List (Text × WalletDelta)) : Except Error Store :=
  entries.foldlM (fun s e => s.writeWallet e.1 e.2) s

/-- The previous states of the wallets that a list of entries names. -/
def undoOf (s : Store) (entries : List (Text × WalletDelta)) : UndoRecord :=
  entries.map fun e => (e.1, s.getWallet e.1)

/-- The fold that also collects the previous states writes the same, and collects the states
before the fold. -/
theorem foldlM_writeWallets {s s' : Store} {u undo : UndoRecord}
    {entries : List (Text × WalletDelta)} (hnodup : (entries.map fun e => e.1).Nodup)
    (h : entries.foldlM (fun (acc : Store × UndoRecord) e => do
      let s ← acc.1.writeWallet e.1 e.2
      return (s, acc.2 ++ [(e.1, acc.1.getWallet e.1)])) (s, u) = .ok (s', undo)) :
    s.writeEntries entries = .ok s' ∧ undo = u ++ s.undoOf entries := by
  induction entries generalizing s u with
  | nil =>
      obtain ⟨hs, hu⟩ := Prod.mk.inj (foldlM_nil_ok.mp h)
      refine ⟨foldlM_nil_ok.mpr hs, ?_⟩
      rw [← hu]
      exact (List.append_nil u).symm
  | cons e rest ih =>
      obtain ⟨⟨s₁, u₁⟩, hstep, hrest⟩ := foldlM_cons_ok.mp h
      obtain ⟨s₂, hs₂, hpair⟩ := bind_eq_ok.mp hstep
      obtain ⟨rfl, hu₁⟩ := Prod.mk.inj (pure_eq_ok.mp hpair)
      rw [List.map_cons, List.nodup_cons] at hnodup
      obtain ⟨hwritten, hundo⟩ := ih hnodup.2 hrest
      refine ⟨foldlM_cons_ok.mpr ⟨s₂, hs₂, hwritten⟩, ?_⟩
      have hkeep : s₂.undoOf rest = s.undoOf rest := by
        apply List.map_congr_left
        intro e' he'
        have hne : e.1 ≠ e'.1 := fun heq => hnodup.1 (heq ▸ List.mem_map_of_mem he')
        rw [writeWallet_getWallet hs₂ e'.1 hne]
      rw [hundo, ← hu₁, hkeep, List.append_assoc]
      rfl

theorem toList_keys_nodup (ds : Deltas) : (ds.toList.map fun e => e.1).Nodup := by
  have hkeys := OrderedMap.keys_nodup ds
  rwa [← Std.ExtTreeMap.map_fst_toList_eq_keys] at hkeys

theorem writeWallets_eq_ok {s s' : Store} {ds : Deltas} {undo : UndoRecord}
    (h : s.writeWallets ds = .ok (s', undo)) :
    s.writeEntries ds.toList = .ok s' ∧ undo = s.undoOf ds.toList :=
  foldlM_writeWallets (toList_keys_nodup ds) h

/-- A family of keys that each written wallet updates on its own. -/
theorem writeEntries_family {α : Type*} (π : Store → α) (g : α → Text × WalletDelta → α)
    (hg : ∀ (s s' : Store) a d, s.writeWallet a d = .ok s' → π s' = g (π s) (a, d))
    {s s' : Store} {entries : List (Text × WalletDelta)}
    (h : s.writeEntries entries = .ok s') : π s' = entries.foldl g (π s) :=
  foldlM_project π g (fun u e u' _ hu => hg u u' e.1 e.2 hu) h

/-- Wallets that no entry names keep their state, every other one has its delta
applied. -/
theorem writeEntries_getWallet {s s' : Store} {entries : List (Text × WalletDelta)}
    (hnodup : (entries.map fun e => e.1).Nodup) (h : s.writeEntries entries = .ok s') :
    (∀ x, x ∉ entries.map (fun e => e.1) → s'.getWallet x = s.getWallet x) ∧
    ∀ e ∈ entries, ∃ w, (s.walletAt e.1).apply e.2 = .ok w ∧ s'.getWallet e.1 = some w := by
  induction entries generalizing s with
  | nil =>
      have hs : s = s' := foldlM_nil_ok.mp h
      subst hs
      simp
  | cons e rest ih =>
      obtain ⟨s₁, hstep, hrest⟩ := foldlM_cons_ok.mp h
      rw [List.map_cons, List.nodup_cons] at hnodup
      obtain ⟨hkeep, happly⟩ := ih hnodup.2 hrest
      constructor
      · intro x hx
        simp only [List.map_cons, List.mem_cons, not_or] at hx
        rw [hkeep x hx.2]
        exact writeWallet_getWallet hstep x fun he => hx.1 he.symm
      · intro e' he'
        rcases List.mem_cons.mp he' with rfl | hmem
        · obtain ⟨w, hw, hget⟩ := writeWallet_getWallet_self hstep
          exact ⟨w, hw, (hkeep e'.1 hnodup.1).trans hget⟩
        · have hne : e.1 ≠ e'.1 := by
            rintro heq
            exact hnodup.1 (heq ▸ List.mem_map_of_mem hmem)
          obtain ⟨w, hw, hget⟩ := happly e' hmem
          refine ⟨w, ?_, hget⟩
          simpa only [walletAt, writeWallet_getWallet hstep e'.1 hne] using hw

/-- The wallet of an address after all deltas are written. -/
theorem writeEntries_wallet {s s' : Store} {ds : Deltas}
    (h : s.writeEntries ds.toList = .ok s') (x : Text) :
    (ds[x]? = none ∧ s'.getWallet x = s.getWallet x) ∨
    ∃ d w, ds[x]? = some d ∧ (s.walletAt x).apply d = .ok w ∧ s'.getWallet x = some w := by
  obtain ⟨hkeep, happly⟩ := writeEntries_getWallet (toList_keys_nodup ds) h
  cases hx : ds[x]? with
  | none =>
      refine .inl ⟨rfl, hkeep x ?_⟩
      rw [Std.ExtTreeMap.map_fst_toList_eq_keys]
      intro hmem
      rw [Std.ExtTreeMap.mem_keys, Std.ExtTreeMap.mem_iff_isSome_getElem?, hx] at hmem
      simp at hmem
  | some d =>
      obtain ⟨w, hw, hget⟩ := happly (x, d) (Std.ExtTreeMap.mem_toList_iff_getElem?_eq_some.mpr hx)
      exact .inr ⟨d, w, rfl, hw, hget⟩

end Store

end SthCore
