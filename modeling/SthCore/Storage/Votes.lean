import SthCore.Storage.Reverted

/-!
The vote index.  It is kept by differences, one wallet at a time; this file adds
the writes outside of blocks and shows that no write of a wallet leaves the
index behind.
-/

namespace SthCore

open SthCore.Lib

/-- The audited values of a wallet, as far as a repair reads them. -/
structure WalletAudit where
  address : Text
  computedNonce : UInt64
  computedBalance : Int

namespace Store

/-- `update_wallet_state`: one wallet moves outside of a block. -/
def updateWalletState (s : Store) (address : Text) (balanceDelta : Int) (nonceDelta : Nat) :
    Except Error (Store × WalletState) := do
  let delta : WalletDelta := { balance := balanceDelta, nonce := nonceDelta }
  let written ← s.writeWallets ((∅ : Deltas).insert address delta)
  match written.1.getWallet address with
  | some state => return (written.1, state)
  | none => throw (.notFound s!"{address}")

/-- `repair_wallet`: overwrite nonce and balance with the audited values. -/
def repairWallet (s : Store) (audit : WalletAudit) : Except Error Store :=
  if audit.computedBalance < i64Min ∨ i64Max < audit.computedBalance then
    .error (.sync s!"audited balance {audit.computedBalance} out of range")
  else
    let previous := s.getWallet audit.address
    let state := { previous.getD (WalletState.new audit.address) with
      balance := audit.computedBalance
      nonce := audit.computedNonce.toNat }
    .ok { s.adjustVotes (voteWeight previous) (voteWeight (some state)) with
      wallets := s.wallets.insert audit.address state }

/-- One wallet of `rebuild_vote_index`. -/
def countVote (votes : OrderedMap Text UInt64) (w : WalletState) : OrderedMap Text UInt64 :=
  match voteWeight (some w) with
  | some (pk, weight) => votes.upsert pk 0 fun v => v + weight
  | none => votes

/-- `rebuild_vote_index`: the index from all wallets, and its size. -/
def rebuildVoteIndex (s : Store) : Store × Nat :=
  let votes := (s.wallets.toList.map (·.2)).foldl countVote ∅
  ({ s with votes }, votes.size)

end Store

/-- Balance, if any, and locked amounts. -/
def WalletState.weight (w : WalletState) : Nat :=
  w.balance.toNat + (w.locks.toList.map fun l => l.2.amount.toNat).sum

/-- What a wallet counts for a delegate. -/
def weightFor (pk : Text) (w : WalletState) : Nat := if w.vote = some pk then w.weight else 0

/-- What an entry of the vote index moves by. -/
def share (pk : Text) (vote : Option (Text × UInt64)) : Nat :=
  match vote with
  | some (k, weight) => if k = pk then weight.toNat else 0
  | none => 0

@[simp] theorem share_none (pk : Text) : share pk none = 0 := rfl

@[simp] theorem share_some (pk k : Text) (weight : UInt64) :
    share pk (some (k, weight)) = if k = pk then weight.toNat else 0 := rfl

theorem toNat_sum_eq (l : List UInt64) : l.sum.toNat = (l.map UInt64.toNat).sum % 2 ^ 64 := by
  induction l with
  | nil => rfl
  | cons a rest ih =>
      rw [List.sum_cons, UInt64.toNat_add, ih, List.map_cons, List.sum_cons]
      omega

/-- A weight that fits a machine word is counted as it is. -/
theorem share_voteWeight {pk : Text} {w : WalletState} (h : weightFor pk w < 2 ^ 64) :
    share pk (voteWeight (some w)) = weightFor pk w := by
  unfold weightFor at h ⊢
  cases hvote : w.vote with
  | none => simp [voteWeight, hvote]
  | some k =>
      have hweight : voteWeight (some w) =
          some (k, UInt64.ofNat w.balance.toNat + w.lockedBalance) := by
        simp [voteWeight, hvote]
      rw [hweight, share_some]
      by_cases hk : k = pk
      · subst hk
        rw [hvote, if_pos rfl] at h
        have hlocks : w.lockedBalance.toNat =
            (w.locks.toList.map fun l => l.2.amount.toNat).sum % 2 ^ 64 := by
          unfold WalletState.lockedBalance
          rw [toNat_sum_eq, List.map_map]
          rfl
        unfold WalletState.weight at h ⊢
        rw [if_pos rfl, if_pos rfl, UInt64.toNat_add, hlocks, UInt64.toNat_ofNat']
        omega
      · simp [hk]

namespace Store

/-- The sum over all wallets that vote for a delegate. -/
def voteSum (s : Store) (pk : Text) : Nat :=
  (s.wallets.toList.map fun e => weightFor pk e.2).sum

/-- No sum exceeds a machine word. -/
def VotesFit (s : Store) : Prop := ∀ pk, s.voteSum pk < 2 ^ 64

/-- The index holds the sums. -/
def VotesExact (s : Store) : Prop := ∀ pk, (s.delegateVotes pk).toNat = s.voteSum pk

theorem voteSum_eq_total (s : Store) (pk : Text) :
    (s.voteSum pk : Int) = OrderedMap.total (fun _ w => (weightFor pk w : Int)) s.wallets := by
  unfold voteSum OrderedMap.total
  rw [Nat.cast_list_sum, List.map_map]
  rfl

theorem VotesExact.congr {s s' : Store} (hwallets : s'.wallets = s.wallets)
    (hvotes : s'.votes = s.votes) (h : s.VotesExact) : s'.VotesExact := by
  unfold VotesExact delegateVotes voteSum at h ⊢
  rw [hwallets, hvotes]
  exact h

theorem weightFor_le_voteSum {s : Store} {address : Text} {w : WalletState}
    (h : s.getWallet address = some w) (pk : Text) : weightFor pk w ≤ s.voteSum pk := by
  apply List.single_le_sum (by simp)
  have hmem : (address, w) ∈ s.wallets.toList :=
    Std.ExtTreeMap.mem_toList_iff_getElem?_eq_some.mpr h
  exact List.mem_map.mpr ⟨(address, w), hmem, rfl⟩

theorem addVotes_delegateVotes (s : Store) (k : Text) (delta : Int) (pk : Text) :
    (s.addVotes k delta).delegateVotes pk =
      if k = pk then UInt64.ofNat (max ((s.delegateVotes k).toNat + delta) 0).toNat
      else s.delegateVotes pk := by
  unfold addVotes
  simp only [delegateVotes, OrderedMap.getElem?_insert_eq]
  split_ifs <;> rfl

/-- Neither the floor at zero nor the size of a word shows if the true sum has neither. -/
theorem adjustVotes_delegateVotes (s : Store) (before after : Option (Text × UInt64)) (pk : Text)
    (hbefore : share pk before ≤ (s.delegateVotes pk).toNat)
    (hfit : (s.delegateVotes pk).toNat - share pk before + share pk after < 2 ^ 64) :
    ((s.adjustVotes before after).delegateVotes pk).toNat =
      (s.delegateVotes pk).toNat - share pk before + share pk after := by
  have hword : ∀ n : Nat, n < 2 ^ 64 → (UInt64.ofNat n).toNat = n :=
    fun n hn => UInt64.toNat_ofNat_of_lt' hn
  unfold adjustVotes
  split_ifs with hsame
  · rw [hsame] at hbefore ⊢
    omega
  · match before, after with
    | none, none => simp
    | some (a, wa), none =>
        simp only [share_some, share_none] at hbefore hfit ⊢
        rw [addVotes_delegateVotes]
        split_ifs at hbefore hfit ⊢ with ha
        · subst ha
          rw [hword _ (by omega)]
          omega
        · omega
    | none, some (b, wb) =>
        simp only [share_some, share_none] at hbefore hfit ⊢
        rw [addVotes_delegateVotes]
        split_ifs at hbefore hfit ⊢ with hb
        · subst hb
          rw [hword _ (by omega)]
          omega
        · omega
    | some (a, wa), some (b, wb) =>
        simp only [share_some] at hbefore hfit ⊢
        by_cases hab : a = b
        · subst hab
          rw [if_pos rfl, addVotes_delegateVotes]
          split_ifs at hbefore hfit ⊢ with ha
          · subst ha
            rw [hword _ (by omega)]
            omega
          · omega
        · rw [if_neg hab, addVotes_delegateVotes, addVotes_delegateVotes, addVotes_delegateVotes,
            if_neg hab]
          by_cases hb : b = pk
          · subst hb
            simp only [hab, if_false, if_true] at hbefore hfit ⊢
            rw [hword _ (by omega)]
            omega
          · simp only [hb, if_false] at hbefore hfit ⊢
            by_cases ha : a = pk
            · subst ha
              simp only [if_true] at hbefore hfit ⊢
              rw [hword _ (by omega)]
              omega
            · simp only [ha, if_false] at hbefore hfit ⊢
              omega

/-- `s'` is `s` with another wallet, or none, at one address, and the votes moved from the old
one to the new one. -/
structure Replaced (s : Store) (address : Text) (after : Option WalletState) (s' : Store) :
    Prop where
  wallets : s'.wallets = match after with
    | some w => s.wallets.insert address w
    | none => s.wallets.erase address
  votes : s'.votes =
    (s.adjustVotes (voteWeight (s.getWallet address)) (voteWeight after)).votes

namespace Replaced

variable {s s' : Store} {address : Text} {after : Option WalletState}

/-- What a wallet, or its absence, counts for a delegate. -/
def weightOf (pk : Text) (w : Option WalletState) : Nat := w.elim 0 (weightFor pk)

theorem voteSum (h : Replaced s address after s') (pk : Text) :
    s'.voteSum pk + weightOf pk (s.getWallet address) = s.voteSum pk + weightOf pk after := by
  have hold : ((weightOf pk (s.getWallet address) : Nat) : Int) =
      s.wallets[address]?.elim 0 (fun w => (weightFor pk w : Int)) := by
    unfold weightOf getWallet
    cases s.wallets[address]? <;> rfl
  have hs := voteSum_eq_total s pk
  have hs' := voteSum_eq_total s' pk
  rw [h.wallets] at hs'
  cases after with
  | some w =>
      simp only [OrderedMap.total_insert_sub] at hs'
      have hnew : weightOf pk (some w) = weightFor pk w := rfl
      omega
  | none =>
      have herase := OrderedMap.total_erase (fun _ w => (weightFor pk w : Int)) s.wallets address
      have hnew : weightOf pk none = 0 := rfl
      simp only at hs'
      omega

theorem weight_le (h : Replaced s address after s') (pk : Text) :
    weightOf pk after ≤ s'.voteSum pk := by
  cases after with
  | none => exact Nat.zero_le _
  | some w =>
      have hget : s'.getWallet address = some w := by
        unfold getWallet
        rw [h.wallets]
        simp
      exact weightFor_le_voteSum hget pk

theorem share_voteWeight_weightOf {pk : Text} {w : Option WalletState}
    (h : weightOf pk w < 2 ^ 64) : share pk (voteWeight w) = weightOf pk w := by
  cases w with
  | none => rfl
  | some w => exact share_voteWeight h

/-- The index stays exact as long as the new sums fit. -/
theorem votesExact (h : Replaced s address after s') (hexact : s.VotesExact)
    (hfit : s'.VotesFit) : s'.VotesExact := by
  intro pk
  have hsum := h.voteSum pk
  have hnew := h.weight_le pk
  have hbound := hfit pk
  have hindex := hexact pk
  have hword := (s.delegateVotes pk).toNat_lt
  have hold : weightOf pk (s.getWallet address) ≤ s.voteSum pk := by
    cases hget : s.getWallet address with
    | none => exact Nat.zero_le _
    | some w => exact weightFor_le_voteSum hget pk
  have hbefore : share pk (voteWeight (s.getWallet address)) = weightOf pk (s.getWallet address) :=
    share_voteWeight_weightOf (by omega)
  have hafter : share pk (voteWeight after) = weightOf pk after :=
    share_voteWeight_weightOf (by omega)
  have hmoved := adjustVotes_delegateVotes s (voteWeight (s.getWallet address))
    (voteWeight after) pk (by omega) (by omega)
  have hvotes : s'.delegateVotes pk = (s.adjustVotes (voteWeight (s.getWallet address))
      (voteWeight after)).delegateVotes pk := by
    unfold delegateVotes
    rw [h.votes]
  rw [hvotes, hmoved]
  omega

end Replaced

theorem writeWallet_replaced {s s' : Store} {address : Text} {d : WalletDelta}
    (h : s.writeWallet address d = .ok s') : ∃ w, Replaced s address (some w) s' := by
  obtain ⟨w, -, rfl⟩ := writeWallet_eq_ok h
  refine ⟨w, ?_, ?_⟩
  · simp [writeIndexes, putWallet]
  · simp [writeIndexes, putWallet]

theorem restoreWallet_replaced (s : Store) (e : Text × Option WalletState) :
    Replaced s e.1 e.2 (restoreWallet s e) := by
  rcases e with ⟨address, _ | w⟩
  · exact ⟨rfl, rfl⟩
  · exact ⟨rfl, rfl⟩

theorem repairWallet_replaced {s s' : Store} {audit : WalletAudit}
    (h : s.repairWallet audit = .ok s') : ∃ w, Replaced s audit.address (some w) s' := by
  unfold repairWallet at h
  split_ifs at h
  injection h with h
  rw [← h]
  exact ⟨_, rfl, rfl⟩

theorem updateWalletState_replaced {s s' : Store} {address : Text} {balanceDelta : Int}
    {nonceDelta : Nat} {w : WalletState}
    (h : s.updateWalletState address balanceDelta nonceDelta = .ok (s', w)) :
    ∃ w, Replaced s address (some w) s' := by
  obtain ⟨⟨s₁, undo⟩, hwrite, h⟩ := bind_eq_ok.mp h
  obtain ⟨hentries, -⟩ := writeWallets_eq_ok hwrite
  have hlist : ((∅ : Deltas).insert address
      { balance := balanceDelta, nonce := nonceDelta }).toList =
      [(address, { balance := balanceDelta, nonce := nonceDelta })] := by
    apply List.perm_singleton.mp
    refine (OrderedMap.toList_insert_perm _ _ _).trans ?_
    simp
  rw [hlist] at hentries
  obtain ⟨s₂, hstep, hend⟩ := foldlM_cons_ok.mp hentries
  obtain rfl : s₂ = s₁ := foldlM_nil_ok.mp hend
  simp only at h
  split at h
  · rw [pure_eq_ok] at h
    obtain ⟨rfl, -⟩ := Prod.mk.inj h
    exact writeWallet_replaced hstep
  · exact absurd h throw_ne_ok

/-- Wallets written one after another, with sums that fit after each. -/
theorem writeEntries_votesExact {s s' : Store} {entries : List (Text × WalletDelta)}
    (h : s.writeEntries entries = .ok s') (hexact : s.VotesExact)
    (hfit : ∀ written t, written <+: entries → s.writeEntries written = .ok t → t.VotesFit) :
    s'.VotesExact := by
  induction entries generalizing s with
  | nil =>
      obtain rfl : s = s' := foldlM_nil_ok.mp h
      exact hexact
  | cons e rest ih =>
      obtain ⟨s₁, hstep, hrest⟩ := foldlM_cons_ok.mp h
      obtain ⟨w, hreplaced⟩ := writeWallet_replaced hstep
      have hfit₁ : s₁.VotesFit :=
        hfit [e] s₁ (List.prefix_iff_eq_take.mpr rfl) (foldlM_cons_ok.mpr ⟨s₁, hstep, rfl⟩)
      refine ih hrest (hreplaced.votesExact hexact hfit₁) ?_
      intro written t hpre ht
      refine hfit (e :: written) t ?_ (foldlM_cons_ok.mpr ⟨s₁, hstep, ht⟩)
      exact (List.prefix_cons_inj e).mpr hpre

theorem foldl_restoreWallet_votesExact {s : Store} {undo : UndoRecord} (hexact : s.VotesExact)
    (hfit : ∀ restored, restored <+: undo → (restored.foldl restoreWallet s).VotesFit) :
    (undo.foldl restoreWallet s).VotesExact := by
  induction undo generalizing s with
  | nil => exact hexact
  | cons e rest ih =>
      have hfit₁ : (restoreWallet s e).VotesFit := hfit [e] (List.prefix_iff_eq_take.mpr rfl)
      refine ih ((restoreWallet_replaced s e).votesExact hexact hfit₁) ?_
      intro restored hpre
      exact hfit (e :: restored) ((List.prefix_cons_inj e).mpr hpre)

theorem adjustVotes_congr {s t : Store} (h : s.votes = t.votes)
    (before after : Option (Text × UInt64)) :
    (s.adjustVotes before after).votes = (t.adjustVotes before after).votes := by
  have hadd : ∀ {u v : Store}, u.votes = v.votes → ∀ k delta,
      (u.addVotes k delta).votes = (v.addVotes k delta).votes := by
    intro u v huv k delta
    simp only [addVotes, delegateVotes, huv]
  unfold adjustVotes
  split_ifs
  · exact h
  · rcases before with _ | ⟨a, wa⟩
    · rcases after with _ | ⟨b, wb⟩
      · exact h
      · exact hadd h _ _
    · rcases after with _ | ⟨b, wb⟩
      · exact hadd h _ _
      · simp only
        split_ifs
        · exact hadd h _ _
        · exact hadd (hadd h _ _) _ _

/-- What is restored depends on the wallets and the votes only. -/
theorem foldl_restoreWallet_congr {s t : Store} (hwallets : s.wallets = t.wallets)
    (hvotes : s.votes = t.votes) (undo : UndoRecord) :
    (undo.foldl restoreWallet s).wallets = (undo.foldl restoreWallet t).wallets ∧
    (undo.foldl restoreWallet s).votes = (undo.foldl restoreWallet t).votes := by
  induction undo generalizing s t with
  | nil => exact ⟨hwallets, hvotes⟩
  | cons e rest ih =>
      have hs := restoreWallet_replaced s e
      have ht := restoreWallet_replaced t e
      apply ih
      · rw [hs.wallets, ht.wallets, hwallets]
      · rw [hs.votes, ht.votes]
        unfold getWallet
        rw [hwallets]
        exact adjustVotes_congr hvotes _ _

/-- Counting wallet after wallet gives the sums, if these fit. -/
theorem foldl_countVote (wallets : List WalletState) (pk : Text) (votes : OrderedMap Text UInt64)
    (h : (votes[pk]?.getD 0).toNat + (wallets.map (weightFor pk)).sum < 2 ^ 64) :
    ((wallets.foldl countVote votes)[pk]?.getD 0).toNat =
      (votes[pk]?.getD 0).toNat + (wallets.map (weightFor pk)).sum := by
  induction wallets generalizing votes with
  | nil => simp
  | cons w rest ih =>
      rw [List.map_cons, List.sum_cons] at h ⊢
      have hshare : share pk (voteWeight (some w)) = weightFor pk w := share_voteWeight (by omega)
      have hcount : ((countVote votes w)[pk]?.getD 0).toNat =
          (votes[pk]?.getD 0).toNat + weightFor pk w := by
        rw [← hshare]
        unfold countVote
        split
        · rename_i k weight hvote
          rw [hvote, share_some] at hshare
          rw [hvote, share_some, OrderedMap.getD_upsert]
          split_ifs at hshare ⊢ with hk
          · subst hk
            rw [UInt64.toNat_add, Nat.mod_eq_of_lt (by omega)]
          · rfl
        · rename_i hvote
          rw [hvote]
          rfl
      rw [List.foldl_cons, ih _ (by omega), hcount]
      omega

/-- An exact index is the one that a rebuild computes. -/
theorem VotesExact.rebuild {s : Store} (h : s.VotesExact) (pk : Text) :
    s.rebuildVoteIndex.1.delegateVotes pk = s.delegateVotes pk := by
  apply UInt64.toNat_inj.mp
  have hsum : ((s.wallets.toList.map (·.2)).map (weightFor pk)).sum = s.voteSum pk := by
    rw [List.map_map]
    rfl
  have hword := (s.delegateVotes pk).toNat_lt
  have hindex := h pk
  have hcount := foldl_countVote (s.wallets.toList.map (·.2)) pk ∅ (by
    rw [hsum, Std.ExtTreeMap.getElem?_empty]
    simp only [Option.getD_none, UInt64.toNat_zero]
    omega)
  rw [hsum, Std.ExtTreeMap.getElem?_empty, Option.getD_none, UInt64.toNat_zero] at hcount
  unfold rebuildVoteIndex
  rw [hindex]
  unfold delegateVotes
  rw [hcount]
  omega

end Store

end SthCore
