import SthCore.Chain.Run
import SthCore.Crypto.Signing
import SthCore.Storage.Votes

/-!
The vote index along whole histories: applied blocks, rollbacks, and writes by
hand.
-/

namespace SthCore

open SthCore.Lib

namespace Chain

/-- The vote sums fit a machine word after every wallet that a sub-batch writes. -/
def WritesFit : Condition := fun E s blocks =>
  ∀ prepared ds written t, blocks.mapM (prepareBlock E) = .ok prepared →
    batchDeltas E s (prepared.map (·.1)) = .ok ds → written <+: ds.toList →
    s.writeEntries written = .ok t → t.VotesFit

/-- The vote sums fit after every wallet that a rollback of the last block restores. -/
def RestoresFit (s : Store) : Prop :=
  ∀ undo restored, s.undo[s.lastHeight]? = some undo → restored <+: undo →
    (restored.foldl Store.restoreWallet s).VotesFit

/-- A database and everything that writes wallets, with sums that fit a machine word. -/
inductive VoteRun (E : Env) : Store → Prop
  | start (s : Store) (hwallets : s.wallets = ∅) (hvotes : s.votes = ∅) : VoteRun E s
  | apply {s : Store} (blocks : List Block) (hrun : VoteRun E s)
      (hfit : CallMeets WritesFit E s blocks) : VoteRun E (s.applyBlocks E blocks).1
  | rollback {s : Store} (hrun : VoteRun E s) (hfit : RestoresFit s) :
      VoteRun E (s.rollbackLastBlock E).1
  | update {s s' : Store} {address : Text} {balanceDelta : Int} {nonceDelta : Nat}
      {w : WalletState} (hrun : VoteRun E s)
      (h : s.updateWalletState address balanceDelta nonceDelta = .ok (s', w))
      (hfit : s'.VotesFit) : VoteRun E s'
  | repair {s s' : Store} {audit : WalletAudit} (hrun : VoteRun E s)
      (h : s.repairWallet audit = .ok s') (hfit : s'.VotesFit) : VoteRun E s'
  | setUndo {s : Store} (on : Bool) (hrun : VoteRun E s) : VoteRun E { s with undoEnabled := on }

theorem committed_votesExact {E : Env} {s s' : Store} {blocks : List Block}
    {prepared : List (Block × List Bytes)} (hprepared : blocks.mapM (prepareBlock E) = .ok prepared)
    (c : Store.Committed E s prepared s') (hfit : WritesFit E s blocks) (hexact : s.VotesExact) :
    s'.VotesExact := by
  have hwritten : c.wallets.VotesExact := Store.writeEntries_votesExact c.written hexact
    fun written t hpre ht => hfit prepared c.ds written t hprepared c.deltas hpre ht
  exact hwritten.congr c.sameLedger.wallets c.sameLedger.votes

theorem applyChunks_votesExact {E : Env} {s : Store} {chunks : List (List Block)} {force : Bool}
    (hmeets : EachChunk WritesFit E force s chunks) (hexact : s.VotesExact) :
    (s.applyChunks E chunks force).1.VotesExact := by
  induction chunks generalizing s with
  | nil => exact hexact
  | cons c rest ih =>
      have hdone : (s.applyLocked E c force).1.VotesExact := by
        rcases Store.applyLocked_cases E s c force with ⟨e, he⟩ | ⟨prepared, hprepared, ⟨hc⟩⟩
        · rw [he]
          exact hexact
        · exact committed_votesExact hprepared hc hmeets.1 hexact
      rw [Store.applyChunks_cons]
      unfold Outcome.andThen
      split
      · rename_i hok
        exact ih (hmeets.2 _ (Prod.ext rfl hok)) hdone
      · exact hdone

theorem rollbackLastBlock_votesExact {E : Env} {s : Store} (hfit : RestoresFit s)
    (hexact : s.VotesExact) : (s.rollbackLastBlock E).1.VotesExact := by
  cases hback : s.rollbackLastBlock E with
  | mk s' result =>
      cases result with
      | error e =>
          obtain ⟨certs, rfl⟩ := Store.rollbackLastBlock_error hback
          exact Store.VotesExact.congr (s := s) rfl rfl hexact
      | ok tip =>
          obtain ⟨-, ⟨r⟩⟩ := Store.rollbackLastBlock_eq_ok hback
          have hrestored : (r.undo.foldl Store.restoreWallet s).VotesExact :=
            Store.foldl_restoreWallet_votesExact hexact
              fun restored hpre => hfit r.undo restored r.logged hpre
          obtain ⟨hwallets, hvotes, -⟩ := r.accounts
          obtain ⟨hwallets', hvotes'⟩ := Store.foldl_restoreWallet_congr
            (s := ({ s with finality := r.certs }).dropListings r.undo) (t := s) rfl rfl r.undo
          exact hrestored.congr (hwallets.trans hwallets') (hvotes.trans hvotes')

theorem VoteRun.votesExact {E : Env} {s : Store} (hrun : VoteRun E s) : s.VotesExact := by
  induction hrun with
  | start s hwallets hvotes =>
      intro pk
      unfold Store.delegateVotes Store.voteSum
      rw [hwallets, hvotes, Std.ExtTreeMap.getElem?_empty,
        Std.ExtTreeMap.toList_eq_nil_iff.mpr rfl]
      rfl
  | apply blocks _ hfit ih =>
      rw [Store.applyBlocks_eq_applyChunks]
      exact applyChunks_votesExact hfit.each ih
  | rollback _ hfit ih => exact rollbackLastBlock_votesExact hfit ih
  | update _ h hfit ih =>
      obtain ⟨w, hreplaced⟩ := Store.updateWalletState_replaced h
      exact hreplaced.votesExact ih hfit
  | repair _ h hfit ih =>
      obtain ⟨w, hreplaced⟩ := Store.repairWallet_replaced h
      exact hreplaced.votesExact ih hfit
  | setUndo _ _ ih =>
      rename_i s _ _
      exact Store.VotesExact.congr (s := s) rfl rfl ih

end Chain

open Chain

/-- After any history the index holds, for every delegate, the balances and locked amounts of its
voters, as a rebuild would compute them. -/
theorem vote_index_exact (E : Env) (s : Store) (hrun : VoteRun E s) (pk : Text) :
    (s.delegateVotes pk).toNat = s.voteSum pk ∧
    s.rebuildVoteIndex.1.delegateVotes pk = s.delegateVotes pk :=
  ⟨hrun.votesExact pk, hrun.votesExact.rebuild pk⟩

/-- The weight of all wallets together. -/
def Store.totalWeight (s : Store) : Nat := (s.wallets.toList.map fun e => e.2.weight).sum

theorem Store.votesFit_of_totalWeight {s : Store} (h : s.totalWeight < 2 ^ 64) : s.VotesFit := by
  intro pk
  refine lt_of_le_of_lt ?_ h
  apply List.sum_le_sum
  intro e _
  unfold weightFor
  split_ifs
  · exact le_refl _
  · exact Nat.zero_le _

/-- The total weight after every wallet that a sub-batch writes. -/
def weightsAlong (E : Env) (s : Store) (blocks : List Block) : Except Error (List Nat) := do
  let prepared ← blocks.mapM (prepareBlock E)
  let ds ← batchDeltas E s (prepared.map (·.1))
  return ds.toList.inits.filterMap fun written =>
    (s.writeEntries written).toOption.map Store.totalWeight

theorem writesFit_of_weightsAlong {E : Env} {s : Store} {blocks : List Block} {weights : List Nat}
    (h : weightsAlong E s blocks = .ok weights) (hbound : ∀ n ∈ weights, n < 2 ^ 64) :
    WritesFit E s blocks := by
  intro prepared ds written t hprepared hds hpre ht
  have hweights : weightsAlong E s blocks = .ok (ds.toList.inits.filterMap fun written =>
      (s.writeEntries written).toOption.map Store.totalWeight) := by
    unfold weightsAlong
    rw [hprepared]
    refine bind_eq_ok.mpr ⟨prepared, rfl, ?_⟩
    rw [hds]
    rfl
  rw [h] at hweights
  injection hweights with hweights
  apply Store.votesFit_of_totalWeight
  apply hbound
  rw [hweights, List.mem_filterMap]
  refine ⟨written, (List.mem_inits _ _).mpr hpre, ?_⟩
  rw [ht]
  rfl

namespace Reference

/-- A first block in which the first key votes for itself. -/
def voteGenesis : Block :=
  first.forge 1 0 (Hex.encode (beBytes 32 0)) 0 [first.sign {
    type := 3, nonce := some 1, senderPublicKey := "", fee := 10
    asset := some { votes := some [⟨'+' :: first.publicKey.toList⟩] } }]

/-- A database in which the first key has got 100 by hand. -/
def fundedStore : Store :=
  (({} : Store).updateWalletState first.address 100 0).toOption.elim {} Prod.fst

/-- The first key has voted for itself. -/
def votedStore : Store := (fundedStore.applyBlocks ⟨primitives, network {}, 8000⟩ [voteGenesis]).1

/-- The audited values of the first key: a nonce of 1 and a balance of 60. -/
def repairedAudit : WalletAudit := ⟨first.address, 1, 60⟩

end Reference

open Reference

theorem fundedStore_voteRun : VoteRun ⟨primitives, network {}, 8000⟩ fundedStore := by
  obtain ⟨hok, hweight⟩ :
      (({} : Store).updateWalletState first.address 100 0).toOption.isSome ∧
      fundedStore.totalWeight < 2 ^ 64 := by
    decide +kernel
  have hstored : fundedStore =
      (({} : Store).updateWalletState first.address 100 0).toOption.elim {} Prod.fst := rfl
  cases h : ({} : Store).updateWalletState first.address 100 0 with
  | error e =>
      rw [h] at hok
      cases hok
  | ok r =>
      rw [h] at hstored
      rcases r with ⟨s, w⟩
      have hs : fundedStore = s := hstored
      rw [hs] at hweight ⊢
      exact (VoteRun.start {} rfl rfl).update h (Store.votesFit_of_totalWeight hweight)

/-- The weights in the block of the vote, before the balance is set and after it. -/
theorem votedStore_weights :
    weightsAlong ⟨primitives, network {}, 8000⟩ fundedStore [voteGenesis] = .ok [100, 100] ∧
    (votedStore.repairWallet repairedAudit).map (fun s =>
      (s.totalWeight, s.voteSum first.publicKey)) = .ok (60, 60) ∧
    votedStore.voteSum first.publicKey = 100 := by
  decide +kernel

theorem votedStore_voteRun : VoteRun ⟨primitives, network {}, 8000⟩ votedStore := by
  refine fundedStore_voteRun.apply [voteGenesis] (callMeets_single ?_)
  refine writesFit_of_weightsAlong votedStore_weights.1 ?_
  intro n hn
  simp only [List.mem_cons, List.not_mem_nil, or_false, or_self] at hn
  omega

/-- A wallet gets 100 by hand, votes for itself in a block, and has its balance set to 60. -/
theorem vote_index_exact_self :
    ∃ s, votedStore.repairWallet repairedAudit = .ok s ∧
      votedStore.voteSum first.publicKey = 100 ∧ s.voteSum first.publicKey = 60 ∧
      (s.delegateVotes first.publicKey).toNat = s.voteSum first.publicKey := by
  obtain ⟨-, hrepair, hbefore⟩ := votedStore_weights
  obtain ⟨s, hs, hsums⟩ := map_eq_ok.mp hrepair
  obtain ⟨hweight, hsum⟩ := Prod.mk.inj hsums
  have hfit : s.VotesFit := Store.votesFit_of_totalWeight (by omega)
  exact ⟨s, hs, hbefore, hsum,
    (vote_index_exact _ s (votedStore_voteRun.repair hs hfit) first.publicKey).1⟩

end SthCore
