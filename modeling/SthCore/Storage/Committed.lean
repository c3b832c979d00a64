import SthCore.Storage.Written

/-!
From one written wallet to a whole call of `apply_blocks`: what a database
transaction changes besides the wallets, and which sub-batches a call commits.
-/

namespace SthCore

open SthCore.Lib

/-- A prepared block is the block with its ids filled in. -/
theorem prepareBlock_ok {E : Env} {block : Block} {p : Block × List Bytes}
    (h : prepareBlock E block = .ok p) :
    encodeBlock E p.1 = .ok p.2 ∧ p.1.height = block.height ∧
    p.1.previousBlock = block.previousBlock ∧ blockId E.prim p.1 = blockId E.prim block ∧
    ∃ id, p.1.id = some id ∧
      (block.id = some id ∨ block.id = none ∧ blockId E.prim block = .ok id) := by
  unfold prepareBlock at h
  have hend : ∀ id : Text, (do
      let transactions ← block.transactions.mapM (fillId E.prim)
      return ({ block with id := some id, transactions },
        ← encodeBlock E { block with id := some id, transactions })) = .ok p →
      encodeBlock E p.1 = .ok p.2 ∧ p.1.height = block.height ∧
      p.1.previousBlock = block.previousBlock ∧ blockId E.prim p.1 = blockId E.prim block ∧
      p.1.id = some id := by
    intro id hp
    obtain ⟨txs, -, hp⟩ := bind_eq_ok.mp hp
    obtain ⟨record, hrecord, hp⟩ := bind_eq_ok.mp hp
    rw [pure_eq_ok] at hp
    subst hp
    exact ⟨hrecord, rfl, rfl, rfl, rfl⟩
  cases hid : block.id with
  | some own =>
      rw [hid] at h
      obtain ⟨id, hown, h⟩ := bind_eq_ok.mp h
      injection hown with hown
      subst hown
      obtain ⟨hrecord, hheight, hprevious, hsame, hpid⟩ := hend _ h
      exact ⟨hrecord, hheight, hprevious, hsame, own, hpid, .inl rfl⟩
  | none =>
      rw [hid] at h
      obtain ⟨id, hcomputed, h⟩ := bind_eq_ok.mp h
      obtain ⟨hrecord, hheight, hprevious, hsame, hpid⟩ := hend _ h
      exact ⟨hrecord, hheight, hprevious, hsame, id, hpid, .inr ⟨rfl, hcomputed⟩⟩

theorem prepareBlock_timestamp {E : Env} {block : Block} {p : Block × List Bytes}
    (h : prepareBlock E block = .ok p) : p.1.timestamp = block.timestamp := by
  unfold prepareBlock at h
  cases hid : block.id with
  | none =>
      simp only [hid] at h
      obtain ⟨id, -, h⟩ := bind_eq_ok.mp h
      obtain ⟨txs, -, h⟩ := bind_eq_ok.mp h
      obtain ⟨record, -, h⟩ := bind_eq_ok.mp h
      rw [← pure_eq_ok.mp h]
  | some id =>
      simp only [hid] at h
      obtain ⟨same, -, h⟩ := bind_eq_ok.mp h
      obtain ⟨txs, -, h⟩ := bind_eq_ok.mp h
      obtain ⟨record, -, h⟩ := bind_eq_ok.mp h
      rw [← pure_eq_ok.mp h]

theorem prepared_heights {E : Env} {blocks : List Block} {prepared : List (Block × List Bytes)}
    (h : blocks.mapM (prepareBlock E) = .ok prepared) :
    (prepared.map (·.1)).map (·.height) = blocks.map (·.height) := by
  have hall := forall₂_of_mapM_ok h
  clear h
  induction hall with
  | nil => rfl
  | cons hab hrest ih =>
      obtain ⟨-, hheight, -⟩ := prepareBlock_ok hab
      simp only [List.map_cons, ih, hheight]

namespace Store

/-- `s'` is `s` up to the block and transaction indexes, the undo log, the
round snapshots and the missed-slot statistics. -/
def SameLedger (s s' : Store) : Prop :=
  s' = { s with
    blocks := s'.blocks
    blockIds := s'.blockIds
    txs := s'.txs
    txList := s'.txList
    walletTxs := s'.walletTxs
    rounds := s'.rounds
    missedTotal := s'.missedTotal
    missedAt := s'.missedAt
    undo := s'.undo
    lastHeight := s'.lastHeight
    txCount := s'.txCount }

/-- `s'` is `s` up to the undo log, the round snapshots and the missed-slot
statistics. -/
def SameChain (s s' : Store) : Prop :=
  s' = { s with
    rounds := s'.rounds
    missedTotal := s'.missedTotal
    missedAt := s'.missedAt
    undo := s'.undo }

namespace SameLedger

variable {s s' s'' : Store}

theorem refl (s : Store) : SameLedger s s := rfl

theorem trans (h : SameLedger s s') (h' : SameLedger s' s'') : SameLedger s s'' := by
  unfold SameLedger at h h' ⊢
  rw [h'] at *
  rw [h]

theorem wallets (h : SameLedger s s') : s'.wallets = s.wallets := by
  rw [h]

theorem votes (h : SameLedger s s') : s'.votes = s.votes := by
  rw [h]

theorem walletUsername (h : SameLedger s s') : s'.walletUsername = s.walletUsername := by
  rw [h]

theorem locks (h : SameLedger s s') : s'.locks = s.locks := by
  rw [h]

theorem undoEnabled (h : SameLedger s s') : s'.undoEnabled = s.undoEnabled := by
  rw [h]

end SameLedger

theorem SameChain.sameLedger {s s' : Store} (h : SameChain s s') : SameLedger s s' := by
  unfold SameChain at h
  unfold SameLedger
  rw [h]

/-- The chain and the accounts of its wallets. -/
theorem SameChain.chain {s s' : Store} (h : SameChain s s') :
    s'.blocks = s.blocks ∧ s'.blockIds = s.blockIds ∧ s'.lastHeight = s.lastHeight ∧
    s'.equivocations = s.equivocations ∧ s'.undoEnabled = s.undoEnabled := by
  rw [h]
  exact ⟨rfl, rfl, rfl, rfl, rfl⟩

theorem SameChain.accounts {s s' : Store} (h : SameChain s s') :
    s'.wallets = s.wallets ∧ s'.votes = s.votes ∧ s'.walletUsername = s.walletUsername := by
  rw [h]
  exact ⟨rfl, rfl, rfl⟩

theorem SameChain.refl (s : Store) : SameChain s s := rfl

theorem SameChain.trans {s s' s'' : Store} (h : SameChain s s') (h' : SameChain s' s'') :
    SameChain s s'' := by
  unfold SameChain at h h' ⊢
  rw [h'] at *
  rw [h]

/-- `s'` is `s` up to the round snapshots and the missed-slot statistics. -/
def SameLog (s s' : Store) : Prop :=
  s' = { s with
    rounds := s'.rounds
    missedTotal := s'.missedTotal
    missedAt := s'.missedAt }

theorem SameLog.refl (s : Store) : SameLog s s := rfl

theorem SameLog.trans {s s' s'' : Store} (h : SameLog s s') (h' : SameLog s' s'') :
    SameLog s s'' := by
  unfold SameLog at h h' ⊢
  rw [h'] at *
  rw [h]

theorem SameLog.sameChain {s s' : Store} (h : SameLog s s') : SameChain s s' := by
  unfold SameLog at h
  unfold SameChain
  rw [h]

theorem SameLog.undo {s s' : Store} (h : SameLog s s') : s'.undo = s.undo := by
  rw [h]

/-- `s'` is `s` up to the stored blocks and the transaction indexes. -/
def SameState (s s' : Store) : Prop :=
  s' = { s with
    blocks := s'.blocks
    blockIds := s'.blockIds
    txs := s'.txs
    txList := s'.txList
    walletTxs := s'.walletTxs
    lastHeight := s'.lastHeight
    txCount := s'.txCount }

theorem SameState.refl (s : Store) : SameState s s := rfl

theorem SameState.trans {s s' s'' : Store} (h : SameState s s') (h' : SameState s' s'') :
    SameState s s'' := by
  unfold SameState at h h' ⊢
  rw [h'] at *
  rw [h]

theorem SameState.sameLedger {s s' : Store} (h : SameState s s') : SameLedger s s' := by
  unfold SameState at h
  unfold SameLedger
  rw [h]

theorem SameState.undo {s s' : Store} (h : SameState s s') : s'.undo = s.undo := by
  rw [h]

theorem SameState.rounds {s s' : Store} (h : SameState s s') : s'.rounds = s.rounds := by
  rw [h]

/-- `s'` is `s` up to the missed-slot statistics. -/
def SameStats (s s' : Store) : Prop :=
  s' = { s with missedTotal := s'.missedTotal, missedAt := s'.missedAt }

theorem SameStats.refl (s : Store) : SameStats s s := rfl

theorem SameStats.trans {s s' s'' : Store} (h : SameStats s s') (h' : SameStats s' s'') :
    SameStats s s'' := by
  unfold SameStats at h h' ⊢
  rw [h'] at *
  rw [h]

theorem SameStats.sameLog {s s' : Store} (h : SameStats s s') : SameLog s s' := by
  unfold SameStats at h
  unfold SameLog
  rw [h]

theorem SameStats.rounds {s s' : Store} (h : SameStats s s') : s'.rounds = s.rounds := by
  rw [h]

/-- `s'` is `s` up to the wallets and the indexes derived from them. -/
def SameRecords (s s' : Store) : Prop :=
  s' = { s with
    wallets := s'.wallets
    walletPk := s'.walletPk
    walletUsername := s'.walletUsername
    locks := s'.locks
    votes := s'.votes
    sobjNames := s'.sobjNames
    sobjOwner := s'.sobjOwner
    market := s'.market
    tokenOwner := s'.tokenOwner
    tokenSymbol := s'.tokenSymbol
    orders := s'.orders
    book := s'.book
    sellerBook := s'.sellerBook
    trades := s'.trades
    pqCommits := s'.pqCommits
    pqKeys := s'.pqKeys }

theorem SameRecords.trans {s s' s'' : Store} (h : SameRecords s s') (h' : SameRecords s' s'') :
    SameRecords s s'' := by
  unfold SameRecords at h h' ⊢
  rw [h'] at *
  rw [h]

/-- Chain, proofs and the undo switch are not records of wallets. -/
theorem SameRecords.chain {s s' : Store} (h : SameRecords s s') :
    s'.blocks = s.blocks ∧ s'.blockIds = s.blockIds ∧ s'.lastHeight = s.lastHeight ∧
    s'.rounds = s.rounds ∧ s'.equivocations = s.equivocations ∧
    s'.undoEnabled = s.undoEnabled := by
  rw [h]
  exact ⟨rfl, rfl, rfl, rfl, rfl, rfl⟩

theorem SameRecords.undo {s s' : Store} (h : SameRecords s s') : s'.undo = s.undo := by
  rw [h]

theorem adjustVotes_sameRecords (s : Store) (b a : Option (Text × UInt64)) :
    SameRecords s (s.adjustVotes b a) := by
  rw [adjustVotes_eq]
  rfl

theorem writeEntries_sameRecords {s s' : Store} {entries : List (Text × WalletDelta)}
    (h : s.writeEntries entries = .ok s') : SameRecords s s' := by
  refine foldlM_preserves (P := SameRecords s) ?_ h rfl
  intro t e t' _ ht hs
  obtain ⟨w, -, rfl⟩ := writeWallet_eq_ok ht
  exact hs.trans ((adjustVotes_sameRecords t _ _).trans rfl)

theorem indexTransaction_sameState {E : Env} {height : Nat} {s s' : Store}
    {e : Transaction × Nat} (h : indexTransaction E height s e = .ok s') : SameState s s' := by
  unfold indexTransaction at h
  split at h
  · rw [pure_eq_ok] at h
    exact h ▸ SameState.refl s
  · obtain ⟨addresses, -, h⟩ := bind_eq_ok.mp h
    rw [pure_eq_ok] at h
    rw [← h]
    rfl

theorem writeBlock_sameState {E : Env} {s s' : Store} {p : Block × List Bytes}
    (h : writeBlock E s p = .ok s') : SameState s s' := by
  obtain ⟨s₁, hs₁, h⟩ := bind_eq_ok.mp h
  rw [pure_eq_ok] at h
  have hs : SameState s s₁ := by
    refine foldlM_preserves (P := SameState s) ?_ hs₁ rfl
    intro u e u' _ hu hs
    exact hs.trans (indexTransaction_sameState hu)
  exact hs.trans (by rw [← h]; rfl)

theorem writeBlocks_sameState {E : Env} {s s' : Store} {l : List (Block × List Bytes)}
    (h : l.foldlM (writeBlock E) s = .ok s') : SameState s s' :=
  foldlM_preserves (P := SameState s)
    (fun _ _ _ _ hu hs => hs.trans (writeBlock_sameState hu)) h (SameState.refl s)

theorem indexTransactions_chain {E : Env} {height : Nat} {s s' : Store}
    {entries : List (Transaction × Nat)}
    (h : entries.foldlM (indexTransaction E height) s = .ok s') :
    s'.blocks = s.blocks ∧ s'.blockIds = s.blockIds ∧ s'.lastHeight = s.lastHeight := by
  refine foldlM_preserves (P := fun t => t.blocks = s.blocks ∧ t.blockIds = s.blockIds ∧
    t.lastHeight = s.lastHeight) ?_ h ⟨rfl, rfl, rfl⟩
  intro t e t' _ ht hs
  unfold indexTransaction at ht
  split at ht
  · rw [pure_eq_ok] at ht
    exact ht ▸ hs
  · obtain ⟨addresses, -, ht⟩ := bind_eq_ok.mp ht
    rw [pure_eq_ok] at ht
    rw [← ht]
    exact hs

/-- A written block lies under its height. -/
theorem writeBlock_blocks {E : Env} {s s' : Store} {p : Block × List Bytes}
    (h : writeBlock E s p = .ok s') :
    s'.blocks = s.blocks.insert p.1.height p.2 ∧
    s'.lastHeight = max s.lastHeight p.1.height := by
  obtain ⟨s₁, hs₁, h⟩ := bind_eq_ok.mp h
  rw [pure_eq_ok] at h
  obtain ⟨hblocks, -, hheight⟩ := indexTransactions_chain hs₁
  rw [← h]
  refine ⟨hblocks, ?_⟩
  simp only
  rw [hheight]

theorem putUndo_sameChain (s : Store) (height : Nat) (undo : UndoRecord) :
    SameChain s (s.putUndo height undo) := rfl

theorem snapshotRound_sameLog (E : Env) (s : Store) (height : Nat) :
    SameLog s (s.snapshotRoundIfBoundary E height) := by
  simp only [snapshotRoundIfBoundary]
  split_ifs <;> rfl

theorem missSlot_sameStats (E : Env) (block : Block) (order : List DelegateRank) (n : Nat)
    (s : Store) (acc : Outcome × List MissedSlot) (slot : Nat) (h : SameStats s acc.1.1) :
    SameStats s (missSlot E block order n acc slot).1.1 := by
  unfold missSlot
  split
  · exact h
  · split
    · exact h
    · exact h.trans rfl

theorem foldl_missSlot_sameStats (E : Env) (block : Block) (order : List DelegateRank) (n : Nat)
    (s : Store) (slots : List Nat) (acc : Outcome × List MissedSlot) (h : SameStats s acc.1.1) :
    SameStats s (slots.foldl (missSlot E block order n) acc).1.1 := by
  induction slots generalizing acc with
  | nil => exact h
  | cons slot rest ih => exact ih _ (missSlot_sameStats E block order n s acc slot h)

theorem andThen_sameStats {s : Store} {o : Outcome} {f : Store → Outcome} (ho : SameStats s o.1)
    (hf : ∀ t, SameStats t (f t).1) : SameStats s (o.andThen f).1 := by
  unfold Outcome.andThen
  split
  · exact ho.trans (hf o.1)
  · exact ho

theorem recordMissedSlots_sameStats (E : Env) (s : Store) (ts : UInt32) (block : Block) :
    SameStats s (s.recordMissedSlots E ts block).1 := by
  simp only [recordMissedSlots]
  split_ifs
  · rfl
  · split
    · rfl
    · exact andThen_sameStats (foldl_missSlot_sameStats E block _ _ s _ _ (SameStats.refl s))
        fun t => rfl

theorem recordMissed_sameStats (E : Env) (s : Store) (ts : Option UInt32) (blocks : List Block) :
    SameStats s (s.recordMissed E ts blocks).1 := by
  unfold recordMissed
  refine List.foldlRecOn (motive := fun acc : Outcome × Option UInt32 => SameStats s acc.1.1)
    blocks _ rfl ?_
  intro acc h block _
  refine andThen_sameStats h fun t => ?_
  split
  · exact recordMissedSlots_sameStats E t _ block
  · rfl

theorem afterCommit_sameLog (E : Env) (s : Store) (blocks : List Block) :
    SameLog s (s.afterCommit E blocks).1 := by
  unfold afterCommit
  split
  · exact (snapshotRound_sameLog E s _).trans (recordMissed_sameStats E _ _ blocks).sameLog
  · rfl

/-- The parts of a committed sub-batch: its deltas, the written wallets and the
written blocks. -/
structure Committed (E : Env) (s : Store) (prepared : List (Block × List Bytes)) (s' : Store) where
  ds : Deltas
  wallets : Store
  chain : Store
  deltas : batchDeltas E s (prepared.map (·.1)) = .ok ds
  tip : ∀ first ∈ prepared.head?, s.checkTip first.1 = .ok ()
  written : s.writeEntries ds.toList = .ok wallets
  stored : prepared.foldlM (writeBlock E) wallets = .ok chain
  same : SameChain chain s'
  logged : s'.undo = s.undo ∨ ∃ first ∈ prepared.head?,
    s'.undo = (s.putUndo first.1.height (s.undoOf ds.toList)).undo

/-- The undo record of a committed sub-batch, if undo logging is on. -/
def Logs (s : Store) (prepared : List (Block × List Bytes)) (ds : Deltas) (undoOn : Bool)
    (s' : Store) : Prop :=
  if undoOn then
    ∃ first ∈ prepared.head?, s'.undo = (s.putUndo first.1.height (s.undoOf ds.toList)).undo
  else s'.undo = s.undo

theorem commitBlocks_logs {E : Env} {s s' : Store} {prepared : List (Block × List Bytes)}
    {undoOn : Bool} (h : s.commitBlocks E prepared undoOn = .ok s') :
    ∃ c : Committed E s prepared s', s.Logs prepared c.ds undoOn s' := by
  obtain ⟨ds, hds, h⟩ := bind_eq_ok.mp h
  cases prepared with
  | nil => exact absurd h throw_ne_ok
  | cons first rest =>
      obtain ⟨_, htip, h⟩ := bind_eq_ok.mp h
      obtain ⟨⟨s₁, undo⟩, hwrite, h⟩ := bind_eq_ok.mp h
      obtain ⟨s₂, hblocks, h⟩ := bind_eq_ok.mp h
      rw [pure_eq_ok] at h
      obtain ⟨hwritten, rfl⟩ := writeWallets_eq_ok hwrite
      have hkept : s₂.undo = s.undo := by
        rw [(writeBlocks_sameState hblocks).undo, (writeEntries_sameRecords hwritten).undo]
      have hlogs : s.Logs (first :: rest) ds undoOn s' := by
        unfold Logs
        rw [← h]
        cases undoOn with
        | false => exact hkept
        | true =>
            refine ⟨first, rfl, ?_⟩
            simp only [if_true, putUndo, hkept]
      refine ⟨⟨ds, s₁, s₂, hds, ?_, hwritten, hblocks, ?_, ?_⟩, hlogs⟩
      · intro p hp
        rw [List.head?_cons, Option.mem_some_iff] at hp
        rw [← hp]
        exact htip
      · rw [← h]
        split_ifs
        · exact putUndo_sameChain s₂ _ _
        · rfl
      · unfold Logs at hlogs
        split_ifs at hlogs with hon
        · exact .inr hlogs
        · exact .inl hlogs

theorem commitBlocks_eq_ok {E : Env} {s s' : Store} {prepared : List (Block × List Bytes)}
    {undoOn : Bool} (h : s.commitBlocks E prepared undoOn = .ok s') :
    Nonempty (Committed E s prepared s') := by
  obtain ⟨c, -⟩ := commitBlocks_logs h
  exact ⟨c⟩

/-- Committing touches the ledger through the wallet writes alone. -/
theorem Committed.sameLedger {E : Env} {s s' : Store} {prepared : List (Block × List Bytes)}
    (c : Committed E s prepared s') : SameLedger c.wallets s' :=
  (writeBlocks_sameState c.stored).sameLedger.trans c.same.sameLedger

/-- A sub-batch whose transaction commits stays committed, whatever comes after. -/
theorem applyLocked_committed {E : Env} {s s' : Store} {blocks : List Block} {force : Bool}
    {prepared : List (Block × List Bytes)} (hprepared : blocks.mapM (prepareBlock E) = .ok prepared)
    (hcommit : s.commitBlocks E prepared (force || s.undoEnabled) = .ok s') :
    ∃ c : Committed E s prepared (s.applyLocked E blocks force).1,
      s.Logs prepared c.ds (force || s.undoEnabled) (s.applyLocked E blocks force).1 := by
  have hresult : s.applyLocked E blocks force = s'.afterCommit E (prepared.map (·.1)) := by
    unfold applyLocked
    simp only [hprepared, hcommit]
  obtain ⟨c, hlogs⟩ := commitBlocks_logs hcommit
  have hafter := afterCommit_sameLog E s' (prepared.map (·.1))
  have hlater : s.Logs prepared c.ds (force || s.undoEnabled)
      (s'.afterCommit E (prepared.map (·.1))).1 := by
    unfold Logs at hlogs ⊢
    rwa [hafter.undo]
  rw [hresult]
  refine ⟨{ c with same := c.same.trans hafter.sameChain, logged := ?_ }, hlater⟩
  rw [hafter.undo]
  exact c.logged

/-- `apply_locked` either changes nothing and fails, or commits the sub-batch and logs it. -/
theorem applyLocked_logs (E : Env) (s : Store) (blocks : List Block) (force : Bool) :
    (∃ e, s.applyLocked E blocks force = (s, .error e)) ∨
    ∃ prepared, blocks.mapM (prepareBlock E) = .ok prepared ∧
      ∃ c : Committed E s prepared (s.applyLocked E blocks force).1,
        s.Logs prepared c.ds (force || s.undoEnabled) (s.applyLocked E blocks force).1 := by
  cases hprepared : blocks.mapM (prepareBlock E) with
  | error e =>
      refine .inl ⟨e, ?_⟩
      unfold applyLocked
      rw [hprepared]
  | ok prepared =>
      cases hcommit : s.commitBlocks E prepared (force || s.undoEnabled) with
      | error e =>
          refine .inl ⟨e, ?_⟩
          unfold applyLocked
          simp only [hprepared, hcommit]
      | ok s' => exact .inr ⟨prepared, rfl, applyLocked_committed hprepared hcommit⟩

theorem applyLocked_cases (E : Env) (s : Store) (blocks : List Block) (force : Bool) :
    (∃ e, s.applyLocked E blocks force = (s, .error e)) ∨
    ∃ prepared, blocks.mapM (prepareBlock E) = .ok prepared ∧
      Nonempty (Committed E s prepared (s.applyLocked E blocks force).1) := by
  rcases applyLocked_logs E s blocks force with he | ⟨prepared, hprepared, c, -⟩
  · exact .inl he
  · exact .inr ⟨prepared, hprepared, ⟨c⟩⟩

theorem applyLocked_eq_ok {E : Env} {s s' : Store} {blocks : List Block} {force : Bool}
    (h : s.applyLocked E blocks force = (s', .ok ())) :
    ∃ prepared, blocks.mapM (prepareBlock E) = .ok prepared ∧
      Nonempty (Committed E s prepared s') := by
  rcases applyLocked_cases E s blocks force with ⟨e, he⟩ | hc
  · rw [he] at h
    exact absurd (congrArg Prod.snd h) (by simp)
  · rwa [h] at hc

/-- Without undo logging no undo record is written. -/
theorem applyLocked_unlogged {E : Env} {s : Store} (blocks : List Block) {force : Bool}
    (h : (force || s.undoEnabled) = false) : (s.applyLocked E blocks force).1.undo = s.undo := by
  rcases applyLocked_logs E s blocks force with ⟨e, he⟩ | ⟨prepared, -, c, hlogs⟩
  · rw [he]
  · rw [h] at hlogs
    exact hlogs

theorem applyLocked_nil (E : Env) (s : Store) (force : Bool) :
    ∃ e, s.applyLocked E [] force = (s, .error e) := by
  unfold applyLocked
  split
  · exact ⟨_, rfl⟩
  · rename_i prepared hprepared
    split
    · exact ⟨_, rfl⟩
    · rename_i t ht
      obtain rfl : [] = prepared := pure_eq_ok.mp hprepared
      obtain ⟨ds, -, ht⟩ := bind_eq_ok.mp ht
      exact absurd ht throw_ne_ok

theorem applyLocked_undoEnabled (E : Env) (s : Store) (blocks : List Block) (force : Bool) :
    (s.applyLocked E blocks force).1.undoEnabled = s.undoEnabled := by
  rcases applyLocked_cases E s blocks force with ⟨e, he⟩ | ⟨prepared, -, ⟨c⟩⟩
  · rw [he]
  · rw [c.sameLedger.undoEnabled, (writeEntries_sameRecords c.written).chain.2.2.2.2.2]

/-- The sub-batches in which `apply_blocks` writes a list of blocks. -/
def chunks (E : Env) (s : Store) (blocks : List Block) : List (List Block) :=
  match blocks with
  | [] => []
  | [b] => [[b]]
  | _ => if s.undoEnabled then blocks.map fun b => [b] else subBatches E blocks

/-- Whether the sub-batches are written with an undo record. -/
def forcesUndo (s : Store) (blocks : List Block) : Bool :=
  blocks.length = 1 || s.undoEnabled

/-- `apply_blocks` writes its sub-batches one after another. -/
theorem applyBlocks_eq_applyChunks (E : Env) (s : Store) (blocks : List Block) :
    s.applyBlocks E blocks = s.applyChunks E (s.chunks E blocks) (s.forcesUndo blocks) := by
  match blocks with
  | [] => rfl
  | [b] => rfl
  | a :: b :: rest =>
      unfold applyBlocks chunks forcesUndo
      by_cases hu : s.undoEnabled
      · simp [hu]
      · simp [hu]

theorem subBatches_flatten (E : Env) (blocks : List Block) :
    (subBatches E blocks).flatten = blocks := by
  induction blocks with
  | nil => rfl
  | cons b rest ih =>
      unfold subBatches
      split_ifs
      · simp [ih]
      · cases hrest : subBatches E rest with
        | nil =>
            rw [hrest] at ih
            simp_all
        | cons chunk chunks =>
            rw [hrest] at ih
            simpa using ih

/-- No block is lost or written twice. -/
theorem chunks_flatten (E : Env) (s : Store) (blocks : List Block) :
    (s.chunks E blocks).flatten = blocks := by
  match blocks with
  | [] => rfl
  | [b] => rfl
  | a :: b :: rest =>
      unfold chunks
      split_ifs
      · simp [List.flatten_eq_flatMap, List.flatMap_map]
      · exact subBatches_flatten E _

/-- Where undo records are written, every block is a sub-batch of its own. -/
theorem chunks_alone (E : Env) (s : Store) (blocks : List Block) :
    (s.forcesUndo blocks || s.undoEnabled) = false ∨
      ∀ c ∈ s.chunks E blocks, ∃ b, c = [b] := by
  match blocks with
  | [] => exact .inr fun c hc => absurd hc List.not_mem_nil
  | [b] =>
      right
      intro c hc
      exact ⟨b, List.mem_singleton.mp hc⟩
  | a :: b :: rest =>
      unfold chunks forcesUndo
      by_cases hu : s.undoEnabled
      · right
        intro c hc
        rw [if_pos hu] at hc
        obtain ⟨d, -, rfl⟩ := List.mem_map.mp hc
        exact ⟨d, rfl⟩
      · left
        simp [hu]

@[simp] theorem applyChunks_nil (E : Env) (s : Store) (force : Bool) :
    s.applyChunks E [] force = (s, .ok ()) := rfl

theorem foldl_andThen_error (E : Env) (s : Store) (e : Error) (chunks : List (List Block))
    (force : Bool) :
    chunks.foldl (fun (o : Outcome) chunk => o.andThen fun s => s.applyLocked E chunk force)
      (s, .error e) = (s, .error e) := by
  induction chunks with
  | nil => rfl
  | cons c rest ih => exact ih

theorem applyChunks_cons (E : Env) (s : Store) (c : List Block) (rest : List (List Block))
    (force : Bool) :
    s.applyChunks E (c :: rest) force =
      (s.applyLocked E c force).andThen fun s' => s'.applyChunks E rest force := by
  unfold applyChunks
  rw [List.foldl_cons]
  change List.foldl _ (s.applyLocked E c force) rest = _
  rcases s.applyLocked E c force with ⟨s', _ | _⟩
  · exact foldl_andThen_error E s' _ rest force
  · rfl

theorem applyChunks_cons_eq_ok {E : Env} {s s' : Store} {c : List Block}
    {rest : List (List Block)} {force : Bool} :
    s.applyChunks E (c :: rest) force = (s', .ok ()) ↔
      ∃ s₁, s.applyLocked E c force = (s₁, .ok ()) ∧
        s₁.applyChunks E rest force = (s', .ok ()) := by
  rw [applyChunks_cons]
  rcases s.applyLocked E c force with ⟨s₁, _ | _⟩
  · simp [Outcome.andThen]
  · simp [Outcome.andThen]

theorem applyChunks_preserves {E : Env} {P : Store → Prop} {force : Bool} {s : Store}
    (chunks : List (List Block))
    (hlocked : ∀ s, ∀ chunk ∈ chunks, P s → P (s.applyLocked E chunk force).1) (hs : P s) :
    P (s.applyChunks E chunks force).1 := by
  induction chunks generalizing s with
  | nil => exact hs
  | cons c rest ih =>
      have hc := hlocked s c List.mem_cons_self hs
      rw [applyChunks_cons]
      unfold Outcome.andThen
      split
      · exact ih (fun t d hd => hlocked t d (List.mem_cons_of_mem c hd)) hc
      · exact hc

/-- What every committed sub-batch keeps, `apply_blocks` keeps, whether it fails or not. -/
theorem applyBlocks_preserves {E : Env} {P : Store → Prop}
    (hcommit : ∀ s prepared s', Committed E s prepared s' → P s → P s') {s : Store}
    (blocks : List Block) (hs : P s) : P (s.applyBlocks E blocks).1 := by
  rw [applyBlocks_eq_applyChunks]
  refine applyChunks_preserves _ ?_ hs
  intro t chunk _ ht
  rcases applyLocked_cases E t chunk (s.forcesUndo blocks) with ⟨e, he⟩ | ⟨prepared, -, ⟨c⟩⟩
  · rw [he]
    exact ht
  · exact hcommit t prepared _ c ht

end Store

end SthCore
