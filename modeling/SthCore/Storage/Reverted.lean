import SthCore.Lib.Result
import SthCore.Storage.Committed
import SthCore.Storage.Rollback

/-!
What a rollback of the last block changes, family by family.
-/

namespace SthCore

open SthCore.Lib

namespace Store

/-- `s'` is `s` up to the indexes of tokens, smart objects and transactions. -/
def SameAccounts (s s' : Store) : Prop :=
  s' = { s with
    txs := s'.txs
    txList := s'.txList
    walletTxs := s'.walletTxs
    sobjNames := s'.sobjNames
    sobjOwner := s'.sobjOwner
    market := s'.market
    tokenOwner := s'.tokenOwner
    tokenSymbol := s'.tokenSymbol
    orders := s'.orders
    book := s'.book
    sellerBook := s'.sellerBook
    trades := s'.trades }

namespace SameAccounts

variable {s s' s'' : Store}

theorem refl (s : Store) : SameAccounts s s := rfl

theorem trans (h : SameAccounts s s') (h' : SameAccounts s' s'') : SameAccounts s s'' := by
  unfold SameAccounts at h h' ⊢
  rw [h'] at *
  rw [h]

theorem chain (h : SameAccounts s s') :
    s'.blocks = s.blocks ∧ s'.blockIds = s.blockIds ∧ s'.lastHeight = s.lastHeight ∧
    s'.rounds = s.rounds ∧ s'.equivocations = s.equivocations ∧
    s'.undoEnabled = s.undoEnabled := by
  rw [h]
  exact ⟨rfl, rfl, rfl, rfl, rfl, rfl⟩

theorem undo (h : SameAccounts s s') : s'.undo = s.undo := by
  rw [h]

theorem accounts (h : SameAccounts s s') :
    s'.wallets = s.wallets ∧ s'.votes = s.votes ∧ s'.walletUsername = s.walletUsername := by
  rw [h]
  exact ⟨rfl, rfl, rfl⟩

end SameAccounts

theorem undoToken_sameAccounts (height : Nat) (s : Store) (e : Transaction × Nat) :
    SameAccounts s (undoToken height s e) := by
  unfold undoToken
  simp only
  split
  · split <;> rfl
  · split <;> rfl
  · split <;> rfl
  · rfl

theorem foldl_undoToken_sameAccounts (height : Nat) (s : Store) (l : List (Transaction × Nat)) :
    SameAccounts s (l.foldl (undoToken height) s) := by
  induction l generalizing s with
  | nil => rfl
  | cons e rest ih => exact (undoToken_sameAccounts height s e).trans (ih _)

/-- The owner a hand-over is taken back to: the wallet that held the object, else the sender. -/
def UndoneOwner (E : Env) (owners : OrderedMap Text Text) (tx : Transaction) (reg owner : Text) :
    Prop :=
  owners[reg]? = some owner ∨ owners[reg]? = none ∧ E.addressOf tx.senderPublicKey = .ok owner

/-- Taking back a smart object transaction drops a name, restores an owner, or does nothing. -/
theorem undoSobj_cases {E : Env} {owners : OrderedMap Text Text} {s s' : Store}
    {tx : Transaction} {e : SmartObjectAsset} (h : undoSobj E owners s tx e = .ok s') :
    (SobjAction.ofCode e.action = some .register ∧ ∃ name, e.data.name = some name ∧
      s' = { s with sobjNames := s.sobjNames.erase (sobjNameKey name e.type) }) ∨
    ((SobjAction.ofCode e.action = some .transfer ∨ SobjAction.ofCode e.action = some .buy) ∧
      ∃ reg owner, e.registrationId = some reg ∧ UndoneOwner E owners tx reg owner ∧
      s' = { s with
        sobjOwner := s.sobjOwner.insert reg owner
        tokenOwner :=
          if s.tokenOwner[reg]?.isSome then s.tokenOwner.insert reg owner else s.tokenOwner }) ∨
    (s' = s ∧ (SobjAction.ofCode e.action = some .register → e.data.name = none)) := by
  unfold undoSobj at h
  split at h
  · rename_i haction
    split at h
    · rename_i name hname
      exact .inl ⟨haction, name, hname, (pure_eq_ok.mp h).symm⟩
    · rename_i hname
      exact .inr (.inr ⟨(pure_eq_ok.mp h).symm, fun _ => hname⟩)
  · rename_i haction
    split at h
    · exact .inr (.inr ⟨(pure_eq_ok.mp h).symm, by simp [haction]⟩)
    · rename_i reg hreg
      cases howner : owners[reg]? with
      | some o =>
          simp only [howner] at h
          exact .inr (.inl ⟨.inl haction, reg, o, hreg, .inl howner, (pure_eq_ok.mp h).symm⟩)
      | none =>
          simp only [howner] at h
          obtain ⟨owner, haddress, h⟩ := bind_eq_ok.mp h
          exact .inr (.inl ⟨.inl haction, reg, owner, hreg, .inr ⟨howner, haddress⟩,
            (pure_eq_ok.mp h).symm⟩)
  · rename_i haction
    split at h
    · exact .inr (.inr ⟨(pure_eq_ok.mp h).symm, by simp [haction]⟩)
    · rename_i reg hreg
      cases howner : owners[reg]? with
      | some o =>
          simp only [howner] at h
          exact .inr (.inl ⟨.inr haction, reg, o, hreg, .inl howner, (pure_eq_ok.mp h).symm⟩)
      | none =>
          simp only [howner] at h
          obtain ⟨owner, haddress, h⟩ := bind_eq_ok.mp h
          exact .inr (.inl ⟨.inr haction, reg, owner, hreg, .inr ⟨howner, haddress⟩,
            (pure_eq_ok.mp h).symm⟩)
  · rename_i haction _ _
    exact .inr (.inr ⟨(pure_eq_ok.mp h).symm, fun hregister => absurd hregister haction⟩)

theorem undoSobj_sameAccounts {E : Env} {owners : OrderedMap Text Text} {s s' : Store}
    {tx : Transaction} {e : SmartObjectAsset} (h : undoSobj E owners s tx e = .ok s') :
    SameAccounts s s' := by
  rcases undoSobj_cases h with ⟨-, name, -, rfl⟩ | ⟨-, reg, owner, -, -, rfl⟩ | ⟨rfl, -⟩
  · rfl
  · rfl
  · rfl

theorem undoInit_sameAccounts (symbols : List (Text × Text)) (s : Store) (tx : Transaction) :
    SameAccounts s (undoInit symbols s tx) := by
  unfold undoInit
  split <;> rfl

/-- The smart object part of a transaction taken back. -/
def SobjUndone (E : Env) (owners : OrderedMap Text Text) (tx : Transaction) (s s' : Store) : Prop :=
  (∃ e, tx.sobjAsset = some e ∧ undoSobj E owners s tx e = .ok s') ∨
    tx.sobjAsset = none ∧ s' = s

theorem undoTransaction_cases {E : Env} {height : Nat} {owners : OrderedMap Text Text}
    {symbols : List (Text × Text)} {s s' : Store} {e : Transaction × Nat}
    (h : undoTransaction E height owners symbols s e = .ok s') :
    (e.1.id = none ∧ s' = s) ∨
    ∃ id s₁ addresses, e.1.id = some id ∧ SobjUndone E owners e.1 s s₁ ∧
      txAddresses E e.1 = .ok addresses ∧
      s' = { undoInit symbols s₁ e.1 with
        txs := (undoInit symbols s₁ e.1).txs.erase id
        txList := (undoInit symbols s₁ e.1).txList.erase
          (height, e.1.sequence.getD (UInt32.ofNat e.2))
        walletTxs := addresses.foldl (fun m a =>
          m.erase (a, height, e.1.sequence.getD (UInt32.ofNat e.2)))
          (undoInit symbols s₁ e.1).walletTxs } := by
  unfold undoTransaction at h
  simp only at h
  split at h
  · rename_i hid
    exact .inl ⟨hid, (pure_eq_ok.mp h).symm⟩
  · rename_i id hid
    right
    split at h
    · rename_i asset hasset
      obtain ⟨s₁, hs₁, h⟩ := bind_eq_ok.mp h
      obtain ⟨addresses, haddresses, h⟩ := bind_eq_ok.mp h
      exact ⟨id, s₁, addresses, hid, .inl ⟨asset, hasset, hs₁⟩, haddresses,
        (pure_eq_ok.mp h).symm⟩
    · rename_i hasset
      obtain ⟨s₁, hsame, h⟩ := bind_eq_ok.mp h
      injection hsame with hsame
      subst hsame
      obtain ⟨addresses, haddresses, h⟩ := bind_eq_ok.mp h
      exact ⟨id, s, addresses, hid, .inr ⟨hasset, rfl⟩, haddresses, (pure_eq_ok.mp h).symm⟩

theorem SobjUndone.sameAccounts {E : Env} {owners : OrderedMap Text Text} {tx : Transaction}
    {s s' : Store} (h : SobjUndone E owners tx s s') : SameAccounts s s' := by
  rcases h with ⟨e, -, hundo⟩ | ⟨-, rfl⟩
  · exact undoSobj_sameAccounts hundo
  · rfl

theorem undoTransaction_sameAccounts {E : Env} {height : Nat} {owners : OrderedMap Text Text}
    {symbols : List (Text × Text)} {s s' : Store} {e : Transaction × Nat}
    (h : undoTransaction E height owners symbols s e = .ok s') : SameAccounts s s' := by
  rcases undoTransaction_cases h with ⟨-, rfl⟩ | ⟨id, s₁, addresses, -, hsobj, -, rfl⟩
  · rfl
  · exact (hsobj.sameAccounts.trans (undoInit_sameAccounts symbols s₁ e.1)).trans rfl

/-- The accounts of a store with every wallet of an undo record restored. -/
def restoreWallets (s : Store) (undo : UndoRecord) : Store :=
  undo.foldl restoreWallet (s.dropListings undo)

theorem restoreWallet_sameRecords (s : Store) (e : Text × Option WalletState) :
    SameRecords s (restoreWallet s e) := by
  unfold restoreWallet restoreIndexes
  simp only
  split
  · exact (adjustVotes_sameRecords s _ _).trans rfl
  · exact (adjustVotes_sameRecords s _ _).trans rfl

theorem restoreWallets_sameRecords (s : Store) (undo : UndoRecord) :
    SameRecords s (s.restoreWallets undo) := by
  have hfold : ∀ t : Store, SameRecords t (undo.foldl restoreWallet t) := by
    induction undo with
    | nil => exact fun t => rfl
    | cons e rest ih =>
        intro t
        exact (restoreWallet_sameRecords t e).trans (ih _)
  have hdrop : SameRecords s (s.dropListings undo) := rfl
  exact hdrop.trans (hfold (s.dropListings undo))

/-- The database transaction of a rollback: restored wallets, and one block less. -/
structure Reverted (s : Store) (height : Nat) (block : Block) (undo : UndoRecord)
    (s' : Store) where
  accounts : Store
  same : SameAccounts (s.restoreWallets undo) accounts
  result : s' = { accounts with
    txCount := accounts.txCount - indexedCount block
    blockIds := match block.id with
      | some id => accounts.blockIds.erase id
      | none => accounts.blockIds
    blocks := accounts.blocks.erase height
    undo := accounts.undo.erase height
    lastHeight := height - 1 }

theorem revert_eq_ok {E : Env} {s s' : Store} {height : Nat} {block : Block} {undo : UndoRecord}
    (h : s.revert E height block undo = .ok s') : Nonempty (Reverted s height block undo s') := by
  unfold revert at h
  simp only at h
  obtain ⟨s₁, hs₁, h⟩ := bind_eq_ok.mp h
  rw [pure_eq_ok] at h
  refine ⟨⟨s₁, ?_, h.symm⟩⟩
  refine (foldl_undoToken_sameAccounts height _ block.transactions.zipIdx.reverse).trans ?_
  refine foldlM_preserves (P := SameAccounts _) ?_ hs₁ rfl
  intro u e u' _ hu hs
  exact hs.trans (undoTransaction_sameAccounts hu)

theorem bumpMissedTotal_sameLog (s : Store) (publicKey : Text) (delta : Int) :
    SameLog s (s.bumpMissedTotal publicKey delta) := rfl

theorem foldl_bump_preserves {P : Store → Prop} (list : List MissedSlot)
    (hP : ∀ t publicKey delta, P t → P (t.bumpMissedTotal publicKey delta)) {t : Store}
    (ht : P t) : P (list.foldl (fun s m => s.bumpMissedTotal m.publicKey (-1)) t) := by
  induction list generalizing t with
  | nil => exact ht
  | cons m rest ih => exact ih (hP t m.publicKey (-1) ht)

theorem dropMissedAt_sameLog (s : Store) (height : Nat) :
    SameLog s (s.dropMissedAt height) := by
  unfold dropMissedAt
  split
  · rfl
  · refine foldl_bump_preserves (P := SameLog s) _ ?_ rfl
    intro t publicKey delta ht
    exact ht.trans (bumpMissedTotal_sameLog t publicKey delta)

theorem dropMissedAt_rounds (s : Store) (height : Nat) :
    (s.dropMissedAt height).rounds = s.rounds := by
  unfold dropMissedAt
  split
  · rfl
  · exact foldl_bump_preserves (P := fun t => t.rounds = s.rounds) _ (fun _ _ _ ht => ht) rfl

theorem dropRound_sameLog (E : Env) (s : Store) (height : Nat) :
    SameLog s (s.dropRound E height) := by
  simp only [dropRound]
  split_ifs <;> rfl

theorem passFinality_eq_ok {E : Env} {s s' : Store} {height : Nat}
    (h : s.passFinality E height = .ok s') : ∃ certs, s' = { s with finality := certs } := by
  unfold passFinality at h
  split at h
  · injection h with h
    exact ⟨s.finality, h.symm⟩
  · split at h
    · cases h
    · injection h with h
      exact ⟨_, h.symm⟩

theorem getBlockByHeight_some {E : Env} {s : Store} {height : Nat} {block : Block} :
    s.getBlockByHeight E height = .ok (some block) ↔
      ∃ record, s.blocks[height]? = some record ∧ decodeBlock E record = .ok block := by
  unfold getBlockByHeight
  cases hrecord : s.blocks[height]? with
  | none => simp
  | some record =>
      simp only [Option.some.injEq, exists_eq_left']
      rw [map_eq_ok]
      simp

/-- A rollback of the last block that succeeds: `certified` is the store after the
finality check, which may have dropped a certificate. -/
structure RolledBack (E : Env) (s s' : Store) where
  certs : OrderedMap Nat FinalityCert
  block : Block
  undo : UndoRecord
  reverted : Store
  above : 1 < s.lastHeight
  stored : s.getBlockByHeight E s.lastHeight = .ok (some block)
  logged : s.undo[s.lastHeight]? = some undo
  reverting : ({ s with finality := certs } : Store).revert E s.lastHeight block undo =
    .ok reverted
  transaction : Reverted { s with finality := certs } s.lastHeight block undo reverted
  result : s' = (reverted.dropMissedAt s.lastHeight).dropRound E s.lastHeight

theorem rollbackLastBlock_eq_ok {E : Env} {s s' : Store} {tip : Nat}
    (h : s.rollbackLastBlock E = (s', .ok tip)) :
    tip = s.lastHeight - 1 ∧ Nonempty (RolledBack E s s') := by
  unfold rollbackLastBlock at h
  simp only at h
  split_ifs at h with habove
  · cases h
  · split at h
    · cases h
    · rename_i s₁ hs₁
      obtain ⟨certs, rfl⟩ := passFinality_eq_ok hs₁
      split at h
      · cases h
      · cases h
      · cases h
      · rename_i block undo hblock hundo
        split at h
        · cases h
        · rename_i s₂ hs₂
          obtain ⟨hrevert⟩ := revert_eq_ok hs₂
          injection h with hs' htip
          injection htip with htip
          exact ⟨htip.symm, ⟨⟨certs, block, undo, s₂, by omega, hblock, hundo, hs₂, hrevert,
            hs'.symm⟩⟩⟩

/-- A rollback that fails may drop a certificate and nothing else. -/
theorem rollbackLastBlock_error {E : Env} {s s' : Store} {e : Error}
    (h : s.rollbackLastBlock E = (s', .error e)) : ∃ certs, s' = { s with finality := certs } := by
  unfold rollbackLastBlock at h
  simp only at h
  split_ifs at h with habove
  · injection h with h
    exact ⟨s.finality, h.symm⟩
  · split at h
    · injection h with h
      exact ⟨s.finality, h.symm⟩
    · rename_i s₁ hs₁
      obtain ⟨certs, rfl⟩ := passFinality_eq_ok hs₁
      split at h
      · injection h with h
        exact ⟨certs, h.symm⟩
      · injection h with h
        exact ⟨certs, h.symm⟩
      · injection h with h
        exact ⟨certs, h.symm⟩
      · split at h
        · injection h with h
          exact ⟨certs, h.symm⟩
        · cases h

namespace RolledBack

variable {E : Env} {s s' : Store}

theorem sameLog (r : RolledBack E s s') : SameLog r.reverted s' := by
  have h := (dropMissedAt_sameLog r.reverted s.lastHeight).trans
    (dropRound_sameLog E _ s.lastHeight)
  rwa [← r.result] at h

theorem sameChain (r : RolledBack E s s') : SameChain r.reverted s' := r.sameLog.sameChain

/-- The undo record of the block goes with it. -/
theorem undoLog (r : RolledBack E s s') : s'.undo = s.undo.erase s.lastHeight := by
  rw [r.sameLog.undo, r.transaction.result]
  simp only
  rw [r.transaction.same.undo, (restoreWallets_sameRecords _ r.undo).undo]

/-- The chain loses its last block; proofs and the undo switch stay. -/
theorem chain (r : RolledBack E s s') :
    s'.blocks = s.blocks.erase s.lastHeight ∧
    s'.blockIds = (match r.block.id with
      | some id => s.blockIds.erase id
      | none => s.blockIds) ∧
    s'.lastHeight = s.lastHeight - 1 ∧ s'.equivocations = s.equivocations ∧
    s'.undoEnabled = s.undoEnabled := by
  obtain ⟨hblocks, hids, hheight, hproofs, hundo⟩ := r.sameChain.chain
  obtain ⟨hblocks₁, hids₁, -, -, hproofs₁, hundo₁⟩ := r.transaction.same.chain
  obtain ⟨hblocks₀, hids₀, -, -, hproofs₀, hundo₀⟩ :=
    (restoreWallets_sameRecords { s with finality := r.certs } r.undo).chain
  rw [r.transaction.result] at hblocks hids hheight hproofs hundo
  refine ⟨?_, ?_, hheight, ?_, ?_⟩
  · rw [hblocks, hblocks₁, hblocks₀]
  · rw [hids, hids₁, hids₀]
  · rw [hproofs, hproofs₁, hproofs₀]
  · rw [hundo, hundo₁, hundo₀]

/-- The wallets, their votes and their names come from the undo record. -/
theorem accounts (r : RolledBack E s s') :
    s'.wallets = (restoreWallets { s with finality := r.certs } r.undo).wallets ∧
    s'.votes = (restoreWallets { s with finality := r.certs } r.undo).votes ∧
    s'.walletUsername = (restoreWallets { s with finality := r.certs } r.undo).walletUsername := by
  obtain ⟨hwallets, hvotes, hnames⟩ := r.sameChain.accounts
  obtain ⟨hwallets₁, hvotes₁, hnames₁⟩ := r.transaction.same.accounts
  rw [r.transaction.result] at hwallets hvotes hnames
  exact ⟨hwallets.trans hwallets₁, hvotes.trans hvotes₁, hnames.trans hnames₁⟩

end RolledBack

/-- What every rollback of a last block keeps, `rollback_to` keeps. -/
theorem rollbackTo_preserves {E : Env} {P : Store → Prop}
    (hok : ∀ s s', RolledBack E s s' → P s → P s')
    (herror : ∀ s certs, P s → P { s with finality := certs })
    {s : Store} (height : Nat) (hs : P s) : P (s.rollbackTo E height).1 := by
  suffices h : ∀ fuel s tip, P s → P (rollbackWhile E height fuel s tip).1 from h _ _ _ hs
  intro fuel
  induction fuel with
  | zero => exact fun s tip hs => hs
  | succ fuel ih =>
      intro s tip hs
      unfold rollbackWhile
      split_ifs
      · exact hs
      · split
        · rename_i s₁ tip₁ hback
          obtain ⟨-, ⟨hrolled⟩⟩ := rollbackLastBlock_eq_ok hback
          exact ih s₁ tip₁ (hok s s₁ hrolled hs)
        · rename_i s₁ e hback
          obtain ⟨certs, rfl⟩ := rollbackLastBlock_error hback
          exact herror s certs hs

end Store

end SthCore
