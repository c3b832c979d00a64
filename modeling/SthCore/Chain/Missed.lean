import SthCore.Chain.Booked
import SthCore.Chain.Stored
import SthCore.Delegate.Lookups

/-!
The index of missed slots: a list for each height, and a total for each delegate.
-/

namespace SthCore

open SthCore.Lib

/-- The slots strictly between a block and the one below it. -/
def skippedSlots (E : Env) (parent block : Block) : List Nat :=
  let blocktime := (E.network.milestone block.height).blocktime
  let low := slotNumber parent.timestamp blocktime
  let high := slotNumber block.timestamp blocktime
  List.range' (low + 1) (high - low - 1)

/-- The blocks that a change writes. -/
def Change.blocks : Change → List Block
  | .write blocks _ => blocks
  | _ => []

namespace Store

/-- The number of stored records of a delegate. -/
def missedRecords (s : Store) (publicKey : Text) : Int :=
  OrderedMap.total (fun _ list => (list.countP fun m => m.publicKey = publicKey : Nat)) s.missedAt

/-- Every block of the list has a snapshot of its round with as many entries as slots. -/
def RoundsStaffed (E : Env) (s : Store) (blocks : List Block) : Prop :=
  ∀ b ∈ blocks, ∃ list,
    s.getRound (roundInfo b.height (E.network.milestone b.height).roundLength).round = some list ∧
      (E.network.milestone b.height).roundLength ≤ list.length

theorem missedCount_bump (s : Store) (key other : Text) (delta : Int) :
    ((s.bumpMissedTotal key delta).missedCount other : Int) =
      if key = other then max ((s.missedCount key : Int) + delta) 0 else s.missedCount other := by
  unfold bumpMissedTotal missedCount
  simp only
  split_ifs with hpos hkey hkey
  · rw [OrderedMap.getElem?_insert_eq, if_pos hkey]
    simp
  · rw [OrderedMap.getElem?_insert_eq, if_neg hkey]
  · rw [OrderedMap.getElem?_erase_eq, if_pos hkey]
    simp only [Option.getD_none]
    omega
  · rw [OrderedMap.getElem?_erase_eq, if_neg hkey]

/-- The loop of `record_missed_slots` when every position is there. -/
theorem foldl_missSlot (E : Env) (block : Block) {order : List DelegateRank} {n : Nat}
    (hn : 0 < n) (hlong : n ≤ order.length) (slots : List Nat) (s : Store)
    (list : List MissedSlot) :
    ∃ s' more, slots.foldl (missSlot E block order n) ((s, .ok ()), list) =
        ((s', .ok ()), list ++ more) ∧ more.map (·.slot) = slots ∧ s'.missedAt = s.missedAt ∧
      ∀ key, s'.missedCount key =
        s.missedCount key + more.countP fun m => m.publicKey = key := by
  induction slots generalizing s list with
  | nil => exact ⟨s, [], by simp, rfl, rfl, fun key => rfl⟩
  | cons slot rest ih =>
      have hin : slot % n < order.length := (Nat.mod_lt slot hn).trans_le hlong
      have hstep : ∃ m : MissedSlot, m.slot = slot ∧
          missSlot E block order n ((s, .ok ()), list) slot =
            ((s.bumpMissedTotal m.publicKey 1, .ok ()), list ++ [m]) := by
        let d := order[slot % n]
        let m : MissedSlot :=
          { height := block.height
            slot
            timestamp := slotStart slot (E.network.milestone block.height).blocktime
            publicKey := d.publicKey
            username := ((E.addressOf d.publicKey).toOption.bind s.getWallet).bind (·.username) }
        refine ⟨m, rfl, ?_⟩
        unfold missSlot
        rw [List.getElem?_eq_getElem hin]
      obtain ⟨m, hslot, hm⟩ := hstep
      obtain ⟨s', more, hfold, hslots, hat, hcount⟩ :=
        ih (s.bumpMissedTotal m.publicKey 1) (list ++ [m])
      refine ⟨s', m :: more, ?_, ?_, hat, fun key => ?_⟩
      · rw [List.foldl_cons, hm, hfold, List.append_assoc]
        rfl
      · rw [List.map_cons, hslot, hslots]
      · have hbump := missedCount_bump s m.publicKey key 1
        rw [hcount, List.countP_cons]
        by_cases hkey : m.publicKey = key
        · rw [if_pos hkey] at hbump
          rw [hkey] at hbump ⊢
          simp only [decide_true, if_true]
          omega
        · rw [if_neg hkey] at hbump
          simp only [hkey, decide_false, Bool.false_eq_true, if_false]
          omega

/-- What one block adds to the index. -/
structure Charged (E : Env) (s : Store) (parent block : Block) (s' : Store) where
  list : List MissedSlot
  same : SameStats s s'
  slots : list.map (·.slot) =
    if (skippedSlots E parent block).length ≤ (E.network.milestone block.height).roundLength then
      skippedSlots E parent block else []
  stored : s'.missedAt = if list = [] then s.missedAt else s.missedAt.insert block.height list
  totals : ∀ key, s'.missedCount key = s.missedCount key + list.countP fun m => m.publicKey = key

theorem RoundsStaffed.order {E : Env} {s : Store} {blocks : List Block}
    (h : s.RoundsStaffed E blocks) {b : Block} (hb : b ∈ blocks) :
    ∃ order, s.forgingOrder E
        (roundInfo b.height (E.network.milestone b.height).roundLength).round = some order ∧
      (E.network.milestone b.height).roundLength ≤ order.length := by
  obtain ⟨list, hround, hlong⟩ := h b hb
  unfold forgingOrder
  rw [hround]
  exact ⟨_, rfl, hlong.trans_eq (shuffle_length _ _ _).symm⟩

theorem recordMissedSlots_ok {E : Env} {s : Store} (parent : Block) {block : Block}
    (hstaffed : s.RoundsStaffed E [block]) :
    ∃ s', s.recordMissedSlots E parent.timestamp block = (s', .ok ()) ∧
      Nonempty (Charged E s parent block s') := by
  obtain ⟨order, horder, hlong⟩ := hstaffed.order (List.mem_singleton_self block)
  have hn := Milestone.roundLength_pos (E.network.milestone block.height)
  have hsame := recordMissedSlots_sameStats E s parent.timestamp block
  obtain ⟨s', more, hfold, hslots, hat, hcount⟩ :=
    foldl_missSlot E block hn hlong (skippedSlots E parent block) s []
  have hlength : (skippedSlots E parent block).length =
      slotNumber block.timestamp (E.network.milestone block.height).blocktime -
        slotNumber parent.timestamp (E.network.milestone block.height).blocktime - 1 := by
    unfold skippedSlots
    rw [List.length_range']
  unfold recordMissedSlots at hsame ⊢
  simp only [horder] at hsame ⊢
  change List.foldl _ _ (List.range' _ _) = _ at hfold
  split_ifs at hsame ⊢ with hgap
  · refine ⟨s, rfl, ⟨⟨[], .refl s, ?_, by simp, by simp⟩⟩⟩
    rw [List.map_nil]
    split_ifs with hfew
    · refine (List.eq_nil_of_length_eq_zero ?_).symm
      omega
    · rfl
  · rw [hfold] at hsame ⊢
    refine ⟨_, rfl, ⟨⟨more, hsame, ?_, ?_, hcount⟩⟩⟩
    · rw [hslots, if_pos (by omega)]
    · have hne : more ≠ [] := by
        rintro rfl
        rw [← hslots] at hlength
        simp only [List.map_nil, List.length_nil] at hlength
        omega
      rw [if_neg hne, ← hat]
      rfl

/-- The index of a chain of blocks is complete up to a height. -/
structure MissedUpTo (E : Env) (chain : Nat → Option Block) (top : Nat) (s : Store) : Prop where
  totals : ∀ key, (s.missedCount key : Int) = s.missedRecords key
  within : ∀ (height : Nat) list, s.missedAt[height]? = some list → 1 < height ∧ height ≤ top
  lists : ∀ height parent block, height + 1 ≤ top → chain height = some parent →
    chain (height + 1) = some block → ((s.missedAt[height + 1]?).getD []).map (·.slot) =
      if (skippedSlots E parent block).length ≤ (E.network.milestone block.height).roundLength then
        skippedSlots E parent block else []

variable {E : Env} {chain : Nat → Option Block} {top : Nat} {s s' : Store}

theorem MissedUpTo.congr (h : MissedUpTo E chain top s) (hat : s'.missedAt = s.missedAt)
    (htotal : s'.missedTotal = s.missedTotal) : MissedUpTo E chain top s' := by
  refine ⟨fun key => ?_, ?_, ?_⟩
  · have htotals := h.totals key
    unfold missedCount missedRecords at htotals ⊢
    rwa [hat, htotal]
  · rw [hat]
    exact h.within
  · rw [hat]
    exact h.lists

/-- One more block. -/
theorem MissedUpTo.charge {parent block : Block} (h : MissedUpTo E chain top s) (hpos : 0 < top)
    (hparent : chain top = some parent) (hblock : chain (top + 1) = some block)
    (hheight : block.height = top + 1) (hcharged : Charged E s parent block s') :
    MissedUpTo E chain (top + 1) s' := by
  have hfresh : s.missedAt[top + 1]? = none := by
    cases hlist : s.missedAt[top + 1]? with
    | none => rfl
    | some list =>
        have := (h.within (top + 1) list hlist).2
        omega
  have hget : ∀ height : Nat, s'.missedAt[height]? =
      if hcharged.list ≠ [] ∧ top + 1 = height then some hcharged.list
      else s.missedAt[height]? := by
    intro height
    rw [hcharged.stored, hheight]
    by_cases hempty : hcharged.list = []
    · rw [if_pos hempty, if_neg fun hboth => hboth.1 hempty]
    · rw [if_neg hempty, OrderedMap.getElem?_insert_eq]
      simp only [ne_eq, hempty, not_false_eq_true, true_and]
  refine ⟨fun key => ?_, ?_, ?_⟩
  · have htotals := h.totals key
    rw [hcharged.totals]
    unfold missedRecords at htotals ⊢
    rw [hcharged.stored, hheight]
    split_ifs with hempty
    · rw [hempty]
      simpa using htotals
    · rw [OrderedMap.total_insert_sub, hfresh]
      simp only [Option.elim_none]
      push_cast
      omega
  · intro height list hlist
    rw [hget] at hlist
    split_ifs at hlist with hnew
    · omega
    · have := h.within height list hlist
      omega
  · intro height older younger htop holder hyounger
    rw [hget]
    by_cases hlast : top + 1 = height + 1
    · obtain rfl : top = height := by omega
      obtain rfl := Option.some.inj (hparent.symm.trans holder)
      obtain rfl := Option.some.inj (hblock.symm.trans hyounger)
      rw [← hcharged.slots]
      by_cases hempty : hcharged.list = []
      · rw [if_neg fun hboth => hboth.1 hempty, hfresh, hempty]
        rfl
      · rw [if_pos ⟨hempty, rfl⟩]
        rfl
    · rw [if_neg fun hboth => hlast hboth.2]
      exact h.lists height older younger (by omega) holder hyounger

theorem recordMissed_cons {ts : UInt32} {block : Block} {rest : List Block}
    (h : s.recordMissedSlots E ts block = (s', .ok ())) :
    s.recordMissed E (some ts) (block :: rest) =
      s'.recordMissed E (some block.timestamp) rest := by
  unfold recordMissed
  rw [List.foldl_cons]
  simp only [Outcome.andThen, h]

theorem recordMissedSlots_congr {b c : Block} (hheight : b.height = c.height)
    (hstamp : b.timestamp = c.timestamp) (ts : UInt32) :
    s.recordMissedSlots E ts b = s.recordMissedSlots E ts c := by
  have hstep : missSlot E b = missSlot E c := by
    funext order n acc slot
    unfold missSlot
    rw [hheight]
  unfold recordMissedSlots
  rw [hheight, hstamp, hstep]

/-- The blocks of a sub-batch, one above the other. -/
theorem recordMissed_upTo {blocks : List Block} {parent : Block} (h : MissedUpTo E chain top s)
    (hpos : 0 < top) (hparent : chain top = some parent) (hstaffed : s.RoundsStaffed E blocks)
    (hblocks : ∀ i b, blocks[i]? = some b → b.height = top + 1 + i ∧
      ∃ c, chain (top + 1 + i) = some c ∧ c.height = b.height ∧ c.timestamp = b.timestamp) :
    ∃ s', s.recordMissed E (some parent.timestamp) blocks = (s', .ok ()) ∧
      MissedUpTo E chain (top + blocks.length) s' := by
  induction blocks generalizing top s parent with
  | nil => exact ⟨s, rfl, h⟩
  | cons b rest ih =>
      obtain ⟨hheight, c, hc, hsame, hstamp⟩ := hblocks 0 b rfl
      have hone : s.RoundsStaffed E [c] := by
        rintro d hd
        rw [List.mem_singleton.mp hd, hsame]
        exact hstaffed b (.head _)
      obtain ⟨s₁, hrecord, ⟨hcharged⟩⟩ := recordMissedSlots_ok parent hone
      have hcharge := h.charge hpos hparent hc (hsame.trans hheight) hcharged
      have hlater : s₁.RoundsStaffed E rest := by
        intro d hd
        unfold getRound
        rw [hcharged.same.rounds]
        exact hstaffed d (.tail _ hd)
      obtain ⟨s', hrest, hdone⟩ := ih hcharge (Nat.succ_pos top) hc hlater (by
        intro i d hd
        have hnext := hblocks (i + 1) d hd
        rwa [show top + 1 + (i + 1) = top + 1 + 1 + i by omega] at hnext)
      refine ⟨s', ?_, ?_⟩
      · rw [recordMissed_cons ((recordMissedSlots_congr hsame.symm hstamp.symm _).trans hrecord),
          ← hstamp]
        exact hrest
      · rwa [List.length_cons, show top + (rest.length + 1) = top + 1 + rest.length by omega]

theorem foldl_bump_down (list : List MissedSlot) (s : Store)
    (hfew : ∀ key, (list.countP fun m => m.publicKey = key) ≤ s.missedCount key) (key : Text) :
    (list.foldl (fun s m => s.bumpMissedTotal m.publicKey (-1)) s).missedCount key +
      (list.countP fun m => m.publicKey = key) = s.missedCount key := by
  induction list generalizing s with
  | nil => rfl
  | cons m rest ih =>
      have hbump : ∀ other, ((s.bumpMissedTotal m.publicKey (-1)).missedCount other : Int) =
          s.missedCount other - if m.publicKey = other then 1 else 0 := by
        intro other
        have hother := hfew other
        rw [missedCount_bump]
        split_ifs with hsame
        · rw [List.countP_cons, hsame] at hother
          simp only [decide_true, if_true] at hother
          rw [hsame]
          omega
        · omega
      have hrest := ih (s.bumpMissedTotal m.publicKey (-1)) (by
        intro other
        have hother := hfew other
        have hdown := hbump other
        rw [List.countP_cons] at hother
        split_ifs at hdown with hsame
        · simp only [hsame, decide_true, if_true] at hother
          omega
        · simp only [hsame, decide_false, Bool.false_eq_true, if_false] at hother
          omega)
      have hdown := hbump key
      rw [List.foldl_cons, List.countP_cons]
      by_cases hsame : m.publicKey = key
      · rw [if_pos hsame] at hdown
        rw [if_pos (decide_eq_true hsame)]
        omega
      · rw [if_neg hsame] at hdown
        rw [if_neg (by simpa using hsame)]
        omega

theorem dropMissedAt_missedAt (s : Store) (height : Nat) :
    (s.dropMissedAt height).missedAt = s.missedAt.erase height := by
  unfold dropMissedAt
  split
  · rename_i hnone
    exact (OrderedMap.erase_of_none _ _ hnone).symm
  · exact foldl_bump_preserves (P := fun t => t.missedAt = s.missedAt.erase height) _
      (fun _ _ _ ht => ht) rfl

/-- The rollback of the last block takes its list back. -/
theorem MissedUpTo.drop (h : MissedUpTo E chain (top + 1) s) :
    MissedUpTo E chain top (s.dropMissedAt (top + 1)) := by
  have herase := dropMissedAt_missedAt s (top + 1)
  have hget : ∀ height : Nat, (s.dropMissedAt (top + 1)).missedAt[height]? =
      if top + 1 = height then none else s.missedAt[height]? := by
    intro height
    rw [herase, OrderedMap.getElem?_erase_eq]
  refine ⟨fun key => ?_, ?_, ?_⟩
  · have htotals := h.totals key
    unfold missedRecords at htotals ⊢
    rw [herase]
    rw [OrderedMap.total_erase _ _ (top + 1)] at htotals
    unfold dropMissedAt
    cases hlist : s.missedAt[top + 1]? with
    | none =>
        rw [hlist] at htotals
        simpa using htotals
    | some list =>
        rw [hlist] at htotals
        simp only [Option.elim_some] at htotals
        have hfew : ∀ other, (list.countP fun m => m.publicKey = other) ≤
            ({ s with missedAt := s.missedAt.erase (top + 1) } : Store).missedCount other := by
          intro other
          have hother := h.totals other
          have hrest : 0 ≤ OrderedMap.total (fun _ (list : List MissedSlot) =>
              ((list.countP fun m => m.publicKey = other : Nat) : Int))
              (s.missedAt.erase (top + 1)) := by
            unfold OrderedMap.total
            refine List.sum_nonneg fun x hx => ?_
            obtain ⟨e, -, rfl⟩ := List.mem_map.mp hx
            exact Int.natCast_nonneg _
          unfold missedRecords at hother
          rw [OrderedMap.total_erase _ _ (top + 1), hlist] at hother
          simp only [Option.elim_some] at hother
          change _ ≤ s.missedCount other
          omega
        have hdown := foldl_bump_down list _ hfew key
        change _ = s.missedCount key at hdown
        simp only
        omega
  · intro height list hlist
    rw [hget] at hlist
    split_ifs at hlist with hother
    have := h.within height list hlist
    omega
  · intro height older younger htop holder hyounger
    rw [hget, if_neg (by omega)]
    exact h.lists height older younger (by omega) holder hyounger

theorem MissedUpTo.of_chain {chain' : Nat → Option Block} (h : MissedUpTo E chain top s)
    (hsame : ∀ height, height ≤ top → chain' height = chain height) :
    MissedUpTo E chain' top s := by
  refine ⟨h.totals, h.within, fun height parent block htop hparent hblock => ?_⟩
  rw [hsame _ (by omega)] at hparent
  rw [hsame _ htop] at hblock
  exact h.lists height parent block htop hparent hblock

theorem commitBlocks_missed {t : Store} {prepared : List (Block × List Bytes)} {undoOn : Bool}
    (h : s.commitBlocks E prepared undoOn = .ok t) :
    t.missedAt = s.missedAt ∧ t.missedTotal = s.missedTotal := by
  obtain ⟨ds, -, h⟩ := bind_eq_ok.mp h
  cases prepared with
  | nil => exact absurd h throw_ne_ok
  | cons first rest =>
      obtain ⟨_, -, h⟩ := bind_eq_ok.mp h
      obtain ⟨⟨s₁, undo⟩, hwrite, h⟩ := bind_eq_ok.mp h
      obtain ⟨s₂, hblocks, h⟩ := bind_eq_ok.mp h
      rw [pure_eq_ok] at h
      obtain ⟨hwritten, -⟩ := writeWallets_eq_ok hwrite
      have hrecords := writeEntries_sameRecords hwritten
      have hstate := writeBlocks_sameState hblocks
      have hkept : s₂.missedAt = s.missedAt ∧ s₂.missedTotal = s.missedTotal := by
        rw [hstate, hrecords]
        exact ⟨rfl, rfl⟩
      rw [← h]
      split_ifs
      · exact hkept
      · exact hkept

/-- A write that raises the tip committed, and counted the missed slots after that. -/
theorem applyLocked_above {blocks : List Block} {force : Bool}
    (h : s.lastHeight < (s.applyLocked E blocks force).1.lastHeight) :
    ∃ prepared t, blocks.mapM (prepareBlock E) = .ok prepared ∧
      Nonempty (Committed E s prepared t) ∧
      t.missedAt = s.missedAt ∧ t.missedTotal = s.missedTotal ∧
      s.applyLocked E blocks force = t.afterCommit E (prepared.map (·.1)) := by
  unfold applyLocked at h ⊢
  split at h
  · exact absurd h (lt_irrefl _)
  · rename_i prepared hprepared
    split at h
    · exact absurd h (lt_irrefl _)
    · rename_i t ht
      obtain ⟨hat, htotal⟩ := commitBlocks_missed ht
      exact ⟨prepared, t, hprepared, commitBlocks_eq_ok ht, hat, htotal, rfl⟩

theorem snapshotRound_missed (t : Store) (height : Nat) :
    (t.snapshotRoundIfBoundary E height).missedAt = t.missedAt ∧
    (t.snapshotRoundIfBoundary E height).missedTotal = t.missedTotal ∧
    (t.snapshotRoundIfBoundary E height).blocks = t.blocks := by
  simp only [snapshotRoundIfBoundary]
  split_ifs <;> exact ⟨rfl, rfl, rfl⟩

theorem dropRound_missed (E : Env) (s : Store) (height : Nat) :
    (s.dropRound E height).missedAt = s.missedAt ∧
    (s.dropRound E height).missedTotal = s.missedTotal := by
  simp only [dropRound]
  split_ifs <;> exact ⟨rfl, rfl⟩

/-- The database transaction of a rollback leaves the index to what comes after it. -/
theorem RolledBack.missed (h : RolledBack E s s') :
    h.reverted.missedAt = s.missedAt ∧ h.reverted.missedTotal = s.missedTotal := by
  rw [h.transaction.result]
  change h.transaction.accounts.missedAt = _ ∧ h.transaction.accounts.missedTotal = _
  have hsame := h.transaction.same
  have hrecords := restoreWallets_sameRecords { s with finality := h.certs } h.undo
  rw [hsame, hrecords]
  exact ⟨rfl, rfl⟩

end Store

section Heights

variable {blocks : List Block} {low : Nat}

theorem height_of_chain (hchain : (blocks.map fun b => b.height).IsChain fun a b => b = a + 1)
    (hlow : ∀ first ∈ blocks.head?, first.height = low) (i : Nat) (b : Block)
    (hb : blocks[i]? = some b) : b.height = low + i := by
  induction blocks generalizing low i with
  | nil => cases hb
  | cons first rest ih =>
      have hfirst := hlow first rfl
      cases i with
      | zero =>
          obtain rfl := Option.some.inj hb
          exact hfirst
      | succ i =>
          have hnext : ∀ next ∈ rest.head?, next.height = low + 1 := by
            intro next hnext
            cases rest with
            | nil => cases hnext
            | cons second others =>
                obtain rfl := Option.some.inj hnext
                have hstep : second.height = first.height + 1 := (List.isChain_cons_cons.mp hchain).1
                omega
          have := ih hchain.tail hnext i hb
          omega

/-- Consecutive blocks are found by their heights. -/
theorem find?_of_chain (hchain : (blocks.map fun b => b.height).IsChain fun a b => b = a + 1)
    (hlow : ∀ first ∈ blocks.head?, first.height = low) {i : Nat} (hi : i < blocks.length) :
    blocks.find? (fun b => b.height = low + i) = blocks[i]? := by
  have hheights := height_of_chain hchain hlow
  rw [List.getElem?_eq_getElem hi, List.find?_eq_some_iff_getElem]
  refine ⟨?_, i, hi, rfl, fun j hj => ?_⟩
  · exact decide_eq_true (hheights i _ (List.getElem?_eq_getElem hi))
  · have := hheights j _ (List.getElem?_eq_getElem (hj.trans hi))
    simp only [Bool.not_eq_true', decide_eq_false_iff_not]
    omega

end Heights

/-- A store with the blocks of its chain by height. -/
structure Chained where
  store : Store
  chain : Nat → Option Block

namespace Chained

def start (s : Store) (first : Block) : Chained :=
  ⟨s, fun height => if height = 1 then some first else none⟩

/-- The chain after a change: below the old tip it stays, and up to the new tip it goes on with
the written blocks. -/
def extended (chain : Nat → Option Block) (old new : Nat) (blocks : List Block) (height : Nat) :
    Option Block :=
  if new < height then none
  else if old < height then blocks.find? fun b => b.height = height
  else chain height

def step (E : Env) (c : Chained) (a : Change) : Option Chained :=
  let s := c.store.change E a
  some ⟨s, extended c.chain c.store.lastHeight s.lastHeight a.blocks⟩

/-- When a change writes blocks, the last stored block reads back and all rounds are staffed. -/
def Ready (E : Env) (c : Chained) (a : Change) : Prop :=
  a.Orderly E ∧ (c.store.lastHeight < (c.store.change E a).lastHeight →
    (∃ parent, c.store.getBlockByHeight E c.store.lastHeight = .ok (some parent)) ∧
    (c.store.change E a).RoundsStaffed E a.blocks)

/-- The index and the stored timestamps are those of the chain. -/
structure Sound (E : Env) (c : Chained) : Prop where
  pos : 0 < c.store.lastHeight
  known : ∀ height, (c.chain height).isSome ↔ 1 ≤ height ∧ height ≤ c.store.lastHeight
  stamped : ∀ height b record b', c.chain height = some b → c.store.blocks[height]? = some record →
    decodeBlock E record = .ok b' → b'.timestamp = b.timestamp
  index : Store.MissedUpTo E c.chain c.store.lastHeight c.store

variable {E : Env} {c c' : Chained}

theorem Sound.extended_same (h : c.Sound E) (blocks : List Block) :
    extended c.chain c.store.lastHeight c.store.lastHeight blocks = c.chain := by
  funext height
  unfold extended
  split_ifs with habove
  · cases hnone : c.chain height with
    | none => rfl
    | some b =>
        have := ((h.known height).mp (by rw [hnone]; rfl)).2
        omega
  · rfl

/-- A change that leaves the chain and the index alone. -/
theorem Sound.stay {s : Store} (h : c.Sound E) (htip : s.lastHeight = c.store.lastHeight)
    (hblocks : s.blocks = c.store.blocks) (hat : s.missedAt = c.store.missedAt)
    (htotal : s.missedTotal = c.store.missedTotal) (blocks : List Block) :
    Sound E ⟨s, extended c.chain c.store.lastHeight s.lastHeight blocks⟩ := by
  rw [htip, h.extended_same]
  refine ⟨htip ▸ h.pos, ?_, ?_, ?_⟩
  · simp only
    rw [htip]
    exact h.known
  · simp only
    rw [hblocks]
    exact h.stamped
  · simp only
    rw [htip]
    exact h.index.congr hat htotal

theorem extended_below {chain : Nat → Option Block} {old new height : Nat} {blocks : List Block}
    (hup : old ≤ new) (h : height ≤ old) : extended chain old new blocks height = chain height := by
  unfold extended
  rw [if_neg (by omega), if_neg (by omega)]

/-- The written blocks continue the chain. -/
theorem extended_above {chain : Nat → Option Block} {old : Nat} {blocks : List Block}
    (hchain : (blocks.map fun b => b.height).IsChain fun a b => b = a + 1)
    (hlow : ∀ first ∈ blocks.head?, first.height = old + 1) {i : Nat} (hi : i < blocks.length) :
    extended chain old (old + blocks.length) blocks (old + 1 + i) = blocks[i]? := by
  unfold extended
  rw [if_neg (by omega), if_pos (by omega)]
  exact find?_of_chain hchain hlow hi

theorem exists_prepared {blocks : List Block} {prepared : List (Block × List Bytes)}
    (h : blocks.mapM (prepareBlock E) = .ok prepared) {i : Nat} (hi : i < blocks.length) :
    ∃ b p, blocks[i]? = some b ∧ prepared[i]? = some p ∧ prepareBlock E b = .ok p := by
  have hall := forall₂_of_mapM_ok h
  have hj : i < prepared.length := hall.length_eq ▸ hi
  exact ⟨blocks[i], prepared[i], List.getElem?_eq_getElem hi, List.getElem?_eq_getElem hj,
    hall.get hi hj⟩

/-- What a written sub-batch leaves of the records: those below the old tip, and its own. -/
structure Written (s s' : Store) (prepared : List (Block × List Bytes)) : Prop where
  below : ∀ height : Nat, height ≤ s.lastHeight → s'.blocks[height]? = s.blocks[height]?
  own : ∀ p ∈ prepared, s'.blocks[p.1.height]? = some p.2

theorem written_of_committed {s t : Store} {blocks : List Block}
    {prepared : List (Block × List Bytes)} (com : Store.Committed E s prepared t)
    (hprepared : blocks.mapM (prepareBlock E) = .ok prepared)
    (hchain : (blocks.map fun b => b.height).IsChain fun a b => b = a + 1)
    (hlow : ∀ first ∈ blocks.head?, first.height = s.lastHeight + 1) : Written s t prepared := by
  have hheights := prepared_heights hprepared
  have hsorted : (prepared.map fun p => p.1.height).Pairwise (· < ·) := by
    have hmap : prepared.map (fun p => p.1.height) = blocks.map fun b => b.height := by
      rw [← hheights, List.map_map]
      rfl
    rw [hmap]
    exact List.isChain_iff_pairwise.mp (hchain.imp fun a b hab => by omega)
  obtain ⟨hwritten, hkept, -⟩ := Chain.writeBlocks_blocks com.stored hsorted
  obtain ⟨hblocks, -⟩ := com.same.chain
  obtain ⟨hwallets, -⟩ := (Store.writeEntries_sameRecords com.written).chain
  refine ⟨fun height hheight => ?_, fun p hp => ?_⟩
  · rw [hblocks, hkept height, hwallets]
    intro hmem
    obtain ⟨p, hp, hsame⟩ := List.mem_map.mp hmem
    obtain ⟨i, hi, hget⟩ := List.mem_iff_getElem.mp hp
    have hlen := (forall₂_of_mapM_ok hprepared).length_eq
    obtain ⟨b, q, hb, hq, hprepare⟩ := exists_prepared hprepared (hlen ▸ hi)
    rw [List.getElem?_eq_getElem hi, hget] at hq
    obtain rfl := Option.some.inj hq
    obtain ⟨-, hown, -⟩ := prepareBlock_ok hprepare
    have := height_of_chain hchain hlow i b hb
    omega
  · rw [hblocks]
    exact (hwritten p hp).1

/-- The index after a write above the tip. -/
theorem Sound.indexed (h : c.Sound E) {t : Store} {blocks : List Block}
    {prepared : List (Block × List Bytes)} {chain : Nat → Option Block}
    (hprepared : blocks.mapM (prepareBlock E) = .ok prepared)
    (hchain : (blocks.map fun b => b.height).IsChain fun a b => b = a + 1)
    (hlow : ∀ first ∈ blocks.head?, first.height = c.store.lastHeight + 1)
    (hne : blocks ≠ []) (hat : t.missedAt = c.store.missedAt)
    (htotal : t.missedTotal = c.store.missedTotal) (hwritten : Written c.store t prepared)
    (hbelow : ∀ height, height ≤ c.store.lastHeight → chain height = c.chain height)
    (habove : ∀ i, i < blocks.length → chain (c.store.lastHeight + 1 + i) = blocks[i]?)
    {parent : Block}
    (hparent : c.store.getBlockByHeight E c.store.lastHeight = .ok (some parent))
    (hstaffed : (t.afterCommit E (prepared.map (·.1))).1.RoundsStaffed E blocks) :
    Store.MissedUpTo E chain (c.store.lastHeight + blocks.length)
      (t.afterCommit E (prepared.map (·.1))).1 := by
  have hlen := (forall₂_of_mapM_ok hprepared).length_eq
  have hpos := h.pos
  obtain ⟨known, hknown⟩ := Option.isSome_iff_exists.mp
    ((h.known c.store.lastHeight).mpr ⟨hpos, le_rfl⟩)
  have hindex : ∀ i b, (prepared.map (·.1))[i]? = some b →
      b.height = c.store.lastHeight + 1 + i ∧ ∃ d, chain (c.store.lastHeight + 1 + i) = some d ∧
        d.height = b.height ∧ d.timestamp = b.timestamp := by
    intro i b hb
    rw [List.getElem?_map] at hb
    obtain ⟨q, hq, rfl⟩ := Option.map_eq_some_iff.mp hb
    have hi : i < blocks.length := hlen ▸ (List.getElem?_eq_some_iff.mp hq).1
    obtain ⟨d, p, hd, hp, hprepare⟩ := exists_prepared hprepared hi
    obtain rfl := Option.some.inj (hp.symm.trans hq)
    obtain ⟨-, hsame, -⟩ := prepareBlock_ok hprepare
    refine ⟨hsame.trans (height_of_chain hchain hlow i d hd), d, ?_, hsame.symm,
      (prepareBlock_timestamp hprepare).symm⟩
    rw [habove i hi, hd]
  obtain ⟨first, rest, rfl⟩ := List.exists_cons_of_ne_nil hne
  obtain ⟨q, qs, hq, -, rfl⟩ := mapM_ok_cons.mp hprepared
  have hfirst := (hindex 0 q.1 rfl).1
  rw [Nat.add_zero] at hfirst
  have hlast := List.getLast?_eq_some_getLast (List.cons_ne_nil q.1 (qs.map (·.1)))
  unfold Store.afterCommit at hstaffed ⊢
  simp only [List.map_cons, List.head?_cons, hlast] at hstaffed ⊢
  generalize (List.getLast (q.1 :: qs.map (·.1)) _).height = height at hstaffed ⊢
  obtain ⟨hsnapAt, hsnapTotal, hsnapBlocks⟩ := Store.snapshotRound_missed (E := E) t height
  have hsame := Store.recordMissed_sameStats E (t.snapshotRoundIfBoundary E height)
    ((t.snapshotRoundIfBoundary E height).previousTimestamp E q.1) (q.1 :: qs.map (·.1))
  have hrounds : (t.snapshotRoundIfBoundary E height).RoundsStaffed E
      (q.1 :: qs.map (·.1)) := by
    intro b hb
    obtain ⟨i, hi, hget⟩ := List.mem_iff_getElem.mp hb
    obtain ⟨-, d, hd, hheight, -⟩ := hindex i b (by
      rw [← hget]
      exact List.getElem?_eq_getElem hi)
    have hmem : d ∈ first :: rest := by
      rw [habove i (by simpa [hlen] using hi)] at hd
      exact List.mem_of_getElem? hd
    obtain ⟨list, hround, hlong⟩ := hstaffed d hmem
    unfold Store.getRound at hround
    rw [hsame.rounds, hheight] at hround
    exact ⟨list, hround, hheight ▸ hlong⟩
  have hprevious : (t.snapshotRoundIfBoundary E height).previousTimestamp E q.1 =
      some known.timestamp := by
    unfold Store.previousTimestamp
    rw [if_pos (by omega), hfirst, Nat.add_sub_cancel]
    unfold Store.getBlockByHeight at hparent ⊢
    rw [hsnapBlocks, hwritten.below _ le_rfl]
    cases hrecord : c.store.blocks[c.store.lastHeight]? with
    | none =>
        rw [hrecord] at hparent
        cases hparent
    | some record =>
        rw [hrecord] at hparent
        obtain ⟨b, hb, -⟩ := map_eq_ok.mp hparent
        simp only [hb]
        exact congrArg some (h.stamped _ known record b hknown hrecord hb)
  rw [hprevious]
  have hbase : Store.MissedUpTo E chain c.store.lastHeight
      (t.snapshotRoundIfBoundary E height) :=
    (h.index.of_chain hbelow).congr (hsnapAt.trans hat) (hsnapTotal.trans htotal)
  obtain ⟨s', hrecorded, hdone⟩ := Store.recordMissed_upTo hbase hpos
    ((hbelow _ le_rfl).trans hknown) hrounds hindex
  rw [hrecorded]
  rwa [hlen, ← List.length_map (·.1)]

theorem Sound.write (h : c.Sound E) {blocks : List Block} {force : Bool}
    (hready : c.Ready E (.write blocks force)) :
    Sound E ⟨(c.store.applyLocked E blocks force).1, extended c.chain c.store.lastHeight
      (c.store.applyLocked E blocks force).1.lastHeight blocks⟩ := by
  obtain ⟨hblocks, hready⟩ := hready
  rcases Store.applyLocked_grown E c.store force hblocks.chain with ⟨e, he⟩ | ⟨⟨g⟩⟩
  · rw [he]
    exact h.stay rfl rfl rfl rfl blocks
  · obtain ⟨htip, habove⟩ := g.tip_eq hblocks.chain h.pos
    have hlow := g.next.resolve_left (Nat.ne_of_gt h.pos)
    have hne : blocks ≠ [] := by
      rintro rfl
      cases g.isLast
    have htop : (c.store.applyLocked E blocks force).1.lastHeight =
        c.store.lastHeight + blocks.length := by
      have hlast := g.isLast
      rw [List.getLast?_eq_getElem?] at hlast
      have := height_of_chain hblocks.chain hlow _ _ hlast
      have := List.length_pos_of_ne_nil hne
      omega
    obtain ⟨⟨parent, hparent⟩, hstaffed⟩ := hready habove
    obtain ⟨prepared, t, hprepared, ⟨com⟩, hat, htotal, hresult⟩ := Store.applyLocked_above habove
    have hwritten := written_of_committed com hprepared hblocks.chain hlow
    have hlater := Store.afterCommit_sameLog E t (prepared.map (·.1))
    have hstored : (c.store.applyLocked E blocks force).1.blocks = t.blocks := by
      rw [hresult]
      exact hlater.sameChain.chain.1
    have hbelow : ∀ height, height ≤ c.store.lastHeight →
        extended c.chain c.store.lastHeight (c.store.lastHeight + blocks.length) blocks height =
          c.chain height :=
      fun height hheight => extended_below (Nat.le_add_right _ _) hheight
    rw [htop]
    refine ⟨h.pos.trans habove, ?_, ?_, ?_⟩
    · intro height
      simp only
      rw [htop]
      by_cases hold : height ≤ c.store.lastHeight
      · rw [hbelow height hold, h.known]
        omega
      · obtain ⟨i, rfl⟩ := Nat.exists_eq_add_of_lt (not_le.mp hold)
        rw [show c.store.lastHeight + i + 1 = c.store.lastHeight + 1 + i by omega]
        by_cases hi : i < blocks.length
        · rw [extended_above hblocks.chain hlow hi, List.getElem?_eq_getElem hi]
          simp only [Option.isSome_some, true_iff]
          omega
        · unfold extended
          rw [if_pos (by omega)]
          simp only [Option.isSome_none, Bool.false_eq_true, false_iff]
          omega
    · intro height b record b' hb hrecord hdecode
      simp only at hb hrecord
      rw [hstored] at hrecord
      by_cases hold : height ≤ c.store.lastHeight
      · rw [hbelow height hold] at hb
        rw [hwritten.below height hold] at hrecord
        exact h.stamped height b record b' hb hrecord hdecode
      · obtain ⟨i, rfl⟩ := Nat.exists_eq_add_of_lt (not_le.mp hold)
        rw [show c.store.lastHeight + i + 1 = c.store.lastHeight + 1 + i by omega] at hb hrecord
        have hi : i < blocks.length := by
          by_contra hout
          unfold extended at hb
          rw [if_pos (by omega)] at hb
          cases hb
        obtain ⟨d, p, hd, hp, hprepare⟩ := exists_prepared hprepared hi
        rw [extended_above hblocks.chain hlow hi, hd] at hb
        obtain rfl := Option.some.inj hb
        obtain ⟨hencode, hheight, -⟩ := prepareBlock_ok hprepare
        have hown := hwritten.own p (List.mem_of_getElem? hp)
        rw [hheight, height_of_chain hblocks.chain hlow i d hd, hrecord] at hown
        obtain rfl := Option.some.inj hown
        exact (decodeBlock_encodeBlock hencode hdecode).1.trans (prepareBlock_timestamp hprepare)
    · simp only
      rw [htop]
      change Store.RoundsStaffed E (c.store.applyLocked E blocks force).1 blocks at hstaffed
      rw [hresult] at hstaffed ⊢
      exact h.indexed hprepared hblocks.chain hlow hne hat htotal hwritten hbelow
        (fun i hi => extended_above hblocks.chain hlow hi) hparent hstaffed

theorem Sound.rollback (h : c.Sound E) :
    Sound E ⟨(c.store.rollbackLastBlock E).1, extended c.chain c.store.lastHeight
      (c.store.rollbackLastBlock E).1.lastHeight []⟩ := by
  rcases hback : c.store.rollbackLastBlock E with ⟨s, e | tip⟩
  · obtain ⟨certs, rfl⟩ := Store.rollbackLastBlock_error hback
    exact h.stay (s := { c.store with finality := certs }) rfl rfl rfl rfl []
  · obtain ⟨-, ⟨hrolled⟩⟩ := Store.rollbackLastBlock_eq_ok hback
    obtain ⟨hblocks, -, htip, -⟩ := hrolled.chain
    have habove := hrolled.above
    obtain ⟨top, htop⟩ := Nat.exists_eq_add_of_lt habove
    have htop : c.store.lastHeight = top + 1 + 1 := by omega
    have hlow : s.lastHeight = top + 1 := by omega
    have hmissed : Store.MissedUpTo E c.chain (top + 1) s := by
      obtain ⟨hat, htotal⟩ := hrolled.missed
      have hindex := h.index.congr hat htotal
      rw [htop] at hindex
      rw [hrolled.result, htop]
      exact hindex.drop.congr (Store.dropRound_missed E _ _).1 (Store.dropRound_missed E _ _).2
    have hchain : ∀ height, height ≤ top + 1 →
        extended c.chain c.store.lastHeight s.lastHeight [] height = c.chain height := by
      intro height hheight
      unfold extended
      rw [if_neg (by omega), if_neg (by omega)]
    have hgone : ∀ height, top + 1 < height →
        extended c.chain c.store.lastHeight s.lastHeight [] height = none := by
      intro height hheight
      unfold extended
      rw [if_pos (by omega)]
    refine ⟨by simp only; omega, ?_, ?_, ?_⟩
    · intro height
      simp only
      by_cases hheight : height ≤ top + 1
      · rw [hchain height hheight, h.known]
        omega
      · rw [hgone height (by omega)]
        simp only [Option.isSome_none, Bool.false_eq_true, false_iff]
        omega
    · intro height b record b' hb hrecord hdecode
      simp only at hb hrecord
      by_cases hheight : height ≤ top + 1
      · rw [hchain height hheight] at hb
        rw [hblocks, OrderedMap.getElem?_erase_eq, if_neg (by omega)] at hrecord
        exact h.stamped height b record b' hb hrecord hdecode
      · rw [hgone height (by omega)] at hb
        cases hb
    · simp only
      rw [hlow] at hchain ⊢
      exact hmissed.of_chain hchain

theorem Sound.step {a : Change} (h : c.Sound E) (hready : c.Ready E a)
    (hstep : c.step E a = some c') : c'.Sound E := by
  obtain rfl := Option.some.inj hstep
  cases a with
  | write blocks force => exact h.write hready
  | rollback => exact h.rollback
  | certify cert => exact h.stay (s := c.store.putFinalityCert cert) rfl rfl rfl rfl []
  | accuse proof => exact h.stay (s := c.store.putEquivocation proof) rfl rfl rfl rfl []
  | setUndo on => exact h.stay (s := { c.store with undoEnabled := on }) rfl rfl rfl rfl []

/-- The store after the first block has no missed slots. -/
theorem sound_start {undo : Bool} {s : Store} {first : Block} (hone : first.height = 1)
    (hfirst : ({ undoEnabled := undo } : Store).applyBlocks E [first] = (s, .ok ())) :
    (start s first).Sound E := by
  have hlocked : ({ undoEnabled := undo } : Store).applyLocked E [first] true = (s, .ok ()) := hfirst
  have hchain := (subBatch_single E first).chain
  have hgrown := Store.applyLocked_grown E { undoEnabled := undo } true hchain
  rw [hlocked] at hgrown
  obtain ⟨g⟩ := hgrown.resolve_left (by simp)
  have htip : s.lastHeight = 1 := by
    rw [g.tip, ← Option.some.inj g.isLast, ← hone]
    rfl
  have habove : ({ undoEnabled := undo } : Store).lastHeight <
      (({ undoEnabled := undo } : Store).applyLocked E [first] true).1.lastHeight := by
    rw [hlocked, htip]
    exact Nat.one_pos
  obtain ⟨prepared, t, hprepared, ⟨com⟩, hat, htotal, hresult⟩ := Store.applyLocked_above habove
  rw [hlocked] at hresult
  have hwritten := written_of_committed com hprepared hchain (by
    rintro b hb
    rw [← Option.some.inj hb]
    exact hone)
  obtain ⟨p, rest, hp, hrest, rfl⟩ := mapM_ok_cons.mp hprepared
  obtain rfl : rest = [] := (pure_eq_ok.mp hrest).symm
  obtain ⟨hencode, hheight, -⟩ := prepareBlock_ok hp
  have hsnapshot := Store.snapshotRound_missed (E := E) t p.1.height
  have hs : s = t.snapshotRoundIfBoundary E p.1.height := by
    have hafter : t.afterCommit E [p.1] = (t.snapshotRoundIfBoundary E p.1.height, .ok ()) := by
      unfold Store.afterCommit Store.previousTimestamp
      simp only [List.head?_cons, List.getLast?_singleton]
      rw [if_neg (by omega)]
      rfl
    exact (Prod.mk.inj (hresult.trans hafter)).1
  have hempty : s.missedAt = {} := by
    rw [hs, hsnapshot.1, hat]
  have hzero : s.missedTotal = {} := by
    rw [hs, hsnapshot.2.1, htotal]
  have hnone : ∀ height : Nat, s.missedAt[height]? = none := by
    rw [hempty]
    exact fun height => rfl
  refine ⟨htip ▸ Nat.one_pos, fun height => ?_, ?_, ?_, ?_, ?_⟩
  · change (if height = 1 then some first else none).isSome ↔ 1 ≤ height ∧ height ≤ s.lastHeight
    rw [htip]
    split_ifs with hheight
    · simp [hheight]
    · simp only [Option.isSome_none, Bool.false_eq_true, false_iff]
      omega
  · intro height b record b' hb hrecord hdecode
    change (if height = 1 then some first else none) = some b at hb
    split_ifs at hb with hfirst
    obtain rfl := Option.some.inj hb
    have hown := hwritten.own p (.head _)
    change s.blocks[height]? = _ at hrecord
    rw [hs, hsnapshot.2.2, hfirst, ← hone, ← hheight, hown] at hrecord
    obtain rfl := Option.some.inj hrecord
    exact (decodeBlock_encodeBlock hencode hdecode).1.trans (prepareBlock_timestamp hp)
  · intro key
    change ((s.missedCount key : Nat) : Int) = s.missedRecords key
    unfold Store.missedCount Store.missedRecords
    rw [hempty, hzero]
    rfl
  · intro height list hlist
    rw [show (start s first).store.missedAt = s.missedAt from rfl, hnone] at hlist
    cases hlist
  · intro height parent block htop hparent hblock
    change height + 1 ≤ s.lastHeight at htop
    change (if height = 1 then some first else none) = some parent at hparent
    split_ifs at hparent
    omega

end Chained

/-- In every run whose writes go on from a readable tip over staffed rounds, the total of each
delegate counts its records, and each list holds the slots that were skipped, up to a round. -/
theorem missed_slots_exact (E : Env) (undo : Bool) (first : Block) (s : Store)
    (hone : first.height = 1)
    (hfirst : ({ undoEnabled := undo } : Store).applyBlocks E [first] = (s, .ok ()))
    (c : Chained)
    (hrun : Reaches (Chained.step E) (Chained.Ready E) (Chained.start s first) c) :
    (∀ key, (c.store.missedCount key : Int) = c.store.missedRecords key) ∧
    (∀ (height : Nat) list, c.store.missedAt[height]? = some list →
      1 < height ∧ height ≤ c.store.lastHeight) ∧
    ∀ height, height + 1 ≤ c.store.lastHeight → 1 ≤ height →
      ∃ parent block, c.chain height = some parent ∧ c.chain (height + 1) = some block ∧
        ((c.store.missedAt[height + 1]?).getD []).map (·.slot) =
          if (skippedSlots E parent block).length ≤
              (E.network.milestone block.height).roundLength then
            skippedSlots E parent block else [] := by
  have hsound := hrun.invariant (Chained.sound_start hone hfirst)
    fun _ _ _ h hready hstep => h.step hready hstep
  refine ⟨hsound.index.totals, hsound.index.within, fun height htop hlow => ?_⟩
  obtain ⟨parent, hparent⟩ := Option.isSome_iff_exists.mp
    ((hsound.known height).mpr ⟨hlow, by omega⟩)
  obtain ⟨block, hblock⟩ := Option.isSome_iff_exists.mp
    ((hsound.known (height + 1)).mpr ⟨by omega, htop⟩)
  exact ⟨parent, block, hparent, hblock, hsound.index.lists height parent block htop hparent
    hblock⟩

/-- A run of one write. -/
theorem Chained.exists_write {E : Env} {s : Store} (first : Block) {blocks : List Block}
    {force : Bool} (horderly : (Change.write blocks force).Orderly E)
    (hparent : ∃ parent, s.getBlockByHeight E s.lastHeight = .ok (some parent))
    (hstaffed : (s.change E (.write blocks force)).RoundsStaffed E blocks) :
    ∃ c : Chained, c.store = s.change E (.write blocks force) ∧
      Reaches (Chained.step E) (Chained.Ready E) (Chained.start s first) c :=
  ⟨_, rfl, .next (.write blocks force) .start ⟨horderly, fun _ => ⟨hparent, hstaffed⟩⟩ rfl⟩

/-- A run of two writes of one block each, whatever the stored blocks read back as. -/
theorem Chained.exists_two_writes {E : Env} {s s' : Store} (first : Block) {b b' : Block}
    (hs : s' = s.change E (.write [b] true))
    (horderly : (Change.write [b] true).Orderly E)
    (hstaffed : (s.change E (.write [b] true)).RoundsStaffed E [b])
    (horderly' : (Change.write [b'] true).Orderly E)
    (hstaffed' : (s'.change E (.write [b'] true)).RoundsStaffed E [b']) :
    ∃ c : Chained, Reaches (Chained.step E) (fun c a => a.Orderly E ∧
        (c.store.change E a).RoundsStaffed E a.blocks) (Chained.start s first) c ∧
      c.store = s'.change E (.write [b'] true) ∧
      c.chain = Chained.extended (Chained.extended (Chained.start s first).chain s.lastHeight
        s'.lastHeight [b]) s'.lastHeight c.store.lastHeight [b'] := by
  subst hs
  exact ⟨_, .next (.write [b'] true) (.next (.write [b] true) .start ⟨horderly, hstaffed⟩ rfl)
    ⟨horderly', hstaffed'⟩ rfl, rfl, rfl⟩

/-- A computable form of `RoundsStaffed`. -/
def allStaffed (E : Env) (s : Store) (blocks : List Block) : Bool :=
  blocks.all fun b =>
    (s.getRound (roundInfo b.height (E.network.milestone b.height).roundLength).round).any
      fun list => decide ((E.network.milestone b.height).roundLength ≤ list.length)

theorem roundsStaffed_of_all {E : Env} {s : Store} {blocks : List Block}
    (h : allStaffed E s blocks = true) : s.RoundsStaffed E blocks := by
  rintro b hb
  have hround := List.all_eq_true.mp h b hb
  obtain ⟨list, hlist, hlong⟩ := (Option.any_eq_true _ _).mp hround
  exact ⟨list, hlist, of_decide_eq_true hlong⟩

namespace Reference

/-- A network with one forging delegate. -/
def oneSeat : Env := ⟨primitives, network { activeDelegates := 1 }, 40000⟩

def seatedBase : Store := (({} : Store).applyBlocks oneSeat [delegateGenesis]).1

/-- A second block one slot late. -/
def skippedSecond : Block := first.forge 2 16 (delegateGenesis.id.getD "") 0 []

/-- A second block whose record cannot be read: its transfer has no nonce. -/
def unreadSecond : Block :=
  first.forge 2 8 (delegateGenesis.id.getD "") 0 [first.sign {
    type := 0, nonce := none, senderPublicKey := "", fee := 10, amount := 5
    recipientId := some second.address }]

/-- A third block one slot late. -/
def skippedThird : Block := first.forge 3 24 (unreadSecond.id.getD "") 0 []

def unreadStore : Store := seatedBase.change oneSeat (.write [unreadSecond] true)

end Reference

open Reference

theorem seatedBase_applied :
    ({} : Store).applyBlocks oneSeat [delegateGenesis] = (seatedBase, .ok ()) := by
  have hok : (({} : Store).applyBlocks oneSeat [delegateGenesis]).2 = .ok () := by
    decide +kernel
  unfold seatedBase
  rw [← hok]

/-- A run with one skipped slot. -/
theorem missed_slots_exact_one :
    ((seatedBase.change oneSeat (.write [skippedSecond] true)).missedAt[2]?.map
      (·.map (·.slot))) = some [1] ∧
    ∀ key, ((seatedBase.change oneSeat (.write [skippedSecond] true)).missedCount key : Int) =
      (seatedBase.change oneSeat (.write [skippedSecond] true)).missedRecords key := by
  obtain ⟨hone, horderly, hread, hall, hslots⟩ :
      delegateGenesis.height = 1 ∧ (Change.write [skippedSecond] true).Orderly oneSeat ∧
      (seatedBase.getBlockByHeight oneSeat seatedBase.lastHeight).toOption.join.isSome = true ∧
      allStaffed oneSeat (seatedBase.change oneSeat (.write [skippedSecond] true))
        [skippedSecond] = true ∧
      ((seatedBase.change oneSeat (.write [skippedSecond] true)).missedAt[2]?.map
        (·.map (·.slot))) = some [1] := by
    decide +kernel
  have hparent : ∃ parent,
      seatedBase.getBlockByHeight oneSeat seatedBase.lastHeight = .ok (some parent) := by
    rcases hparent : seatedBase.getBlockByHeight oneSeat seatedBase.lastHeight with e | _ | parent
    · rw [hparent] at hread
      cases hread
    · rw [hparent] at hread
      cases hread
    · exact ⟨parent, rfl⟩
  obtain ⟨c, hc, hrun⟩ := Chained.exists_write delegateGenesis horderly hparent
    (roundsStaffed_of_all hall)
  have hexact := (missed_slots_exact oneSeat false delegateGenesis seatedBase hone
    seatedBase_applied c hrun).1
  rw [hc] at hexact
  exact ⟨hslots, hexact⟩

/-- Above a block that cannot be read a skipped slot is not recorded. -/
theorem missed_slot_unrecorded :
    (∃ tip, (Sync.applyBlocks oneSeat seatedBase [unreadSecond] ⟨1, delegateGenesis.id⟩ true).2 =
      .ok tip) ∧
    (∃ tip, (Sync.applyBlocks oneSeat unreadStore [skippedThird] ⟨2, unreadSecond.id⟩ true).2 =
      .ok tip) ∧
    ∃ c, Reaches (Chained.step oneSeat) (fun c a => a.Orderly oneSeat ∧
        (c.store.change oneSeat a).RoundsStaffed oneSeat a.blocks)
        (Chained.start seatedBase delegateGenesis) c ∧
      c.store.missedAt[3]? = none ∧
      ∃ parent block, c.chain 2 = some parent ∧ c.chain 3 = some block ∧
        (oneSeat.network.milestone 3).roundLength = 1 ∧
        skippedSlots oneSeat parent block = [2] := by
  obtain ⟨⟨hsecond, hthird⟩, ⟨horderly, hall⟩, ⟨horderly', hall'⟩, ⟨hbase, hunread, hlast⟩,
      hmissed, hround, hskipped⟩ :
      ((Sync.applyBlocks oneSeat seatedBase [unreadSecond] ⟨1, delegateGenesis.id⟩ true).2.isOk =
          true ∧
        (Sync.applyBlocks oneSeat unreadStore [skippedThird] ⟨2, unreadSecond.id⟩ true).2.isOk =
          true) ∧
      ((Change.write [unreadSecond] true).Orderly oneSeat ∧
        allStaffed oneSeat (seatedBase.change oneSeat (.write [unreadSecond] true))
          [unreadSecond] = true) ∧
      ((Change.write [skippedThird] true).Orderly oneSeat ∧
        allStaffed oneSeat (unreadStore.change oneSeat (.write [skippedThird] true))
          [skippedThird] = true) ∧
      (seatedBase.lastHeight = 1 ∧ unreadStore.lastHeight = 2 ∧
        (unreadStore.change oneSeat (.write [skippedThird] true)).lastHeight = 3) ∧
      (unreadStore.change oneSeat (.write [skippedThird] true)).missedAt[3]? = none ∧
      (oneSeat.network.milestone 3).roundLength = 1 ∧
      skippedSlots oneSeat unreadSecond skippedThird = [2] := by
    decide +kernel
  have hstep : unreadStore = seatedBase.change oneSeat (.write [unreadSecond] true) := by
    rw [unreadStore]
  obtain ⟨c, hrun, hstore, hchain⟩ := Chained.exists_two_writes delegateGenesis hstep horderly
    (roundsStaffed_of_all hall) horderly' (roundsStaffed_of_all hall')
  rw [hstore, hbase, hunread, hlast] at hchain
  refine ⟨exists_ok_of_isOk hsecond, exists_ok_of_isOk hthird, c, hrun, ?_, unreadSecond,
    skippedThird, ?_, ?_, hround, hskipped⟩
  · rw [hstore]
    exact hmissed
  · rw [hchain]
    rfl
  · rw [hchain]
    rfl

end SthCore
