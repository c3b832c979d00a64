import SthCore.Delegate.Forger

/-!
Whether the forging order of a round is as long as the positions that are looked up in it.
-/

namespace SthCore

open SthCore.Lib

section Shuffle

variable {α : Type}

theorem swapAt_length (items : List α) (i j : Nat) : (swapAt items i j).length = items.length := by
  unfold swapAt
  split
  · rw [List.length_set, List.length_set]
  · rfl

theorem shuffleStep_length (seed : Bytes) (n : Nat) (acc : List α × Nat) (x : Nat) :
    (shuffleStep seed n acc x).1.length = acc.1.length := by
  unfold shuffleStep
  split_ifs
  · exact swapAt_length _ _ _
  · rfl

theorem shuffleFrom_length (P : Primitives) (n fuel : Nat) (items : List α) (i : Nat)
    (seed : Bytes) : (shuffleFrom P n fuel items i seed).length = items.length := by
  induction fuel generalizing items i seed with
  | zero => rfl
  | succ fuel ih =>
      unfold shuffleFrom
      split_ifs
      · rw [ih]
        simp only [List.foldl_cons, List.foldl_nil, shuffleStep_length]
      · rfl

theorem shuffle_length (P : Primitives) (items : List α) (round : Nat) :
    (shuffle P items round).length = items.length :=
  shuffleFrom_length P _ _ items 0 _

end Shuffle

theorem forall_mod_lt_iff {n k : Nat} (hn : 0 < n) : (∀ slot, slot % n < k) ↔ n ≤ k := by
  constructor
  · intro h
    have hlast := h (n - 1)
    rw [Nat.mod_eq_of_lt (by omega)] at hlast
    omega
  · intro h slot
    exact (Nat.mod_lt slot hn).trans_le h

namespace Store

/-- The delegates that the round after the tip can be given to: those in the ranking that have
neither resigned nor are banned from it. -/
def eligibleDelegates (E : Env) (s : Store) : List (WalletState × UInt64) :=
  let next := s.lastHeight + 1
  let info := roundInfo next (E.network.milestone next).activeDelegates.toNat
  let banned := s.bannedDelegates E info.round next
  s.delegateRanking.filter fun d =>
    !d.1.resigned && !(d.1.publicKey.any fun pk => banned.contains pk)

theorem activeDelegates_length (E : Env) (s : Store) (count : Nat) :
    (s.activeDelegates E count).length = min count (s.eligibleDelegates E).length := by
  unfold activeDelegates activeDelegatesExcluding
  rw [List.length_map, List.length_take]
  rfl

/-- The lookups of a tick for a block at `height`; an empty order ends the tick. -/
def TickInBounds (E : Env) (s : Store) (height : Nat) : Prop :=
  ∀ order, s.forgingOrder E (E.network.roundOf height) = some order → order ≠ [] →
    0 < E.network.delegatesAt height ∧
      ∀ slot, slot % E.network.delegatesAt height < order.length

/-- The lookups of `record_missed_slots` for a block at `height`. -/
def MissedInBounds (E : Env) (s : Store) (height : Nat) : Prop :=
  let n := (E.network.milestone height).roundLength
  ∀ order, s.forgingOrder E (roundInfo height n).round = some order →
    ∀ slot, slot % n < order.length

/-- The rollback of a block closes the round that the block opened. -/
theorem RolledBack.getRound_none {E : Env} {s s' : Store} (h : RolledBack E s s') {r : Nat}
    (hend : E.network.EndsRound s.lastHeight) (hr : E.network.opensRound s.lastHeight = r) :
    s'.getRound r = none := by
  unfold Network.EndsRound at hend
  unfold Network.opensRound at hr
  unfold getRound
  rw [h.result]
  unfold dropRound
  simp only
  rw [if_pos hend, OrderedMap.getElem?_erase_eq, if_pos hr]

/-- A store whose tip ends a round has `n` delegates for the next one, and its milestone lets as
many in. -/
structure Staffs (E : Env) (s : Store) (n : Nat) : Prop where
  slots : n ≤ (E.network.milestone s.lastHeight).roundLength
  delegates : n ≤ (s.eligibleDelegates E).length

end Store

/-- A store, and for each round the store from which its snapshot was taken. -/
structure Sourced where
  store : Store
  opener : Nat → Option Store

namespace Sourced

/-- After the first block each snapshot is taken from it. -/
def start (s : Store) : Sourced := ⟨s, fun r => (s.getRound r).map fun _ => s⟩

@[simp] theorem start_store (s : Store) : (start s).store = s := rfl

/-- The last block of a round opens the next one; its rollback closes it again. -/
def reopened (E : Env) (s s' : Store) (opener : Nat → Option Store) (r : Nat) : Option Store :=
  if s.lastHeight < s'.lastHeight ∧ E.network.EndsRound s'.lastHeight ∧
      E.network.opensRound s'.lastHeight = r then some s'
  else if s'.lastHeight < s.lastHeight ∧ E.network.EndsRound s.lastHeight ∧
      E.network.opensRound s.lastHeight = r then none
  else opener r

def step (E : Env) (w : Sourced) (c : Change) : Option Sourced :=
  let s := w.store.change E c
  some ⟨s, reopened E w.store s w.opener⟩

/-- The stored snapshots are the tops of the rankings of these stores. -/
structure Exact (E : Env) (w : Sourced) : Prop where
  pos : 0 < w.store.lastHeight
  rounds : ∀ r, w.store.getRound r = (w.opener r).map fun t =>
    t.activeDelegates E (E.network.milestone t.lastHeight).roundLength

variable {E : Env} {w w' : Sourced}

theorem exact_start {undo : Bool} {s : Store} {block : Block} (hone : block.height = 1)
    (h : ({ undoEnabled := undo } : Store).applyBlocks E [block] = (s, .ok ())) :
    (start s).Exact E := by
  have hlocked : ({ undoEnabled := undo } : Store).applyLocked E [block] true = (s, .ok ()) := h
  have hgrown := Store.applyLocked_grown E { undoEnabled := undo } true
    (subBatch_single E block).chain
  rw [hlocked] at hgrown
  obtain ⟨g⟩ := hgrown.resolve_left (by simp)
  have hlast : g.last.height = 1 := by
    rw [← Option.some.inj g.isLast]
    exact hone
  have htip : s.lastHeight = 1 := by
    rw [g.tip, hlast]
    rfl
  have hrank : s.activeDelegates E = g.written.activeDelegates E := by
    funext n
    exact g.same.activeDelegates n
  have hfresh : ∀ r : Nat, g.written.rounds[r]? = none := by
    intro r
    rw [g.kept]
    rfl
  have hrounds := g.rounds
  rw [hlast] at hrounds
  unfold Store.snapshotRoundIfBoundary at hrounds
  simp only [Store.getRound, hfresh, and_self, if_true] at hrounds
  have hstored : ∀ r list, s.getRound r = some list →
      list = s.activeDelegates E (E.network.milestone 1).roundLength := by
    intro r list hlist
    rw [hrank]
    unfold Store.getRound at hlist
    rw [hrounds] at hlist
    split_ifs at hlist
    · simp only [Store.saveRound, OrderedMap.getElem?_insert_eq, hfresh] at hlist
      split_ifs at hlist
      exact (Option.some.inj hlist).symm
    · simp only [Store.saveRound, OrderedMap.getElem?_insert_eq, hfresh] at hlist
      split_ifs at hlist
      · exact (Option.some.inj hlist).symm
      · exact (Option.some.inj hlist).symm
  refine ⟨htip ▸ Nat.one_pos, fun r => ?_⟩
  change s.getRound r = ((s.getRound r).map fun _ => s).map _
  cases hr : s.getRound r with
  | none => rfl
  | some list =>
      rw [hstored r list hr]
      simp only [Option.map_some, htip]

theorem reopened_up {s s' : Store} {opener : Nat → Option Store} {r : Nat}
    (h : s.lastHeight < s'.lastHeight) : reopened E s s' opener r =
      if E.network.EndsRound s'.lastHeight ∧ E.network.opensRound s'.lastHeight = r then some s'
      else opener r := by
  unfold reopened
  simp only [h, true_and, not_lt_of_gt h, false_and, if_false]

theorem reopened_down {s s' : Store} {opener : Nat → Option Store} {r : Nat}
    (h : s'.lastHeight < s.lastHeight) : reopened E s s' opener r =
      if E.network.EndsRound s.lastHeight ∧ E.network.opensRound s.lastHeight = r then none
      else opener r := by
  unfold reopened
  simp only [h, true_and, not_lt_of_gt h, false_and, if_false]

theorem reopened_same {s s' : Store} {opener : Nat → Option Store} {r : Nat}
    (h : s'.lastHeight = s.lastHeight) : reopened E s s' opener r = opener r := by
  unfold reopened
  simp only [h, lt_irrefl, false_and, if_false]

/-- A change that leaves the tip and the snapshots alone. -/
theorem Exact.stay {s : Store} (h : w.Exact E) (htip : s.lastHeight = w.store.lastHeight)
    (hrounds : ∀ r, s.getRound r = w.store.getRound r) :
    Exact E ⟨s, reopened E w.store s w.opener⟩ := by
  refine ⟨htip ▸ h.pos, fun r => ?_⟩
  simp only
  rw [reopened_same htip, hrounds]
  exact h.rounds r

theorem Exact.write (h : w.Exact E) {blocks : List Block} (force : Bool)
    (hblocks : SubBatch E blocks) :
    Exact E ⟨(w.store.applyLocked E blocks force).1,
      reopened E w.store (w.store.applyLocked E blocks force).1 w.opener⟩ := by
  have hpos := h.pos
  rcases Store.applyLocked_grown E w.store force hblocks.chain with ⟨e, he⟩ | ⟨⟨g⟩⟩
  · rw [he]
    exact h.stay rfl fun _ => rfl
  · obtain ⟨htip, habove⟩ := g.tip_eq hblocks.chain hpos
    have hrank : (w.store.applyLocked E blocks force).1.activeDelegates E =
        g.written.activeDelegates E := by
      funext n
      exact g.same.activeDelegates n
    have hrounds := g.rounds
    rw [Store.snapshotRound_rounds E g.written (by omega), g.kept, ← htip, ← hrank] at hrounds
    clear hrank
    generalize (w.store.applyLocked E blocks force).1 = s at g htip habove hrounds
    refine ⟨hpos.trans habove, fun r => ?_⟩
    change s.rounds[r]? = (reopened E w.store s w.opener r).map _
    rw [reopened_up habove, hrounds]
    by_cases hend : E.network.EndsRound s.lastHeight
    · rw [if_pos hend, OrderedMap.getElem?_insert_eq]
      by_cases hr : E.network.opensRound s.lastHeight = r
      · rw [if_pos hr, if_pos ⟨hend, hr⟩]
        rfl
      · rw [if_neg hr, if_neg fun hboth => hr hboth.2]
        exact h.rounds r
    · rw [if_neg hend, if_neg fun hboth => hend hboth.1]
      exact h.rounds r

theorem Exact.rollback (h : w.Exact E) :
    Exact E ⟨(w.store.rollbackLastBlock E).1,
      reopened E w.store (w.store.rollbackLastBlock E).1 w.opener⟩ := by
  have hpos := h.pos
  rcases hback : w.store.rollbackLastBlock E with ⟨s', e | tip⟩
  · obtain ⟨certs, rfl⟩ := Store.rollbackLastBlock_error hback
    exact h.stay rfl fun _ => rfl
  · obtain ⟨-, ⟨hrolled⟩⟩ := Store.rollbackLastBlock_eq_ok hback
    obtain ⟨-, -, htip, -⟩ := hrolled.chain
    have habove := hrolled.above
    have hbelow : s'.lastHeight < w.store.lastHeight := by omega
    refine ⟨by simp only; omega, fun r => ?_⟩
    simp only
    rw [reopened_down hbelow]
    by_cases hend : E.network.EndsRound w.store.lastHeight ∧
        E.network.opensRound w.store.lastHeight = r
    · rw [if_pos hend, hrolled.getRound_none hend.1 hend.2]
      rfl
    · rw [if_neg hend, hrolled.getRound_eq fun hends hr => hend ⟨hends, hr⟩]
      exact h.rounds r

theorem Exact.step {c : Change} (h : w.Exact E) (horderly : c.Orderly E)
    (hstep : w.step E c = some w') : w'.Exact E := by
  obtain rfl := Option.some.inj hstep
  cases c with
  | write blocks force => exact h.write force horderly
  | rollback => exact h.rollback
  | certify cert => exact h.stay rfl fun _ => rfl
  | accuse proof => exact h.stay rfl fun _ => rfl
  | setUndo on => exact h.stay rfl fun _ => rfl

/-- The order of a round is as long as the store that opened the round let it be. -/
theorem Exact.order_length (h : w.Exact E) {round : Nat} {order : List DelegateRank}
    (horder : w.store.forgingOrder E round = some order) : ∃ t, w.opener round = some t ∧
      order.length = min (E.network.milestone t.lastHeight).roundLength
        (t.eligibleDelegates E).length := by
  unfold Store.forgingOrder at horder
  rw [h.rounds] at horder
  obtain ⟨list, hlist, rfl⟩ := Option.map_eq_some_iff.mp horder
  obtain ⟨t, ht, rfl⟩ := Option.map_eq_some_iff.mp hlist
  exact ⟨t, ht, (shuffle_length _ _ _).trans (Store.activeDelegates_length E t _)⟩

theorem Exact.order_of_opener (h : w.Exact E) {round : Nat} {t : Store}
    (ht : w.opener round = some t) :
    ∃ order, w.store.forgingOrder E round = some order := by
  unfold Store.forgingOrder
  rw [h.rounds, ht]
  exact ⟨_, rfl⟩

end Sourced

/-- In every run from the first block on, and for blocks of every height: what a tick looks up is
there, unless the order is empty, just if the store that opened the round had enough delegates for
it; and so is what is looked up for missed slots. -/
theorem forging_order_lookups (E : Env) (undo : Bool) (first : Block) (s : Store)
    (hone : first.height = 1)
    (hfirst : ({ undoEnabled := undo } : Store).applyBlocks E [first] = (s, .ok ()))
    (w : Sourced)
    (hrun : Reaches (Sourced.step E) (fun _ c => c.Orderly E) (Sourced.start s) w)
    (height : Nat) :
    (w.store.TickInBounds E height ↔
      ∀ t, w.opener (E.network.roundOf height) = some t → t.eligibleDelegates E ≠ [] →
        0 < E.network.delegatesAt height ∧ t.Staffs E (E.network.delegatesAt height)) ∧
    (w.store.MissedInBounds E height ↔
      ∀ t, w.opener (roundInfo height (E.network.milestone height).roundLength).round = some t →
        t.Staffs E (E.network.milestone height).roundLength) := by
  have hexact := hrun.invariant (Sourced.exact_start hone hfirst)
    fun _ _ _ h horderly hstep => h.step horderly hstep
  refine ⟨⟨?_, ?_⟩, ?_, ?_⟩
  · intro hbounds t ht hsome
    obtain ⟨order, horder⟩ := hexact.order_of_opener ht
    obtain ⟨u, hu, hlength⟩ := hexact.order_length horder
    obtain rfl := Option.some.inj (ht.symm.trans hu)
    have hround := Milestone.roundLength_pos (E.network.milestone t.lastHeight)
    have hdelegates := List.length_pos_of_ne_nil hsome
    have hne : order ≠ [] := List.ne_nil_of_length_pos (by omega)
    obtain ⟨hpos, hslots⟩ := hbounds order horder hne
    rw [forall_mod_lt_iff hpos, hlength] at hslots
    exact ⟨hpos, by omega, by omega⟩
  · intro hstaffed order horder hne
    obtain ⟨t, ht, hlength⟩ := hexact.order_length horder
    have hlong := List.length_pos_of_ne_nil hne
    obtain ⟨hpos, hslots, hdelegates⟩ :=
      hstaffed t ht (List.ne_nil_of_length_pos (by omega))
    refine ⟨hpos, ?_⟩
    rw [forall_mod_lt_iff hpos, hlength]
    omega
  · intro hbounds t ht
    obtain ⟨order, horder⟩ := hexact.order_of_opener ht
    obtain ⟨u, hu, hlength⟩ := hexact.order_length horder
    obtain rfl := Option.some.inj (ht.symm.trans hu)
    have hslots := hbounds order horder
    rw [forall_mod_lt_iff (Milestone.roundLength_pos _), hlength] at hslots
    exact ⟨by omega, by omega⟩
  · intro hstaffed order horder
    obtain ⟨t, ht, hlength⟩ := hexact.order_length horder
    obtain ⟨hslots, hdelegates⟩ := hstaffed t ht
    rw [forall_mod_lt_iff (Milestone.roundLength_pos _), hlength]
    omega

namespace Reference

/-- A network with room for three delegates. -/
def threeSeats : Env := ⟨primitives, network { activeDelegates := 3 }, 24000⟩

/-- The first block registers one delegate. -/
def oneDelegate : Store := (({} : Store).applyBlocks threeSeats [delegateGenesis]).1

/-- A second block two slots late. -/
def skippingBlock : Block := first.forge 2 24 (delegateGenesis.id.getD "") 0 []

end Reference

open Reference

/-- The first block is accepted and leaves an order of one delegate for three seats. -/
theorem oneDelegate_order :
    (({} : Store).applyBlocks threeSeats [delegateGenesis]).2 = .ok () ∧
    ((oneDelegate.forgingOrder threeSeats (threeSeats.network.roundOf 2)).any
      (fun order => decide (order ≠ [] ∧ ¬ 1 % threeSeats.network.delegatesAt 2 < order.length)) =
        true) ∧
    ((oneDelegate.forgingOrder threeSeats
      (roundInfo 2 (threeSeats.network.milestone 2).roundLength).round).any
      (fun order => decide (¬ 1 % (threeSeats.network.milestone 2).roundLength < order.length)) =
        true) ∧
    (Sync.applyBlocks threeSeats oneDelegate [skippingBlock] ⟨1, delegateGenesis.id⟩ true).2 =
      .error (.panic "index out of bounds") := by
  decide +kernel

theorem oneDelegate_applied :
    ({} : Store).applyBlocks threeSeats [delegateGenesis] = (oneDelegate, .ok ()) := by
  unfold oneDelegate
  rw [← oneDelegate_order.1]

/-- The lookups after a first block with one delegate. -/
theorem forging_order_lookups_single :
    ∃ w : Sourced, w.store = oneDelegate ∧ (w.store.MissedInBounds threeSeats 2 ↔
      ∀ t, w.opener (roundInfo 2 (threeSeats.network.milestone 2).roundLength).round = some t →
        t.Staffs threeSeats (threeSeats.network.milestone 2).roundLength) := by
  have hone : delegateGenesis.height = 1 := by decide +kernel
  exact ⟨_, Sourced.start_store oneDelegate, (forging_order_lookups threeSeats false delegateGenesis oneDelegate hone
    oneDelegate_applied (Sourced.start oneDelegate) .start 2).2⟩

/-- With one delegate for three seats both lookups leave the order, and a block that is accepted
next ends with a panic. -/
theorem forging_order_too_short :
    ∃ w, Reaches (Sourced.step threeSeats) (fun _ c => c.Orderly threeSeats)
        (Sourced.start oneDelegate) w ∧
      ¬ w.store.TickInBounds threeSeats 2 ∧ ¬ w.store.MissedInBounds threeSeats 2 ∧
      (Sync.applyBlocks threeSeats w.store [skippingBlock] ⟨1, delegateGenesis.id⟩ true).2 =
        .error (.panic "index out of bounds") := by
  obtain ⟨-, htick, hmissed, hpanic⟩ := oneDelegate_order
  refine ⟨Sourced.start oneDelegate, .start, ?_⟩
  rw [Sourced.start_store]
  refine ⟨?_, ?_, hpanic⟩
  · intro hbounds
    obtain ⟨order, horder, hbad⟩ := (Option.any_eq_true _ _).mp htick
    simp only [decide_eq_true_eq] at hbad
    exact hbad.2 ((hbounds order horder hbad.1).2 1)
  · intro hbounds
    obtain ⟨order, horder, hbad⟩ := (Option.any_eq_true _ _).mp hmissed
    simp only [decide_eq_true_eq] at hbad
    exact hbad (hbounds order horder 1)

end SthCore
