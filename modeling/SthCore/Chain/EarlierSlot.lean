import SthCore.Chain.Linkage
import SthCore.Lib.Runs
import SthCore.Storage.Changes

/-!
`prefer_earlier_slot` in the steps between which other tasks write to the
store: the checks, the reading of the tip by `rollback_to`, each rollback of a
block, and the writes of the two blocks.
-/

namespace SthCore

open SthCore.Lib

inductive SwapPhase where
  | start
  /-- The blocks are compared with the tip that was read. -/
  | compared (tip : Nat)
  | checked (tip : Nat)
  /-- `rollback_to` at work: the tip it last saw. -/
  | rolling (tip seen : Nat)
  | removed
  /-- The other block was refused. -/
  | restoring
  | done (swapped : Bool)
  deriving DecidableEq

/-- A call at work.  `alone` is the store as the other tasks alone would have left it. -/
structure Swap where
  store : Store
  alone : Store
  phase : SwapPhase := .start

namespace Swap

inductive Action where
  /-- A step of another task. -/
  | other (change : Change)
  | compare
  | checkCertificate
  | enter
  | turn
  | swap
  | restore

def step (E : Env) (ours theirs : Block) (n : Swap) (a : Action) : Option Swap :=
  match a, n.phase with
  | .other _, .done _ => none
  | .other c, _ => some { n with store := n.store.change E c, alone := n.alone.change E c }
  | .compare, .start =>
      let tip := n.store.lastHeight
      if ours.height ≠ tip ∨ theirs.height ≠ tip ∨ theirs.timestamp ≥ ours.timestamp ∨
          theirs.previousBlock ≠ ours.previousBlock then
        some { n with phase := .done false }
      else if (verifyBlockSignature E.prim theirs).toOption ≠ some true then
        some { n with phase := .done false }
      else some { n with phase := .compared tip }
  | .checkCertificate, .compared tip =>
      if n.store.latestFinalityCert.any fun c => decide (tip ≤ c.height) then
        some { n with phase := .done false }
      else some { n with phase := .checked tip }
  | .enter, .checked tip => some { n with phase := .rolling tip n.store.lastHeight }
  | .turn, .rolling tip seen =>
      if seen ≤ tip - 1 then some { n with phase := .removed }
      else
        match n.store.rollbackLastBlock E with
        | (s, .ok seen) => some { n with store := s, phase := .rolling tip seen }
        | (s, .error _) => some { n with store := s, phase := .done false }
  | .swap, .removed =>
      match n.store.applyBlocks E [theirs] with
      | (s, .ok _) => some { n with store := s, phase := .done true }
      -- a panic ends the call without the restore, which would be refused: it comes
      -- after the database transaction, when the height is taken
      | (s, .error _) => some { n with store := s, phase := .restoring }
  | .restore, .restoring =>
      some { n with store := (n.store.applyBlocks E [ours]).1, phase := .done false }
  | _, _ => none

section Steps

variable (E : Env) (ours theirs : Block) (store alone : Store)

theorem step_compare :
    step E ours theirs ⟨store, alone, .start⟩ .compare =
      if ours.height ≠ store.lastHeight ∨ theirs.height ≠ store.lastHeight ∨
          theirs.timestamp ≥ ours.timestamp ∨ theirs.previousBlock ≠ ours.previousBlock then
        some ⟨store, alone, .done false⟩
      else if (verifyBlockSignature E.prim theirs).toOption ≠ some true then
        some ⟨store, alone, .done false⟩
      else some ⟨store, alone, .compared store.lastHeight⟩ :=
  rfl

theorem step_checkCertificate (tip : Nat) :
    step E ours theirs ⟨store, alone, .compared tip⟩ .checkCertificate =
      if store.latestFinalityCert.any fun c => decide (tip ≤ c.height) then
        some ⟨store, alone, .done false⟩
      else some ⟨store, alone, .checked tip⟩ :=
  rfl

theorem step_turn (tip seen : Nat) :
    step E ours theirs ⟨store, alone, .rolling tip seen⟩ .turn =
      if seen ≤ tip - 1 then some ⟨store, alone, .removed⟩
      else
        match store.rollbackLastBlock E with
        | (s, .ok seen) => some ⟨s, alone, .rolling tip seen⟩
        | (s, .error _) => some ⟨s, alone, .done false⟩ :=
  rfl

theorem step_swap :
    step E ours theirs ⟨store, alone, .removed⟩ .swap =
      match store.applyBlocks E [theirs] with
      | (s, .ok _) => some ⟨s, alone, .done true⟩
      | (s, .error _) => some ⟨s, alone, .restoring⟩ :=
  rfl

end Steps

/-- The block ends the chain, stored as `prepare_block` makes it. -/
structure OnTip (E : Env) (s : Store) (b : Block) : Prop where
  pos : 0 < b.height
  tip : s.lastHeight = b.height
  stored : ∃ p ∈ (prepareBlock E b).toOption, s.blocks[b.height]? = some p.2

/-- The same chain. -/
def SameBlocks (s s' : Store) : Prop := s'.blocks = s.blocks ∧ s'.lastHeight = s.lastHeight

/-- From the moment `rollback_to` reads the tip, which is `ours`, no other task changes the
chain; and `ours` is accepted again when the other block is refused. -/
def Undisturbed (E : Env) (ours : Block) (n : Swap) : Action → Prop
  | .enter => OnTip E n.store ours
  | .other c =>
      match n.phase with
      | .start | .compared _ | .checked _ => True
      | _ => SameBlocks n.store (n.store.change E c) ∧ SameBlocks n.alone (n.alone.change E c)
  | .restore => (n.store.applyBlocks E [ours]).2.toOption = some ()
  | _ => True

/-- The chain without its tip. -/
def Shorter (s s' : Store) : Prop :=
  s'.blocks = s.blocks.erase s.lastHeight ∧ s'.lastHeight = s.lastHeight - 1

/-- The chain with another block in place of its tip. -/
structure Replaced (E : Env) (s s' : Store) (ours theirs : Block) : Prop where
  onTip : OnTip E s ours
  stored : ∃ p ∈ (prepareBlock E theirs).toOption, s'.blocks = s.blocks.insert s.lastHeight p.2
  tip : s'.lastHeight = s.lastHeight

/-- What the call promises when it returns. -/
def Kept (E : Env) (n : Swap) (ours theirs : Block) : Bool → Prop
  | false => SameBlocks n.alone n.store
  | true => Replaced E n.alone n.store ours theirs

/-- What holds between the steps. -/
def Invariant (E : Env) (ours theirs : Block) (n : Swap) : Prop :=
  match n.phase with
  | .start => n.alone = n.store
  | .compared tip | .checked tip => n.alone = n.store ∧ tip = ours.height ∧ theirs.height = tip
  | .rolling tip seen => OnTip E n.alone ours ∧ tip = ours.height ∧ theirs.height = tip ∧
      (seen = tip ∧ SameBlocks n.alone n.store ∨ seen = tip - 1 ∧ Shorter n.alone n.store)
  | .removed => OnTip E n.alone ours ∧ theirs.height = ours.height ∧ Shorter n.alone n.store
  | .restoring => OnTip E n.alone ours ∧
      (Shorter n.alone n.store ∨ n.store.lastHeight = ours.height)
  | .done swapped => n.Kept E ours theirs swapped

theorem SameBlocks.trans {s s' s'' : Store} (h : SameBlocks s s') (h' : SameBlocks s' s'') :
    SameBlocks s s'' :=
  ⟨h'.1.trans h.1, h'.2.trans h.2⟩

theorem SameBlocks.symm {s s' : Store} (h : SameBlocks s s') : SameBlocks s' s :=
  ⟨h.1.symm, h.2.symm⟩

theorem OnTip.congr {E : Env} {s s' : Store} {b : Block} (h : OnTip E s b)
    (hsame : SameBlocks s s') : OnTip E s' b := by
  obtain ⟨hblocks, hheight⟩ := hsame
  refine ⟨h.pos, hheight.trans h.tip, ?_⟩
  rw [hblocks]
  exact h.stored

theorem Shorter.congr {a a' s s' : Store} (h : Shorter a s) (ha : SameBlocks a a')
    (hs : SameBlocks s s') : Shorter a' s' := by
  obtain ⟨hblocks, hheight⟩ := h
  constructor
  · rw [hs.1, hblocks, ha.1, ha.2]
  · rw [hs.2, hheight, ha.2]

/-- A single block is refused and nothing changes, or it lies on top of the chain. -/
theorem applyBlocks_single_cases (E : Env) (s : Store) (b : Block) :
    (∃ e, s.applyBlocks E [b] = (s, .error e)) ∨
    ∃ p ∈ (prepareBlock E b).toOption, (s.lastHeight = 0 ∨ b.height = s.lastHeight + 1) ∧
      (s.applyBlocks E [b]).1.blocks = s.blocks.insert b.height p.2 ∧
      (s.applyBlocks E [b]).1.lastHeight = max s.lastHeight b.height := by
  change (∃ e, s.applyLocked E [b] true = (s, .error e)) ∨ _
  rcases Store.applyLocked_cases E s [b] true with herror | ⟨prepared, hprepared, ⟨c⟩⟩
  · exact .inl herror
  · right
    obtain ⟨p, hp, rfl⟩ : ∃ p, prepareBlock E b = .ok p ∧ prepared = [p] := by
      have hall := forall₂_of_mapM_ok hprepared
      rcases hall with _ | ⟨hp, hrest⟩
      obtain rfl := List.forall₂_nil_left_iff.mp hrest
      exact ⟨_, hp, rfl⟩
    obtain ⟨-, hheight, -⟩ := prepareBlock_ok hp
    have hstored := c.stored
    rw [List.foldlM_cons] at hstored
    obtain ⟨chain, hwritten, hend⟩ := bind_eq_ok.mp hstored
    rw [List.foldlM_nil, pure_eq_ok] at hend
    subst hend
    obtain ⟨hblocks, htip⟩ := Store.writeBlock_blocks hwritten
    obtain ⟨hblocks', -, htip'⟩ := (Store.writeEntries_sameRecords c.written).chain
    obtain ⟨hsame, -, hsameTip, -⟩ := c.same.chain
    refine ⟨p, by rw [hp]; rfl, ?_, ?_, ?_⟩
    · have hcheck := c.tip p rfl
      unfold Store.checkTip at hcheck
      simp only at hcheck
      split_ifs at hcheck with hzero hnext
      · exact .inl hzero
      · exact .inr (by omega)
    · change (s.applyLocked E [b] true).1.blocks = _
      rw [hsame, hblocks, hblocks', hheight]
    · change (s.applyLocked E [b] true).1.lastHeight = _
      rw [hsameTip, htip, htip'.1, hheight]

/-- A block on the shortened chain takes the place of the tip. -/
theorem applyBlocks_shorter {E : Env} {a s : Store} {b : Block} (h : Shorter a s)
    (hpos : 0 < a.lastHeight) (hb : b.height = a.lastHeight) :
    (∃ e, s.applyBlocks E [b] = (s, .error e)) ∨
    ∃ p ∈ (prepareBlock E b).toOption,
      (s.applyBlocks E [b]).1.blocks = a.blocks.insert a.lastHeight p.2 ∧
      (s.applyBlocks E [b]).1.lastHeight = a.lastHeight := by
  rcases applyBlocks_single_cases E s b with herror | ⟨p, hp, -, hblocks, htip⟩
  · exact .inl herror
  · refine .inr ⟨p, hp, ?_, ?_⟩
    · rw [hblocks, h.1, hb]
      ext height
      simp only [OrderedMap.getElem?_insert_eq, OrderedMap.getElem?_erase_eq]
      split_ifs <;> rfl
    · rw [htip, h.2, hb]
      omega

/-- The restored block gives back the chain. -/
theorem restored_sameBlocks {E : Env} {a s : Store} {ours : Block} (honTip : OnTip E a ours)
    (hphase : Shorter a s ∨ s.lastHeight = ours.height)
    (hok : (s.applyBlocks E [ours]).2.toOption = some ()) :
    SameBlocks a (s.applyBlocks E [ours]).1 := by
  have hpos := honTip.pos
  rcases hphase with hshort | htaken
  · rcases applyBlocks_shorter (E := E) hshort (honTip.tip ▸ hpos) honTip.tip.symm with
      ⟨e, he⟩ | ⟨p, hp, hblocks, htip⟩
    · rw [he] at hok
      cases hok
    · obtain ⟨q, hq, hstored⟩ := honTip.stored
      obtain rfl := Option.mem_unique hp hq
      refine ⟨?_, htip⟩
      rw [hblocks]
      ext height record
      rw [OrderedMap.getElem?_insert_eq]
      split_ifs with heq
      · rw [← heq, honTip.tip, hstored]
      · rfl
  · rcases applyBlocks_single_cases E s ours with ⟨e, he⟩ | ⟨p, -, hnext, -⟩
    · rw [he] at hok
      cases hok
    · omega

theorem other_invariant {E : Env} {ours theirs : Block} {n n' : Swap} {c : Change}
    (h : n.Invariant E ours theirs) (hgood : n.Undisturbed E ours (.other c))
    (hstep : n.step E ours theirs (.other c) = some n') : n'.Invariant E ours theirs := by
  rcases n with ⟨store, alone, phase⟩
  cases phase with
  | start =>
      obtain rfl := Option.some.inj hstep
      exact congrArg (fun s => Store.change E s c) h
  | compared tip =>
      obtain rfl := Option.some.inj hstep
      obtain ⟨hsame, hheights⟩ := h
      exact ⟨congrArg (fun s => Store.change E s c) hsame, hheights⟩
  | checked tip =>
      obtain rfl := Option.some.inj hstep
      obtain ⟨hsame, hheights⟩ := h
      exact ⟨congrArg (fun s => Store.change E s c) hsame, hheights⟩
  | rolling tip seen =>
      obtain rfl := Option.some.inj hstep
      obtain ⟨hstore, halone⟩ := hgood
      obtain ⟨honTip, hours, htheirs, hchain⟩ := h
      refine ⟨honTip.congr halone, hours, htheirs, ?_⟩
      rcases hchain with ⟨hseen, hsame⟩ | ⟨hseen, hshort⟩
      · exact .inl ⟨hseen, (halone.symm.trans hsame).trans hstore⟩
      · exact .inr ⟨hseen, hshort.congr halone hstore⟩
  | removed =>
      obtain rfl := Option.some.inj hstep
      obtain ⟨hstore, halone⟩ := hgood
      obtain ⟨honTip, htheirs, hshort⟩ := h
      exact ⟨honTip.congr halone, htheirs, hshort.congr halone hstore⟩
  | restoring =>
      obtain rfl := Option.some.inj hstep
      obtain ⟨hstore, halone⟩ := hgood
      obtain ⟨honTip, hchain⟩ := h
      refine ⟨honTip.congr halone, ?_⟩
      rcases hchain with hshort | htaken
      · exact .inl (hshort.congr halone hstore)
      · exact .inr (hstore.2.trans htaken)
  | done swapped => cases hstep

theorem turn_invariant {E : Env} {ours theirs : Block} {n n' : Swap}
    (h : n.Invariant E ours theirs) (hstep : n.step E ours theirs .turn = some n') :
    n'.Invariant E ours theirs := by
  rcases n with ⟨store, alone, phase⟩
  cases phase with
  | rolling tip seen =>
      obtain ⟨honTip, hours, htheirs, hchain⟩ := h
      have hpos := honTip.pos
      rw [step_turn] at hstep
      split_ifs at hstep with hlow
      · obtain rfl := Option.some.inj hstep
        rcases hchain with ⟨hseen, -⟩ | ⟨-, hshort⟩
        · omega
        · exact ⟨honTip, htheirs.trans hours, hshort⟩
      · obtain ⟨hseen, hsame⟩ : seen = tip ∧ SameBlocks alone store := by
          rcases hchain with hsame | ⟨hseen, -⟩
          · exact hsame
          · omega
        split at hstep
        · rename_i s seen' hback
          obtain rfl := Option.some.inj hstep
          obtain ⟨htip, ⟨hrolled⟩⟩ := Store.rollbackLastBlock_eq_ok hback
          obtain ⟨hblocks, -, hheight, -⟩ := hrolled.chain
          refine ⟨honTip, hours, htheirs, .inr ⟨?_, ?_, ?_⟩⟩
          · rw [htip, hsame.2, honTip.tip, hours]
          · rw [hblocks, hsame.1, hsame.2]
          · rw [hheight, hsame.2]
        · rename_i s e hback
          obtain rfl := Option.some.inj hstep
          obtain ⟨certs, rfl⟩ := Store.rollbackLastBlock_error hback
          exact hsame
  | start | compared _ | checked _ | removed | restoring | done _ => cases hstep

theorem swap_invariant {E : Env} {ours theirs : Block} {n n' : Swap}
    (h : n.Invariant E ours theirs) (hstep : n.step E ours theirs .swap = some n') :
    n'.Invariant E ours theirs := by
  rcases n with ⟨store, alone, phase⟩
  cases phase with
  | removed =>
      obtain ⟨honTip, htheirs, hshort⟩ := h
      have hcases := applyBlocks_shorter (E := E) hshort (honTip.tip ▸ honTip.pos)
        (htheirs.trans honTip.tip.symm)
      rw [step_swap] at hstep
      split at hstep
      · rename_i s u hok
        obtain rfl := Option.some.inj hstep
        rw [hok] at hcases
        rcases hcases with ⟨e, he⟩ | ⟨p, hp, hblocks, htip⟩
        · cases he
        · exact ⟨honTip, ⟨p, hp, hblocks⟩, htip⟩
      · rename_i s e herror
        obtain rfl := Option.some.inj hstep
        rw [herror] at hcases
        refine ⟨honTip, ?_⟩
        rcases hcases with ⟨e', he⟩ | ⟨p, hp, hblocks, htip⟩
        · obtain ⟨rfl, -⟩ := Prod.mk.inj he
          exact .inl hshort
        · exact .inr (htip.trans honTip.tip)
  | start | compared _ | checked _ | rolling _ _ | restoring | done _ => cases hstep

theorem step_invariant {E : Env} {ours theirs : Block} {n n' : Swap} {a : Action}
    (h : n.Invariant E ours theirs) (hgood : n.Undisturbed E ours a)
    (hstep : n.step E ours theirs a = some n') : n'.Invariant E ours theirs := by
  cases a with
  | other c => exact other_invariant h hgood hstep
  | turn => exact turn_invariant h hstep
  | swap => exact swap_invariant h hstep
  | compare =>
      rcases n with ⟨store, alone, phase⟩
      cases phase with
      | start =>
          obtain rfl : alone = store := h
          rw [step_compare] at hstep
          split_ifs at hstep with hguard hsigned
          · obtain rfl := Option.some.inj hstep
            exact ⟨rfl, rfl⟩
          · obtain rfl := Option.some.inj hstep
            exact ⟨rfl, rfl⟩
          · obtain rfl := Option.some.inj hstep
            simp only [not_or, not_not] at hguard
            exact ⟨rfl, hguard.1.symm, hguard.2.1⟩
      | compared _ | checked _ | rolling _ _ | removed | restoring | done _ => cases hstep
  | checkCertificate =>
      rcases n with ⟨store, alone, phase⟩
      cases phase with
      | compared tip =>
          rw [step_checkCertificate] at hstep
          split_ifs at hstep with hcertified
          · obtain rfl := Option.some.inj hstep
            obtain ⟨hsame, -⟩ : alone = store ∧ _ := h
            exact ⟨hsame ▸ rfl, hsame ▸ rfl⟩
          · obtain rfl := Option.some.inj hstep
            exact h
      | start | checked _ | rolling _ _ | removed | restoring | done _ => cases hstep
  | enter =>
      rcases n with ⟨store, alone, phase⟩
      cases phase with
      | checked tip =>
          obtain rfl := Option.some.inj hstep
          obtain ⟨hsame, hours, htheirs⟩ : alone = store ∧ _ := h
          obtain rfl := hsame
          exact ⟨hgood, hours, htheirs, .inl ⟨hgood.tip.trans hours.symm, rfl, rfl⟩⟩
      | start | compared _ | rolling _ _ | removed | restoring | done _ => cases hstep
  | restore =>
      rcases n with ⟨store, alone, phase⟩
      cases phase with
      | restoring =>
          obtain rfl := Option.some.inj hstep
          obtain ⟨honTip, hchain⟩ := h
          exact restored_sameBlocks honTip hchain hgood
      | start | compared _ | checked _ | rolling _ _ | removed | done _ => cases hstep

/-- A call that no other task disturbs keeps the chain, or replaces its tip. -/
theorem kept_of_undisturbed (E : Env) (ours theirs : Block) (n₀ n : Swap) (swapped : Bool)
    (hstart : n₀.phase = .start) (halone : n₀.alone = n₀.store)
    (hrun : Reaches (step E ours theirs) (Undisturbed E ours) n₀ n)
    (hdone : n.phase = .done swapped) : n.Kept E ours theirs swapped := by
  have hinv : n.Invariant E ours theirs := by
    refine hrun.invariant ?_ fun t a u ht hgood hnext => step_invariant ht hgood hnext
    unfold Invariant
    rw [hstart]
    exact halone
  unfold Invariant at hinv
  rwa [hdone] at hinv

/-- The store and the phase after `rollback_to`. -/
def afterRollback (alone : Store) : Store × Except Error Nat → Swap
  | (s, .ok _) => { store := s, alone, phase := .removed }
  | (s, .error _) => { store := s, alone, phase := .done false }

/-- Turns of the loop that nothing interrupts are `rollback_to`. -/
theorem rollbackWhile_reaches {E : Env} {ours theirs : Block} {good : Swap → Action → Prop}
    (hgood : ∀ n, good n .turn) (alone : Store) (tip fuel : Nat) (s : Store)
    (hfuel : s.lastHeight - (tip - 1) ≤ fuel) :
    Reaches (step E ours theirs) good ⟨s, alone, .rolling tip s.lastHeight⟩
      (afterRollback alone (s.rollbackWhile E (tip - 1) fuel s.lastHeight)) := by
  induction fuel generalizing s with
  | zero =>
      refine .next .turn .start (hgood _) ?_
      rw [step_turn, if_pos (by omega)]
      rfl
  | succ fuel ih =>
      unfold Store.rollbackWhile
      split_ifs with hlow
      · refine .next .turn .start (hgood _) ?_
        rw [step_turn, if_pos hlow]
        rfl
      · have hturn : ∀ n, step E ours theirs ⟨s, alone, .rolling tip s.lastHeight⟩ .turn = some n →
            Reaches (step E ours theirs) good ⟨s, alone, .rolling tip s.lastHeight⟩ n :=
          fun n hn => .next .turn .start (hgood _) hn
        simp only [step_turn, if_neg hlow] at hturn
        rcases hback : s.rollbackLastBlock E with ⟨s', e | tip'⟩
        · rw [hback] at hturn
          exact hturn _ rfl
        · rw [hback] at hturn
          obtain ⟨htip, ⟨hrolled⟩⟩ := Store.rollbackLastBlock_eq_ok hback
          obtain ⟨-, -, hheight, -⟩ := hrolled.chain
          obtain rfl : tip' = s'.lastHeight := htip.trans hheight.symm
          exact (hturn _ rfl).trans (ih s' (by omega))

/-- A call that no other task interrupts is `prefer_earlier_slot`. -/
theorem preferEarlierSlot_reaches (E : Env) (s : Store) (ours theirs : Block) :
    ∃ n, Reaches (step E ours theirs) (fun _ a => ∀ c, a ≠ .other c) ⟨s, s, .start⟩ n ∧
      n.store = (preferEarlierSlot E s ours theirs).1 ∧
      n.phase = .done (preferEarlierSlot E s ours theirs).2 := by
  have hown : ∀ {t : Swap} {a : Action}, (∀ c, a ≠ .other c) → ∀ {n u : Swap},
      Reaches (step E ours theirs) (fun _ a => ∀ c, a ≠ .other c) n t →
      step E ours theirs t a = some u →
      Reaches (step E ours theirs) (fun _ a => ∀ c, a ≠ .other c) n u :=
    fun ha _ _ hrun hnext => .next _ hrun ha hnext
  unfold preferEarlierSlot
  simp only
  split_ifs with hguard hsigned hcertified
  · refine ⟨⟨s, s, .done false⟩, hown (a := .compare) (by simp) .start ?_, rfl, rfl⟩
    rw [step_compare, if_pos hguard]
  · refine ⟨⟨s, s, .done false⟩, hown (a := .compare) (by simp) .start ?_, rfl, rfl⟩
    rw [step_compare, if_neg hguard, if_pos hsigned]
  · have hcompared : step E ours theirs ⟨s, s, .start⟩ .compare =
        some ⟨s, s, .compared s.lastHeight⟩ := by
      rw [step_compare, if_neg hguard, if_neg hsigned]
    refine ⟨⟨s, s, .done false⟩, hown (a := .checkCertificate) (by simp)
      (hown (a := .compare) (by simp) .start hcompared) ?_, rfl, rfl⟩
    rw [step_checkCertificate, if_pos hcertified]
  · have hcompared : step E ours theirs ⟨s, s, .start⟩ .compare =
        some ⟨s, s, .compared s.lastHeight⟩ := by
      rw [step_compare, if_neg hguard, if_neg hsigned]
    have hchecked : step E ours theirs ⟨s, s, .compared s.lastHeight⟩ .checkCertificate =
        some ⟨s, s, .checked s.lastHeight⟩ := by
      rw [step_checkCertificate, if_neg hcertified]
    have hentered := hown (a := .enter) (by simp) (hown (a := .checkCertificate) (by simp)
      (hown (a := .compare) (by simp) .start hcompared) hchecked) rfl
    have hrolled := hentered.trans (rollbackWhile_reaches (fun _ c => by simp) s s.lastHeight
      (s.lastHeight - (s.lastHeight - 1)) s (by omega))
    change Reaches _ _ _ (afterRollback s (s.rollbackTo E (s.lastHeight - 1))) at hrolled
    rcases hback : s.rollbackTo E (s.lastHeight - 1) with ⟨s₁, e | tip⟩
    · rw [hback] at hrolled
      exact ⟨_, hrolled, rfl, rfl⟩
    · rw [hback] at hrolled
      simp only
      rcases hswap : s₁.applyBlocks E [theirs] with ⟨s₂, e | u⟩
      · have hrefused : step E ours theirs ⟨s₁, s, .removed⟩ .swap =
            some ⟨s₂, s, .restoring⟩ := by
          rw [step_swap, hswap]
        exact ⟨_, hown (a := .restore) (by simp) (hown (a := .swap) (by simp) hrolled hrefused)
          rfl, rfl, rfl⟩
      · have hswapped : step E ours theirs ⟨s₁, s, .removed⟩ .swap =
            some ⟨s₂, s, .done true⟩ := by
          rw [step_swap, hswap]
        exact ⟨_, hown (a := .swap) (by simp) hrolled hswapped, rfl, rfl⟩

end Swap

namespace Reference

/-- A block on `siblingBlock`. -/
def nephewBlock : Block := first.forge 3 24 (siblingBlock.id.getD "") 0 []

/-- What the run of the example checks. -/
def QuietSwap (n : Swap) : Swap.Action → Prop
  | .enter => Swap.OnTip linkEnv n.store siblingBlock
  | .other _ | .restore => False
  | _ => True

instance (n : Swap) : (a : Swap.Action) → Decidable (QuietSwap n a)
  | .enter => decidable_of_iff (0 < siblingBlock.height ∧
      n.store.lastHeight = siblingBlock.height ∧
      ∃ p ∈ (prepareBlock linkEnv siblingBlock).toOption,
        n.store.blocks[siblingBlock.height]? = some p.2)
      ⟨fun h => ⟨h.1, h.2.1, h.2.2⟩, fun h => ⟨h.1, h.2, h.3⟩⟩
  | .other _ | .restore => .isFalse id
  | .compare | .checkCertificate | .turn | .swap => .isTrue trivial

end Reference

open Reference

namespace Swap

/-- A swap from start to end, alone and with a write before `rollback_to` reads the tip. -/
theorem sibling_swaps :
    (follow (step linkEnv siblingBlock ownBlock) QuietSwap
      ⟨siblingStore, siblingStore, .start⟩
      [.compare, .checkCertificate, .enter, .turn, .turn, .swap]).map (·.phase) =
        some (.done true) ∧
    (follow (step linkEnv siblingBlock ownBlock) (fun _ _ => True)
      ⟨siblingStore, siblingStore, .start⟩
      [.compare, .checkCertificate, .other (.write [nephewBlock] true), .enter, .turn, .turn,
        .turn, .swap]).map (fun n => (n.phase, n.store.lastHeight, n.alone.lastHeight)) =
        some (.done true, 2, 3) := by
  decide +kernel

theorem kept_of_undisturbed_sibling :
    ∃ n : Swap, n.phase = .done true ∧ n.Kept linkEnv siblingBlock ownBlock true := by
  obtain ⟨n, hn, hphase⟩ := Option.map_eq_some_iff.mp sibling_swaps.1
  refine ⟨n, hphase, kept_of_undisturbed linkEnv siblingBlock ownBlock
    ⟨siblingStore, siblingStore, .start⟩ n true rfl rfl ((Reaches.of_follow hn).mono ?_) hphase⟩
  rintro t (c | _ | _ | _ | _ | _ | _) ha
  · exact ha.elim
  · trivial
  · trivial
  · exact ha
  · trivial
  · trivial
  · exact ha.elim

/-- Another task puts a child on `ours` before `rollback_to` reads the tip: two blocks go, and
the call reports a swap. -/
theorem child_removed_by_swap :
    ∃ E ours theirs n₀ n swapped, n₀.phase = .start ∧ n₀.alone = n₀.store ∧
      Reaches (step E ours theirs) (fun _ _ => True) n₀ n ∧ n.phase = .done swapped ∧
      ¬ n.Kept E ours theirs swapped := by
  obtain ⟨n, hn, hend⟩ := Option.map_eq_some_iff.mp sibling_swaps.2
  obtain ⟨hphase, htip, halone⟩ : n.phase = .done true ∧ n.store.lastHeight = 2 ∧
      n.alone.lastHeight = 3 := by
    simpa only [Prod.mk.injEq] using hend
  refine ⟨linkEnv, siblingBlock, ownBlock, _, n, true, rfl, rfl, .of_follow hn, hphase, ?_⟩
  rintro ⟨-, -, hsame⟩
  omega

end Swap

end SthCore
