import SthCore.Finality.Interleaved
import SthCore.Lib.Runs

/-!
Stall recovery: the watchdog rolls a stuck chain back, a little further each
time, while blocks and certificates keep arriving.
-/

namespace SthCore

open SthCore.Lib

/-- Where the watchdog is in a turn of its loop. -/
inductive WatchPhase where
  | asleep
  | awake (tip : Nat)
  /-- The target is computed; `floor` is the height of the latest certificate, or 0. -/
  | aimed (target floor : Nat)
  /-- `rollback_to` at work: the tip it last saw. -/
  | rolling (target floor tip : Nat)

/-- The watchdog with the store it works on.  `removed` keeps what the watchdog rolled back: the
height of the block, and the floor of that recovery. -/
structure Watchdog where
  store : Store
  forkDepth : Nat := 1
  phase : WatchPhase := .asleep
  removed : List (Nat × Nat) := []

/-- The height to roll back to. -/
def recoveryTarget (tip forkDepth floor : Nat) : Nat :=
  max (max (tip - forkDepth) 1) (min floor (tip - 1))

namespace Watchdog

inductive Action where
  /-- The watchdog reads the tip after its sleep. -/
  | wake
  /-- Nothing to recover, or the tip is on the branch of the network. -/
  | rest (recovered : Bool)
  /-- The network has another block at the tip: the target is computed. -/
  | aim
  | start
  /-- One turn of the loop of `rollback_to`. -/
  | turn
  /-- A sub-batch of `apply_blocks`. -/
  | write (blocks : List Block) (force : Bool)
  | certify (cert : FinalityCert)

def floor (n : Watchdog) : Nat := n.store.finalizedHeight.getD 0

def step (E : Env) (n : Watchdog) (a : Action) : Option Watchdog :=
  match a, n.phase with
  | .wake, .asleep => some { n with phase := .awake n.store.lastHeight }
  | .rest recovered, .awake _ =>
      some { n with forkDepth := if recovered then 1 else n.forkDepth, phase := .asleep }
  | .aim, .awake tip =>
      some { n with phase := .aimed (recoveryTarget tip n.forkDepth n.floor) n.floor }
  | .start, .aimed target floor =>
      some { n with phase := .rolling target floor n.store.lastHeight }
  | .turn, .rolling target floor tip =>
      if tip ≤ target then
        some { n with forkDepth := min (n.forkDepth * 3) undoDepth, phase := .asleep }
      else
        match n.store.rollbackLastBlock E with
        | (s, .ok tip) => some { n with
            store := s
            phase := .rolling target floor tip
            removed := n.removed ++ [(n.store.lastHeight, floor)] }
        | (s, .error _) => some { n with store := s, phase := .asleep }
  | .write blocks force, _ =>
      if FinalityNode.Consecutive blocks then
        some { n with store := (n.store.applyLocked E blocks force).1 }
      else none
  | .certify cert, _ => some { n with store := n.store.putFinalityCert cert }
  | _, _ => none

/-- When a target is computed, the latest certificate is below the tip that was read, or the
milestones make every block from that tip up to the certificate final. -/
def BelowTip (E : Env) (n : Watchdog) : Action → Prop
  | .aim =>
      match n.phase with
      | .awake tip => n.floor < tip ∨ ∀ height ≤ n.floor, tip ≤ height → 1 < height →
          (E.network.milestone height).finality.active = true
      | _ => True
  | _ => True

instance (E : Env) (n : Watchdog) : (a : Action) → Decidable (BelowTip E n a)
  | .aim => by
      unfold BelowTip
      exact match n.phase with
        | .awake tip => inferInstanceAs (Decidable (_ ∨ ∀ height ≤ n.floor, _))
        | .asleep | .aimed _ _ | .rolling _ _ _ => .isTrue trivial
  | .wake | .rest _ | .start | .turn | .write _ _ | .certify _ => .isTrue trivial

/-- Certificates are stored under their heights. -/
def CertsKeyed (s : Store) : Prop :=
  ∀ (height : Nat) (cert : FinalityCert), s.finality[height]? = some cert → cert.height = height

/-- What keeps a rollback above the floor: the target, or a certificate that makes the blocks
between final. -/
def Held (E : Env) (s : Store) (target floor : Nat) : Prop :=
  floor ≤ target ∨ (s.finality[floor]?.isSome ∧
    ∀ height, target < height → height ≤ floor →
      (E.network.milestone height).finality.active = true)

/-- What holds between the steps. -/
structure Invariant (E : Env) (n : Watchdog) : Prop where
  keyed : CertsKeyed n.store
  removed : ∀ e ∈ n.removed, e.2 < e.1
  aimed : ∀ target floor, n.phase = .aimed target floor → Held E n.store target floor
  rolling : ∀ target floor tip, n.phase = .rolling target floor tip →
    Held E n.store target floor ∧ tip ≤ n.store.lastHeight

theorem CertsKeyed.erase {s : Store} (h : CertsKeyed s) (height : Nat) :
    CertsKeyed { s with finality := s.finality.erase height } := by
  intro other cert hcert
  rw [OrderedMap.getElem?_erase_eq] at hcert
  split_ifs at hcert
  exact h other cert hcert

theorem CertsKeyed.put {s : Store} (h : CertsKeyed s) (cert : FinalityCert) :
    CertsKeyed (s.putFinalityCert cert) := by
  intro height other hother
  unfold Store.putFinalityCert at hother
  rw [OrderedMap.getElem?_insert_eq] at hother
  split_ifs at hother with heq
  · obtain rfl := Option.some.inj hother
    exact heq
  · exact h height other hother

/-- What the check of the certificates leaves. -/
theorem passFinality_kept {E : Env} {s passed : Store} {tip : Nat} (hkeyed : CertsKeyed s)
    (h : s.passFinality E tip = .ok passed) :
    CertsKeyed passed ∧
    (∀ height : Nat, s.finality[height]?.isSome → height < tip →
      passed.finality[height]?.isSome) ∧
    ((E.network.milestone tip).finality.active = true →
      ∀ height : Nat, s.finality[height]?.isSome → height < tip) := by
  unfold Store.passFinality at h
  have hlatest : ∀ height : Nat, s.finality[height]?.isSome → tip ≤ height →
      (s.latestFinalityCert.filter fun c => decide (tip ≤ c.height)).isSome := by
    intro height hsome hle
    obtain ⟨cert, hcert⟩ := Option.isSome_iff_exists.mp hsome
    obtain ⟨last, c, hlast, hc, hheight⟩ := Store.le_latestFinalityCert hcert
    have hown := hkeyed last c hc
    rw [hlast, Option.filter_some, if_pos (by rw [decide_eq_true_iff]; omega)]
    rfl
  split at h
  · rename_i hnone
    injection h with h
    subst h
    refine ⟨hkeyed, fun _ hsome _ => hsome, ?_⟩
    intro _ height hsome
    by_contra hlt
    have hfound := hlatest height hsome (by omega)
    rw [hnone] at hfound
    cases hfound
  · rename_i cert hcert
    obtain ⟨-, habove⟩ := Option.filter_eq_some_iff.mp hcert
    have habove : tip ≤ cert.height := of_decide_eq_true habove
    split_ifs at h with hactive
    injection h with h
    subst h
    refine ⟨hkeyed.erase _, ?_, fun h => absurd h hactive⟩
    intro height hsome hlt
    rw [OrderedMap.getElem?_erase_eq, if_neg (by omega)]
    exact hsome

theorem revertLastBlock_finality (E : Env) (s : Store) (habove : 1 < s.lastHeight) :
    (s.revertLastBlock E).1.finality = s.finality := by
  rcases Store.revertLastBlock_cases E s habove with hsame | ⟨-, -, hfinality⟩
  · rw [hsame]
  · exact hfinality

theorem CertsKeyed.rollback {E : Env} {s : Store} (h : CertsKeyed s) :
    CertsKeyed (s.rollbackLastBlock E).1 := by
  rw [Store.rollbackLastBlock_eq]
  split_ifs with hone
  · exact h
  · split
    · exact h
    · rename_i passed hpassed
      obtain ⟨hkeyed, -, -⟩ := passFinality_kept h hpassed
      obtain ⟨certs, rfl⟩ := Store.passFinality_eq_ok hpassed
      have hfinality := revertLastBlock_finality E { s with finality := certs }
        (show 1 < s.lastHeight by omega)
      unfold CertsKeyed
      rw [hfinality]
      exact hkeyed

/-- A rollback that succeeds drops no certificate below its block, and has met none at or above
it where the milestone makes blocks final. -/
theorem rollbackLastBlock_kept {E : Env} {s s' : Store} {tip : Nat} (hkeyed : CertsKeyed s)
    (h : s.rollbackLastBlock E = (s', .ok tip)) :
    tip = s'.lastHeight ∧
    (∀ height : Nat, s.finality[height]?.isSome → height < s.lastHeight →
      s'.finality[height]?.isSome) ∧
    ((E.network.milestone s.lastHeight).finality.active = true →
      ∀ height : Nat, s.finality[height]?.isSome → height < s.lastHeight) := by
  obtain ⟨htip, ⟨hrolled⟩⟩ := Store.rollbackLastBlock_eq_ok h
  obtain ⟨-, -, hheight, -⟩ := hrolled.chain
  rw [Store.rollbackLastBlock_eq, if_neg (by have := hrolled.above; omega)] at h
  split at h
  · cases h
  · rename_i passed hpassed
    obtain ⟨-, hkept, hfinal⟩ := passFinality_kept hkeyed hpassed
    obtain ⟨certs, rfl⟩ := Store.passFinality_eq_ok hpassed
    have hfinality := revertLastBlock_finality E { s with finality := certs } hrolled.above
    rw [h] at hfinality
    refine ⟨htip.trans hheight.symm, ?_, hfinal⟩
    rw [hfinality]
    exact hkept

theorem Held.congr {E : Env} {s s' : Store} {target floor : Nat} (h : Held E s target floor)
    (hkept : s.finality[floor]?.isSome → s'.finality[floor]?.isSome) : Held E s' target floor :=
  h.imp_right fun hhard => ⟨hkept hhard.1, hhard.2⟩

theorem applyLocked_kept {E : Env} {s : Store} {blocks : List Block} {force : Bool}
    (hcons : FinalityNode.Consecutive blocks) :
    (s.applyLocked E blocks force).1.finality = s.finality ∧
    s.lastHeight ≤ (s.applyLocked E blocks force).1.lastHeight :=
  have h : s.Extends (s.applyLocked E blocks force).1 := Store.applyLocked_extends hcons
  ⟨h.finality, h.tip⟩

/-- The target is not below the floor, or the floor holds by itself. -/
theorem held_aim {E : Env} {n : Watchdog} {tip : Nat} (hkeyed : CertsKeyed n.store)
    (hphase : n.phase = .awake tip) (hgood : BelowTip E n .aim) :
    Held E n.store (recoveryTarget tip n.forkDepth n.floor) n.floor := by
  unfold BelowTip at hgood
  simp only [hphase] at hgood
  by_cases hlow : n.floor < tip ∨ n.floor = 0
  · left
    unfold recoveryTarget
    omega
  · rw [not_or] at hlow
    refine .inr ⟨?_, ?_⟩
    · cases hlatest : n.store.latestFinalityCert with
      | none => exact absurd (by simp [floor, Store.finalizedHeight, hlatest]) hlow.2
      | some cert =>
          have hfloor : n.floor = cert.height := by simp [floor, Store.finalizedHeight, hlatest]
          obtain ⟨last, hlast, rfl⟩ := Option.map_eq_some_iff.mp hlatest
          have hstored := Std.ExtTreeMap.mem_toList_iff_getElem?_eq_some.mp
            (List.mem_of_getLast? hlast)
          rw [hfloor, hkeyed _ _ hstored, hstored]
          rfl
    · intro height htarget hle
      unfold recoveryTarget at htarget
      exact (hgood.resolve_left hlow.1) height hle (by omega) (by omega)

/-- One turn of the loop. -/
theorem turn_invariant {E : Env} {n : Watchdog} {target floor tip tip' : Nat} {s' : Store}
    (h : n.Invariant E) (hphase : n.phase = .rolling target floor tip) (habove : target < tip)
    (hback : n.store.rollbackLastBlock E = (s', .ok tip')) :
    Held E s' target floor ∧ floor < n.store.lastHeight ∧ tip' ≤ s'.lastHeight := by
  obtain ⟨hheld, hle⟩ := h.rolling target floor tip hphase
  obtain ⟨htip, hkept, hfinal⟩ := rollbackLastBlock_kept h.keyed hback
  have hfloor : floor < n.store.lastHeight := by
    rcases hheld with hlow | ⟨hsome, hactive⟩
    · omega
    · by_contra hlt
      exact hlt (hfinal (hactive _ (by omega) (by omega)) floor hsome)
  exact ⟨hheld.congr fun hsome => hkept floor hsome hfloor, hfloor, by omega⟩

theorem step_invariant {E : Env} {n n' : Watchdog} {a : Action} (h : n.Invariant E)
    (hgood : BelowTip E n a) (hstep : n.step E a = some n') : n'.Invariant E := by
  cases a with
  | wake =>
      rcases n with ⟨store, depth, _ | _ | _ | _, removed⟩ <;> simp only [step] at hstep <;>
        try contradiction
      obtain rfl := Option.some.inj hstep
      exact ⟨h.keyed, h.removed, by simp, by simp⟩
  | rest recovered =>
      rcases n with ⟨store, depth, _ | _ | _ | _, removed⟩ <;> simp only [step] at hstep <;>
        try contradiction
      obtain rfl := Option.some.inj hstep
      exact ⟨h.keyed, h.removed, by simp, by simp⟩
  | aim =>
      rcases n with ⟨store, depth, _ | tip | _ | _, removed⟩ <;> simp only [step] at hstep <;>
        try contradiction
      have hheld := held_aim h.keyed rfl hgood
      obtain rfl := Option.some.inj hstep
      refine ⟨h.keyed, h.removed, ?_, by simp⟩
      rintro target floor ⟨⟩
      exact hheld
  | start =>
      rcases n with ⟨store, depth, _ | _ | ⟨target, floor⟩ | _, removed⟩ <;>
        simp only [step] at hstep <;> try contradiction
      obtain rfl := Option.some.inj hstep
      refine ⟨h.keyed, h.removed, by simp, ?_⟩
      rintro _ _ _ ⟨⟩
      exact ⟨h.aimed target floor rfl, Nat.le_refl _⟩
  | turn =>
      rcases n with ⟨store, depth, _ | _ | _ | ⟨target, floor, tip⟩, removed⟩ <;>
        simp only [step] at hstep <;> try contradiction
      split_ifs at hstep with hdone
      · obtain rfl := Option.some.inj hstep
        exact ⟨h.keyed, h.removed, by simp, by simp⟩
      · have hkeyed := h.keyed.rollback (E := E)
        split at hstep
        · rename_i s' tip' hback
          obtain rfl := Option.some.inj hstep
          obtain ⟨hheld, hfloor, hle⟩ := turn_invariant h rfl (by omega) hback
          rw [hback] at hkeyed
          refine ⟨hkeyed, ?_, by simp, ?_⟩
          · intro e he
            rcases List.mem_append.mp he with he | he
            · exact h.removed e he
            · rw [List.mem_singleton.mp he]
              exact hfloor
          · rintro _ _ _ ⟨⟩
            exact ⟨hheld, hle⟩
        · rename_i s' e hback
          obtain rfl := Option.some.inj hstep
          rw [hback] at hkeyed
          exact ⟨hkeyed, h.removed, by simp, by simp⟩
  | write blocks force =>
      simp only [step] at hstep
      split_ifs at hstep with hcons
      obtain rfl := Option.some.inj hstep
      obtain ⟨hfinality, htip⟩ :
          (n.store.applyLocked E blocks force).1.finality = n.store.finality ∧
            n.store.lastHeight ≤ (n.store.applyLocked E blocks force).1.lastHeight :=
        applyLocked_kept hcons
      have hsame : ∀ floor : Nat, n.store.finality[floor]?.isSome →
          (n.store.applyLocked E blocks force).1.finality[floor]?.isSome := by
        rw [hfinality]
        exact fun _ hsome => hsome
      refine ⟨?_, h.removed, ?_, ?_⟩
      · unfold CertsKeyed
        rw [hfinality]
        exact h.keyed
      · intro target floor hphase
        exact (h.aimed target floor hphase).congr (hsame floor)
      · intro target floor tip hphase
        obtain ⟨hheld, hle⟩ := h.rolling target floor tip hphase
        exact ⟨hheld.congr (hsame floor), Nat.le_trans hle htip⟩
  | certify cert =>
      obtain rfl := Option.some.inj hstep
      have hsame : ∀ floor : Nat, n.store.finality[floor]?.isSome →
          (n.store.putFinalityCert cert).finality[floor]?.isSome := by
        intro floor hsome
        unfold Store.putFinalityCert
        rw [OrderedMap.getElem?_insert_eq]
        split_ifs
        · rfl
        · exact hsome
      refine ⟨h.keyed.put cert, h.removed, ?_, ?_⟩
      · intro target floor hphase
        exact (h.aimed target floor hphase).congr (hsame floor)
      · intro target floor tip hphase
        obtain ⟨hheld, hle⟩ := h.rolling target floor tip hphase
        exact ⟨hheld.congr (hsame floor), hle⟩

/-- The watchdog removes nothing at or below the latest certificate it has seen. -/
theorem removed_above_floor (E : Env) (n₀ n : Watchdog) (hstart : n₀.phase = .asleep)
    (hkeyed : CertsKeyed n₀.store) (hnone : n₀.removed = [])
    (hrun : Reaches (step E) (BelowTip E) n₀ n) : ∀ e ∈ n.removed, e.2 < e.1 := by
  have hinv : n.Invariant E := hrun.invariant
    ⟨hkeyed, by simp [hnone], by simp [hstart], by simp [hstart]⟩
    fun t a u ht hgood hnext => step_invariant ht hgood hnext
  exact hinv.removed

end Watchdog

namespace Reference

/-- One delegate to a round; certificates warn and do not refuse. -/
def soleEnv : Env := ⟨primitives, network { activeDelegates := 1 }, 16000⟩

/-- The second block, on the first block with a delegate. -/
def soleBlock : Block := first.forge 2 8 (delegateGenesis.id.getD "") 0 []

/-- The certificate of a block by the only delegate. -/
def soleCertificate (block : Block) : FinalityCert where
  height := block.height
  blockId := block.id.getD ""
  votes := .ofList [(first.publicKey, (first.vote block.height (block.id.getD "")).signature)]
    compare

/-- Two blocks, a certificate for one of them, and a recovery from the second. -/
def recovery (certified : Block) : List Watchdog.Action :=
  [.write [delegateGenesis] true, .write [soleBlock] true, .certify (soleCertificate certified),
    .wake, .aim, .start, .turn]

end Reference

open Reference

namespace Watchdog

/-- A recovery above a certified block, and one that finds the tip certified. -/
theorem recovery_removed :
    (follow (step soleEnv) (BelowTip soleEnv) { store := {} }
      (recovery delegateGenesis)).map (·.removed) = some [(2, 1)] ∧
    (follow (step soleEnv) (fun _ _ => True) { store := {} }
      (recovery soleBlock)).map (·.removed) = some [(2, 2)] := by
  decide +kernel

theorem removed_above_floor_second :
    ∃ n : Watchdog, n.removed = [(2, 1)] ∧ ∀ e ∈ n.removed, e.2 < e.1 := by
  obtain ⟨n, hn, hremoved⟩ := Option.map_eq_some_iff.mp recovery_removed.1
  have hkeyed : CertsKeyed {} := by
    intro height cert hcert
    simp at hcert
  exact ⟨n, hremoved, removed_above_floor soleEnv { store := {} } n rfl hkeyed rfl (.of_follow hn)⟩

/-- The tip itself is certified, and the recovery takes it back. -/
theorem certified_tip_removed :
    ∃ E n₀ n, n₀.phase = .asleep ∧ CertsKeyed n₀.store ∧ n₀.removed = [] ∧
      Reaches (step E) (fun _ _ => True) n₀ n ∧ ¬ ∀ e ∈ n.removed, e.2 < e.1 := by
  obtain ⟨n, hn, hremoved⟩ := Option.map_eq_some_iff.mp recovery_removed.2
  refine ⟨soleEnv, { store := {} }, n, rfl, ?_, rfl, .of_follow hn, ?_⟩
  · intro height cert hcert
    simp at hcert
  · rw [hremoved]
    decide

end Watchdog

end SthCore
