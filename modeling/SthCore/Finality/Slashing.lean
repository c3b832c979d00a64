import SthCore.Finality.Equivocation
import SthCore.Storage.Reverted

/-!
How long a delegate with a proof of equivocation is kept out of the rounds.
-/

namespace SthCore

open SthCore.Lib

namespace Store

/-- A stored proof keeps `publicKey` out of `round`. -/
def BannedIn (s : Store) (publicKey : Text) (round : Nat) : Prop :=
  ∃ e ∈ s.equivocations.toList, e.2.publicKey = publicKey ∧ round < e.2.bannedUntilRound

theorem mem_bannedDelegates {E : Env} {s : Store} {publicKey : Text} {round height : Nat}
    (hslashing : (E.network.milestone (max height 1)).finality.slashing = true) :
    publicKey ∈ s.bannedDelegates E round height ↔ s.BannedIn publicKey round := by
  unfold bannedDelegates BannedIn
  rw [hslashing]
  simp only [Bool.not_true, Bool.false_eq_true, if_false]
  rw [mem_destutter_ne, List.mem_map]
  constructor
  · rintro ⟨e, he, hkey⟩
    rw [List.mem_filter, decide_eq_true_eq] at he
    exact ⟨e, he.1, hkey, he.2⟩
  · rintro ⟨e, he, hkey, hround⟩
    exact ⟨e, List.mem_filter.mpr ⟨he, decide_eq_true hround⟩, hkey⟩

/-- Proofs are stored under their key and height. -/
def ProofsKeyed (s : Store) : Prop :=
  ∀ e ∈ s.equivocations.toList, e.1 = (e.2.publicKey, e.2.height)

/-- A proof above every known one of its delegate overwrites none. -/
theorem equivocations_absent {s : Store} {p : EquivocationProof} (hkeyed : s.ProofsKeyed)
    (hnew : ∀ known, s.equivocation p.publicKey = some known → known.height < p.height) :
    s.equivocations[(p.publicKey, p.height)]? = none := by
  cases hfound : s.equivocations[(p.publicKey, p.height)]? with
  | none => rfl
  | some q =>
      exfalso
      have hmem : ((p.publicKey, p.height), q) ∈ s.equivocations.toList :=
        Std.ExtTreeMap.mem_toList_iff_getElem?_eq_some.mpr hfound
      have hfilter : ((p.publicKey, p.height), q) ∈
          s.equivocations.toList.filter fun e => e.1.1 = p.publicKey :=
        List.mem_filter.mpr ⟨hmem, by simp⟩
      have hsome : ((s.equivocations.toList.filter fun e => e.1.1 = p.publicKey).getLast?).isSome :=
        List.getLast?_isSome.mpr (List.ne_nil_of_mem hfilter)
      obtain ⟨last, hlast⟩ := Option.isSome_iff_exists.mp hsome
      have hlower : last.2.height < p.height := by
        apply hnew
        unfold equivocation
        rw [hlast, Option.map_some]
      have hlastmem := List.mem_filter.mp (List.mem_of_getLast? hlast)
      have hlastkey : last.1 = (p.publicKey, last.2.height) := by
        have h := hkeyed last hlastmem.1
        have hkey : last.1.1 = p.publicKey := of_decide_eq_true hlastmem.2
        rw [h] at hkey
        rw [h]
        exact congrArg (·, last.2.height) hkey
      rcases OrderedMap.le_getLast_filter s.equivocations _ hmem (by simp) hlast with heq | hlt
      · have hheight := congrArg (fun e => e.1.2) heq
        rw [hlastkey] at hheight
        exact absurd hheight (Nat.ne_of_gt hlower)
      · rw [hlastkey] at hlt
        change (compare p.publicKey p.publicKey).then (compare p.height last.2.height) = .lt at hlt
        rw [Std.ReflOrd.compare_self, Ordering.then, Nat.compare_eq_lt] at hlt
        omega

/-- A new proof adds the rounds below the number that is stored with it. -/
theorem bannedIn_putEquivocation {s : Store} {p : EquivocationProof}
    (habsent : s.equivocations[(p.publicKey, p.height)]? = none) (publicKey : Text) (round : Nat) :
    (s.putEquivocation p).BannedIn publicKey round ↔
      s.BannedIn publicKey round ∨ p.publicKey = publicKey ∧ round < p.bannedUntilRound := by
  have hperm := OrderedMap.toList_insert_perm s.equivocations (p.publicKey, p.height) p
  rw [OrderedMap.erase_of_none _ _ habsent] at hperm
  unfold BannedIn putEquivocation
  simp only [hperm.mem_iff, List.mem_cons]
  constructor
  · rintro ⟨e, rfl | he, hkey, hround⟩
    · exact .inr ⟨hkey, hround⟩
    · exact .inl ⟨e, he, hkey, hround⟩
  · rintro (⟨e, he, hkey, hround⟩ | ⟨hkey, hround⟩)
    · exact ⟨e, .inr he, hkey, hround⟩
    · exact ⟨_, .inl rfl, hkey, hround⟩

theorem putEquivocation_proofsKeyed {s : Store} {p : EquivocationProof} (hkeyed : s.ProofsKeyed)
    (habsent : s.equivocations[(p.publicKey, p.height)]? = none) :
    (s.putEquivocation p).ProofsKeyed := by
  have hperm := OrderedMap.toList_insert_perm s.equivocations (p.publicKey, p.height) p
  rw [OrderedMap.erase_of_none _ _ habsent] at hperm
  intro e he
  rcases List.mem_cons.mp (hperm.mem_iff.mp he) with rfl | hmem
  · rfl
  · exact hkeyed e hmem

/-- Writing blocks does not touch the proofs. -/
theorem Committed.equivocations {E : Env} {s s' : Store} {prepared : List (Block × List Bytes)}
    (c : Committed E s prepared s') : s'.equivocations = s.equivocations := by
  have hwrite := writeEntries_sameRecords c.written
  have hsame := c.sameLedger
  unfold SameRecords at hwrite
  unfold SameLedger at hsame
  rw [hsame, hwrite]

theorem bannedIn_congr {s s' : Store} (h : s'.equivocations = s.equivocations)
    (publicKey : Text) (round : Nat) :
    s'.BannedIn publicKey round ↔ s.BannedIn publicKey round := by
  unfold BannedIn
  rw [h]

end Store

/-- A run of a node that receives proofs, in any order, while its chain moves.  The log
holds the adopted proofs as they were sent, each with the store it was adopted into. -/
inductive Deliveries (E : Env) : List (Store × EquivocationProof) → Store → Prop where
  | start (s : Store) (h : s.equivocations = ∅) : Deliveries E [] s
  | apply {log : List (Store × EquivocationProof)} {s : Store} (blocks : List Block)
      (hrun : Deliveries E log s) : Deliveries E log (s.applyBlocks E blocks).1
  | rollback {log : List (Store × EquivocationProof)} {s : Store} (height : Nat)
      (hrun : Deliveries E log s) : Deliveries E log (s.rollbackTo E height).1
  | ignore {log : List (Store × EquivocationProof)} {s s' : Store} {p : EquivocationProof}
      (hrun : Deliveries E log s) (h : s.adoptProof E p = .ok (false, s')) : Deliveries E log s'
  | adopt {log : List (Store × EquivocationProof)} {s s' : Store} {p : EquivocationProof}
      (hrun : Deliveries E log s) (h : s.adoptProof E p = .ok (true, s')) :
      Deliveries E (log ++ [(s, p)]) s'

/-- The number of the sender reaches the end of the ban by the node's own count, or the
delegate is banned that long already; and no earlier ban lasts longer. -/
def FairlyNumbered (E : Env) (s : Store) (p : EquivocationProof) : Prop :=
  (banEnd E s.lastHeight ≤ p.bannedUntilRound ∨
    ∀ round < banEnd E s.lastHeight, s.BannedIn p.publicKey round) ∧
  ∀ round, s.BannedIn p.publicKey round → round < banEnd E s.lastHeight

/-- The rounds that the adopted proofs of a delegate ask for: up to the end of each ban,
and not beyond the end of the last. -/
def BansExactly (E : Env) (log : List (Store × EquivocationProof)) (s : Store)
    (publicKey : Text) : Prop :=
  (∀ a ∈ log, a.2.publicKey = publicKey →
    ∀ round < banEnd E a.1.lastHeight, s.BannedIn publicKey round) ∧
  ∀ a, (log.filter fun a => a.2.publicKey = publicKey).getLast? = some a →
    ∀ round, s.BannedIn publicKey round → round < banEnd E a.1.lastHeight

namespace BansExactly

variable {E : Env} {log : List (Store × EquivocationProof)} {s s' : Store} {publicKey : Text}

theorem congr (h : s'.equivocations = s.equivocations) (hs : BansExactly E log s publicKey) :
    BansExactly E log s' publicKey := by
  constructor
  · intro a ha hkey round hround
    exact (Store.bannedIn_congr h publicKey round).mpr (hs.1 a ha hkey round hround)
  · intro a ha round hbanned
    exact hs.2 a ha round ((Store.bannedIn_congr h publicKey round).mp hbanned)

/-- One adoption keeps the bans of its delegate exact if and only if the sender's number
is fair. -/
theorem adopt_iff {p : EquivocationProof} (hkey : p.publicKey = publicKey)
    (hbanned : ∀ round, s'.BannedIn publicKey round ↔ s.BannedIn publicKey round ∨
      round < min p.bannedUntilRound (banEnd E s.lastHeight))
    (hs : BansExactly E log s publicKey) :
    BansExactly E (log ++ [(s, p)]) s' publicKey ↔ FairlyNumbered E s p := by
  have hlast : ((log ++ [(s, p)]).filter fun a => a.2.publicKey = publicKey).getLast? =
      some (s, p) := by
    simp [List.filter_append, hkey]
  constructor
  · rintro ⟨hall, hend⟩
    have hup : ∀ round < banEnd E s.lastHeight, s'.BannedIn publicKey round :=
      hall (s, p) (by simp) hkey
    have hdown := hend (s, p) hlast
    subst hkey
    refine ⟨?_, fun round hround => hdown round ((hbanned round).mpr (.inl hround))⟩
    by_cases hfair : banEnd E s.lastHeight ≤ p.bannedUntilRound
    · exact .inl hfair
    · refine .inr fun round hround => ?_
      -- the last banned round is covered by an older proof, so every earlier one is too
      obtain ⟨e, he, hekey, helong⟩ | hshort :=
        (hbanned (banEnd E s.lastHeight - 1)).mp (hup _ (by omega))
      · exact ⟨e, he, hekey, by omega⟩
      · omega
  · rintro ⟨hfair, hnone⟩
    subst hkey
    have hcover : ∀ round < banEnd E s.lastHeight, s'.BannedIn p.publicKey round := by
      intro round hround
      rcases hfair with hnumber | hbefore
      · exact (hbanned round).mpr (.inr (by omega))
      · exact (hbanned round).mpr (.inl (hbefore round hround))
    constructor
    · intro a ha hakey round hround
      rcases List.mem_append.mp ha with hold | hnew
      · exact (hbanned round).mpr (.inl (hs.1 a hold hakey round hround))
      · rw [List.mem_singleton.mp hnew] at hround
        exact hcover round hround
    · intro a ha round hround
      rw [hlast, Option.some.injEq] at ha
      subst ha
      rcases (hbanned round).mp hround with hold | hnew
      · exact hnone round hold
      · exact Nat.lt_of_lt_of_le hnew (Nat.min_le_right _ _)

/-- An adoption for another delegate changes nothing for this one. -/
theorem adopt_other {p : EquivocationProof} (hkey : p.publicKey ≠ publicKey)
    (hbanned : ∀ round, s'.BannedIn publicKey round ↔ s.BannedIn publicKey round)
    (hs : BansExactly E log s publicKey) : BansExactly E (log ++ [(s, p)]) s' publicKey := by
  have hfilter : ((log ++ [(s, p)]).filter fun a => a.2.publicKey = publicKey) =
      log.filter fun a => a.2.publicKey = publicKey := by
    simp [List.filter_append, hkey]
  constructor
  · intro a ha hakey round hround
    rcases List.mem_append.mp ha with hold | hnew
    · exact (hbanned round).mpr (hs.1 a hold hakey round hround)
    · rw [List.mem_singleton.mp hnew] at hakey
      exact absurd hakey hkey
  · intro a ha round hround
    rw [hfilter] at ha
    exact hs.2 a ha round ((hbanned round).mp hround)

end BansExactly

namespace Deliveries

variable {E : Env} {log : List (Store × EquivocationProof)} {s : Store}

theorem applyBlocks_equivocations (E : Env) (s : Store) (blocks : List Block) :
    (s.applyBlocks E blocks).1.equivocations = s.equivocations :=
  Store.applyBlocks_preserves (P := fun t => t.equivocations = s.equivocations)
    (fun _ _ _ c ht => c.equivocations.trans ht) blocks rfl

theorem rollbackTo_equivocations (E : Env) (s : Store) (height : Nat) :
    (s.rollbackTo E height).1.equivocations = s.equivocations :=
  Store.rollbackTo_preserves (P := fun t => t.equivocations = s.equivocations)
    (fun _ _ r ht => r.chain.2.2.2.1.trans ht) (fun _ _ ht => ht) height rfl

theorem proofsKeyed (hrun : Deliveries E log s) : s.ProofsKeyed := by
  induction hrun with
  | start s h =>
      intro e he
      rw [Std.ExtTreeMap.mem_toList_iff_getElem?_eq_some, h] at he
      simp at he
  | apply blocks _ ih =>
      unfold Store.ProofsKeyed
      rw [applyBlocks_equivocations]
      exact ih
  | rollback height _ ih =>
      unfold Store.ProofsKeyed
      rw [rollbackTo_equivocations]
      exact ih
  | ignore _ h ih =>
      obtain ⟨-, ⟨-, rfl, -⟩ | ⟨hnew, -⟩⟩ := Store.adoptProof_cases h
      · exact ih
      · cases hnew
  | adopt _ h ih =>
      obtain ⟨-, ⟨hnew, -⟩ | ⟨-, rfl, habove⟩⟩ := Store.adoptProof_cases h
      · cases hnew
      · exact Store.putEquivocation_proofsKeyed ih (Store.equivocations_absent ih habove)

theorem bansExactly (hrun : Deliveries E log s)
    (hfair : ∀ a ∈ log, FairlyNumbered E a.1 a.2) (publicKey : Text) :
    BansExactly E log s publicKey := by
  induction hrun with
  | start s h => exact ⟨by simp, by simp⟩
  | apply blocks _ ih => exact (ih hfair).congr (applyBlocks_equivocations E _ blocks)
  | rollback height _ ih => exact (ih hfair).congr (rollbackTo_equivocations E _ height)
  | ignore _ h ih =>
      obtain ⟨-, ⟨-, rfl, -⟩ | ⟨hnew, -⟩⟩ := Store.adoptProof_cases h
      · exact ih hfair
      · cases hnew
  | @adopt log s s' p hbefore h ih =>
      obtain ⟨-, ⟨hnew, -⟩ | ⟨-, rfl, habove⟩⟩ := Store.adoptProof_cases h
      · cases hnew
      · have hold := ih fun a ha => hfair a (List.mem_append_left _ ha)
        have hbanned := Store.bannedIn_putEquivocation (p := p.measured E s.lastHeight)
          (Store.equivocations_absent hbefore.proofsKeyed habove) publicKey
        by_cases hkey : p.publicKey = publicKey
        · refine (BansExactly.adopt_iff hkey (fun round => (hbanned round).trans ?_) hold).mpr
            (hfair (s, p) (by simp))
          exact or_congr_right (and_iff_right hkey)
        · refine BansExactly.adopt_other hkey (fun round => (hbanned round).trans ?_) hold
          exact or_iff_left fun hnew => hkey hnew.1

end Deliveries

/-- With fair numbers a delegate is kept out of every round up to the end of each ban, by
the node's own count, and of no round from the end of the last ban on. -/
theorem deliveries_ban_exactly (E : Env) (log : List (Store × EquivocationProof)) (s : Store)
    (hrun : Deliveries E log s) (hfair : ∀ a ∈ log, FairlyNumbered E a.1 a.2) (publicKey : Text)
    (height : Nat) (hslashing : (E.network.milestone (max height 1)).finality.slashing = true) :
    (∀ a ∈ log, a.2.publicKey = publicKey → ∀ round < banEnd E a.1.lastHeight,
      publicKey ∈ s.bannedDelegates E round height) ∧
    ∀ a, (log.filter fun a => a.2.publicKey = publicKey).getLast? = some a →
      ∀ round ≥ banEnd E a.1.lastHeight, publicKey ∉ s.bannedDelegates E round height := by
  have hexact := hrun.bansExactly hfair publicKey
  simp only [Store.mem_bannedDelegates hslashing]
  refine ⟨hexact.1, ?_⟩
  intro a ha round hround hbanned
  have hbelow := hexact.2 a ha round hbanned
  omega

namespace Reference

/-- The default milestone with slashing on. -/
def slashing : Milestone := { finality := { slashing := true } }

/-- The proof of a real double vote, as sent with the given number. -/
def numbered (bannedUntilRound : Nat) : EquivocationProof :=
  { proofOf slashing honestVote secondVote with bannedUntilRound }

theorem delegateStore_deliveries (m : Milestone) :
    Deliveries ⟨primitives, network m, 8000⟩ [] (delegateStore m) := by
  unfold delegateStore
  exact .apply [delegateGenesis] (.start {} rfl)

theorem delegateStore_equivocations (m : Milestone) : (delegateStore m).equivocations = ∅ := by
  unfold delegateStore
  exact Deliveries.applyBlocks_equivocations _ {} _

/-- Both numbers are taken, the second one without a ban. -/
theorem delegateStore_adopts :
    ((delegateStore slashing).adoptProof ⟨primitives, network slashing, 8000⟩
      (numbered 31)).map Prod.fst = .ok true ∧
    ((delegateStore slashing).adoptProof ⟨primitives, network slashing, 8000⟩
      (numbered 0)).map (fun r => (r.1, r.2.bannedDelegates
        ⟨primitives, network slashing, 8000⟩ 1 1)) = .ok (true, []) ∧
    banEnd ⟨primitives, network slashing, 8000⟩ (delegateStore slashing).lastHeight = 31 ∧
    ((network slashing).milestone (max 1 1)).finality.slashing = true := by
  decide +kernel

end Reference

open Reference

theorem deliveries_ban_exactly_delegate :
    ∃ s, Deliveries ⟨primitives, network slashing, 8000⟩
        [(delegateStore slashing, numbered 31)] s ∧
      (∀ round < 31, first.publicKey ∈ s.bannedDelegates ⟨primitives, network slashing, 8000⟩
        round 1) ∧
      ∀ round ≥ 31, first.publicKey ∉ s.bannedDelegates ⟨primitives, network slashing, 8000⟩
        round 1 := by
  obtain ⟨hnew, -, hend, hslashing⟩ := delegateStore_adopts
  obtain ⟨⟨new, s⟩, hadopt, hnew⟩ := map_eq_ok.mp hnew
  subst hnew
  have hkey : (numbered 31).publicKey = first.publicKey := rfl
  have hfair : FairlyNumbered ⟨primitives, network slashing, 8000⟩ (delegateStore slashing)
      (numbered 31) := by
    unfold FairlyNumbered
    rw [hend]
    refine ⟨.inl (Nat.le_refl 31), ?_⟩
    rintro round ⟨e, he, -⟩
    rw [Std.ExtTreeMap.mem_toList_iff_getElem?_eq_some, delegateStore_equivocations] at he
    simp at he
  have hrun := (delegateStore_deliveries slashing).adopt hadopt
  rw [List.nil_append] at hrun
  -- from here on only these facts matter, not the computed store and keys
  generalize delegateStore slashing = before, numbered 31 = p, first.publicKey = key at *
  obtain ⟨hbanned, hfree⟩ := deliveries_ban_exactly ⟨primitives, network slashing, 8000⟩
    [(before, p)] s hrun (by simpa using hfair) key 1 hslashing
  refine ⟨s, hrun, ?_, ?_⟩
  · intro round hround
    exact hbanned (before, p) (List.mem_singleton_self _) hkey round (hend ▸ hround)
  · intro round hround
    exact hfree (before, p) (by simp [hkey]) round (hend ▸ hround)

/-- A proof that is sent with the number 0 is adopted without any ban. -/
theorem zero_number_adopted :
    ∃ s, Deliveries ⟨primitives, network slashing, 8000⟩
        [(delegateStore slashing, numbered 0)] s ∧
      1 < banEnd ⟨primitives, network slashing, 8000⟩ (delegateStore slashing).lastHeight ∧
      first.publicKey ∉ s.bannedDelegates ⟨primitives, network slashing, 8000⟩ 1 1 := by
  obtain ⟨-, hadopted, hend, -⟩ := delegateStore_adopts
  obtain ⟨⟨new, s⟩, hadopt, hpair⟩ := map_eq_ok.mp hadopted
  injection hpair with hnew hbanned
  simp only at hnew hbanned
  subst hnew
  refine ⟨s, (delegateStore_deliveries slashing).adopt hadopt, ?_, ?_⟩
  · rw [hend]
    omega
  · rw [hbanned]
    exact List.not_mem_nil

end SthCore
