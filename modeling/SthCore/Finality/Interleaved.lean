import SthCore.Finality.Own
import SthCore.Storage.Reverted

/-!
Votes, certificates, blocks and rollbacks in any order.  Certificates are
written without the lock that blocks and rollbacks hold, so that each check and
each write of theirs is a step of its own.
-/

namespace SthCore

open SthCore.Lib

namespace Store

/-- The id of the block at a height, nothing when there is none to be read. -/
def idAt (E : Env) (s : Store) (height : Nat) : Option Text :=
  (s.storedId E height).toOption.join

/-- `rollback_last_block` after it has passed the certificates. -/
def revertLastBlock (E : Env) (s : Store) : Store × Except Error Nat :=
  let height := s.lastHeight
  match s.getBlockByHeight E height, s.undo[height]? with
  | .error e, _ => (s, .error e)
  | .ok none, _ => (s, .error (.notFound s!"block {height}"))
  | .ok (some _), none => (s, .error (.sync s!"no undo record for block {height}"))
  | .ok (some block), some undo =>
      match s.revert E height block undo with
      | .error e => (s, .error e)
      | .ok s => ((s.dropMissedAt height).dropRound E height, .ok (height - 1))

end Store

namespace FinalityTracker

/-- The certificate that `try_certify` has the votes for, unless the height is final. -/
def quorate (E : Env) (t : FinalityTracker) (height : Nat) (blockId : Text) :
    Option FinalityCert :=
  let quorum := (E.network.milestone (max height 1)).finalityQuorum.toNat
  let signatures := t.signaturesOf height blockId
  if t.finalized.any fun f => decide (height ≤ f.1) then none
  else if signatures.size < quorum ∨ signatures.isEmpty then none
  else some { height, blockId, votes := signatures }

end FinalityTracker

/-- How far a call of `try_certify` or `adopt_certificate` has come: its votes suffice, the
block is in the chain, or it is about to write. -/
inductive Stage where
  | votes
  | block
  | clear
  deriving DecidableEq

/-- A call with the certificate it is about. -/
structure CertCall where
  cert : FinalityCert
  adopted : Bool
  stage : Stage

/-- The call after the chain was asked: `try_certify` writes next. -/
def CertCall.found (c : CertCall) : CertCall :=
  { c with stage := if c.adopted then .block else .clear }

/-- A rollback that holds the apply lock and has read the certificates. -/
structure Rolling where
  height : Nat
  /-- The certificate that it is about to drop. -/
  drop : Option Nat := none

structure FinalityNode where
  voter : Voter
  calls : List CertCall := []
  rolling : Option Rolling := none

inductive FinalityAction where
  /-- The loop of `record` up to the certificate, with the tip and the set it has read. -/
  | vote (tip : Nat) (set : List Text) (v : FinalityVote)
  | prove (p : EquivocationProof)
  | prune (tip : Nat)
  /-- `own_votes` up to the certificate, with the set it has read. -/
  | own (set : List Text) (keys : List DelegateKey) (height : Nat) (blockId : Text)
  /-- `try_certify` up to the block. -/
  | certify (height : Nat) (blockId : Text)
  /-- `adopt_certificate` up to the block. -/
  | adopt (cert : FinalityCert)
  /-- A call finds the block in the chain. -/
  | block (k : Nat)
  /-- `adopt_certificate` finds no better certificate. -/
  | compare (k : Nat)
  | write (k : Nat)
  /-- A call ends without a certificate. -/
  | leave (k : Nat)
  /-- A sub-batch of `apply_blocks`. -/
  | apply (blocks : List Block) (forceUndo : Bool)
  /-- `rollback_last_block` takes the lock and reads the certificates. -/
  | rollback
  | drop
  | revert

namespace FinalityNode

def store (n : FinalityNode) : Store := n.voter.tracker.storage

def withStore (n : FinalityNode) (s : Store) : FinalityNode :=
  { n with voter := n.voter.withStore s }

/-- The call `k`, when it is at a stage. -/
def call (n : FinalityNode) (k : Nat) (stage : Stage) : Option CertCall :=
  n.calls[k]?.filter fun c => decide (c.stage = stage)

/-- The blocks of a sub-batch follow one another, as every intake checks. -/
def Consecutive (blocks : List Block) : Prop :=
  (∀ b ∈ blocks, 0 < b.height) ∧ (blocks.map (·.height)).IsChain fun a b => b = a + 1

instance (blocks : List Block) : Decidable (Consecutive blocks) :=
  inferInstanceAs (Decidable (_ ∧ _))

/-- One step, nothing when it cannot be taken. -/
def step (E : Env) (n : FinalityNode) : FinalityAction → Option FinalityNode
  | .vote tip set v =>
      let t := n.voter.tracker
      let inRange := tip ≤ v.height + keepBehind ∧ v.height ≤ tip + ahead
      let t :=
        if inRange ∧ set.contains v.publicKey ∧ verifyVote E.prim v then t.keep v
        else { t with rejected := t.rejected + 1 }
      some { n with voter := { n.voter with tracker := t } }
  | .prove p => ((n.store.adoptProof E p).toOption).map fun adopted => n.withStore adopted.2
  | .prune tip =>
      some { n with voter := {
        tracker := n.voter.tracker.prune tip
        own := n.voter.own.filter fun height _ => decide (tip - keepBehind ≤ height) } }
  | .own set keys height blockId =>
      (n.voter.signVotes E.prim set keys height blockId).map fun signed =>
        { n with voter := signed.1 }
  | .certify height blockId =>
      (n.voter.tracker.quorate E height blockId).map fun cert =>
        { n with calls := { cert, adopted := false, stage := .votes } :: n.calls }
  | .adopt cert =>
      ((checkCertificate E (n.store.activeSet E cert.height) cert).toOption).map fun _ =>
        { n with calls := { cert, adopted := true, stage := .votes } :: n.calls }
  | .block k =>
      (n.call k .votes).bind fun c =>
        if n.store.idAt E c.cert.height = some c.cert.blockId then
          some { n with calls := n.calls.set k c.found }
        else none
  | .compare k =>
      (n.call k .block).bind fun c =>
        if n.store.finalizedHeight.any fun height => decide (c.cert.height ≤ height) then none
        else some { n with calls := n.calls.set k { c with stage := .clear } }
  | .write k =>
      (n.call k .clear).map fun c =>
        { voter := n.voter.withStore (n.store.putFinalityCert c.cert)
          calls := n.calls.eraseIdx k
          rolling := n.rolling }
  | .leave k => some { n with calls := n.calls.eraseIdx k }
  | .apply blocks forceUndo =>
      if n.rolling.isNone ∧ Consecutive blocks then
        some (n.withStore (n.store.applyLocked E blocks forceUndo).1)
      else none
  | .rollback =>
      let height := n.store.lastHeight
      if n.rolling.isSome ∨ height ≤ 1 then none
      else
        match n.store.latestFinalityCert.filter fun c => decide (height ≤ c.height) with
        | none => some { n with rolling := some { height } }
        | some cert =>
            if (E.network.milestone height).finality.active then none
            else some { n with rolling := some { height, drop := some cert.height } }
  | .drop =>
      n.rolling.bind fun r => r.drop.map fun height =>
        { voter := n.voter.withStore { n.store with finality := n.store.finality.erase height }
          calls := n.calls
          rolling := some { height := r.height } }
  | .revert =>
      n.rolling.bind fun r =>
        if r.drop.isNone then
          some { voter := n.voter.withStore (n.store.revertLastBlock E).1, calls := n.calls }
        else none

end FinalityNode

/-- Runs from an empty store whose steps meet a condition. -/
inductive FinalityRun (E : Env) (good : FinalityNode → FinalityAction → Prop) :
    FinalityNode → Prop
  | start (undoEnabled : Bool) :
      FinalityRun E good { voter := { tracker := { storage := { undoEnabled } } } }
  | step {n n' : FinalityNode} {a : FinalityAction} (hrun : FinalityRun E good n)
      (hgood : good n a) (hstep : n.step E a = some n') : FinalityRun E good n'

/-- Every stored certificate is kept under its height and is for the block stored there. -/
def CertificatesMatch (E : Env) (s : Store) : Prop :=
  ∀ (height : Nat) (cert : FinalityCert), s.finality[height]? = some cert →
    cert.height = height ∧ s.idAt E height = some cert.blockId

/-- The step takes no block away that is at or below a stored certificate, and no certificate
when the milestone of the tip makes them final. -/
def CertificatesKept (E : Env) (s s' : Store) : Prop :=
  (∀ height : Nat, s.blocks[height]?.isSome → s'.blocks[height]? = none →
    ∀ certified : Nat, s.finality[certified]?.isSome → certified < height) ∧
  ((E.network.milestone s.lastHeight).finality.active = true →
    ∀ height : Nat, s.finality[height]?.isSome → s'.finality[height]?.isSome)

/-- A certificate is written while its block is in the chain, and no rollback of the block has
read the certificates, unless it is about to drop one of that height. -/
def WrittenInPlace (E : Env) (n : FinalityNode) : FinalityAction → Prop
  | .write k => ∀ c ∈ n.call k .clear,
      n.store.idAt E c.cert.height = some c.cert.blockId ∧
      ∀ r ∈ n.rolling, r.height = c.cert.height → r.drop = some c.cert.height
  | _ => True

instance (E : Env) (n : FinalityNode) (a : FinalityAction) : Decidable (WrittenInPlace E n a) := by
  unfold WrittenInPlace
  split <;> infer_instance

namespace Store

theorem idAt_congr {E : Env} {s s' : Store} {height : Nat}
    (h : s'.blocks[height]? = s.blocks[height]?) : s'.idAt E height = s.idAt E height := by
  unfold idAt storedId getBlockByHeight
  rw [h]

theorem isSome_of_idAt {E : Env} {s : Store} {height : Nat} {id : Text}
    (h : s.idAt E height = some id) : s.blocks[height]?.isSome := by
  cases hrecord : s.blocks[height]? with
  | none =>
      unfold idAt storedId getBlockByHeight at h
      rw [hrecord] at h
      cases h
  | some record => rfl

/-- Blocks lie between the first height and the tip. -/
def WithinTip (s : Store) : Prop :=
  ∀ height : Nat, s.blocks[height]?.isSome → 0 < height ∧ height ≤ s.lastHeight

/-- `s'` has the blocks of `s` and its certificates, and perhaps blocks above. -/
structure Extends (s s' : Store) : Prop where
  blocks : ∀ height ≤ s.lastHeight, s'.blocks[height]? = s.blocks[height]?
  tip : s.lastHeight ≤ s'.lastHeight
  finality : s'.finality = s.finality
  within : s.WithinTip → s'.WithinTip

theorem writeBlocks_above {E : Env} {s s' : Store} {l : List (Block × List Bytes)} {base : Nat}
    (hall : ∀ p ∈ l, base < p.1.height) (h : l.foldlM (writeBlock E) s = .ok s') :
    (∀ height ≤ base, s'.blocks[height]? = s.blocks[height]?) ∧
    s.lastHeight ≤ s'.lastHeight ∧ (s.WithinTip → s'.WithinTip) := by
  induction l generalizing s with
  | nil =>
      rw [foldlM_nil_ok] at h
      subst h
      exact ⟨fun _ _ => rfl, Nat.le_refl _, id⟩
  | cons p rest ih =>
      obtain ⟨t, ht, h⟩ := foldlM_cons_ok.mp h
      obtain ⟨hblocks, htip, hwithin⟩ := ih (fun q hq => hall q (List.mem_cons_of_mem p hq)) h
      obtain ⟨hwritten, hlast⟩ := writeBlock_blocks ht
      have habove := hall p List.mem_cons_self
      refine ⟨?_, ?_, ?_⟩
      · intro height hle
        rw [hblocks height hle, hwritten, OrderedMap.getElem?_insert_eq,
          if_neg (by omega : p.1.height ≠ height)]
      · omega
      · intro hs
        apply hwithin
        intro height hsome
        rw [hwritten, OrderedMap.getElem?_insert_eq] at hsome
        split_ifs at hsome with heq
        · omega
        · have hold := hs height hsome
          omega

theorem le_of_isChain {first : Nat} {rest : List Nat}
    (h : (first :: rest).IsChain fun a b => b = a + 1) : ∀ x ∈ first :: rest, first ≤ x := by
  induction rest generalizing first with
  | nil => simp
  | cons next rest ih =>
      obtain ⟨hnext, hrest⟩ := List.isChain_cons_cons.mp h
      intro x hx
      rcases List.mem_cons.mp hx with rfl | hx
      · exact Nat.le_refl _
      · have hle := ih hrest x hx
        omega

/-- The blocks of a sub-batch that passes the tip check lie above the tip. -/
theorem lastHeight_lt_of_checkTip {s : Store} {first : Block} {rest : List Block}
    (hcons : FinalityNode.Consecutive (first :: rest)) (htip : s.checkTip first = .ok ()) :
    ∀ b ∈ first :: rest, s.lastHeight < b.height := by
  intro b hb
  have hle : first.height ≤ b.height :=
    le_of_isChain hcons.2 b.height (List.mem_map_of_mem (f := fun b => b.height) hb)
  have hpos := hcons.1 b hb
  unfold checkTip at htip
  simp only at htip
  split_ifs at htip <;> omega

theorem prepared_consecutive {E : Env} {blocks : List Block}
    {prepared : List (Block × List Bytes)} (h : blocks.mapM (prepareBlock E) = .ok prepared)
    (hcons : FinalityNode.Consecutive blocks) :
    FinalityNode.Consecutive (prepared.map (·.1)) := by
  have hheights := prepared_heights h
  obtain ⟨hpos, hchain⟩ := hcons
  rw [← hheights] at hchain
  refine ⟨?_, hchain⟩
  intro b hb
  have hmem : b.height ∈ blocks.map (·.height) := hheights ▸ List.mem_map_of_mem hb
  obtain ⟨a, ha, hsame⟩ := List.mem_map.mp hmem
  have := hpos a ha
  omega

theorem applyLocked_extends {E : Env} {s : Store} {blocks : List Block} {force : Bool}
    (hcons : FinalityNode.Consecutive blocks) :
    s.Extends (s.applyLocked E blocks force).1 := by
  rcases applyLocked_cases E s blocks force with ⟨e, he⟩ | ⟨prepared, hprepared, ⟨c⟩⟩
  · rw [he]
    exact ⟨fun _ _ => rfl, Nat.le_refl _, rfl, id⟩
  · generalize (s.applyLocked E blocks force).1 = s' at c
    have habove : ∀ p ∈ prepared, s.lastHeight < p.1.height := by
      have hall := prepared_consecutive hprepared hcons
      cases prepared with
      | nil => simp
      | cons first rest =>
          intro p hp
          exact lastHeight_lt_of_checkTip hall (c.tip first rfl) p.1 (List.mem_map_of_mem hp)
    have hwallets := writeEntries_sameRecords c.written
    obtain ⟨hblocks, -, hlast, -, -, -⟩ := hwallets.chain
    obtain ⟨hblocks', -, hlast', -, -⟩ := c.same.chain
    obtain ⟨hkept, hle, hwithin⟩ := writeBlocks_above habove c.stored
    have hfinality : s'.finality = s.finality := by
      rw [c.same, (writeBlocks_sameState c.stored).sameLedger, hwallets]
    refine ⟨?_, by omega, hfinality, ?_⟩
    · intro height hheight
      rw [hblocks', hkept height hheight, hblocks]
    · unfold WithinTip at *
      rw [hblocks', hlast']
      intro hs
      apply hwithin
      rw [hblocks, hlast]
      exact hs

/-- No certificate is higher than the latest one. -/
theorem le_latestFinalityCert {s : Store} {height : Nat} {cert : FinalityCert}
    (h : s.finality[height]? = some cert) :
    ∃ (last : Nat) (c : FinalityCert), s.latestFinalityCert = some c ∧
      s.finality[last]? = some c ∧ height ≤ last := by
  have hmem : (height, cert) ∈ s.finality.toList :=
    Std.ExtTreeMap.mem_toList_iff_getElem?_eq_some.mpr h
  have hlast := List.getLast?_eq_some_getLast (List.ne_nil_of_mem hmem)
  generalize s.finality.toList.getLast _ = last at hlast
  refine ⟨last.1, last.2, by rw [latestFinalityCert, hlast]; rfl,
    Std.ExtTreeMap.mem_toList_iff_getElem?_eq_some.mp (List.mem_of_getLast? hlast), ?_⟩
  rcases OrderedMap.le_getLast_filter s.finality (fun _ => true) hmem rfl
    (by rw [List.filter_true]; exact hlast) with heq | hlt
  · rw [← heq]
  · exact Nat.le_of_lt (Nat.compare_eq_lt.mp hlt)

/-- `rollback_last_block` is the check of the certificates and the rest. -/
theorem rollbackLastBlock_eq (E : Env) (s : Store) :
    s.rollbackLastBlock E =
      if s.lastHeight ≤ 1 then (s, .error (.sync "cannot roll back the genesis block"))
      else
        match s.passFinality E s.lastHeight with
        | .error e => (s, .error e)
        | .ok passed => passed.revertLastBlock E := by
  unfold rollbackLastBlock
  simp only
  split_ifs
  · rfl
  · cases hpass : s.passFinality E s.lastHeight with
    | error e => rfl
    | ok passed =>
        obtain ⟨certs, rfl⟩ := passFinality_eq_ok hpass
        rfl

theorem SameChain.finality {s s' : Store} (h : SameChain s s') : s'.finality = s.finality := by
  rw [h]

theorem SameAccounts.finality {s s' : Store} (h : SameAccounts s s') :
    s'.finality = s.finality := by
  rw [h]

theorem SameRecords.finality {s s' : Store} (h : SameRecords s s') :
    s'.finality = s.finality := by
  rw [h]

theorem RolledBack.finality {E : Env} {s s' : Store} (r : RolledBack E s s') :
    s'.finality = r.certs := by
  have hreverted := r.sameChain.finality
  rw [r.transaction.result] at hreverted
  exact (hreverted.trans r.transaction.same.finality).trans
    (restoreWallets_sameRecords { s with finality := r.certs } r.undo).finality

/-- The rest of a rollback fails and changes nothing, or takes the last block away. -/
theorem revertLastBlock_cases (E : Env) (s : Store) (habove : 1 < s.lastHeight) :
    (s.revertLastBlock E).1 = s ∨
    ((s.revertLastBlock E).1.blocks = s.blocks.erase s.lastHeight ∧
      (s.revertLastBlock E).1.lastHeight = s.lastHeight - 1 ∧
      (s.revertLastBlock E).1.finality = s.finality) := by
  unfold revertLastBlock
  simp only
  split
  · exact .inl rfl
  · exact .inl rfl
  · exact .inl rfl
  · rename_i block undo hblock hundo
    split
    · exact .inl rfl
    · rename_i t ht
      obtain ⟨hreverted⟩ := revert_eq_ok ht
      let r : RolledBack E s ((t.dropMissedAt s.lastHeight).dropRound E s.lastHeight) :=
        ⟨s.finality, block, undo, t, habove, hblock, hundo, ht, hreverted, rfl⟩
      obtain ⟨hblocks, -, hlast, -, -⟩ := r.chain
      exact .inr ⟨hblocks, hlast, r.finality⟩

end Store

/-- What holds between the steps, of the store and of a rollback under way. -/
structure Certified (E : Env) (s : Store) (rolling : Option Rolling) : Prop where
  within : s.WithinTip
  certs : CertificatesMatch E s
  rolling : ∀ r, rolling = some r → r.height = s.lastHeight ∧ 1 < r.height ∧
    (∀ height : Nat, s.finality[height]?.isSome → height < r.height ∨ r.drop = some height) ∧
    (r.drop.isSome → (E.network.milestone r.height).finality.active = false)

/-- A step that leaves blocks, certificates and rollbacks alone. -/
structure Untouched (n n' : FinalityNode) : Prop where
  blocks : n'.store.blocks = n.store.blocks
  lastHeight : n'.store.lastHeight = n.store.lastHeight
  finality : n'.store.finality = n.store.finality
  rolling : n'.rolling = n.rolling

theorem Untouched.of_eq {n n' : FinalityNode} (hstore : n'.store = n.store)
    (hrolling : n'.rolling = n.rolling) : Untouched n n' :=
  ⟨by rw [hstore], by rw [hstore], by rw [hstore], hrolling⟩

theorem CertificatesKept.of_eq {E : Env} {s s' : Store} (hblocks : s'.blocks = s.blocks)
    (hfinality : ∀ height : Nat, s.finality[height]?.isSome → s'.finality[height]?.isSome) :
    CertificatesKept E s s' := by
  refine ⟨?_, fun _ => hfinality⟩
  intro height hsome hnone
  rw [hblocks] at hnone
  rw [hnone] at hsome
  cases hsome

theorem Untouched.kept {E : Env} {n n' : FinalityNode} (h : Untouched n n') :
    CertificatesKept E n.store n'.store :=
  .of_eq h.blocks fun height hsome => by rw [h.finality]; exact hsome

theorem Untouched.certified {E : Env} {n n' : FinalityNode} (h : Untouched n n')
    (hn : Certified E n.store n.rolling) : Certified E n'.store n'.rolling := by
  obtain ⟨hwithin, hcerts, hrolling⟩ := hn
  refine ⟨?_, ?_, ?_⟩
  · unfold Store.WithinTip
    rw [h.blocks, h.lastHeight]
    exact hwithin
  · intro height cert hcert
    rw [h.finality] at hcert
    rw [Store.idAt_congr (congrArg (·[height]?) h.blocks)]
    exact hcerts height cert hcert
  · rw [h.rolling, h.lastHeight, h.finality]
    exact hrolling

/-- A certificate is not above the tip. -/
theorem Certified.le_lastHeight {E : Env} {s : Store} {rolling : Option Rolling}
    (h : Certified E s rolling) {height : Nat} (hsome : s.finality[height]?.isSome) :
    height ≤ s.lastHeight := by
  obtain ⟨cert, hcert⟩ := Option.isSome_iff_exists.mp hsome
  exact (h.within height (Store.isSome_of_idAt (h.certs height cert hcert).2)).2

theorem call_eq_some {n : FinalityNode} {k : Nat} {stage : Stage} {c : CertCall}
    (h : n.call k stage = some c) : n.calls[k]? = some c ∧ c.stage = stage := by
  obtain ⟨hc, hstage⟩ := Option.filter_eq_some_iff.mp h
  exact ⟨hc, by simpa using hstage⟩

theorem collect_storage (votes : List FinalityVote) (t : FinalityTracker) :
    (votes.foldl Voter.collect t).storage = t.storage := by
  induction votes generalizing t with
  | nil => rfl
  | cons v rest ih => exact ih _

theorem signVotes_storage {P : Primitives} {n signed : Voter} {set : List Text}
    {keys : List DelegateKey} {height : Nat} {blockId : Text} {votes : List FinalityVote}
    (h : n.signVotes P set keys height blockId = some (signed, votes)) :
    signed.tracker.storage = n.tracker.storage := by
  unfold Voter.signVotes at h
  split_ifs at h
  injection h with h
  obtain ⟨rfl, -⟩ := Prod.mk.inj h
  exact collect_storage _ _

theorem adoptProof_store {E : Env} {s : Store} {p : EquivocationProof} {r : Bool × Store}
    (h : s.adoptProof E p = .ok r) :
    r.2.blocks = s.blocks ∧ r.2.lastHeight = s.lastHeight ∧ r.2.finality = s.finality := by
  obtain ⟨_, -, h⟩ := bind_eq_ok.mp h
  split_ifs at h
  · rw [pure_eq_ok] at h
    rw [← h]
    exact ⟨rfl, rfl, rfl⟩
  · rw [pure_eq_ok] at h
    rw [← h]
    exact ⟨rfl, rfl, rfl⟩

/-- The actions that touch blocks, certificates or the state of a rollback. -/
def FinalityAction.touches : FinalityAction → Bool
  | .write _ | .apply .. | .rollback | .drop | .revert => true
  | _ => false

theorem step_untouched {E : Env} {n n' : FinalityNode} {a : FinalityAction}
    (hquiet : a.touches = false) (h : n.step E a = some n') : Untouched n n' := by
  cases a with
  | vote tip set v =>
      simp only [FinalityNode.step, Option.some.injEq] at h
      subst h
      refine .of_eq ?_ rfl
      change FinalityTracker.storage (ite _ _ _) = _
      split_ifs <;> rfl
  | prove p =>
      obtain ⟨r, hr, rfl⟩ := Option.map_eq_some_iff.mp h
      have hok : n.store.adoptProof E p = .ok r := by
        cases hres : n.store.adoptProof E p with
        | error e => rw [hres] at hr; cases hr
        | ok r' => rw [hres] at hr; injection hr with hr; rw [hr]
      obtain ⟨hblocks, hlast, hfinality⟩ := adoptProof_store hok
      exact ⟨hblocks, hlast, hfinality, rfl⟩
  | prune tip =>
      injection h with h
      subst h
      exact .of_eq rfl rfl
  | own set keys height blockId =>
      obtain ⟨signed, hsigned, rfl⟩ := Option.map_eq_some_iff.mp h
      exact .of_eq (signVotes_storage hsigned) rfl
  | certify height blockId =>
      obtain ⟨cert, -, rfl⟩ := Option.map_eq_some_iff.mp h
      exact .of_eq rfl rfl
  | adopt cert =>
      obtain ⟨_, -, rfl⟩ := Option.map_eq_some_iff.mp h
      exact .of_eq rfl rfl
  | block k =>
      obtain ⟨c, -, h⟩ := Option.bind_eq_some_iff.mp h
      split_ifs at h
      injection h with h
      subst h
      exact .of_eq rfl rfl
  | compare k =>
      obtain ⟨c, -, h⟩ := Option.bind_eq_some_iff.mp h
      split_ifs at h
      injection h with h
      subst h
      exact .of_eq rfl rfl
  | leave k =>
      injection h with h
      subst h
      exact .of_eq rfl rfl
  | write k => cases hquiet
  | apply blocks forceUndo => cases hquiet
  | rollback => cases hquiet
  | drop => cases hquiet
  | revert => cases hquiet

namespace Certified

variable {E : Env} {s : Store} {rolling : Option Rolling}

theorem putFinalityCert (h : Certified E s rolling) {cert : FinalityCert}
    (hplace : s.idAt E cert.height = some cert.blockId)
    (hrolling : ∀ r, rolling = some r → r.height = cert.height → r.drop = some cert.height) :
    Certified E (s.putFinalityCert cert) rolling ∧
    CertificatesKept E s (s.putFinalityCert cert) := by
  have hbelow : cert.height ≤ s.lastHeight := (h.within _ (Store.isSome_of_idAt hplace)).2
  have hfinality : ∀ height : Nat, (s.putFinalityCert cert).finality[height]? =
      if cert.height = height then some cert else s.finality[height]? :=
    fun height => OrderedMap.getElem?_insert_eq _ _ _ _
  refine ⟨⟨h.within, ?_, ?_⟩, .of_eq rfl ?_⟩
  · intro height other hother
    rw [hfinality] at hother
    change other.height = height ∧ s.idAt E height = some other.blockId
    split_ifs at hother with heq
    · injection hother with hother
      subst hother heq
      exact ⟨rfl, hplace⟩
    · exact h.certs height other hother
  · intro r hr
    obtain ⟨hheight, habove, hold, hsoft⟩ := h.rolling r hr
    refine ⟨hheight, habove, ?_, hsoft⟩
    intro height hsome
    rw [hfinality] at hsome
    split_ifs at hsome with heq
    · subst heq
      by_cases hsame : r.height = cert.height
      · exact .inr (hrolling r hr hsame)
      · left
        omega
    · exact hold height hsome
  · intro height hsome
    rw [hfinality]
    split_ifs
    · rfl
    · exact hsome

theorem applied (h : Certified E s none) {s' : Store} (hextends : s.Extends s') :
    Certified E s' none ∧ CertificatesKept E s s' := by
  refine ⟨⟨hextends.within h.within, ?_, ?_⟩, ?_, ?_⟩
  · intro height cert hcert
    rw [hextends.finality] at hcert
    have hle := h.le_lastHeight (Option.isSome_iff_exists.mpr ⟨cert, hcert⟩)
    rw [Store.idAt_congr (hextends.blocks height hle)]
    exact h.certs height cert hcert
  · intro r hr
    cases hr
  · intro height hsome hnone
    rw [hextends.blocks height (h.within height hsome).2] at hnone
    rw [hnone] at hsome
    cases hsome
  · intro _ height hsome
    rw [hextends.finality]
    exact hsome

/-- The latest certificate is the only one that can be at the tip. -/
theorem latest (h : Certified E s rolling) {height : Nat} (hsome : s.finality[height]?.isSome) :
    ∃ c, s.latestFinalityCert = some c ∧ height ≤ c.height ∧ c.height ≤ s.lastHeight := by
  obtain ⟨cert, hcert⟩ := Option.isSome_iff_exists.mp hsome
  obtain ⟨last, c, hlatest, hc, hle⟩ := Store.le_latestFinalityCert hcert
  have htip := h.le_lastHeight (Option.isSome_iff_exists.mpr ⟨c, hc⟩)
  have hheight := (h.certs last c hc).1
  exact ⟨c, hlatest, by omega, by omega⟩

/-- A rollback has read that the tip is not certified. -/
theorem unfinal (h : Certified E s none) (habove : 1 < s.lastHeight)
    (hnone : (s.latestFinalityCert.filter fun c => decide (s.lastHeight ≤ c.height)) = none) :
    Certified E s (some { height := s.lastHeight }) := by
  refine ⟨h.within, h.certs, ?_⟩
  rintro r ⟨⟩
  refine ⟨rfl, habove, ?_, by simp⟩
  intro height hsome
  obtain ⟨c, hc, hle, -⟩ := h.latest hsome
  have htest := Option.filter_eq_none_iff.mp hnone c hc
  simp only [decide_eq_true_eq, not_le] at htest
  left
  exact Nat.lt_of_le_of_lt hle htest

/-- A rollback has read the certificate of the tip, and may drop it. -/
theorem final (h : Certified E s none) {cert : FinalityCert} (habove : 1 < s.lastHeight)
    (hcert : (s.latestFinalityCert.filter fun c => decide (s.lastHeight ≤ c.height)) = some cert)
    (hsoft : (E.network.milestone s.lastHeight).finality.active = false) :
    Certified E s (some { height := s.lastHeight, drop := some cert.height }) := by
  refine ⟨h.within, h.certs, ?_⟩
  rintro r ⟨⟩
  refine ⟨rfl, habove, ?_, fun _ => hsoft⟩
  intro height hsome
  obtain ⟨hlatest, htest⟩ := Option.filter_eq_some_iff.mp hcert
  simp only [decide_eq_true_eq] at htest
  obtain ⟨c, hc, hle, htip⟩ := h.latest hsome
  rw [hlatest] at hc
  injection hc with hc
  subst hc
  simp only [Option.some.injEq]
  omega

theorem drop {r : Rolling} {height : Nat} (h : Certified E s (some r))
    (hdrop : r.drop = some height) :
    Certified E { s with finality := s.finality.erase height }
      (some { height := r.height }) ∧
    CertificatesKept E s { s with finality := s.finality.erase height } := by
  obtain ⟨hheight, habove, hold, hsoft⟩ := h.rolling r rfl
  have herase : ∀ other : Nat, (s.finality.erase height)[other]?.isSome →
      height ≠ other ∧ s.finality[other]?.isSome := by
    intro other hsome
    rw [OrderedMap.getElem?_erase_eq] at hsome
    by_cases heq : height = other
    · simp [heq] at hsome
    · rw [if_neg heq] at hsome
      exact ⟨heq, hsome⟩
  refine ⟨⟨h.within, ?_, ?_⟩, ?_, ?_⟩
  · intro other cert hcert
    change (s.finality.erase height)[other]? = some cert at hcert
    rw [OrderedMap.getElem?_erase_eq] at hcert
    split_ifs at hcert
    exact h.certs other cert hcert
  · rintro r' ⟨⟩
    refine ⟨hheight, habove, ?_, by simp⟩
    intro other hsome
    obtain ⟨hne, hsome⟩ := herase other hsome
    rcases hold other hsome with hlt | hthis
    · exact .inl hlt
    · rw [hdrop] at hthis
      exact absurd (Option.some.inj hthis) hne
  · intro other hsome hnone
    rw [show s.blocks[other]? = none from hnone] at hsome
    cases hsome
  · intro hhard
    rw [← hheight, hsoft (by rw [hdrop]; rfl)] at hhard
    cases hhard

theorem revert {r : Rolling} (h : Certified E s (some r)) (hdrop : r.drop = none) :
    Certified E (s.revertLastBlock E).1 none ∧
    CertificatesKept E s (s.revertLastBlock E).1 := by
  obtain ⟨hheight, habove, hold, -⟩ := h.rolling r rfl
  have hlower : ∀ height : Nat, s.finality[height]?.isSome → height < s.lastHeight := by
    intro height hsome
    rcases hold height hsome with hlt | hthis
    · omega
    · rw [hdrop] at hthis
      cases hthis
  rcases s.revertLastBlock_cases E (by omega) with hsame | ⟨hblocks, hlast, hfinality⟩
  · rw [hsame]
    exact ⟨⟨h.within, h.certs, by simp⟩, .of_eq rfl fun _ hsome => hsome⟩
  · generalize (s.revertLastBlock E).1 = s' at *
    have hget : ∀ height : Nat, s'.blocks[height]? =
        if s.lastHeight = height then none else s.blocks[height]? := by
      intro height
      rw [hblocks]
      exact OrderedMap.getElem?_erase_eq _ _ _
    refine ⟨⟨?_, ?_, by simp⟩, ?_, ?_⟩
    · intro height hsome
      rw [hget] at hsome
      by_cases htip : s.lastHeight = height
      · simp [htip] at hsome
      · rw [if_neg htip] at hsome
        have hwithin := h.within height hsome
        omega
    · intro height cert hcert
      rw [hfinality] at hcert
      have hlt := hlower height (Option.isSome_iff_exists.mpr ⟨cert, hcert⟩)
      have hsame : s'.blocks[height]? = s.blocks[height]? := by
        rw [hget, if_neg (by omega)]
      rw [Store.idAt_congr hsame]
      exact h.certs height cert hcert
    · intro height hsome hnone
      rw [hget] at hnone
      split_ifs at hnone with htip
      · subst htip
        exact hlower
      · rw [hnone] at hsome
        cases hsome
    · intro _ height hsome
      rw [hfinality]
      exact hsome

end Certified

/-- One step of a node whose certificates are written in place. -/
theorem step_certified {E : Env} {n n' : FinalityNode} {a : FinalityAction}
    (hn : Certified E n.store n.rolling) (hgood : WrittenInPlace E n a)
    (h : n.step E a = some n') :
    Certified E n'.store n'.rolling ∧ CertificatesKept E n.store n'.store := by
  cases a with
  | write k =>
      obtain ⟨c, hc, rfl⟩ := Option.map_eq_some_iff.mp h
      obtain ⟨hplace, hrolling⟩ := hgood c hc
      exact hn.putFinalityCert hplace hrolling
  | apply blocks forceUndo =>
      simp only [FinalityNode.step, Option.ite_none_right_eq_some, Option.some.injEq] at h
      obtain ⟨⟨hidle, hcons⟩, rfl⟩ := h
      rw [Option.isNone_iff_eq_none] at hidle
      rw [hidle] at hn
      change Certified E (n.store.applyLocked E blocks forceUndo).1 n.rolling ∧ _
      rw [hidle]
      exact hn.applied (Store.applyLocked_extends hcons)
  | rollback =>
      simp only [FinalityNode.step] at h
      split at h
      · cases h
      · rename_i hbusy
        obtain ⟨hidle, habove⟩ := not_or.mp hbusy
        rw [Option.not_isSome_iff_eq_none] at hidle
        rw [hidle] at hn
        split at h
        · rename_i hnone
          injection h with h
          subst h
          exact ⟨hn.unfinal (not_le.mp habove) hnone, .of_eq rfl fun _ hsome => hsome⟩
        · rename_i cert hcert
          split at h
          · cases h
          · rename_i hhard
            injection h with h
            subst h
            exact ⟨hn.final (not_le.mp habove) hcert (by simpa using hhard),
              .of_eq rfl fun _ hsome => hsome⟩
  | drop =>
      obtain ⟨r, hr, h⟩ := Option.bind_eq_some_iff.mp h
      obtain ⟨height, hdrop, rfl⟩ := Option.map_eq_some_iff.mp h
      rw [hr] at hn
      exact hn.drop hdrop
  | revert =>
      obtain ⟨r, hr, h⟩ := Option.bind_eq_some_iff.mp h
      simp only [Option.ite_none_right_eq_some, Option.some.injEq, Option.isNone_iff_eq_none] at h
      obtain ⟨hdrop, rfl⟩ := h
      rw [hr] at hn
      exact hn.revert hdrop
  | vote tip set v => exact ⟨(step_untouched rfl h).certified hn, (step_untouched rfl h).kept⟩
  | prove p => exact ⟨(step_untouched rfl h).certified hn, (step_untouched rfl h).kept⟩
  | prune tip => exact ⟨(step_untouched rfl h).certified hn, (step_untouched rfl h).kept⟩
  | own set keys height blockId =>
      exact ⟨(step_untouched rfl h).certified hn, (step_untouched rfl h).kept⟩
  | certify height blockId =>
      exact ⟨(step_untouched rfl h).certified hn, (step_untouched rfl h).kept⟩
  | adopt cert => exact ⟨(step_untouched rfl h).certified hn, (step_untouched rfl h).kept⟩
  | block k => exact ⟨(step_untouched rfl h).certified hn, (step_untouched rfl h).kept⟩
  | compare k => exact ⟨(step_untouched rfl h).certified hn, (step_untouched rfl h).kept⟩
  | leave k => exact ⟨(step_untouched rfl h).certified hn, (step_untouched rfl h).kept⟩

theorem FinalityRun.certified {E : Env} {n : FinalityNode}
    (hrun : FinalityRun E (WrittenInPlace E) n) : Certified E n.store n.rolling := by
  induction hrun with
  | start undoEnabled =>
      refine ⟨?_, ?_, ?_⟩
      · intro height hsome
        change (∅ : OrderedMap Nat (List Bytes))[height]?.isSome at hsome
        simp at hsome
      · intro height cert hcert
        change (∅ : OrderedMap Nat FinalityCert)[height]? = some cert at hcert
        simp at hcert
      · intro r hr
        cases hr
  | step hrun hgood hstep ih => exact (step_certified ih hgood hstep).1

/-- When certificates are written in place, every one is for the block stored at its height, and
no step takes a block at or below one, nor a certificate when these are final. -/
theorem finalityRun_certificates (E : Env) (n : FinalityNode)
    (hrun : FinalityRun E (WrittenInPlace E) n) :
    CertificatesMatch E n.store ∧
    ∀ a n', WrittenInPlace E n a → n.step E a = some n' →
      CertificatesKept E n.store n'.store :=
  ⟨hrun.certified.certs, fun _ _ hgood hstep => (step_certified hrun.certified hgood hstep).2⟩

/-! The functions of the source are runs of these steps without others in between. -/

theorem Store.idAt_eq (E : Env) (s : Store) (height : Nat) :
    s.idAt E height = ((s.getBlockByHeight E height).toOption.join).bind (·.id) := by
  unfold Store.idAt Store.storedId
  cases s.getBlockByHeight E height with
  | error e => rfl
  | ok block => cases block <;> rfl

/-- `try_certify` is the check of the votes, the check of the chain and the write. -/
theorem tryCertify_eq (E : Env) (t : FinalityTracker) (height : Nat) (blockId : Text) :
    t.tryCertify E height blockId =
      match t.quorate E height blockId with
      | none => t
      | some cert =>
          if t.storage.idAt E cert.height = some cert.blockId then
            { t with storage := t.storage.putFinalityCert cert }
          else t := by
  unfold FinalityTracker.tryCertify FinalityTracker.quorate
  simp only [← Store.idAt_eq]
  split_ifs <;> simp_all

theorem FinalityRun.tryCertify {E : Env} {n : FinalityNode}
    (hrun : FinalityRun E (fun _ _ => True) n) (height : Nat) (blockId : Text) :
    FinalityRun E (fun _ _ => True)
      { n with voter := { n.voter with
          tracker := n.voter.tracker.tryCertify E height blockId } } := by
  rw [tryCertify_eq]
  cases hcert : n.voter.tracker.quorate E height blockId with
  | none => exact hrun
  | some cert =>
      have hcall : FinalityRun E (fun _ _ => True)
          { n with calls := { cert, adopted := false, stage := .votes } :: n.calls } := by
        refine hrun.step (a := .certify height blockId) trivial ?_
        simp only [FinalityNode.step, hcert, Option.map_some]
      simp only
      split_ifs with hplace
      · have hfound : FinalityRun E (fun _ _ => True)
            { n with calls := { cert, adopted := false, stage := .clear } :: n.calls } := by
          refine hcall.step (a := .block 0) trivial ?_
          exact if_pos hplace
        exact hfound.step (a := .write 0) trivial rfl
      · exact hcall.step (a := .leave 0) trivial rfl

/-- `rollback_last_block` is the check of the certificates, perhaps the loss of one, and the
rest. -/
theorem FinalityRun.rollbackLastBlock {E : Env} {n : FinalityNode}
    (hrun : FinalityRun E (fun _ _ => True) n) (hidle : n.rolling = none) :
    FinalityRun E (fun _ _ => True) (n.withStore (n.store.rollbackLastBlock E).1) := by
  have hsame : ({ n with rolling := none } : FinalityNode) = n := by
    rw [← hidle]
  rw [Store.rollbackLastBlock_eq]
  split_ifs with hlow
  · exact hrun
  · unfold Store.passFinality
    cases hlatest : n.store.latestFinalityCert.filter fun c =>
        decide (n.store.lastHeight ≤ c.height) with
    | none =>
        have hread : FinalityRun E (fun _ _ => True)
            { n with rolling := some { height := n.store.lastHeight } } := by
          refine hrun.step (a := .rollback) trivial ?_
          simp [FinalityNode.step, hidle, hlow, hlatest]
        refine hread.step (a := .revert) trivial ?_
        rw [← hsame]
        rfl
    | some cert =>
        simp only
        split_ifs with hhard
        · exact hrun
        · have hread : FinalityRun E (fun _ _ => True)
              { n with rolling := some { height := n.store.lastHeight, drop := some cert.height } } := by
            refine hrun.step (a := .rollback) trivial ?_
            simp [FinalityNode.step, hidle, hlow, hlatest, hhard]
          refine (hread.step (a := .drop) trivial rfl).step (a := .revert) trivial ?_
          rw [← hsame]
          rfl

/-- Steps one after another, none when one of them cannot be taken or fails the condition. -/
def FinalityNode.steps (E : Env) (good : FinalityNode → FinalityAction → Bool) (n : FinalityNode)
    (actions : List FinalityAction) : Option FinalityNode :=
  actions.foldlM (fun n a => if good n a then n.step E a else none) n

theorem FinalityRun.steps {E : Env} {good : FinalityNode → FinalityAction → Bool}
    {n n' : FinalityNode} {actions : List FinalityAction}
    (hrun : FinalityRun E (fun n a => good n a) n) (h : n.steps E good actions = some n') :
    FinalityRun E (fun n a => good n a) n' := by
  unfold FinalityNode.steps at h
  induction actions generalizing n with
  | nil =>
      injection h with h
      exact h ▸ hrun
  | cons a rest ih =>
      rw [List.foldlM_cons] at h
      obtain ⟨t, ht, h⟩ := Option.bind_eq_some_iff.mp h
      rw [Option.ite_none_right_eq_some] at ht
      exact ih (hrun.step ht.1 ht.2) h

namespace Reference

/-- One delegate, whose vote makes a block final for good. -/
def hardRound : Milestone := { activeDelegates := 1, finality := { active := true } }

def hardEnv : Env := ⟨primitives, network hardRound, 8000⟩

def tipBlock : Block := first.forge 2 8 (delegateGenesis.id.getD "") 0 []

def startNode : FinalityNode := { voter := { tracker := { storage := {} } } }

/-- The delegate votes for the tip, and the votes are found to suffice for the block. -/
def votedActions : List FinalityAction :=
  [.apply [delegateGenesis] true, .apply [tipBlock] true,
    .own [first.publicKey] [firstKey] 2 (tipBlock.id.getD ""),
    .certify 2 (tipBlock.id.getD ""), .block 0]

end Reference

open Reference

theorem startNode_run (good : FinalityNode → FinalityAction → Prop) :
    FinalityRun hardEnv good startNode := .start false

/-- The certificate is written for the tip, and again after a rollback has read that there is
none. -/
theorem startNode_certified :
    (startNode.steps hardEnv (fun n a => decide (WrittenInPlace hardEnv n a))
      (votedActions ++ [.write 0])).any (fun n => n.store.finality[2]?.isSome) = true ∧
    (startNode.steps hardEnv (fun _ _ => true)
      (votedActions ++ [.rollback, .write 0])).any (fun n =>
        n.store.finality[2]?.isSome && n.store.blocks[2]?.isSome &&
        (n.step hardEnv .revert).any fun n' =>
          n'.store.finality[2]?.isSome && n'.store.blocks[2]?.isNone) = true := by
  decide +kernel

theorem finalityRun_certificates_tip : ∃ n : FinalityNode,
    n.store.finality[2]?.isSome ∧ CertificatesMatch hardEnv n.store := by
  obtain ⟨n, hn, hcertified⟩ := (Option.any_eq_true _ _).mp startNode_certified.1
  have hrun := (startNode_run _).steps hn
  simp only [decide_eq_true_eq] at hrun
  exact ⟨n, hcertified, (finalityRun_certificates hardEnv n hrun).1⟩

/-- The rollback of a block reads that it has no certificate, the certificate is written, and
the rollback goes on. -/
theorem final_block_rolled_back : ∃ n n' : FinalityNode,
    FinalityRun hardEnv (fun _ _ => True) n ∧ n.step hardEnv .revert = some n' ∧
    (hardEnv.network.milestone 2).finality.active = true ∧
    ¬ CertificatesKept hardEnv n.store n'.store ∧ ¬ CertificatesMatch hardEnv n'.store := by
  obtain ⟨n, hn, hfacts⟩ := (Option.any_eq_true _ _).mp startNode_certified.2
  simp only [Bool.and_eq_true, Option.any_eq_true, Option.isNone_iff_eq_none] at hfacts
  obtain ⟨⟨hcertified, hblock⟩, n', hstep, hleft, hgone⟩ := hfacts
  have hrun := (startNode_run _).steps hn
  simp only at hrun
  refine ⟨n, n', hrun, hstep, by decide +kernel, ?_, ?_⟩
  · rintro ⟨hkept, -⟩
    exact Nat.lt_irrefl 2 (hkept 2 hblock hgone 2 hcertified)
  · intro hmatch
    obtain ⟨cert, hcert⟩ := Option.isSome_iff_exists.mp hleft
    have hplace := Store.isSome_of_idAt (hmatch 2 cert hcert).2
    rw [hgone] at hplace
    cases hplace

end SthCore
