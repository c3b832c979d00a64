import SthCore.Finality.Certificate
import SthCore.Storage.Rounds

/-!
The votes of a node's own delegate keys.  The memory that keeps a node from
voting twice at a height forgets what is far below the tip.
-/

namespace SthCore

open SthCore.Lib

/-- A delegate key of the node: what it signs, nothing when signing fails. -/
structure DelegateKey where
  publicKey : Text
  sign : Bytes → Option Text

/-- `sign_vote`. -/
def signVote (P : Primitives) (k : DelegateKey) (height : Nat) (blockId : Text) :
    Option FinalityVote :=
  (k.sign (voteHash P height blockId)).map fun signature =>
    { height, blockId, publicKey := k.publicKey, signature }

/-- A tracker with the memory of the node's own votes: height to block id. -/
structure Voter where
  tracker : FinalityTracker
  own : OrderedMap Nat Text := ∅

namespace Voter

/-- An own vote among the collected ones. -/
def collect (t : FinalityTracker) (v : FinalityVote) : FinalityTracker :=
  { t with votes := t.votes.upsert v.height ∅ fun atHeight =>
      atHeight.upsert v.blockId ∅ fun sigs => sigs.insert v.publicKey v.signature }

/-- What `own_votes` does with the memory locked: the votes of the keys in the set, none when
the node has voted for another block at the height. -/
def signVotes (P : Primitives) (n : Voter) (set : List Text) (keys : List DelegateKey)
    (height : Nat) (blockId : Text) : Option (Voter × List FinalityVote) :=
  if (n.own[height]?).any fun id => id ≠ blockId then none
  else
    let votes := (keys.filter fun k => set.contains k.publicKey).filterMap fun k =>
      signVote P k height blockId
    some ({ tracker := votes.foldl collect n.tracker
            own := if votes.isEmpty then n.own else n.own.insert height blockId }, votes)

/-- `own_votes`: the votes of the keys that are active at the height. -/
def ownVotes (E : Env) (n : Voter) (keys : List DelegateKey) (height : Nat) (blockId : Text) :
    Voter × List FinalityVote :=
  if keys.isEmpty then (n, [])
  else
    match n.signVotes E.prim (n.tracker.storage.activeSet E height) keys height blockId with
    | none => (n, [])
    | some (signed, votes) =>
        ({ signed with tracker := signed.tracker.tryCertify E height blockId }, votes)

/-- `record`, which ends with pruning both memories. -/
def record (E : Env) (n : Voter) (votes : List FinalityVote) : Voter where
  tracker := (n.tracker.record E votes).tracker
  own := n.own.filter fun height _ =>
    decide (n.tracker.storage.lastHeight - keepBehind ≤ height)

/-- The node with another store. -/
def withStore (n : Voter) (s : Store) : Voter :=
  { n with tracker := { n.tracker with storage := s } }

end Voter

/-- Runs of a node from its start: votes of its keys, votes from the network, blocks and
rollbacks, in any order.  `highest` is the highest tip at which votes were recorded, `signed`
what the keys have signed.  Own votes are asked for heights that meet a condition. -/
inductive VoterRun (E : Env) (good : Nat → List FinalityVote → Nat → Prop) :
    Voter → Nat → List FinalityVote → Prop
  | start (s : Store) : VoterRun E good { tracker := { storage := s } } 0 []
  | ownVotes {n : Voter} {highest : Nat} {signed : List FinalityVote} (keys : List DelegateKey)
      (height : Nat) (blockId : Text) (hrun : VoterRun E good n highest signed)
      (hgood : good highest signed height) :
      VoterRun E good (n.ownVotes E keys height blockId).1 highest
        (signed ++ (n.ownVotes E keys height blockId).2)
  | record {n : Voter} {highest : Nat} {signed : List FinalityVote} (votes : List FinalityVote)
      (hrun : VoterRun E good n highest signed) :
      VoterRun E good (n.record E votes) (max highest n.tracker.storage.lastHeight) signed
  | apply {n : Voter} {highest : Nat} {signed : List FinalityVote} (blocks : List Block)
      (hrun : VoterRun E good n highest signed) :
      VoterRun E good (n.withStore (n.tracker.storage.applyBlocks E blocks).1) highest signed
  | rollback {n : Voter} {highest : Nat} {signed : List FinalityVote} (height : Nat)
      (hrun : VoterRun E good n highest signed) :
      VoterRun E good (n.withStore (n.tracker.storage.rollbackTo E height).1) highest signed

/-- No key has signed votes for two blocks at one height. -/
def NeverTwice (signed : List FinalityVote) : Prop :=
  ∀ v ∈ signed, ∀ w ∈ signed, v.publicKey = w.publicKey → v.height = w.height →
    v.blockId = w.blockId

/-- The height is within the window that every pruning so far has kept. -/
def InWindow (highest height : Nat) : Prop := highest ≤ height + keepBehind

/-- A height that the keys have voted at is asked for again inside the window only. -/
def AskedInWindow (highest : Nat) (signed : List FinalityVote) (height : Nat) : Prop :=
  (∃ v ∈ signed, v.height = height) → InWindow highest height

/-- The memory knows every vote inside the window. -/
structure Remembered (n : Voter) (highest : Nat) (signed : List FinalityVote) : Prop where
  own : ∀ v ∈ signed, InWindow highest v.height → n.own[v.height]? = some v.blockId
  once : ∀ v ∈ signed, ∀ w ∈ signed, v.height = w.height → v.blockId = w.blockId

theorem signVotes_vote {P : Primitives} {n signed : Voter} {set : List Text}
    {keys : List DelegateKey} {height : Nat} {blockId : Text} {votes : List FinalityVote}
    (h : n.signVotes P set keys height blockId = some (signed, votes)) :
    ∀ v ∈ votes, v.height = height ∧ v.blockId = blockId := by
  unfold Voter.signVotes at h
  split_ifs at h
  injection h with h
  obtain ⟨-, rfl⟩ := Prod.mk.inj h
  intro v hv
  obtain ⟨k, -, hk⟩ := List.mem_filterMap.mp hv
  obtain ⟨signature, -, rfl⟩ := Option.map_eq_some_iff.mp hk
  exact ⟨rfl, rfl⟩

/-- Votes are signed when the height is free or taken by the same block, and remembered. -/
theorem signVotes_own {P : Primitives} {n signed : Voter} {set : List Text}
    {keys : List DelegateKey} {height : Nat} {blockId : Text} {votes : List FinalityVote}
    (h : n.signVotes P set keys height blockId = some (signed, votes)) :
    (∀ id, n.own[height]? = some id → id = blockId) ∧
    ((votes = [] ∧ signed.own = n.own) ∨ signed.own = n.own.insert height blockId) := by
  unfold Voter.signVotes at h
  split_ifs at h with hguard
  injection h with h
  obtain ⟨hsigned, hvotes⟩ := Prod.mk.inj h
  constructor
  · intro id hid
    simpa [hid] using hguard
  · rw [← hsigned, ← hvotes]
    simp only
    split_ifs with hnone
    · exact .inl ⟨List.isEmpty_iff.mp hnone, rfl⟩
    · exact .inr rfl

theorem signVotes_cases {P : Primitives} {n signed : Voter} {set : List Text}
    {keys : List DelegateKey} {height : Nat} {blockId : Text} {votes : List FinalityVote}
    (h : n.signVotes P set keys height blockId = some (signed, votes)) :
    (votes = [] ∧ signed.own = n.own) ∨
    ((∀ v ∈ votes, v.height = height ∧ v.blockId = blockId) ∧
      (∀ id, n.own[height]? = some id → id = blockId) ∧
      signed.own = n.own.insert height blockId) := by
  obtain ⟨hfree, ⟨hnone, hown⟩ | hown⟩ := signVotes_own h
  · exact .inl ⟨hnone, hown⟩
  · exact .inr ⟨signVotes_vote h, hfree, hown⟩

/-- Either nothing is signed and remembered, or the height was free or taken by the same block. -/
theorem ownVotes_cases (E : Env) (n : Voter) (keys : List DelegateKey) (height : Nat)
    (blockId : Text) :
    ((n.ownVotes E keys height blockId).2 = [] ∧
      (n.ownVotes E keys height blockId).1.own = n.own) ∨
    ((∀ v ∈ (n.ownVotes E keys height blockId).2, v.height = height ∧ v.blockId = blockId) ∧
      (∀ id, n.own[height]? = some id → id = blockId) ∧
      (n.ownVotes E keys height blockId).1.own = n.own.insert height blockId) := by
  unfold Voter.ownVotes
  split_ifs with hkeys
  · exact .inl ⟨rfl, rfl⟩
  · split
    · exact .inl ⟨rfl, rfl⟩
    · rename_i signed votes hsign
      have hcases := signVotes_cases hsign
      exact hcases

/-- Votes are signed at a height where the memory is free or has the same block. -/
theorem Remembered.sign {n n' : Voter} {highest : Nat} {signed votes : List FinalityVote}
    (h : Remembered n highest signed) {height : Nat} {blockId : Text}
    (hasked : AskedInWindow highest signed height)
    (hsign : (votes = [] ∧ n'.own = n.own) ∨
      ((∀ v ∈ votes, v.height = height ∧ v.blockId = blockId) ∧
        (∀ id, n.own[height]? = some id → id = blockId) ∧
        n'.own = n.own.insert height blockId)) :
    Remembered n' highest (signed ++ votes) := by
  rcases hsign with ⟨hnone, hown⟩ | ⟨hvotes, hfree, hown⟩
  · rw [hnone, List.append_nil]
    exact ⟨by rw [hown]; exact h.own, h.once⟩
  · -- an earlier vote at the height is remembered, so that it was for the same block
    have hearlier : ∀ v ∈ signed, v.height = height → v.blockId = blockId := by
      intro v hv hheight
      have hwindow : InWindow highest height := hasked ⟨v, hv, hheight⟩
      have hknown := h.own v hv (by rw [hheight]; exact hwindow)
      rw [hheight] at hknown
      exact hfree _ hknown
    have hall : ∀ v ∈ signed ++ votes, v.height = height → v.blockId = blockId := by
      intro v hv hheight
      rcases List.mem_append.mp hv with hold | hnew
      · exact hearlier v hold hheight
      · exact (hvotes v hnew).2
    constructor
    · intro v hv hv'
      rw [hown, OrderedMap.getElem?_insert_eq]
      split_ifs with hsame
      · rw [hall v hv hsame.symm]
      · rcases List.mem_append.mp hv with hold | hnew
        · exact h.own v hold hv'
        · exact absurd (hvotes v hnew).1.symm hsame
    · intro v hv w hw hheight
      rcases List.mem_append.mp hv with hv' | hv'
      · rcases List.mem_append.mp hw with hw' | hw'
        · exact h.once v hv' w hw' hheight
        · obtain ⟨hat, hid⟩ := hvotes w hw'
          rw [hid, hall v hv (hheight.trans hat)]
      · obtain ⟨hat, hid⟩ := hvotes v hv'
        rw [hid, hall w hw (hheight.symm.trans hat)]

theorem Remembered.ownVotes {E : Env} {n : Voter} {highest : Nat} {signed : List FinalityVote}
    (h : Remembered n highest signed) (keys : List DelegateKey) {height : Nat} (blockId : Text)
    (hasked : AskedInWindow highest signed height) :
    Remembered (n.ownVotes E keys height blockId).1 highest
      (signed ++ (n.ownVotes E keys height blockId).2) :=
  h.sign hasked (ownVotes_cases E n keys height blockId)

theorem Remembered.prune {n n' : Voter} {highest : Nat} {signed : List FinalityVote}
    (h : Remembered n highest signed) (tip : Nat)
    (hown : n'.own = n.own.filter fun height _ => decide (tip - keepBehind ≤ height)) :
    Remembered n' (max highest tip) signed := by
  refine ⟨?_, h.once⟩
  intro v hv hwindow
  unfold InWindow at hwindow
  have hknown := h.own v hv (Nat.le_trans (Nat.le_max_left _ _) hwindow)
  have hkept : tip ≤ v.height + keepBehind := Nat.le_trans (Nat.le_max_right _ _) hwindow
  rw [hown]
  simp [Std.ExtTreeMap.getElem?_filter, hknown, hkept]

theorem Remembered.record {E : Env} {n : Voter} {highest : Nat} {signed : List FinalityVote}
    (h : Remembered n highest signed) (votes : List FinalityVote) :
    Remembered (n.record E votes) (max highest n.tracker.storage.lastHeight) signed :=
  h.prune n.tracker.storage.lastHeight rfl

theorem VoterRun.remembered {E : Env} {n : Voter} {highest : Nat} {signed : List FinalityVote}
    (hrun : VoterRun E AskedInWindow n highest signed) : Remembered n highest signed := by
  induction hrun with
  | start s => exact ⟨by simp, by simp⟩
  | ownVotes keys height blockId hrun hgood ih => exact ih.ownVotes keys blockId hgood
  | record votes hrun ih => exact ih.record votes
  | apply blocks hrun ih => exact ⟨ih.own, ih.once⟩
  | rollback height hrun ih => exact ⟨ih.own, ih.once⟩

/-- Keys that are asked again inside the window only never vote twice. -/
theorem voterRun_neverTwice (E : Env) (n : Voter) (highest : Nat) (signed : List FinalityVote)
    (hrun : VoterRun E AskedInWindow n highest signed) : NeverTwice signed :=
  fun v hv w hw _ hheight => hrun.remembered.once v hv w hw hheight

namespace Store

/-- A block as a sub-batch of its own, without the missed slots before it. -/
def commitAlone (E : Env) (s : Store) (block : Block) : Except Error Store := do
  let prepared ← prepareBlock E block
  return (← s.commitBlocks E [prepared] true).snapshotRoundIfBoundary E prepared.1.height

/-- No slot is missed before the first one. -/
theorem recordMissed_firstSlot (E : Env) (s : Store) (ts : Option UInt32) {block : Block}
    (h : block.timestamp = 0) : s.recordMissed E ts [block] = (s, .ok ()) := by
  cases ts with
  | none => rfl
  | some p =>
      change s.recordMissedSlots E p block = _
      unfold recordMissedSlots
      refine if_pos (.inl ?_)
      rw [h]
      unfold slotNumber
      simp

theorem applyLocked_firstSlot {E : Env} {s s' : Store} {block : Block} (h : block.timestamp = 0)
    (hcommit : s.commitAlone E block = .ok s') : s.applyLocked E [block] true = (s', .ok ()) := by
  obtain ⟨p, hp, hcommit⟩ := bind_eq_ok.mp hcommit
  obtain ⟨t, ht, rfl⟩ := map_eq_ok.mp hcommit
  have hprepared : [block].mapM (prepareBlock E) = .ok [p] := by
    rw [List.mapM_cons, hp]
    rfl
  unfold applyLocked
  rw [hprepared]
  simp only [Bool.true_or, ht]
  exact recordMissed_firstSlot E _ _ ((prepareBlock_timestamp hp).trans h)

theorem applyChunks_firstSlot {E : Env} {s s' : Store} {blocks : List Block}
    (hts : ∀ b ∈ blocks, b.timestamp = 0) (h : blocks.foldlM (commitAlone E) s = .ok s') :
    s.applyChunks E (blocks.map fun b => [b]) true = (s', .ok ()) := by
  induction blocks generalizing s with
  | nil =>
      obtain rfl := foldlM_nil_ok.mp h
      rfl
  | cons b rest ih =>
      obtain ⟨t, hb, hrest⟩ := foldlM_cons_ok.mp h
      rw [List.map_cons, applyChunks_cons_eq_ok]
      exact ⟨t, applyLocked_firstSlot (hts b List.mem_cons_self) hb,
        ih (fun c hc => hts c (List.mem_cons_of_mem _ hc)) hrest⟩

/-- Blocks in the first slot, with undo records: no block has to be read back. -/
theorem applyBlocks_firstSlot {E : Env} {s s' : Store} {blocks : List Block}
    (hundo : s.undoEnabled = true) (hts : ∀ b ∈ blocks, b.timestamp = 0)
    (h : blocks.foldlM (commitAlone E) s = .ok s') : s.applyBlocks E blocks = (s', .ok ()) := by
  have hchunks := applyChunks_firstSlot hts h
  match blocks with
  | [] | [b] => exact hchunks
  | a :: b :: rest =>
      unfold applyBlocks
      rw [if_pos hundo, hchunks]

end Store

namespace Reference

/-- The first key as a key of the node. -/
def firstKey : DelegateKey where
  publicKey := first.publicKey
  sign := fun hash => some (first.schnorr hash)

/-- A block id that starts with a number. -/
def idFrom (number : Nat) : Text := Hex.encode (UInt8.ofNat number :: List.replicate 31 0)

/-- A block of the first key without transactions, with a number in its id. -/
def plainBlock (height number : Nat) (previous : Text) : Block :=
  { delegateGenesis with
    height
    id := some (idFrom number)
    previousBlock := previous
    transactions := [] }

/-- A block on top of the first one. -/
def upon (number : Nat) : Block := plainBlock 2 number (delegateGenesis.id.getD "")

/-- The blocks from height 3 on, upon `upon 2`. -/
def extension (n : Nat) : List Block :=
  (List.range' 3 n).map fun k => plainBlock k k (idFrom (k - 1))

/-- A node with undo records, and its chain. -/
def votingNode : Voter := { tracker := { storage := { delegateStore {} with undoEnabled := true } } }

def votingEnv : Env := ⟨primitives, network {}, 8000⟩

/-- The node with more blocks, or fewer. -/
def extend (n : Voter) (blocks : List Block) : Voter :=
  n.withStore (n.tracker.storage.applyBlocks votingEnv blocks).1

def shorten (n : Voter) (height : Nat) : Voter :=
  n.withStore (n.tracker.storage.rollbackTo votingEnv height).1

/-- The vote for the tip, given by the number in its id. -/
def voteTip (n : Voter) (number : Nat) : Voter × List FinalityVote :=
  n.ownVotes votingEnv [firstKey] 2 (idFrom number)

/-- The node has voted for its second block. -/
def votedOnce : Voter × List FinalityVote := voteTip (extend votingNode [upon 2]) 2

/-- 121 blocks later, a message with votes, and a rollback to the first block. -/
def forgotten : Voter :=
  shorten ((extend votedOnce.1 (extension 121)).record votingEnv []) 1

def votedTwice : Voter × List FinalityVote :=
  voteTip (extend forgotten [upon 200]) 200

end Reference

open Reference

theorem votingNode_run (good : Nat → List FinalityVote → Nat → Prop) :
    VoterRun votingEnv good votingNode 0 [] := .start _

theorem VoterRun.extend {good : Nat → List FinalityVote → Nat → Prop} {n : Voter} {highest : Nat}
    {signed : List FinalityVote} (hrun : VoterRun votingEnv good n highest signed)
    (blocks : List Block) : VoterRun votingEnv good (extend n blocks) highest signed :=
  hrun.apply blocks

theorem VoterRun.voteTip {good : Nat → List FinalityVote → Nat → Prop} {n : Voter} {highest : Nat}
    {signed : List FinalityVote} (hrun : VoterRun votingEnv good n highest signed) (number : Nat)
    (hgood : good highest signed 2) :
    VoterRun votingEnv good (voteTip n number).1 highest (signed ++ (voteTip n number).2) :=
  hrun.ownVotes [firstKey] 2 _ hgood

theorem votedOnce_run (good : Nat → List FinalityVote → Nat → Prop) (hgood : good 0 [] 2) :
    VoterRun votingEnv good votedOnce.1 0 ([] ++ votedOnce.2) :=
  ((votingNode_run good).extend [upon 2]).voteTip 2 hgood

theorem voterRun_neverTwice_once : NeverTwice ([] ++ votedOnce.2) := by
  have hasked : AskedInWindow 0 [] 2 := by
    rintro ⟨v, hv, -⟩
    cases hv
  exact voterRun_neverTwice votingEnv votedOnce.1 0 ([] ++ votedOnce.2)
    (votedOnce_run AskedInWindow hasked)

/-- What a vote is for. -/
def subject (v : FinalityVote) : Text × Nat × Text := (v.publicKey, v.height, v.blockId)

/-- The votes of a key at a height that the memory leaves free. -/
theorem ownVotes_free {E : Env} {n : Voter} {height : Nat} (k : DelegateKey) (blockId : Text)
    (hfree : n.own[height]? = none) :
    (n.ownVotes E [k] height blockId).2 =
      ([k].filter fun k => (n.tracker.storage.activeSet E height).contains k.publicKey).filterMap
        fun k => signVote E.prim k height blockId := by
  unfold Voter.ownVotes Voter.signVotes
  simp [hfree]

theorem Store.activeSet_congr (E : Env) {s s' : Store} (height : Nat) {list : List DelegateRank}
    (h : s.getRound (roundInfo height
      (E.network.milestone (max height 1)).activeDelegates.toNat).round = some list)
    (h' : s'.getRound (roundInfo height
      (E.network.milestone (max height 1)).activeDelegates.toNat).round = some list) :
    s'.activeSet E height = s.activeSet E height := by
  unfold activeSet forgingOrderOrLive
  simp only [h, h', Option.getD_some]

theorem extension_heights (n : Nat) :
    ((extension n).map fun b => b.height).IsChain fun a b => b = a + 1 := by
  have hheights : (extension n).map (fun b => b.height) = List.range' 3 n := by
    unfold extension
    rw [List.map_map]
    exact List.map_id _
  rw [hheights]
  exact List.isChain_range' 3 n 1

/-- The first vote, how the chain grows upon it, and what the key signs for another block. -/
theorem votedOnce_facts :
    (0 < votedOnce.1.tracker.storage.lastHeight ∧
      (votedOnce.1.tracker.storage.getRound 1).isSome) ∧
    (votedOnce.1.tracker.storage.undoEnabled = true ∧
      (∀ b ∈ extension 121, b.timestamp = 0) ∧
      ((extension 121).foldlM (Store.commitAlone votingEnv) votedOnce.1.tracker.storage).map
        (fun s => s.lastHeight) = .ok 123) ∧
    votedOnce.2.map subject = [(first.publicKey, 2, idFrom 2)] ∧
    (([firstKey].filter fun k =>
        (votedOnce.1.tracker.storage.activeSet votingEnv 2).contains k.publicKey).filterMap
      fun k => signVote votingEnv.prim k 2 (idFrom 200)).map subject =
        [(first.publicKey, 2, idFrom 200)] := by
  decide +kernel

theorem extended_tip :
    (extend votedOnce.1 (extension 121)).tracker.storage.lastHeight = 123 := by
  obtain ⟨-, ⟨hundo, hfirst, htip⟩, -⟩ := votedOnce_facts
  obtain ⟨s, hs, htip⟩ := map_eq_ok.mp htip
  unfold extend Voter.withStore
  rw [Store.applyBlocks_firstSlot hundo hfirst hs]
  exact htip

theorem extend_firstRound {n : Voter} {blocks : List Block}
    (hchain : (blocks.map fun b => b.height).IsChain fun a b => b = a + 1)
    (hpos : 0 < n.tracker.storage.lastHeight) :
    (extend n blocks).tracker.storage.getRound 1 = n.tracker.storage.getRound 1 ∧
    0 < (extend n blocks).tracker.storage.lastHeight :=
  Store.applyBlocks_getRound_one hchain hpos

theorem shorten_firstRound {n : Voter} (height : Nat) (hpos : 0 < n.tracker.storage.lastHeight) :
    (shorten n height).tracker.storage.getRound 1 = n.tracker.storage.getRound 1 ∧
    0 < (shorten n height).tracker.storage.lastHeight :=
  Store.rollbackTo_getRound_one height hpos

theorem extend_own (n : Voter) (blocks : List Block) : (extend n blocks).own = n.own := rfl

theorem shorten_own (n : Voter) (height : Nat) : (shorten n height).own = n.own := rfl

theorem record_nil_storage (E : Env) (n : Voter) :
    (n.record E []).tracker.storage = n.tracker.storage := rfl

theorem record_own (E : Env) (n : Voter) (votes : List FinalityVote) :
    (n.record E votes).own = n.own.filter fun height _ =>
      decide (n.tracker.storage.lastHeight - keepBehind ≤ height) := rfl

/-- Whatever happens after genesis, the first round is the one that genesis opened. -/
theorem replaced_firstRound :
    (extend forgotten [upon 200]).tracker.storage.getRound 1 =
      votedOnce.1.tracker.storage.getRound 1 := by
  obtain ⟨hextended, hpos⟩ := extend_firstRound (extension_heights 121) votedOnce_facts.1.1
  rw [← record_nil_storage votingEnv] at hextended hpos
  obtain ⟨hback, hbackpos⟩ := shorten_firstRound 1 hpos
  obtain ⟨hupon, -⟩ := extend_firstRound (subBatch_single votingEnv (upon 200)).chain hbackpos
  rw [← hextended, ← hback, ← hupon]
  rfl

theorem votedTwice_votes :
    votedOnce.2.map subject = [(first.publicKey, 2, idFrom 2)] ∧
    votedTwice.2.map subject = [(first.publicKey, 2, idFrom 200)] := by
  obtain ⟨⟨-, hround⟩, -, honce, hsigned⟩ := votedOnce_facts
  refine ⟨honce, ?_⟩
  have hfree : (extend forgotten [upon 200]).own[2]? = none := by
    rw [extend_own, forgotten, shorten_own, record_own, extended_tip]
    simp [Std.ExtTreeMap.getElem?_filter, keepBehind]
  obtain ⟨list, hlist⟩ := Option.isSome_iff_exists.mp hround
  have hset := Store.activeSet_congr votingEnv 2 hlist (replaced_firstRound.trans hlist)
  unfold votedTwice voteTip
  rw [ownVotes_free firstKey _ hfree, hset]
  exact hsigned

theorem subject_mem {votes : List FinalityVote} {key id : Text} {height : Nat}
    (h : votes.map subject = [(key, height, id)]) :
    ∃ v ∈ votes, v.publicKey = key ∧ v.height = height ∧ v.blockId = id := by
  have hmem : (key, height, id) ∈ votes.map subject := by
    rw [h]
    exact List.mem_singleton_self _
  obtain ⟨v, hv, hsubject⟩ := List.mem_map.mp hmem
  simp only [subject, Prod.mk.injEq] at hsubject
  exact ⟨v, hv, hsubject⟩

/-- The second block is rolled back when the memory has lost its height, and the key votes for
the block that replaces it. -/
theorem second_vote_after_rollback : ∃ n highest signed,
    VoterRun votingEnv (fun _ _ _ => True) n highest signed ∧ ¬ NeverTwice signed := by
  have hlong := ((votedOnce_run (fun _ _ _ => True) trivial).extend (extension 121)).record []
  have hrun := ((hlong.rollback 1).extend [upon 200]).voteTip 200 trivial
  refine ⟨_, _, _, hrun, ?_⟩
  intro hnever
  obtain ⟨honce, htwice⟩ := votedTwice_votes
  obtain ⟨v, hv, hkey, hheight, hid⟩ := subject_mem honce
  obtain ⟨w, hw, hkey', hheight', hid'⟩ := subject_mem htwice
  have hsame := hnever v (List.mem_append_left _ (List.mem_append_right _ hv)) w
    (List.mem_append_right _ hw) (hkey.trans hkey'.symm) (hheight.trans hheight'.symm)
  rw [hid, hid'] at hsame
  exact absurd hsame (by decide +kernel)

end SthCore
