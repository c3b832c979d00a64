import SthCore.Crypto.TxSerializer
import SthCore.Delegate.Round

/-!
The finality gadget: votes of delegates for a block at a height, certificates
made of them, and proofs that a delegate voted for two blocks at one height.
-/

namespace SthCore

open SthCore.Lib

structure FinalityVote where
  height : Nat
  blockId : Text
  publicKey : Text
  signature : Text
  deriving DecidableEq

/-- Votes older than this many blocks below the tip are dropped. -/
def keepBehind : Nat := 120

/-- Votes may run ahead of the tip by this much. -/
def ahead : Nat := 21

/-- The bytes of a block id that a vote signs: decoded if it is hex, raw otherwise. -/
def votedBytes (blockId : Text) : Bytes :=
  match Hex.decode blockId with
  | .ok bytes => bytes
  | .error _ => utf8Bytes blockId

/-- The message under the hash of a vote. -/
def voteMessage (height : Nat) (blockId : Text) : Bytes :=
  utf8Bytes (Text.ofString "sth-finality-v1") ++ leBytes 8 height ++ votedBytes blockId

def voteHash (P : Primitives) (height : Nat) (blockId : Text) : Bytes :=
  P.sha256 (voteMessage height blockId)

def verifyVote (P : Primitives) (v : FinalityVote) : Bool :=
  decide ((utf8Bytes v.blockId).length = 64) &&
    match Hex.decode v.signature with
    | .ok sig =>
        ((P.verifySchnorrLegacy (voteHash P v.height v.blockId) sig v.publicKey).toOption).getD
          false
    | .error _ => false

/-- The end of a ban that starts with the tip at `tip`: `slashing_rounds` after the round of
the next block. -/
def banEnd (E : Env) (tip : Nat) : Nat :=
  let m := E.network.milestone (max tip 1)
  (roundInfo (tip + 1) m.activeDelegates.toNat).round + m.finality.slashingRounds

def makeProof (E : Env) (v : FinalityVote) (otherId otherSig : Text) (tip : Nat) :
    EquivocationProof where
  height := v.height
  publicKey := v.publicKey
  blockIds := (otherId, v.blockId)
  signatures := (otherSig, v.signature)
  detectedHeight := tip
  bannedUntilRound := banEnd E tip

/-- The vote of a proof for one of its ids. -/
def EquivocationProof.vote (p : EquivocationProof) (blockId signature : Text) : FinalityVote where
  height := p.height
  blockId := blockId
  publicKey := p.publicKey
  signature := signature

/-- The proof with the ban that `adopt_proof` stores. -/
def EquivocationProof.measured (E : Env) (tip : Nat) (p : EquivocationProof) :
    EquivocationProof :=
  { p with bannedUntilRound := min p.bannedUntilRound (banEnd E tip) }

namespace Store

/-- `active_set`: the keys of the round that contains `height`. -/
def activeSet (E : Env) (s : Store) (height : Nat) : List Text :=
  let n := (E.network.milestone (max height 1)).activeDelegates.toNat
  (s.forgingOrderOrLive E (roundInfo height n).round n).map (·.publicKey)

/-- `ranked_set`: the saved snapshot of the round, or the ranking without slashing. -/
def rankedSet (E : Env) (s : Store) (height : Nat) : List Text :=
  let n := (E.network.milestone (max height 1)).activeDelegates.toNat
  ((s.getRound (roundInfo height n).round).getD (s.activeDelegatesRanked n)).map (·.publicKey)

/-- `verify_proof`: two votes of one delegate of the round for two ids at one height. -/
def verifyProof (E : Env) (s : Store) (p : EquivocationProof) : Except String Unit := do
  if p.blockIds.1 = p.blockIds.2 then
    throw "same block id twice"
  if !(s.rankedSet E p.height).contains p.publicKey then
    throw s!"{p.publicKey} is not an active delegate of that round"
  if !verifyVote E.prim (p.vote p.blockIds.1 p.signatures.1) then
    throw "vote 0 does not verify"
  if !verifyVote E.prim (p.vote p.blockIds.2 p.signatures.2) then
    throw "vote 1 does not verify"

/-- `adopt_proof`: whether the proof was new, and the store with it. -/
def adoptProof (E : Env) (s : Store) (p : EquivocationProof) : Except String (Bool × Store) := do
  s.verifyProof E p
  if (s.equivocation p.publicKey).any fun known => decide (p.height ≤ known.height) then
    return (false, s)
  return (true, s.putEquivocation (p.measured E s.lastHeight))

end Store

/-- Votes by height, block id and public key, next to the store of the node. -/
structure FinalityTracker where
  storage : Store
  votes : OrderedMap Nat (OrderedMap Text (OrderedMap Text Text)) := ∅
  received : Nat := 0
  rejected : Nat := 0

namespace FinalityTracker

def finalized (t : FinalityTracker) : Option (Nat × Text) :=
  t.storage.latestFinalityCert.map fun c => (c.height, c.blockId)

/-- The signatures collected for a block. -/
def signaturesOf (t : FinalityTracker) (height : Nat) (blockId : Text) : OrderedMap Text Text :=
  ((t.votes[height]?.getD ∅)[blockId]?).getD ∅

/-- `try_certify`: a certificate once the quorum is reached and the block is ours. -/
def tryCertify (E : Env) (t : FinalityTracker) (height : Nat) (blockId : Text) :
    FinalityTracker :=
  let quorum := (E.network.milestone (max height 1)).finalityQuorum.toNat
  let signatures := t.signaturesOf height blockId
  let ours := ((t.storage.getBlockByHeight E height).toOption.join).bind (·.id)
  if t.finalized.any fun f => decide (height ≤ f.1) then t
  else if signatures.size < quorum ∨ signatures.isEmpty then t
  else if ours ≠ some blockId then t
  else { t with storage := t.storage.putFinalityCert { height, blockId, votes := signatures } }

/-- Another id at the height of a vote for which its key has signed, with the signature.  The
source walks a hash map here, in no particular order. -/
def conflict (t : FinalityTracker) (v : FinalityVote) : Option (Text × Text) :=
  (t.votes[v.height]?.getD ∅).toList.findSome? fun e =>
    if e.1 ≠ v.blockId then e.2[v.publicKey]?.map fun sig => (e.1, sig) else none

/-- The vote is kept, whether it conflicts with another one or not. -/
def keep (t : FinalityTracker) (v : FinalityVote) : FinalityTracker :=
  { t with
    received := t.received + 1
    votes := t.votes.upsert v.height ∅ fun atHeight =>
      atHeight.upsert v.blockId ∅ fun sigs => sigs.insert v.publicKey v.signature }

/-- What `record` carries from vote to vote. -/
structure Recording where
  tracker : FinalityTracker
  /-- Active sets by round, each computed once in a call. -/
  sets : OrderedMap Nat (List Text) := ∅
  accepted : Nat := 0
  proofs : List EquivocationProof := []

def Recording.reject (r : Recording) : Recording :=
  { r with tracker := { r.tracker with rejected := r.tracker.rejected + 1 } }

/-- A vote that passed the checks: a conflict becomes a proof, a quorum a certificate. -/
def Recording.take (E : Env) (tip : Nat) (r : Recording) (v : FinalityVote) : Recording :=
  let kept := r.tracker.keep v
  let proven : FinalityTracker × List EquivocationProof :=
    match r.tracker.conflict v with
    | none => (kept, r.proofs)
    | some (otherId, otherSig) =>
        let proof := makeProof E v otherId otherSig tip
        match kept.storage.adoptProof E proof with
        | .ok (true, s) => ({ kept with storage := s }, r.proofs ++ [proof])
        | _ => (kept, r.proofs)
  { r with
    tracker := proven.1.tryCertify E v.height v.blockId
    accepted := r.accepted + 1
    proofs := proven.2 }

/-- One iteration of the loop of `record`. -/
def recordVote (E : Env) (tip : Nat) (r : Recording) (v : FinalityVote) : Recording :=
  if tip ≤ v.height + keepBehind ∧ v.height ≤ tip + ahead then
    let n := (E.network.milestone (max v.height 1)).activeDelegates.toNat
    let round := (roundInfo v.height n).round
    let set := (r.sets[round]?).getD (r.tracker.storage.activeSet E v.height)
    let r := { r with sets := r.sets.insert round set }
    if set.contains v.publicKey && verifyVote E.prim v then r.take E tip v else r.reject
  else r.reject

def prune (t : FinalityTracker) (tip : Nat) : FinalityTracker :=
  { t with votes := t.votes.filter fun height _ => decide (tip - keepBehind ≤ height) }

/-- `record`: the first 64 votes of a message, one after another. -/
def record (E : Env) (t : FinalityTracker) (votes : List FinalityVote) : Recording :=
  let tip := t.storage.lastHeight
  let r := (votes.take 64).foldl (recordVote E tip) { tracker := t }
  { r with tracker := r.tracker.prune tip }

end FinalityTracker

end SthCore
