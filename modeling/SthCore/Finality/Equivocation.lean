import SthCore.Crypto.Codec
import SthCore.Crypto.Signing
import SthCore.Finality.Tracker
import SthCore.Storage.Apply

/-!
What a proof of equivocation says about its subject.  Ids are compared as texts
but signed after decoding, so a vote and its copy in the other letter case pass
for two votes.
-/

namespace SthCore

open SthCore.Lib

namespace Store

variable {E : Env} {s s' : Store} {p : EquivocationProof}

/-- What `verify_proof` has checked of a proof that it accepts. -/
theorem verifyProof_eq_ok (h : s.verifyProof E p = .ok ()) :
    p.blockIds.1 ≠ p.blockIds.2 ∧
    p.publicKey ∈ s.rankedSet E p.height ∧
    verifyVote E.prim (p.vote p.blockIds.1 p.signatures.1) = true ∧
    verifyVote E.prim (p.vote p.blockIds.2 p.signatures.2) = true := by
  unfold verifyProof at h
  by_cases hids : p.blockIds.1 = p.blockIds.2
  · simp [hids] at h
  · by_cases hset : p.publicKey ∈ s.rankedSet E p.height
    · cases hfirst : verifyVote E.prim (p.vote p.blockIds.1 p.signatures.1) with
      | false =>
          simp [hids, hset, hfirst] at h
      | true =>
          cases hsecond : verifyVote E.prim (p.vote p.blockIds.2 p.signatures.2) with
          | false =>
              simp [hids, hset, hfirst, hsecond] at h
          | true => exact ⟨hids, hset, rfl, rfl⟩
    · simp [hids, hset] at h

/-- A verified proof is either known already, at its height or above, or stored. -/
theorem adoptProof_cases {new : Bool} (h : s.adoptProof E p = .ok (new, s')) :
    s.verifyProof E p = .ok () ∧
    ((new = false ∧ s' = s ∧ ∃ known, s.equivocation p.publicKey = some known ∧
        p.height ≤ known.height) ∨
      (new = true ∧ s' = s.putEquivocation (p.measured E s.lastHeight) ∧
        ∀ known, s.equivocation p.publicKey = some known → known.height < p.height)) := by
  unfold adoptProof at h
  obtain ⟨_, hverify, h⟩ := bind_eq_ok.mp h
  refine ⟨hverify, ?_⟩
  split at h
  · rename_i hknown
    injection h with h
    injection h with hnew hs
    obtain ⟨known, hfound, hheight⟩ := (Option.any_eq_true _ _).mp hknown
    exact .inl ⟨hnew.symm, hs.symm, known, hfound, of_decide_eq_true hheight⟩
  · rename_i hunknown
    injection h with h
    injection h with hnew hs
    refine .inr ⟨hnew.symm, hs.symm, ?_⟩
    intro known hknown
    simpa [hknown] using hunknown

end Store

/-- A valid signature comes from the owner of the key. -/
def Unforgeable (P : Primitives) (Signed : Text → Bytes → Prop) : Prop :=
  ∀ hash sig key, P.verifySchnorrLegacy hash sig key = .ok true → Signed key hash

/-- The owner of the key of a proof has signed two different vote messages. -/
def SignedTwo (P : Primitives) (Signed : Text → Bytes → Prop) (p : EquivocationProof) : Prop :=
  Signed p.publicKey (voteHash P p.height p.blockIds.1) ∧
  Signed p.publicKey (voteHash P p.height p.blockIds.2) ∧
  voteHash P p.height p.blockIds.1 ≠ voteHash P p.height p.blockIds.2

/-- Both ids are hex texts, equal up to letter case. -/
def Recased (ids : Text × Text) : Prop :=
  Hex.isHex ids.1 = true ∧ Hex.isHex ids.2 = true ∧ ids.1.toLower = ids.2.toLower

instance (ids : Text × Text) : Decidable (Recased ids) := by
  unfold Recased
  infer_instance

variable {P : Primitives} {v : FinalityVote}

theorem verifyVote_iff : verifyVote P v = true ↔
    (utf8Bytes v.blockId).length = 64 ∧
    ∃ sig, P.verifySchnorrLegacy (voteHash P v.height v.blockId) sig v.publicKey = .ok true ∧
      Hex.decode v.signature = .ok sig := by
  unfold verifyVote
  rw [Bool.and_eq_true, decide_eq_true_eq]
  cases Hex.decode v.signature with
  | error e => simp
  | ok sig =>
      cases hv : P.verifySchnorrLegacy (voteHash P v.height v.blockId) sig v.publicKey with
      | error e => simp [Except.toOption, hv]
      | ok b => simp [Except.toOption, hv]

/-- Ids of the length a vote must have are signed alike only if they are recased. -/
theorem votedBytes_eq_iff {a b : Text} (ha : (utf8Bytes a).length = 64)
    (hb : (utf8Bytes b).length = 64) (hne : a ≠ b) :
    votedBytes a = votedBytes b ↔ Recased (a, b) := by
  unfold votedBytes Recased
  cases hda : Hex.decode a with
  | error ea =>
      have hnot : ¬ Hex.isHex a = true := by
        rintro hhex
        obtain ⟨x, hx⟩ := Hex.isHex_iff.mp hhex
        rw [hda] at hx
        cases hx
      cases hdb : Hex.decode b with
      | error eb =>
          simp only [hnot, false_and, iff_false, Bool.false_eq_true]
          intro hraw
          exact hne (Text.utf8Bytes_injective hraw)
      | ok y =>
          have hy := Hex.utf8Bytes_length hdb
          simp only [hnot, false_and, iff_false, Bool.false_eq_true]
          intro hraw
          have hlength := congrArg List.length hraw
          omega
  | ok x =>
      have hx := Hex.utf8Bytes_length hda
      have hhexa := Hex.isHex_iff.mpr ⟨x, hda⟩
      cases hdb : Hex.decode b with
      | error eb =>
          have hnot : ¬ Hex.isHex b = true := by
            rintro hhex
            obtain ⟨y, hy⟩ := Hex.isHex_iff.mp hhex
            rw [hdb] at hy
            cases hy
          simp only [hnot, false_and, and_false, iff_false, Bool.false_eq_true]
          intro hraw
          have hlength := congrArg List.length hraw
          omega
      | ok y =>
          have hhexb := Hex.isHex_iff.mpr ⟨y, hdb⟩
          simp only [hhexa, hhexb, true_and]
          exact Hex.decode_eq_decode_iff hda hdb

theorem voteMessage_eq_iff {height : Nat} {a b : Text} :
    voteMessage height a = voteMessage height b ↔ votedBytes a = votedBytes b := by
  unfold voteMessage
  exact List.append_right_inj _

/-- The subject of an accepted proof signed two different messages, unless the two
ids are one hex text in two letter cases. -/
theorem verifyProof_signedTwo (E : Env) (s : Store) (p : EquivocationProof)
    (Signed : Text → Bytes → Prop) (hsigned : Unforgeable E.prim Signed)
    (hhash : voteHash E.prim p.height p.blockIds.1 = voteHash E.prim p.height p.blockIds.2 →
      voteMessage p.height p.blockIds.1 = voteMessage p.height p.blockIds.2)
    (hok : s.verifyProof E p = .ok ()) :
    SignedTwo E.prim Signed p ↔ ¬ Recased p.blockIds := by
  obtain ⟨hne, -, hfirst, hsecond⟩ := Store.verifyProof_eq_ok hok
  obtain ⟨hlength₁, sig₁, hsig₁, -⟩ := verifyVote_iff.mp hfirst
  obtain ⟨hlength₂, sig₂, hsig₂, -⟩ := verifyVote_iff.mp hsecond
  have hbytes : votedBytes p.blockIds.1 = votedBytes p.blockIds.2 ↔ Recased p.blockIds :=
    votedBytes_eq_iff hlength₁ hlength₂ hne
  have hsame : voteHash E.prim p.height p.blockIds.1 = voteHash E.prim p.height p.blockIds.2 ↔
      votedBytes p.blockIds.1 = votedBytes p.blockIds.2 := by
    constructor
    · intro h
      exact voteMessage_eq_iff.mp (hhash h)
    · intro h
      unfold voteHash
      rw [voteMessage_eq_iff.mpr h]
  unfold SignedTwo
  rw [← hbytes, ← hsame]
  constructor
  · rintro ⟨-, -, hdiffer⟩
    exact hdiffer
  · intro hdiffer
    exact ⟨hsigned _ _ _ hsig₁, hsigned _ _ _ hsig₂, hdiffer⟩

namespace Reference

/-- A node whose chain is `delegateGenesis`. -/
def delegateStore (m : Milestone) : Store :=
  (({} : Store).applyBlocks ⟨primitives, network m, 8000⟩ [delegateGenesis]).1

def KeyPair.vote (k : KeyPair) (height : Nat) (blockId : Text) : FinalityVote where
  height := height
  blockId := blockId
  publicKey := k.publicKey
  signature := k.schnorr (voteHash primitives height blockId)

/-- The vote of the first key for its block. -/
def honestVote : FinalityVote := first.vote 1 (delegateGenesis.id.getD "")

/-- The same vote with the block id in upper case. -/
def upperVote : FinalityVote :=
  { honestVote with blockId := ⟨honestVote.blockId.toList.map Char.toUpper⟩ }

/-- A vote of the first key for another block at the same height. -/
def secondVote : FinalityVote := first.vote 1 (genesis.id.getD "")

def proofOf (m : Milestone) (v w : FinalityVote) : EquivocationProof :=
  makeProof ⟨primitives, network m, 8000⟩ w v.blockId v.signature 1

end Reference

open Reference

/-- The proof from two votes is verified, and so is the one from two copies of a vote, which are
for one hash. -/
theorem delegateStore_proofs :
    ((delegateStore {}).verifyProof ⟨primitives, network {}, 8000⟩
        (proofOf {} honestVote secondVote) = .ok () ∧
      voteHash primitives (proofOf {} honestVote secondVote).height
          (proofOf {} honestVote secondVote).blockIds.1 ≠
        voteHash primitives (proofOf {} honestVote secondVote).height
          (proofOf {} honestVote secondVote).blockIds.2 ∧
      ¬ Recased (proofOf {} honestVote secondVote).blockIds) ∧
    ((FinalityTracker.record ⟨primitives, network {}, 8000⟩ { storage := delegateStore {} }
        [honestVote, upperVote]).proofs = [proofOf {} honestVote upperVote] ∧
      (delegateStore {}).verifyProof ⟨primitives, network {}, 8000⟩
        (proofOf {} honestVote upperVote) = .ok () ∧
      voteHash primitives (proofOf {} honestVote upperVote).height
          (proofOf {} honestVote upperVote).blockIds.1 =
        voteHash primitives (proofOf {} honestVote upperVote).height
          (proofOf {} honestVote upperVote).blockIds.2) := by
  decide +kernel

theorem verifyProof_signedTwo_delegate :
    SignedTwo primitives
      (fun key hash => ∃ sig, primitives.verifySchnorrLegacy hash sig key = .ok true)
      (proofOf {} honestVote secondVote) := by
  obtain ⟨⟨hok, hhash, hcase⟩, -⟩ := delegateStore_proofs
  have hiff := verifyProof_signedTwo ⟨primitives, network {}, 8000⟩ (delegateStore {})
    (proofOf {} honestVote secondVote)
    (fun key hash => ∃ sig, primitives.verifySchnorrLegacy hash sig key = .ok true)
    (fun _ sig _ hsig => ⟨sig, hsig⟩) (fun hsame => absurd hsame hhash) hok
  exact hiff.mpr hcase

/-- One vote, delivered twice in two letter cases, is proof enough for the node to
store. -/
theorem upper_case_copy_accepted :
    (FinalityTracker.record ⟨primitives, network {}, 8000⟩ { storage := delegateStore {} }
        [honestVote, upperVote]).proofs = [proofOf {} honestVote upperVote] ∧
    (delegateStore {}).verifyProof ⟨primitives, network {}, 8000⟩
        (proofOf {} honestVote upperVote) = .ok () ∧
    ∀ Signed, Unforgeable primitives Signed →
      ¬ SignedTwo primitives Signed (proofOf {} honestVote upperVote) := by
  obtain ⟨-, hproofs, hverified, hsame⟩ := delegateStore_proofs
  refine ⟨hproofs, hverified, ?_⟩
  rintro Signed - ⟨-, -, hdiffer⟩
  exact hdiffer hsame

end SthCore
