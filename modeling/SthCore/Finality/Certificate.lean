import SthCore.Finality.Equivocation
import SthCore.Lib.Quorum

/-!
Certificates that come from other nodes, and the delegates that two of them at
one height have in common.
-/

namespace SthCore

open SthCore.Lib

/-- The vote of one entry of a certificate. -/
def FinalityCert.vote (cert : FinalityCert) (publicKey signature : Text) : FinalityVote where
  height := cert.height
  blockId := cert.blockId
  publicKey := publicKey
  signature := signature

/-- The loop of `adopt_certificate` over the votes, in the order of the keys. -/
def checkVotes (P : Primitives) (set : List Text) (cert : FinalityCert) :
    List (Text × Text) → Except String Unit
  | [] => .ok ()
  | (publicKey, signature) :: rest =>
      if !set.contains publicKey then
        .error s!"vote by {publicKey} — not an active delegate of that round"
      else if !verifyVote P (cert.vote publicKey signature) then
        .error s!"invalid vote signature by {publicKey}"
      else checkVotes P set cert rest

/-- What `adopt_certificate` asks of the votes, against a set of active delegates. -/
def checkCertificate (E : Env) (set : List Text) (cert : FinalityCert) : Except String Unit :=
  let quorum := (E.network.milestone (max cert.height 1)).finalityQuorum.toNat
  if cert.votes.size < quorum then
    .error s!"certificate has {cert.votes.size} votes, quorum is {quorum}"
  else checkVotes E.prim set cert cert.votes.toList

namespace Store

/-- `finalized`, from the store alone. -/
def finalizedHeight (s : Store) : Option Nat := s.latestFinalityCert.map (·.height)

/-- The id of the stored block at a height. -/
def storedId (E : Env) (s : Store) (height : Nat) : Except Error (Option Text) :=
  (s.getBlockByHeight E height).map fun block => block.bind (·.id)

/-- `adopt_certificate`: whether the certificate was better than ours, and the store with it. -/
def adoptCertificate (E : Env) (s : Store) (cert : FinalityCert) : Except String (Bool × Store) := do
  checkCertificate E (s.activeSet E cert.height) cert
  match s.storedId E cert.height with
  | .error e => throw e.display
  | .ok ours =>
      if ours ≠ some cert.blockId then
        throw s!"block {cert.height} is not in our chain under id {cert.blockId}"
      if s.finalizedHeight.any fun height => decide (cert.height ≤ height) then
        return (false, s)
      return (true, s.putFinalityCert cert)

end Store

theorem checkVotes_ok {P : Primitives} {set : List Text} {cert : FinalityCert}
    {votes : List (Text × Text)} (h : checkVotes P set cert votes = .ok ()) :
    ∀ v ∈ votes, v.1 ∈ set ∧ verifyVote P (cert.vote v.1 v.2) = true := by
  induction votes with
  | nil => simp
  | cons vote rest ih =>
      obtain ⟨publicKey, signature⟩ := vote
      rw [checkVotes] at h
      split_ifs at h with hset hsig
      intro v hv
      rcases List.mem_cons.mp hv with rfl | hv
      · exact ⟨by simpa using hset, by simpa using hsig⟩
      · exact ih h v hv

/-- The keys that voted for a certificate. -/
def FinalityCert.voters (cert : FinalityCert) : Finset Text := cert.votes.keys.toFinset

theorem FinalityCert.card_voters (cert : FinalityCert) : cert.voters.card = cert.votes.size := by
  unfold FinalityCert.voters
  rw [List.toFinset_card_of_nodup Std.ExtTreeMap.nodup_keys, Std.ExtTreeMap.length_keys]

theorem checkCertificate_ok {E : Env} {set : List Text} {cert : FinalityCert}
    (h : checkCertificate E set cert = .ok ()) :
    (E.network.milestone (max cert.height 1)).finalityQuorum.toNat ≤ cert.voters.card ∧
    ∀ key ∈ cert.voters, key ∈ set ∧
      ∃ signature, verifyVote E.prim (cert.vote key signature) = true := by
  unfold checkCertificate at h
  simp only at h
  split_ifs at h with hfew
  have hvotes := checkVotes_ok h
  refine ⟨?_, ?_⟩
  · rw [cert.card_voters]
    exact not_lt.mp hfew
  · intro key hkey
    have hmem : key ∈ cert.votes := by
      rw [← Std.ExtTreeMap.mem_keys]
      exact List.mem_toFinset.mp hkey
    obtain ⟨signature, hsig⟩ := Option.isSome_iff_exists.mp
      (Std.ExtTreeMap.isSome_getElem?_iff_mem.mpr hmem)
    obtain ⟨hset, hverify⟩ := hvotes (key, signature)
      (Std.ExtTreeMap.mem_toList_iff_getElem?_eq_some.mpr hsig)
    exact ⟨hset, signature, hverify⟩

/-- The default quorum, as long as twice the number of delegates fits 32 bits. -/
theorem Milestone.finalityQuorum_default {m : Milestone} (hdefault : m.finality.quorum = 0)
    (hfits : m.activeDelegates.toNat * 2 < 2 ^ 32) :
    m.finalityQuorum.toNat = m.activeDelegates.toNat * 2 / 3 + 1 := by
  unfold Milestone.finalityQuorum
  rw [hdefault, if_neg (by decide), UInt32.toNat_add, UInt32.toNat_div, UInt32.toNat_mul]
  simp only [UInt32.reduceToNat, Nat.mod_eq_of_lt hfits]
  omega

/-- The owner of a key has signed votes for two certificates with different hashes. -/
def DoubleVoted (P : Primitives) (Signed : Text → Bytes → Prop) (c d : FinalityCert)
    (key : Text) : Prop :=
  Signed key (voteHash P c.height c.blockId) ∧ Signed key (voteHash P d.height d.blockId) ∧
  voteHash P c.height c.blockId ≠ voteHash P d.height d.blockId

/-- Two certificates of one height whose votes pass the checks against one set of delegates
have more than a third of the set in common, and these have signed both. -/
theorem certificates_double_voted (E : Env) (Signed : Text → Bytes → Prop) (set : List Text)
    (c d : FinalityCert) (hsigned : Unforgeable E.prim Signed) (hset : set.Nodup)
    (hheight : c.height = d.height)
    (hquorum : (E.network.milestone (max c.height 1)).finalityQuorum.toNat =
      set.length * 2 / 3 + 1)
    (hc : checkCertificate E set c = .ok ()) (hd : checkCertificate E set d = .ok ())
    (hhash : voteHash E.prim c.height c.blockId ≠ voteHash E.prim d.height d.blockId) :
    ∃ keys : Finset Text, set.length / 3 + 1 ≤ keys.card ∧
      ∀ key ∈ keys, key ∈ set ∧ DoubleVoted E.prim Signed c d key := by
  obtain ⟨hcount, hvoters⟩ := checkCertificate_ok hc
  obtain ⟨hcount', hvoters'⟩ := checkCertificate_ok hd
  have hcard : set.toFinset.card = set.length := List.toFinset_card_of_nodup hset
  have hsub : c.voters ⊆ set.toFinset := fun key hkey =>
    List.mem_toFinset.mpr (hvoters key hkey).1
  have hsub' : d.voters ⊆ set.toFinset := fun key hkey =>
    List.mem_toFinset.mpr (hvoters' key hkey).1
  have hboth := quorum_inter hsub hsub' (by rw [hcard, ← hquorum]; exact hcount)
    (by rw [hcard, ← hquorum, hheight]; exact hcount')
  rw [hcard] at hboth
  refine ⟨c.voters ∩ d.voters, hboth, ?_⟩
  intro key hkey
  obtain ⟨hmem, hmem'⟩ := Finset.mem_inter.mp hkey
  obtain ⟨hin, sig, hverify⟩ := hvoters key hmem
  obtain ⟨-, sig', hverify'⟩ := hvoters' key hmem'
  obtain ⟨-, raw, hraw, -⟩ := verifyVote_iff.mp hverify
  obtain ⟨-, raw', hraw', -⟩ := verifyVote_iff.mp hverify'
  exact ⟨hin, hsigned _ _ _ hraw, hsigned _ _ _ hraw', hhash⟩

namespace Reference

/-- Three delegates in a round. -/
def threeDelegates : Milestone := { activeDelegates := 3 }

/-- A certificate with the votes of the three key pairs. -/
def certificateOf (height : Nat) (blockId : Text) : FinalityCert where
  height := height
  blockId := blockId
  votes := .ofList ([first, second, third].map fun k =>
    (k.publicKey, (k.vote height blockId).signature)) compare

end Reference

open Reference

theorem certificates_double_voted_three : ∃ keys : Finset Text, 3 / 3 + 1 ≤ keys.card ∧
    ∀ key ∈ keys, key ∈ [first, second, third].map (·.publicKey) ∧
      DoubleVoted primitives
        (fun key hash => ∃ sig, primitives.verifySchnorrLegacy hash sig key = .ok true)
        (certificateOf 1 (delegateGenesis.id.getD "")) (certificateOf 1 (genesis.id.getD "")) key := by
  obtain ⟨hone, htwo, hhash, hset, hquorum⟩ :
      checkCertificate ⟨primitives, network threeDelegates, 8000⟩
        ([first, second, third].map (·.publicKey))
        (certificateOf 1 (delegateGenesis.id.getD "")) = .ok () ∧
      checkCertificate ⟨primitives, network threeDelegates, 8000⟩
        ([first, second, third].map (·.publicKey))
        (certificateOf 1 (genesis.id.getD "")) = .ok () ∧
      voteHash primitives 1 (delegateGenesis.id.getD "") ≠
        voteHash primitives 1 (genesis.id.getD "") ∧
      ([first, second, third].map (·.publicKey)).Nodup ∧
      ((network threeDelegates).milestone 1).finalityQuorum.toNat = 3 := by
    decide +kernel
  -- for any three keys and any two ids, so that these are not computed once more
  have hdouble : ∀ (set : List Text) (one two : Text), set.length = 3 → set.Nodup →
      checkCertificate ⟨primitives, network threeDelegates, 8000⟩ set (certificateOf 1 one) =
        .ok () →
      checkCertificate ⟨primitives, network threeDelegates, 8000⟩ set (certificateOf 1 two) =
        .ok () →
      voteHash primitives 1 one ≠ voteHash primitives 1 two →
      ∃ keys : Finset Text, 3 / 3 + 1 ≤ keys.card ∧ ∀ key ∈ keys, key ∈ set ∧
        DoubleVoted primitives
          (fun key hash => ∃ sig, primitives.verifySchnorrLegacy hash sig key = .ok true)
          (certificateOf 1 one) (certificateOf 1 two) key := by
    intro set one two hlength hset hone htwo hhash
    have hshared := certificates_double_voted ⟨primitives, network threeDelegates, 8000⟩
      (fun key hash => ∃ sig, primitives.verifySchnorrLegacy hash sig key = .ok true) set
      (certificateOf 1 one) (certificateOf 1 two) (fun _ sig _ hsig => ⟨sig, hsig⟩) hset rfl
      (by rw [hlength]; exact hquorum) hone htwo hhash
    rwa [hlength] at hshared
  exact hdouble _ _ _ rfl hset hone htwo hhash

end SthCore
