import SthCore.Finality.Interleaved
import SthCore.Lib.Runs

/-!
The certificates that the nodes of a network write.  A node signs for one block
at a height, and a certificate needs more than two thirds of the set, so that
no two certificates of one height are for different blocks.
-/

namespace SthCore

open SthCore.Lib

namespace FinalityNode

/-- The votes that a step signs. -/
def signs (E : Env) (n : FinalityNode) : FinalityAction → List FinalityVote
  | .own set keys height blockId =>
      ((n.voter.signVotes E.prim set keys height blockId).map (·.2)).getD []
  | _ => []

/-- The certificates that a step writes. -/
def writes (n : FinalityNode) : FinalityAction → List FinalityCert
  | .write k => ((n.call k .clear).map (·.cert)).toList
  | _ => []

end FinalityNode

/-- The highest tip at which votes were pruned, after a step. -/
def FinalityAction.pruned (highest : Nat) : FinalityAction → Nat
  | .prune tip => max highest tip
  | _ => highest

/-- A node with the highest tip at which it pruned, what its keys have signed and the certificates
that it has written, each since its start. -/
structure VotingNode where
  node : FinalityNode
  highest : Nat := 0
  signed : List FinalityVote := []
  written : List FinalityCert := []

/-- The sets that a node reads are those that the nodes agree on, and its keys are asked again for
a height inside the window only. -/
def Settled (E : Env) (sets : Nat → List Text) (v : VotingNode) : FinalityAction → Prop
  | .vote _ set w => set = sets w.height
  | .own set _ height _ => set = sets height ∧ AskedInWindow v.highest v.signed height
  | .adopt cert => v.node.store.activeSet E cert.height = sets cert.height
  | _ => True

instance (E : Env) (sets : Nat → List Text) (v : VotingNode) (a : FinalityAction) :
    Decidable (Settled E sets v a) := by
  unfold Settled AskedInWindow InWindow
  split <;> infer_instance

namespace VotingNode

def start (s : Store) : VotingNode := { node := { voter := { tracker := { storage := s } } } }

def step (E : Env) (v : VotingNode) (a : FinalityAction) : Option VotingNode :=
  (v.node.step E a).map fun n =>
    { node := n
      highest := a.pruned v.highest
      signed := v.signed ++ v.node.signs E a
      written := v.written ++ v.node.writes a }

end VotingNode

/-- A vote that verifies, or one that the keys of the node have signed. -/
def Attested (P : Primitives) (signed : List FinalityVote) (v : FinalityVote) : Prop :=
  verifyVote P v = true ∨ v ∈ signed

/-- The collected signatures are of keys in the sets, and of attested votes. -/
def Collected (P : Primitives) (sets : Nat → List Text) (signed : List FinalityVote)
    (t : FinalityTracker) : Prop :=
  ∀ (height : Nat) (blockId publicKey signature : Text),
    (t.signaturesOf height blockId)[publicKey]? = some signature →
      publicKey ∈ sets height ∧ Attested P signed { height, blockId, publicKey, signature }

/-- A quorum of the set has attested the certificate. -/
structure Backed (E : Env) (sets : Nat → List Text) (signed : List FinalityVote)
    (cert : FinalityCert) : Prop where
  quorum : (E.network.milestone (max cert.height 1)).finalityQuorum.toNat ≤ cert.voters.card
  attested : ∀ key ∈ cert.voters, key ∈ sets cert.height ∧
    ∃ signature, Attested E.prim signed (cert.vote key signature)

section

variable {E : Env} {P : Primitives} {sets : Nat → List Text} {signed more : List FinalityVote}
  {t : FinalityTracker} {cert : FinalityCert}

theorem Attested.mono {v : FinalityVote} (h : Attested P signed v) :
    Attested P (signed ++ more) v :=
  h.imp id fun hv => List.mem_append_left _ hv

theorem Backed.mono (h : Backed E sets signed cert) : Backed E sets (signed ++ more) cert := by
  refine ⟨h.quorum, ?_⟩
  intro key hkey
  obtain ⟨hset, signature, hattested⟩ := h.attested key hkey
  exact ⟨hset, signature, hattested.mono⟩

theorem signaturesOf_collect (t : FinalityTracker) (v : FinalityVote) (height : Nat)
    (blockId key : Text) :
    ((Voter.collect t v).signaturesOf height blockId)[key]? =
      if v.height = height ∧ v.blockId = blockId ∧ v.publicKey = key then some v.signature
      else (t.signaturesOf height blockId)[key]? := by
  unfold FinalityTracker.signaturesOf Voter.collect
  simp only
  rw [OrderedMap.getD_upsert]
  by_cases hheight : v.height = height
  · subst hheight
    rw [if_pos rfl, OrderedMap.getD_upsert]
    by_cases hid : v.blockId = blockId
    · subst hid
      rw [if_pos rfl, OrderedMap.getElem?_insert_eq]
      simp
    · rw [if_neg hid, if_neg fun h => hid h.2.1]
  · rw [if_neg hheight, if_neg fun h => hheight h.1]

theorem signaturesOf_prune {tip height : Nat} {blockId key signature : Text}
    (h : ((t.prune tip).signaturesOf height blockId)[key]? = some signature) :
    (t.signaturesOf height blockId)[key]? = some signature := by
  unfold FinalityTracker.signaturesOf FinalityTracker.prune at h
  simp only at h
  rw [Std.ExtTreeMap.getElem?_filter'] at h
  cases hat : t.votes[height]? with
  | none =>
      rw [hat] at h
      simp at h
  | some atHeight =>
      rw [hat, Option.filter_some] at h
      split_ifs at h with hkept
      · unfold FinalityTracker.signaturesOf
        rw [hat]
        exact h
      · simp at h

namespace Collected

theorem mono (h : Collected P sets signed t) : Collected P sets (signed ++ more) t := by
  intro height blockId publicKey signature hsig
  obtain ⟨hset, hattested⟩ := h height blockId publicKey signature hsig
  exact ⟨hset, hattested.mono⟩

theorem collect (h : Collected P sets signed t) {v : FinalityVote}
    (hset : v.publicKey ∈ sets v.height) (hattested : Attested P signed v) :
    Collected P sets signed (Voter.collect t v) := by
  intro height blockId publicKey signature hsig
  rw [signaturesOf_collect] at hsig
  split_ifs at hsig with hnew
  · obtain ⟨rfl, rfl, rfl⟩ := hnew
    injection hsig with hsig
    subst hsig
    exact ⟨hset, hattested⟩
  · exact h height blockId publicKey signature hsig

theorem collectAll {votes : List FinalityVote} (h : Collected P sets signed t)
    (hall : ∀ v ∈ votes, v.publicKey ∈ sets v.height ∧ Attested P signed v) :
    Collected P sets signed (votes.foldl Voter.collect t) := by
  induction votes generalizing t with
  | nil => exact h
  | cons v votes ih =>
      obtain ⟨hset, hattested⟩ := hall v List.mem_cons_self
      exact ih (h.collect hset hattested) fun w hw => hall w (List.mem_cons_of_mem v hw)

theorem prune (h : Collected P sets signed t) (tip : Nat) :
    Collected P sets signed (t.prune tip) :=
  fun height blockId publicKey signature hsig =>
    h height blockId publicKey signature (signaturesOf_prune hsig)

/-- The certificate that `try_certify` makes of collected votes. -/
theorem quorate (h : Collected E.prim sets signed t) {height : Nat} {blockId : Text}
    (hcert : t.quorate E height blockId = some cert) : Backed E sets signed cert := by
  unfold FinalityTracker.quorate at hcert
  simp only at hcert
  split_ifs at hcert with hfinal hfew
  injection hcert with hcert
  subst hcert
  rw [not_or, not_lt] at hfew
  refine ⟨?_, ?_⟩
  · rw [FinalityCert.card_voters]
    exact hfew.1
  · intro key hkey
    have hmem : key ∈ t.signaturesOf height blockId := by
      rw [← Std.ExtTreeMap.mem_keys]
      exact List.mem_toFinset.mp hkey
    obtain ⟨signature, hsig⟩ := Option.isSome_iff_exists.mp
      (Std.ExtTreeMap.isSome_getElem?_iff_mem.mpr hmem)
    obtain ⟨hset, hattested⟩ := h height blockId key signature hsig
    exact ⟨hset, signature, hattested⟩

end Collected

/-- The certificate that `adopt_certificate` accepts. -/
theorem Backed.of_check (h : checkCertificate E (sets cert.height) cert = .ok ()) :
    Backed E sets signed cert := by
  obtain ⟨hquorum, hvoters⟩ := checkCertificate_ok h
  refine ⟨hquorum, ?_⟩
  intro key hkey
  obtain ⟨hset, signature, hverify⟩ := hvoters key hkey
  exact ⟨hset, signature, .inl hverify⟩

end

theorem signVotes_tracker {P : Primitives} {n signed : Voter} {set : List Text}
    {keys : List DelegateKey} {height : Nat} {blockId : Text} {votes : List FinalityVote}
    (h : n.signVotes P set keys height blockId = some (signed, votes)) :
    signed.tracker = votes.foldl Voter.collect n.tracker ∧ ∀ v ∈ votes, v.publicKey ∈ set := by
  unfold Voter.signVotes at h
  split_ifs at h
  injection h with h
  obtain ⟨rfl, rfl⟩ := Prod.mk.inj h
  refine ⟨rfl, ?_⟩
  intro v hv
  obtain ⟨k, hk, hvote⟩ := List.mem_filterMap.mp hv
  obtain ⟨signature, -, rfl⟩ := Option.map_eq_some_iff.mp hvote
  simpa using (List.mem_filter.mp hk).2

namespace VotingNode

/-- What holds in every state of a run: signatures, calls and certificates are attested, and no
block was voted for beside another one. -/
structure Vouched (E : Env) (sets : Nat → List Text) (v : VotingNode) : Prop where
  votes : Collected E.prim sets v.signed v.node.voter.tracker
  calls : ∀ c ∈ v.node.calls, Backed E sets v.signed c.cert
  written : ∀ cert ∈ v.written, Backed E sets v.signed cert
  remembered : Remembered v.node.voter v.highest v.signed

namespace Vouched

variable {E : Env} {sets : Nat → List Text} {v : VotingNode}

theorem start (s : Store) : (VotingNode.start s).Vouched E sets := by
  refine ⟨?_, ?_, ?_, ?_, ?_⟩
  · intro height blockId publicKey signature hsig
    change ((((∅ : OrderedMap Nat (OrderedMap Text (OrderedMap Text Text)))[height]?.getD
      ∅)[blockId]?).getD ∅)[publicKey]? = some signature at hsig
    simp at hsig
  · rintro c ⟨⟩
  · rintro cert ⟨⟩
  · rintro w ⟨⟩
  · rintro w ⟨⟩

/-- A step that signs, writes and prunes nothing. -/
theorem quiet (h : v.Vouched E sets) {n : FinalityNode}
    (hvotes : Collected E.prim sets v.signed n.voter.tracker)
    (hown : n.voter.own = v.node.voter.own)
    (hcalls : ∀ c ∈ n.calls, Backed E sets v.signed c.cert) :
    Vouched E sets
      { node := n
        highest := v.highest
        signed := v.signed ++ []
        written := v.written ++ [] } := by
  rw [List.append_nil, List.append_nil]
  refine ⟨hvotes, hcalls, h.written, ?_, h.remembered.once⟩
  intro w hw hwindow
  rw [hown]
  exact h.remembered.own w hw hwindow

theorem call (h : v.Vouched E sets) {k : Nat} {stage : Stage} {c : CertCall}
    (hc : v.node.call k stage = some c) : Backed E sets v.signed c.cert :=
  h.calls c (List.mem_of_getElem? (call_eq_some hc).1)

theorem begun (h : v.Vouched E sets) {c : CertCall} (hc : Backed E sets v.signed c.cert) :
    ∀ d ∈ c :: v.node.calls, Backed E sets v.signed d.cert := by
  intro d hd
  rcases List.mem_cons.mp hd with rfl | hd
  · exact hc
  · exact h.calls d hd

theorem moved (h : v.Vouched E sets) {k : Nat} {stage : Stage} {c d : CertCall}
    (hc : v.node.call k stage = some c) (hcert : d.cert = c.cert) :
    ∀ e ∈ v.node.calls.set k d, Backed E sets v.signed e.cert := by
  intro e he
  rcases List.mem_or_eq_of_mem_set he with he | rfl
  · exact h.calls e he
  · rw [hcert]
    exact h.call hc

theorem ended (h : v.Vouched E sets) (k : Nat) :
    ∀ d ∈ v.node.calls.eraseIdx k, Backed E sets v.signed d.cert :=
  fun d hd => h.calls d (List.mem_of_mem_eraseIdx hd)

theorem own (h : v.Vouched E sets) {keys : List DelegateKey} {height : Nat} {blockId : Text}
    {voter : Voter} {votes : List FinalityVote}
    (hasked : AskedInWindow v.highest v.signed height)
    (hsign : v.node.voter.signVotes E.prim (sets height) keys height blockId =
      some (voter, votes)) :
    Vouched E sets
      { node := { v.node with voter }
        highest := v.highest
        signed := v.signed ++ votes
        written := v.written ++ [] } := by
  rw [List.append_nil]
  obtain ⟨htracker, hkeys⟩ := signVotes_tracker hsign
  have hvotes := signVotes_vote hsign
  refine ⟨?_, fun c hc => (h.calls c hc).mono, fun c hc => (h.written c hc).mono,
    h.remembered.sign hasked (signVotes_cases hsign)⟩
  show Collected E.prim sets (v.signed ++ votes) voter.tracker
  rw [htracker]
  refine h.votes.mono.collectAll ?_
  intro w hw
  rw [(hvotes w hw).1]
  exact ⟨hkeys w hw, .inr (List.mem_append_right _ hw)⟩

theorem write (h : v.Vouched E sets) {k : Nat} {c : CertCall}
    (hc : v.node.call k .clear = some c) (s : Store) :
    Vouched E sets
      { node :=
          { voter := v.node.voter.withStore s
            calls := v.node.calls.eraseIdx k
            rolling := v.node.rolling }
        highest := v.highest
        signed := v.signed ++ []
        written := v.written ++ [c.cert] } := by
  rw [List.append_nil]
  refine ⟨h.votes, h.ended k, ?_, h.remembered.own, h.remembered.once⟩
  intro cert hcert
  rcases List.mem_append.mp hcert with hold | hnew
  · exact h.written cert hold
  · rw [List.mem_singleton.mp hnew]
    exact h.call hc

/-- One step of a node whose sets are those agreed on. -/
theorem step (h : v.Vouched E sets) {a : FinalityAction} {v' : VotingNode}
    (hgood : Settled E sets v a) (hstep : v.step E a = some v') : v'.Vouched E sets := by
  obtain ⟨n, hn, rfl⟩ := Option.map_eq_some_iff.mp hstep
  cases a with
  | vote tip set w =>
      injection hn with hn
      subst hn
      refine h.quiet ?_ rfl h.calls
      dsimp only
      split_ifs with hpass
      · refine h.votes.collect ?_ (.inl hpass.2.2)
        rw [← show set = sets w.height from hgood]
        simpa using hpass.2.1
      · exact h.votes
  | prove p =>
      obtain ⟨adopted, -, rfl⟩ := Option.map_eq_some_iff.mp hn
      exact h.quiet h.votes rfl h.calls
  | prune tip =>
      injection hn with hn
      subst hn
      change Vouched E sets ⟨_, max v.highest tip, v.signed ++ [], v.written ++ []⟩
      rw [List.append_nil, List.append_nil]
      exact ⟨h.votes.prune tip, h.calls, h.written, h.remembered.prune tip rfl⟩
  | own set keys height blockId =>
      obtain ⟨hset, hasked⟩ := hgood
      obtain ⟨⟨voter, votes⟩, hsign, rfl⟩ := Option.map_eq_some_iff.mp hn
      have hsigns : v.node.signs E (.own set keys height blockId) = votes := by
        simp [FinalityNode.signs, hsign]
      rw [hsigns]
      exact h.own hasked (hset ▸ hsign)
  | certify height blockId =>
      obtain ⟨cert, hcert, rfl⟩ := Option.map_eq_some_iff.mp hn
      exact h.quiet h.votes rfl (h.begun (h.votes.quorate hcert))
  | adopt cert =>
      obtain ⟨checked, hcheck, rfl⟩ := Option.map_eq_some_iff.mp hn
      have hok : checkCertificate E (sets cert.height) cert = .ok () := by
        rw [← show v.node.store.activeSet E cert.height = sets cert.height from hgood]
        cases hresult : checkCertificate E (v.node.store.activeSet E cert.height) cert with
        | error e =>
            rw [hresult] at hcheck
            cases hcheck
        | ok _ => rfl
      exact h.quiet h.votes rfl (h.begun (.of_check hok))
  | block k =>
      obtain ⟨c, hc, hn⟩ := Option.bind_eq_some_iff.mp hn
      rw [Option.ite_none_right_eq_some] at hn
      obtain ⟨-, hn⟩ := hn
      injection hn with hn
      subst hn
      exact h.quiet h.votes rfl (h.moved hc rfl)
  | compare k =>
      obtain ⟨c, hc, hn⟩ := Option.bind_eq_some_iff.mp hn
      rw [Option.ite_none_left_eq_some] at hn
      obtain ⟨-, hn⟩ := hn
      injection hn with hn
      subst hn
      exact h.quiet h.votes rfl (h.moved hc rfl)
  | write k =>
      obtain ⟨c, hc, rfl⟩ := Option.map_eq_some_iff.mp hn
      have hwrites : v.node.writes (.write k) = [c.cert] := by
        simp [FinalityNode.writes, hc]
      rw [hwrites]
      exact h.write hc _
  | leave k =>
      injection hn with hn
      subst hn
      exact h.quiet h.votes rfl (h.ended k)
  | apply blocks forceUndo =>
      simp only [FinalityNode.step, Option.ite_none_right_eq_some, Option.some.injEq] at hn
      obtain ⟨-, rfl⟩ := hn
      exact h.quiet h.votes rfl h.calls
  | rollback =>
      simp only [FinalityNode.step] at hn
      split at hn
      · cases hn
      · split at hn
        · injection hn with hn
          subst hn
          exact h.quiet h.votes rfl h.calls
        · split at hn
          · cases hn
          · injection hn with hn
            subst hn
            exact h.quiet h.votes rfl h.calls
  | drop =>
      obtain ⟨r, -, hn⟩ := Option.bind_eq_some_iff.mp hn
      obtain ⟨height, -, rfl⟩ := Option.map_eq_some_iff.mp hn
      exact h.quiet h.votes rfl h.calls
  | revert =>
      obtain ⟨r, -, hn⟩ := Option.bind_eq_some_iff.mp hn
      simp only [Option.ite_none_right_eq_some, Option.some.injEq] at hn
      obtain ⟨-, rfl⟩ := hn
      exact h.quiet h.votes rfl h.calls

end Vouched

/-- A state of a node that started without votes. -/
def Ran (E : Env) (sets : Nat → List Text) (v : VotingNode) : Prop :=
  ∃ s, Reaches (VotingNode.step E) (Settled E sets) (start s) v

theorem Ran.vouched {E : Env} {sets : Nat → List Text} {v : VotingNode} (h : v.Ran E sets) :
    v.Vouched E sets := by
  obtain ⟨s, hrun⟩ := h
  exact hrun.invariant (.start s) fun _ _ _ hv hgood hstep => hv.step hgood hstep

/-- What the owner of a key signed for a height are votes of this node. -/
def Owns (P : Primitives) (Signed : Text → Bytes → Prop) (height : Nat) (v : VotingNode)
    (key : Text) : Prop :=
  ∀ id, Signed key (voteHash P height id) → ∃ w ∈ v.signed, w.publicKey = key ∧
    w.height = height ∧ voteHash P height w.blockId = voteHash P height id

end VotingNode

theorem Attested.hash {P : Primitives} {Signed : Text → Bytes → Prop}
    {signed : List FinalityVote} {v : FinalityVote} (h : Attested P signed v)
    (hforge : Unforgeable P Signed)
    (hown : ∀ w ∈ signed, Signed w.publicKey (voteHash P w.height w.blockId)) :
    Signed v.publicKey (voteHash P v.height v.blockId) := by
  rcases h with hverify | hmem
  · obtain ⟨-, raw, hraw, -⟩ := verifyVote_iff.mp hverify
    exact hforge _ _ _ hraw
  · exact hown v hmem

/-- Certificates of one height that nodes of a network have written are for one block, as long as
no more than a third of the set votes elsewhere than with one node. -/
theorem certificates_agree {α : Type} (E : Env) (sets : Nat → List Text)
    (Signed : Text → Bytes → Prop) (faulty : Finset Text) (height : Nat) (net : α → VotingNode)
    (hrun : ∀ a, (net a).Ran E sets) (hforge : Unforgeable E.prim Signed)
    (hown : ∀ a, ∀ v ∈ (net a).signed, Signed v.publicKey (voteHash E.prim v.height v.blockId))
    (howner : ∀ key ∈ sets height, key ∉ faulty → ∃ a, (net a).Owns E.prim Signed height key)
    (hset : (sets height).Nodup)
    (hquorum : (E.network.milestone (max height 1)).finalityQuorum.toNat =
      (sets height).length * 2 / 3 + 1)
    (hfaulty : ((sets height).toFinset ∩ faulty).card ≤ (sets height).length / 3) (a b : α)
    (c d : FinalityCert) (hc : c ∈ (net a).written) (hd : d ∈ (net b).written)
    (hcheight : c.height = height) (hdheight : d.height = height) :
    voteHash E.prim height c.blockId = voteHash E.prim height d.blockId := by
  have hvouched : ∀ a, (net a).Vouched E sets := fun a => (hrun a).vouched
  have hbacked : ∀ (a : α) (cert : FinalityCert), cert ∈ (net a).written → cert.height = height →
      cert.voters ⊆ (sets height).toFinset ∧
      (sets height).toFinset.card * 2 / 3 + 1 ≤ cert.voters.card ∧
      ∀ key ∈ cert.voters, Signed key (voteHash E.prim height cert.blockId) := by
    rintro a cert hcert rfl
    obtain ⟨hmany, hattested⟩ := (hvouched a).written cert hcert
    refine ⟨?_, ?_, ?_⟩
    · intro key hkey
      exact List.mem_toFinset.mpr (hattested key hkey).1
    · rw [List.toFinset_card_of_nodup hset, ← hquorum]
      exact hmany
    · intro key hkey
      obtain ⟨-, signature, hvote⟩ := hattested key hkey
      exact hvote.hash hforge (hown a)
  obtain ⟨hsub, hmany, hsigned⟩ := hbacked a c hc hcheight
  obtain ⟨hsub', hmany', hsigned'⟩ := hbacked b d hd hdheight
  rw [← List.toFinset_card_of_nodup hset] at hfaulty
  obtain ⟨key, hkey, hkey', hhonest⟩ := exists_mem_quorums hsub hsub' hmany hmany' hfaulty
  -- the node of the key has voted for both, at one height
  obtain ⟨owner, howns⟩ := howner key (List.mem_toFinset.mp (hsub hkey)) hhonest
  obtain ⟨v, hv, -, hvheight, hvhash⟩ := howns c.blockId (hsigned key hkey)
  obtain ⟨w, hw, -, hwheight, hwhash⟩ := howns d.blockId (hsigned' key hkey')
  have hsame := (hvouched owner).remembered.once v hv w hw (hvheight.trans hwheight.symm)
  rw [← hvhash, ← hwhash, hsame]

namespace Reference

def tipId : Text := tipBlock.id.getD ""

/-- The vote of the delegate for the tip. -/
def tipVote : FinalityVote where
  height := 2
  blockId := tipId
  publicKey := first.publicKey
  signature := first.schnorr (voteHash primitives 2 tipId)

def tipCertificate : FinalityCert where
  height := 2
  blockId := tipId
  votes := .ofList [(tipVote.publicKey, tipVote.signature)] compare

/-- The delegate has signed nothing but its vote for the tip. -/
def SignedTip (key : Text) (hash : Bytes) : Prop :=
  key = tipVote.publicKey ∧ hash = voteHash primitives 2 tipId

instance (key : Text) (hash : Bytes) : Decidable (SignedTip key hash) :=
  inferInstanceAs (Decidable (_ ∧ _))

/-- The signature of that vote, and no other, is valid. -/
def tipEnv : Env where
  prim :=
    { primitives with
      verifySchnorrLegacy := fun hash sig key =>
        .ok (decide (SignedTip key hash ∧ Hex.decode tipVote.signature = .ok sig)) }
  network := network hardRound
  nowMs := 8000

theorem tipVote_hash :
    voteHash tipEnv.prim 2 tipVote.blockId = voteHash primitives 2 tipId := by
  have hsha : tipEnv.prim.sha256 = primitives.sha256 := rfl
  have hid : tipVote.blockId = tipId := by simp only [tipVote]
  unfold voteHash
  rw [hsha, hid]

def soleSet (_ : Nat) : List Text := [first.publicKey]

/-- A node that has the certificate from another one. -/
def adoptedActions : List FinalityAction :=
  [.apply [delegateGenesis] true, .apply [tipBlock] true, .adopt tipCertificate, .block 0,
    .compare 0, .write 0]

end Reference

open Reference

theorem certificates_agree_tip : ∃ (v w : VotingNode) (c d : FinalityCert),
    c ∈ v.written ∧ d ∈ w.written ∧ c.height = 2 ∧ d.height = 2 ∧
    voteHash tipEnv.prim 2 c.blockId = voteHash tipEnv.prim 2 d.blockId := by
  obtain ⟨hvoted, hadopted, hquorum⟩ :
      (follow (VotingNode.step tipEnv) (Settled tipEnv soleSet) (.start {})
        (votedActions ++ [.write 0])).any (fun v =>
          decide (v.signed = [tipVote]) && v.written.any fun c => decide (c.height = 2)) = true ∧
      (follow (VotingNode.step tipEnv) (Settled tipEnv soleSet) (.start {})
        adoptedActions).any (fun v =>
          decide (v.signed = []) && v.written.any fun c => decide (c.height = 2)) = true ∧
      (tipEnv.network.milestone 2).finalityQuorum.toNat = 1 := by
    decide +kernel
  obtain ⟨v, hv, hvfacts⟩ := (Option.any_eq_true _ _).mp hvoted
  obtain ⟨w, hw, hwfacts⟩ := (Option.any_eq_true _ _).mp hadopted
  simp only [Bool.and_eq_true, decide_eq_true_eq, List.any_eq_true] at hvfacts hwfacts
  obtain ⟨hvsigned, c, hc, hcheight⟩ := hvfacts
  obtain ⟨hwsigned, d, hd, hdheight⟩ := hwfacts
  refine ⟨v, w, c, d, hc, hd, hcheight, hdheight, ?_⟩
  let net : Bool → VotingNode := fun voted => if voted then v else w
  refine certificates_agree tipEnv soleSet SignedTip ∅ 2 net ?_ ?_ ?_ ?_ ?_ hquorum ?_ true false
    c d hc hd hcheight hdheight
  · rintro (_ | _)
    · exact ⟨_, .of_follow hw⟩
    · exact ⟨_, .of_follow hv⟩
  · intro hash sig key hverify
    injection hverify with hverify
    exact (of_decide_eq_true hverify).1
  · rintro (_ | _) vote hvote
    · rw [show (net false).signed = [] from hwsigned] at hvote
      cases hvote
    · rw [show (net true).signed = [tipVote] from hvsigned, List.mem_singleton] at hvote
      subst hvote
      rw [show tipVote.height = 2 from rfl, tipVote_hash]
      exact ⟨rfl, rfl⟩
  · intro key _ _
    refine ⟨true, ?_⟩
    rintro id ⟨rfl, hhash⟩
    refine ⟨tipVote, ?_, rfl, rfl, tipVote_hash.trans hhash.symm⟩
    rw [show (net true).signed = [tipVote] from hvsigned]
    exact List.mem_singleton_self tipVote
  · exact List.nodup_singleton _
  · simp

end SthCore
