import SthCore.Finality.Slashing
import SthCore.Lib.Flood

/-!
Proofs of equivocation in a network of nodes.  A node tells all others of a proof
when it adopts it, and never again: in the end every node that accepts the proofs
knows the same ones.
-/

namespace SthCore

open SthCore.Lib

namespace Store

variable {s s' : Store} {p q : EquivocationProof} {publicKey : Text}

theorem equivocation_eq_some (hkeyed : s.ProofsKeyed) :
    s.equivocation publicKey = some q ↔ s.equivocations[(publicKey, q.height)]? = some q ∧
      ∀ height r, s.equivocations[(publicKey, height)]? = some r → height ≤ q.height := by
  have hentry : ∀ e ∈ s.equivocations.toList.filter (fun e => e.1.1 = publicKey),
      e.1 = (publicKey, e.2.height) := by
    intro e he
    obtain ⟨hmem, hkey⟩ := List.mem_filter.mp he
    have hown := hkeyed e hmem
    rw [decide_eq_true_eq, hown] at hkey
    rw [hown, ← hkey]
  have hlater : ∀ {last : (Text × Nat) × EquivocationProof},
      (s.equivocations.toList.filter fun e => e.1.1 = publicKey).getLast? = some last →
      s.equivocations[(publicKey, last.2.height)]? = some last.2 ∧
        ∀ height r, s.equivocations[(publicKey, height)]? = some r → height ≤ last.2.height := by
    intro last hlast
    have hmem := List.mem_of_getLast? hlast
    have hown := hentry last hmem
    constructor
    · rw [← hown]
      exact Std.ExtTreeMap.mem_toList_iff_getElem?_eq_some.mp (List.mem_filter.mp hmem).1
    · intro height r hr
      have hr' := Std.ExtTreeMap.mem_toList_iff_getElem?_eq_some.mpr hr
      rcases OrderedMap.le_getLast_filter s.equivocations _ hr' (by simp) hlast with heq | hlt
      · exact ((congrArg (fun e => e.1.2) heq).trans (congrArg Prod.snd hown)).le
      · rw [hown] at hlt
        change (compare publicKey publicKey).then (compare height last.2.height) = .lt at hlt
        rw [Std.ReflOrd.compare_self, Ordering.then, Nat.compare_eq_lt] at hlt
        exact hlt.le
  unfold equivocation
  rw [Option.map_eq_some_iff]
  constructor
  · rintro ⟨last, hlast, rfl⟩
    exact hlater hlast
  · rintro ⟨hq, hall⟩
    have hmem : ((publicKey, q.height), q) ∈
        s.equivocations.toList.filter fun e => e.1.1 = publicKey :=
      List.mem_filter.mpr ⟨Std.ExtTreeMap.mem_toList_iff_getElem?_eq_some.mpr hq, by simp⟩
    obtain ⟨last, hlast⟩ := Option.isSome_iff_exists.mp
      (List.getLast?_isSome.mpr (List.ne_nil_of_mem hmem))
    obtain ⟨hown, hlast'⟩ := hlater hlast
    have hheight : last.2.height = q.height :=
      le_antisymm (hall _ _ hown) (hlast' _ _ hq)
    rw [hheight, hq] at hown
    exact ⟨last, hlast, (Option.some.inj hown).symm⟩

theorem equivocation_eq_none :
    s.equivocation publicKey = none ↔ ∀ height : Nat, s.equivocations[(publicKey, height)]? = none := by
  unfold equivocation
  rw [Option.map_eq_none_iff, List.getLast?_eq_none_iff, List.filter_eq_nil_iff]
  constructor
  · intro hnone height
    refine Option.eq_none_iff_forall_ne_some.mpr ?_
    intro r hr
    exact hnone _ (Std.ExtTreeMap.mem_toList_iff_getElem?_eq_some.mpr hr) (by simp)
  · rintro hnone ⟨⟨key, height⟩, r⟩ he hkey
    rw [decide_eq_true_eq] at hkey
    subst hkey
    have hsome := Std.ExtTreeMap.mem_toList_iff_getElem?_eq_some.mp he
    rw [hnone height] at hsome
    cases hsome

/-- The height of the proof that is known against a delegate, counted from 1. -/
def proven (s : Store) (publicKey : Text) : Nat :=
  (s.equivocation publicKey).elim 0 fun p => p.height + 1

theorem proven_congr (h : s'.equivocations = s.equivocations) (publicKey : Text) :
    s'.proven publicKey = s.proven publicKey := by
  unfold proven equivocation
  rw [h]

theorem proven_le_iff : s.proven p.publicKey ≤ p.height ↔
    ∀ known, s.equivocation p.publicKey = some known → known.height < p.height := by
  unfold proven
  cases s.equivocation p.publicKey with
  | none => exact ⟨fun _ known h => absurd h (by simp), fun _ => Nat.zero_le _⟩
  | some known =>
      constructor
      · rintro hle q hq
        obtain rfl := Option.some.inj hq
        exact hle
      · exact fun h => h known rfl

theorem proven_putEquivocation (hkeyed : s.ProofsKeyed)
    (hnew : s.proven p.publicKey ≤ p.height) (publicKey : Text) :
    (s.putEquivocation p).proven publicKey =
      if p.publicKey = publicKey then p.height + 1 else s.proven publicKey := by
  have hkeyed' := putEquivocation_proofsKeyed hkeyed
    (equivocations_absent hkeyed (proven_le_iff.mp hnew))
  have hget : ∀ (k : Text) (h : Nat), (s.putEquivocation p).equivocations[(k, h)]? =
      if (p.publicKey, p.height) = (k, h) then some p else s.equivocations[(k, h)]? :=
    fun k h => OrderedMap.getElem?_insert_eq _ _ _ _
  split_ifs with hkey
  · subst hkey
    have hown : (s.putEquivocation p).equivocation p.publicKey = some p := by
      rw [equivocation_eq_some hkeyed']
      refine ⟨by rw [hget, if_pos rfl], ?_⟩
      intro height r hr
      rw [hget] at hr
      split_ifs at hr with hsame
      · exact (congrArg Prod.snd hsame).ge
      · cases hknown : s.equivocation p.publicKey with
        | none =>
            rw [equivocation_eq_none.mp hknown] at hr
            cases hr
        | some known =>
            have hle := ((equivocation_eq_some hkeyed).mp hknown).2 height r hr
            have hlt := proven_le_iff.mp hnew known hknown
            omega
    unfold proven
    rw [hown]
    rfl
  · have hother : ∀ h : Nat, (s.putEquivocation p).equivocations[(publicKey, h)]? =
        s.equivocations[(publicKey, h)]? := by
      intro h
      rw [hget, if_neg fun heq => hkey (congrArg Prod.fst heq)]
    have hsame : (s.putEquivocation p).equivocation publicKey = s.equivocation publicKey := by
      cases hknown : s.equivocation publicKey with
      | none =>
          rw [equivocation_eq_none]
          intro h
          rw [hother]
          exact equivocation_eq_none.mp hknown h
      | some known =>
          rw [equivocation_eq_some hkeyed']
          obtain ⟨hfound, hall⟩ := (equivocation_eq_some hkeyed).mp hknown
          refine ⟨by rw [hother, hfound], ?_⟩
          intro height r hr
          rw [hother] at hr
          exact hall height r hr
    unfold proven
    rw [hsame]

/-- The store took a proof that was news. -/
structure Adopts (s : Store) (p : EquivocationProof) (s' : Store) : Prop where
  new : s.proven p.publicKey ≤ p.height
  stored : ∃ q : EquivocationProof, q.publicKey = p.publicKey ∧ q.height = p.height ∧
    s'.equivocations = (s.putEquivocation q).equivocations

theorem adopts_of_adoptProof {E : Env} (h : s.adoptProof E p = .ok (true, s')) :
    Adopts s p s' := by
  obtain ⟨-, ⟨hnew, -⟩ | ⟨-, rfl, habove⟩⟩ := adoptProof_cases h
  · cases hnew
  · exact ⟨proven_le_iff.mpr habove, p.measured E s.lastHeight, rfl, rfl, rfl⟩

theorem Adopts.congr {t : Store} (h : Adopts s p s') (ht : t.equivocations = s'.equivocations) :
    Adopts s p t := by
  obtain ⟨hnew, q, hkey, hheight, hstored⟩ := h
  exact ⟨hnew, q, hkey, hheight, ht.trans hstored⟩

theorem Adopts.proven_eq (h : Adopts s p s') (hkeyed : s.ProofsKeyed) (publicKey : Text) :
    s'.proven publicKey = if p.publicKey = publicKey then p.height + 1 else s.proven publicKey := by
  obtain ⟨hnew, q, hkey, hheight, hstored⟩ := h
  rw [← hkey, ← hheight] at hnew ⊢
  rw [proven_congr hstored, proven_putEquivocation hkeyed hnew]

theorem Adopts.proofsKeyed (h : Adopts s p s') (hkeyed : s.ProofsKeyed) : s'.ProofsKeyed := by
  obtain ⟨hnew, q, hkey, hheight, hstored⟩ := h
  rw [← hkey, ← hheight] at hnew
  unfold ProofsKeyed
  rw [hstored]
  exact putEquivocation_proofsKeyed hkeyed
    (equivocations_absent hkeyed (proven_le_iff.mp hnew))

theorem Adopts.proven_le (h : Adopts s p s') (hkeyed : s.ProofsKeyed) (publicKey : Text) :
    s.proven publicKey ≤ s'.proven publicKey := by
  have hnew := h.new
  rw [h.proven_eq hkeyed]
  split_ifs with hkey
  · subst hkey
    omega
  · exact le_rfl

/-- The store took proofs one after another, each of them news. -/
inductive Records (s : Store) : List EquivocationProof → Store → Prop
  | none {s' : Store} (h : s'.equivocations = s.equivocations) : Records s [] s'
  | more {ps : List EquivocationProof} {p : EquivocationProof} {t s' : Store}
      (hrec : Records s ps t) (h : Adopts t p s') : Records s (ps ++ [p]) s'

theorem Records.congr {ps : List EquivocationProof} {t : Store} (h : Records s ps s')
    (ht : t.equivocations = s'.equivocations) : Records s ps t := by
  cases h with
  | none h => exact .none (ht.trans h)
  | more hrec h => exact .more hrec (h.congr ht)

end Store

namespace FinalityTracker

theorem tryCertify_equivocations (E : Env) (t : FinalityTracker) (height : Nat) (blockId : Text) :
    (t.tryCertify E height blockId).storage.equivocations = t.storage.equivocations := by
  unfold tryCertify
  simp only
  split_ifs <;> rfl

/-- One vote leaves at most one proof more. -/
theorem take_records {E : Env} {s : Store} {tip : Nat} {r : Recording} (v : FinalityVote)
    (h : s.Records r.proofs r.tracker.storage) :
    s.Records (r.take E tip v).proofs (r.take E tip v).tracker.storage := by
  unfold Recording.take
  simp only
  refine Store.Records.congr ?_ (tryCertify_equivocations E _ _ _)
  split
  · exact h
  · rename_i otherId otherSig _
    split
    · rename_i s' hadopt
      exact .more h (Store.adopts_of_adoptProof hadopt)
    · exact h

/-- The proofs of a message are those that the store took because of it. -/
theorem record_records (E : Env) (t : FinalityTracker) (votes : List FinalityVote) :
    t.storage.Records (t.record E votes).proofs (t.record E votes).tracker.storage := by
  unfold record
  simp only
  refine List.foldlRecOn (motive := fun r : Recording => t.storage.Records r.proofs r.tracker.storage)
    _ _ (.none rfl) ?_
  intro r h v _
  unfold recordVote
  simp only
  split_ifs
  · exact take_records v h
  · exact h
  · exact h

end FinalityTracker

/-- The nodes of a network, the proofs on their way to a node, and who has told the others of
which proof. -/
structure ProofNet (α : Type*) where
  node : α → FinalityTracker
  flight : List (α × EquivocationProof) := []
  told : List (α × EquivocationProof) := []

namespace ProofNet

variable {α : Type*} [DecidableEq α]

def set (net : ProofNet α) (a : α) (t : FinalityTracker) : ProofNet α :=
  { net with node := Function.update net.node a t }

/-- A node broadcasts proofs, one message each. -/
def tell (net : ProofNet α) (members : List α) (a : α) (proofs : List EquivocationProof) :
    ProofNet α :=
  { net with
    flight := net.flight ++ proofs.flatMap fun p => (members.filter fun b => b ≠ a).map fun b => (b, p)
    told := net.told ++ proofs.map fun p => (a, p) }

/-- A message with votes: those that prove an equivocation are broadcast as proofs. -/
def hearVotes (E : Env) (members : List α) (net : ProofNet α) (a : α)
    (votes : List FinalityVote) : ProofNet α :=
  let r := (net.node a).record E votes
  (net.set a r.tracker).tell members a r.proofs

/-- A message with a proof, which is passed on when it is news. -/
def hearProof (E : Env) (members : List α) (net : ProofNet α) (a : α) (p : EquivocationProof) :
    ProofNet α :=
  match (net.node a).storage.adoptProof E p with
  | .ok (true, storage) => (net.set a { net.node a with storage }).tell members a [p]
  | _ => net

/-- The chain of a node moves. -/
def withStore (net : ProofNet α) (a : α) (storage : Store) : ProofNet α :=
  net.set a { net.node a with storage }

end ProofNet

/-- Runs of a network: votes and proofs arrive in any order, from nodes or from anybody else,
while the chains move.  The delivery of a proof meets a condition. -/
inductive ProofRun {α : Type*} [DecidableEq α] (E : Env) (members : List α)
    (good : ProofNet α → α → EquivocationProof → Prop) : ProofNet α → Prop
  | start (node : α → FinalityTracker) (hnone : ∀ a, (node a).storage.equivocations = ∅) :
      ProofRun E members good { node }
  | votes {net : ProofNet α} (a : α) (votes : List FinalityVote)
      (hrun : ProofRun E members good net) : ProofRun E members good (net.hearVotes E members a votes)
  | proof {net : ProofNet α} {before after : List (α × EquivocationProof)} {a : α}
      {p : EquivocationProof} (hrun : ProofRun E members good net)
      (hflight : net.flight = before ++ (a, p) :: after) (hgood : good net a p) :
      ProofRun E members good
        (({ net with flight := before ++ after } : ProofNet α).hearProof E members a p)
  | foreign {net : ProofNet α} (a : α) (p : EquivocationProof)
      (hrun : ProofRun E members good net) :
      ProofRun E members good { net with flight := net.flight ++ [(a, p)] }
  | apply {net : ProofNet α} (a : α) (blocks : List Block) (hrun : ProofRun E members good net) :
      ProofRun E members good (net.withStore a ((net.node a).storage.applyBlocks E blocks).1)
  | rollback {net : ProofNet α} (a : α) (height : Nat) (hrun : ProofRun E members good net) :
      ProofRun E members good (net.withStore a ((net.node a).storage.rollbackTo E height).1)

namespace ProofNet

variable {α : Type*} [DecidableEq α] {E : Env} {members : List α} {net : ProofNet α} {a : α}
  {p : EquivocationProof} {t : FinalityTracker}

@[simp] theorem set_node_self : (net.set a t).node a = t := Function.update_self _ _ _

theorem set_node_ne {b : α} (h : b ≠ a) : (net.set a t).node b = net.node b :=
  Function.update_of_ne h _ _

theorem set_set (t' : FinalityTracker) : (net.set a t).set a t' = net.set a t' := by
  unfold set
  rw [Function.update_idem]

theorem tell_append (ps qs : List EquivocationProof) :
    net.tell members a (ps ++ qs) = (net.tell members a ps).tell members a qs := by
  unfold tell
  simp only [List.flatMap_append, List.map_append, List.append_assoc]

theorem mem_tell_flight {b : α} {ps : List EquivocationProof} (hb : b ∈ members) (hne : b ≠ a)
    (hp : p ∈ ps) : (b, p) ∈ (net.tell members a ps).flight := by
  refine List.mem_append_right _ (List.mem_flatMap.mpr ⟨p, hp, List.mem_map.mpr ⟨b, ?_, rfl⟩⟩)
  exact List.mem_filter.mpr ⟨hb, decide_eq_true hne⟩

/-- What each adoption preserves, and each step that keeps the proofs, a message with votes
preserves. -/
theorem tell_records {I : ProofNet α → Prop} (hadopt : ∀ (n : ProofNet α) (q : EquivocationProof)
      (u : FinalityTracker), (n.node a).storage.Adopts q u.storage → I n →
      I ((n.set a u).tell members a [q]))
    (hsame : ∀ (n : ProofNet α) (u : FinalityTracker),
      u.storage.equivocations = (n.node a).storage.equivocations → I n → I (n.set a u))
    {ps : List EquivocationProof} {s' : Store} (hrec : (net.node a).storage.Records ps s')
    (ht : t.storage = s') (h : I net) : I ((net.set a t).tell members a ps) := by
  induction hrec generalizing t with
  | none heq =>
      have hnet : (net.set a t).tell members a [] = net.set a t := by
        unfold tell
        simp
      rw [hnet]
      exact hsame net t (by rw [ht, heq]) h
  | @more ps p u s' hrec hp ih =>
      have hmid := ih (t := { t with storage := u }) rfl
      have hlast := hadopt _ p t (by rw [ht]; unfold tell; rwa [set_node_self]) hmid
      rw [tell_append]
      have hnet : ((net.set a { t with storage := u }).tell members a ps).set a t =
          (net.set a t).tell members a ps := by
        unfold tell set
        simp only [Function.update_idem]
      rwa [hnet] at hlast

/-! ## Every node passes a proof on once -/

/-- The nodes have the proofs that they have told of, and told of those of one delegate in the
order of their heights. -/
structure Accounted (net : ProofNet α) : Prop where
  keyed : ∀ a, (net.node a).storage.ProofsKeyed
  known : ∀ e ∈ net.told, e.2.height < (net.node e.1).storage.proven e.2.publicKey
  ascending : ∀ a publicKey, ((net.told.filter fun e => e.1 = a ∧ e.2.publicKey = publicKey).map
    fun e => e.2.height).Pairwise (· < ·)

theorem Accounted.update (h : Accounted net)
    (hsame : t.storage.equivocations = (net.node a).storage.equivocations) :
    Accounted (net.set a t) := by
  have hproofs : ∀ b, ((net.set a t).node b).storage.equivocations =
      (net.node b).storage.equivocations := by
    intro b
    by_cases hb : b = a
    · rw [hb, set_node_self, hsame]
    · rw [set_node_ne hb]
  refine ⟨?_, ?_, h.ascending⟩
  · intro b
    unfold Store.ProofsKeyed
    rw [hproofs b]
    exact h.keyed b
  · intro e he
    rw [Store.proven_congr (hproofs e.1)]
    exact h.known e he

theorem Accounted.adopt (h : Accounted net)
    (hadopts : (net.node a).storage.Adopts p t.storage) :
    Accounted ((net.set a t).tell members a [p]) := by
  have hproven := hadopts.proven_eq (h.keyed a)
  have htold : ((net.set a t).tell members a [p]).told = net.told ++ [(a, p)] := rfl
  have hnode : ((net.set a t).tell members a [p]).node = (net.set a t).node := rfl
  refine ⟨?_, ?_, ?_⟩
  · intro b
    rw [hnode]
    by_cases hb : b = a
    · rw [hb, set_node_self]
      exact hadopts.proofsKeyed (h.keyed a)
    · rw [set_node_ne hb]
      exact h.keyed b
  · intro e he
    rw [hnode]
    rw [htold] at he
    rcases List.mem_append.mp he with hold | hnew
    · have hknown := h.known e hold
      by_cases hb : e.1 = a
      · rw [hb] at hknown
        rw [hb, set_node_self]
        exact lt_of_lt_of_le hknown (hadopts.proven_le (h.keyed a) _)
      · rw [set_node_ne hb]
        exact hknown
    · obtain rfl := List.mem_singleton.mp hnew
      rw [set_node_self, hproven, if_pos rfl]
      exact Nat.lt_succ_self _
  · intro b publicKey
    rw [htold, List.filter_append, List.map_append, List.pairwise_append]
    refine ⟨h.ascending b publicKey, ?_, ?_⟩
    · refine List.Pairwise.map _ (fun _ _ h => h) ?_
      exact (List.pairwise_singleton _ _).filter _
    · intro low hlow high hhigh
      obtain ⟨e, he, rfl⟩ := List.mem_map.mp hlow
      obtain ⟨d, hd, rfl⟩ := List.mem_map.mp hhigh
      obtain ⟨hd, hdkey⟩ := List.mem_filter.mp hd
      obtain ⟨he, hekey⟩ := List.mem_filter.mp he
      obtain rfl := List.mem_singleton.mp hd
      rw [decide_eq_true_eq] at hekey hdkey
      obtain ⟨hda, hdp⟩ := hdkey
      obtain ⟨hea, hep⟩ := hekey
      have hknown := h.known e he
      rw [hea, ← hda, hep, ← hdp] at hknown
      have hnew := hadopts.new
      dsimp only at hknown ⊢
      omega

/-! ## In the end all nodes know -/

/-- A proof against a delegate, told by some node, is on its way to `b`. -/
def OnTheWay (net : ProofNet α) (publicKey : Text) (b : α) (v : Nat) : Prop :=
  ∃ c q, (b, q) ∈ net.flight ∧ (c, q) ∈ net.told ∧ q.publicKey = publicKey ∧ v = q.height + 1

/-- What one node has against a delegate, the members have or are about to hear. -/
def Spreads (members : List α) (net : ProofNet α) : Prop :=
  ∀ publicKey, Spread members (fun a => (net.node a).storage.proven publicKey)
    (net.OnTheWay publicKey)

theorem Spreads.update (h : net.Spreads members)
    (hsame : t.storage.equivocations = (net.node a).storage.equivocations) :
    (net.set a t).Spreads members := by
  intro publicKey
  have hproven : (fun b => ((net.set a t).node b).storage.proven publicKey) =
      fun b => (net.node b).storage.proven publicKey := by
    funext b
    by_cases hb : b = a
    · rw [hb, set_node_self, Store.proven_congr hsame]
    · rw [set_node_ne hb]
  rw [hproven]
  exact h publicKey

/-- A node that adopts a proof tells the others; the message that brought it may be gone. -/
theorem Spreads.adopt (h : net.Spreads members) (hkeyed : ∀ a, (net.node a).storage.ProofsKeyed)
    (hadopts : (net.node a).storage.Adopts p t.storage) {flight : List (α × EquivocationProof)}
    (hflight : ∀ m ∈ net.flight, m ∈ flight ∨ m = (a, p)) :
    ((({ net with flight } : ProofNet α).set a t).tell members a [p]).Spreads members := by
  intro publicKey
  have hproven := hadopts.proven_eq (hkeyed a) publicKey
  have hnode : ∀ b, (((({ net with flight } : ProofNet α).set a t).tell members a [p]).node b) =
      if b = a then t else net.node b := by
    intro b
    show Function.update net.node a t b = _
    exact Function.update_apply _ _ _ _
  have hown : (a, p) ∈ (((({ net with flight } : ProofNet α).set a t).tell members a [p]).told) :=
    List.mem_append_right _ (List.mem_singleton_self _)
  refine (h publicKey).step ?_ ?_ ?_
  · intro b
    rw [hnode]
    split_ifs with hb
    · rw [hb]
      exact hadopts.proven_le (hkeyed a) publicKey
    · exact le_rfl
  · intro b hgrown c hc hne
    rw [hnode] at hgrown ⊢
    split_ifs at hgrown ⊢ with hb
    · subst hb
      rw [hproven] at hgrown ⊢
      split_ifs at hgrown ⊢ with hkey
      · exact ⟨p.height + 1, ⟨b, p, mem_tell_flight hc hne (List.mem_singleton_self p), hown, hkey,
          rfl⟩, le_rfl⟩
      · exact absurd hgrown (lt_irrefl _)
    · exact absurd hgrown (lt_irrefl _)
  · rintro b v ⟨c, q, hq, htold, hkey, rfl⟩
    rcases hflight _ hq with hstill | hgone
    · exact .inl ⟨c, q, List.mem_append_left _ hstill, List.mem_append_left _ htold, hkey, rfl⟩
    · right
      obtain ⟨rfl, rfl⟩ := Prod.mk.inj hgone
      rw [hnode, if_pos rfl, hproven, if_pos hkey]

omit [DecidableEq α] in
/-- A message may go when its proof is known, or is no node's. -/
theorem Spreads.drop (h : net.Spreads members) {flight : List (α × EquivocationProof)}
    (hflight : ∀ m ∈ net.flight, m ∈ flight ∨ m = (a, p))
    (hgone : (∃ c, (c, p) ∈ net.told) →
      p.height < (net.node a).storage.proven p.publicKey) :
    ({ net with flight } : ProofNet α).Spreads members := by
  intro publicKey
  refine (h publicKey).step (fun _ => le_rfl) (fun _ hlt => absurd hlt (lt_irrefl _)) ?_
  rintro b v ⟨c, q, hq, htold, rfl, rfl⟩
  rcases hflight _ hq with hstill | heq
  · exact .inl ⟨c, q, hstill, htold, rfl, rfl⟩
  · obtain ⟨rfl, rfl⟩ := Prod.mk.inj heq
    exact .inr (hgone ⟨c, htold⟩)

/-- A node that hears of a proof either adopts it and tells the others, or has no need of it. -/
theorem hearProof_cases (E : Env) (members : List α) (net : ProofNet α) (a : α)
    (p : EquivocationProof) :
    (∃ s', (net.node a).storage.Adopts p s' ∧ net.hearProof E members a p =
      (net.set a { net.node a with storage := s' }).tell members a [p]) ∨
    net.hearProof E members a p = net ∧
      ((net.node a).storage.verifyProof E p = .ok () →
        p.height < (net.node a).storage.proven p.publicKey) := by
  unfold hearProof
  cases hadopt : (net.node a).storage.adoptProof E p with
  | error e =>
      refine .inr ⟨rfl, ?_⟩
      intro hverify
      unfold Store.adoptProof at hadopt
      rw [hverify] at hadopt
      simp only [bind, Except.bind] at hadopt
      split at hadopt <;> cases hadopt
  | ok r =>
      obtain ⟨new, s'⟩ := r
      cases new with
      | true => exact .inl ⟨s', Store.adopts_of_adoptProof hadopt, rfl⟩
      | false =>
          refine .inr ⟨rfl, fun _ => ?_⟩
          obtain ⟨-, ⟨-, -, known, hknown, hle⟩ | ⟨hnew, -⟩⟩ := Store.adoptProof_cases hadopt
          · unfold Store.proven
            rw [hknown]
            exact Nat.lt_succ_of_le hle
          · cases hnew

/-- A proof that some node told of verifies wherever it arrives. -/
def Agreeing (E : Env) (net : ProofNet α) (a : α) (p : EquivocationProof) : Prop :=
  (∃ c, (c, p) ∈ net.told) → (net.node a).storage.verifyProof E p = .ok ()

end ProofNet

namespace ProofRun

open ProofNet

variable {α : Type*} [DecidableEq α] {E : Env} {members : List α} {net : ProofNet α}
  {good : ProofNet α → α → EquivocationProof → Prop}

theorem accounted (hrun : ProofRun E members good net) : net.Accounted := by
  induction hrun with
  | start node hnone =>
      refine ⟨?_, fun e he => absurd he List.not_mem_nil, fun _ _ => List.Pairwise.nil⟩
      intro a e he
      rw [Std.ExtTreeMap.mem_toList_iff_getElem?_eq_some, hnone a] at he
      simp at he
  | votes a votes _ ih =>
      exact tell_records (fun _ _ _ hadopts h => h.adopt hadopts) (fun _ _ hsame h => h.update hsame)
        (FinalityTracker.record_records E _ votes) rfl ih
  | @proof net before after a p _ hflight _ ih =>
      have hless : Accounted ({ net with flight := before ++ after } : ProofNet α) :=
        ⟨ih.keyed, ih.known, ih.ascending⟩
      rcases hearProof_cases E members { net with flight := before ++ after } a p with
        ⟨s', hadopts, heq⟩ | ⟨heq, -⟩
      · rw [heq]
        exact hless.adopt hadopts
      · rw [heq]
        exact hless
  | foreign a p _ ih => exact ⟨ih.keyed, ih.known, ih.ascending⟩
  | apply a blocks _ ih => exact ih.update (Deliveries.applyBlocks_equivocations E _ blocks)
  | rollback a height _ ih => exact ih.update (Deliveries.rollbackTo_equivocations E _ height)

theorem spreads (hrun : ProofRun E members (Agreeing E) net) : net.Spreads members := by
  induction hrun with
  | start node hnone =>
      intro publicKey
      have hzero : (fun a => (node a).storage.proven publicKey) = fun _ => 0 := by
        funext a
        unfold Store.proven
        rw [Store.equivocation_eq_none.mpr]
        · rfl
        · intro height
          rw [hnone a]
          rfl
      show Spread members (fun a => (node a).storage.proven publicKey) _
      rw [hzero]
      exact Spread.const 0
  | @votes net a votes hrun ih =>
      have hboth : (net.hearVotes E members a votes).Accounted ∧
          (net.hearVotes E members a votes).Spreads members :=
        tell_records (I := fun n => n.Accounted ∧ n.Spreads members)
          (fun n q u hadopts h => ⟨h.1.adopt hadopts,
            h.2.adopt h.1.keyed hadopts fun _ hm => .inl hm⟩)
          (fun n u hsame h => ⟨h.1.update hsame, h.2.update hsame⟩)
          (FinalityTracker.record_records E _ votes) rfl ⟨hrun.accounted, ih⟩
      exact hboth.2
  | @proof net before after a p hrun hflight hgood ih =>
      have hless : ∀ m ∈ net.flight, m ∈ before ++ after ∨ m = (a, p) := by
        intro m hm
        rw [hflight, List.mem_append, List.mem_cons] at hm
        rw [List.mem_append]
        tauto
      rcases hearProof_cases E members { net with flight := before ++ after } a p with
        ⟨s', hadopts, heq⟩ | ⟨heq, hknown⟩
      · rw [heq]
        exact ih.adopt hrun.accounted.keyed hadopts hless
      · rw [heq]
        exact ih.drop hless fun htold => hknown (hgood htold)
  | foreign a p _ ih =>
      intro publicKey
      refine (ih publicKey).mono ?_
      rintro b v ⟨c, q, hq, hrest⟩
      exact ⟨c, q, List.mem_append_left _ hq, hrest⟩
  | apply a blocks _ ih => exact ih.update (Deliveries.applyBlocks_equivocations E _ blocks)
  | rollback a height _ ih => exact ih.update (Deliveries.rollbackTo_equivocations E _ height)

end ProofRun

namespace Reference

def gossipEnv : Env := ⟨primitives, network slashing, 8000⟩

/-- Two nodes that have seen no equivocation. -/
def quietNet : ProofNet Bool where
  node := fun _ => { storage := delegateStore slashing }

/-- One of them hears both votes of a delegate. -/
def detectedNet : ProofNet Bool :=
  quietNet.hearVotes gossipEnv [true, false] false [honestVote, secondVote]

/-- The other one hears of it, and tells in turn. -/
def passedNet : ProofNet Bool :=
  ({ detectedNet with flight := [] } : ProofNet Bool).hearProof gossipEnv [true, false] true
    (proofOf slashing honestVote secondVote)

def settledNet : ProofNet Bool :=
  ({ passedNet with flight := [] } : ProofNet Bool).hearProof gossipEnv [true, false] false
    (proofOf slashing honestVote secondVote)

/-- What is on its way after each step, and that the proof verifies at both nodes. -/
theorem settledNet_steps :
    (detectedNet.flight = [] ++ (true, proofOf slashing honestVote secondVote) :: [] ∧
      passedNet.flight = [] ++ (false, proofOf slashing honestVote secondVote) :: [] ∧
      settledNet.flight = []) ∧
    ((detectedNet.node true).storage.verifyProof gossipEnv
        (proofOf slashing honestVote secondVote) = .ok () ∧
      (passedNet.node false).storage.verifyProof gossipEnv
        (proofOf slashing honestVote secondVote) = .ok ()) ∧
    settledNet.told.length = 2 := by
  decide +kernel

theorem settledNet_run {good : ProofNet Bool → Bool → EquivocationProof → Prop}
    (hfirst : good detectedNet true (proofOf slashing honestVote secondVote))
    (hsecond : good passedNet false (proofOf slashing honestVote secondVote)) :
    ProofRun gossipEnv [true, false] good settledNet := by
  obtain ⟨⟨hdetected, hpassed, -⟩, -⟩ := settledNet_steps
  have hquiet : ProofRun gossipEnv [true, false] good quietNet :=
    .start _ fun _ => delegateStore_equivocations slashing
  have hvotes : ProofRun gossipEnv [true, false] good detectedNet :=
    hquiet.votes false [honestVote, secondVote]
  have hone := hvotes.proof hdetected hfirst
  rw [List.nil_append] at hone
  have htwo := ProofRun.proof (show ProofRun _ _ good passedNet from hone) hpassed hsecond
  rw [List.nil_append] at htwo
  exact htwo

end Reference

/-- Whatever votes and proofs arrive, a node tells the others of a delegate at most once for each
height, and of higher heights only. -/
theorem proofs_told_once {α : Type*} [DecidableEq α] (E : Env) (members : List α)
    (net : ProofNet α) (hrun : ProofRun E members (fun _ _ _ => True) net) (a : α)
    (publicKey : Text) :
    ((net.told.filter fun e => e.1 = a ∧ e.2.publicKey = publicKey).map
      fun e => e.2.height).Pairwise (· < ·) :=
  hrun.accounted.ascending a publicKey

open Reference in
theorem proofs_told_once_pair :
    ((settledNet.told.filter fun e => e.1 = true ∧ e.2.publicKey = first.publicKey).map
      fun e => e.2.height).Pairwise (· < ·) :=
  proofs_told_once gossipEnv [true, false] settledNet (settledNet_run trivial trivial) true
    first.publicKey

/-- When no proof is on its way any more, every node knows of every delegate that a proof was told
of, and all of them know the same height. -/
theorem proofs_spread {α : Type*} [DecidableEq α] (E : Env) (members : List α) (net : ProofNet α)
    (hrun : ProofRun E members (ProofNet.Agreeing E) net)
    (hsettled : ∀ m ∈ net.flight, ∀ c, (c, m.2) ∉ net.told) :
    (∀ a ∈ members, ∀ b ∈ members, ∀ publicKey,
      ((net.node a).storage.equivocation publicKey).map (fun q => q.height) =
        ((net.node b).storage.equivocation publicKey).map fun q => q.height) ∧
    ∀ b ∈ members, ∀ e ∈ net.told, ∃ q,
      (net.node b).storage.equivocation e.2.publicKey = some q ∧ e.2.height ≤ q.height := by
  have hle : ∀ a, ∀ b ∈ members, ∀ publicKey,
      (net.node a).storage.proven publicKey ≤ (net.node b).storage.proven publicKey := by
    intro a b hb publicKey
    refine (hrun.spreads publicKey).settled ?_ hb a
    rintro b v ⟨c, q, hq, htold, -⟩
    exact hsettled (b, q) hq c htold
  constructor
  · intro a ha b hb publicKey
    have hsame := le_antisymm (hle a b hb publicKey) (hle b a ha publicKey)
    unfold Store.proven at hsame
    cases hfound : (net.node a).storage.equivocation publicKey with
    | none =>
        cases hother : (net.node b).storage.equivocation publicKey with
        | none => rfl
        | some r => simp [hfound, hother] at hsame
    | some q =>
        cases hother : (net.node b).storage.equivocation publicKey with
        | none => simp [hfound, hother] at hsame
        | some r => simpa [hfound, hother] using hsame
  · intro b hb e he
    have hknown := lt_of_lt_of_le (hrun.accounted.known e he) (hle e.1 b hb e.2.publicKey)
    unfold Store.proven at hknown
    cases hfound : (net.node b).storage.equivocation e.2.publicKey with
    | none => simp [hfound] at hknown
    | some q =>
        refine ⟨q, rfl, ?_⟩
        simpa [hfound, Nat.lt_succ_iff] using hknown

open Reference in
theorem proofs_spread_pair :
    settledNet.told.length = 2 ∧
    ((settledNet.node true).storage.equivocation first.publicKey).map (fun q => q.height) =
      ((settledNet.node false).storage.equivocation first.publicKey).map fun q => q.height := by
  obtain ⟨⟨-, -, hsettled⟩, ⟨hfirst, hsecond⟩, htold⟩ := settledNet_steps
  refine ⟨htold, ?_⟩
  exact (proofs_spread gossipEnv [true, false] settledNet
    (settledNet_run (fun _ => hfirst) (fun _ => hsecond))
    (fun m hm => absurd hm (by rw [hsettled]; exact List.not_mem_nil))).1
    true (by decide) false (by decide) first.publicKey

end SthCore
