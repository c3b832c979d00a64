import SthCore.Crypto.Signing
import SthCore.Delegate.Builder
import SthCore.Delegate.Snapshots
import SthCore.Lib.Runs
import SthCore.Mempool.Validate
import SthCore.Storage.Changes
import SthCore.Sync

/-!
The forging loop.  A tick reads the tip and the forging order, waits until the
peers agree with the tip, and builds its block on the tip of that moment; in
between, other tasks write to the store.
-/

namespace SthCore

open SthCore.Lib

/-- The options that decide whether to forge; the share is a binary64 number. -/
structure ForgerOptions where
  quorumShare : Rat := 1 / 2
  minQuorumPeers : Nat := 3
  forgeOverMinority : Bool := true

/-- Peers that must agree with the tip, out of those that answered. -/
def ForgerOptions.needed (o : ForgerOptions) (responders : Nat) : Nat :=
  max (Binary64.nearest (responders * min (max o.quorumShare 0) 1)).ceil.toNat
    (max o.minQuorumPeers 1)

/-- The tip of a peer. -/
structure PeerView where
  height : Nat
  id : Text

/-- `minority_rule`: fewer than a third of the peers are ahead. -/
def minorityRule (ahead same responders needed : Nat) : Bool :=
  ahead > 0 && ahead * 3 < responders && same ≥ needed

structure Forger where
  keys : List BlockKey
  pqKeys : List PqKeyPair := []
  opts : ForgerOptions := {}

/-- `pq_key_for`. -/
def Forger.pqKeyFor (f : Forger) (s : Store) (publicKey : Text) : Option PqKeyPair := do
  let registered ← (s.findWallet publicKey).bind (·.pqKey)
  f.pqKeys.find? fun k => k.publicKey = registered.publicKey

/-- What a tick has decided before it waits. -/
structure Turn where
  slot : Nat
  blocktime : UInt32
  nextHeight : Nat
  key : BlockKey

/-- The heights for which a pull was tried, and failed. -/
structure Pulls where
  pulledFor : Nat := 0
  pullFailedFor : Nat := 0
  deriving DecidableEq

/-- One round of the wait: the answers of the peers, what the clock says at each check, and
whether a peer ahead handed over a block. -/
structure Poll where
  views : List PeerView
  beforeDeadline : Bool
  pulled : Bool
  pastMidSlot : Bool
  pastDeadline : Bool

inductive Waited where
  | accept
  | refuse
  | again (pulls : Pulls)
  deriving DecidableEq

/-- One round of `wait_for_quorum` on a tip. -/
def Forger.pollOnce (f : Forger) (pulls : Pulls) (tip : Block) (p : Poll) : Waited :=
  if p.views.isEmpty then
    if f.opts.quorumShare ≤ 0 then .accept else .refuse
  else
    let maxHeight := (p.views.map (·.height)).foldl max 0
    let same := (p.views.filter fun v => v.height = tip.height && some v.id = tip.id).length
    let needed := f.opts.needed p.views.length
    if maxHeight ≤ tip.height ∧ same ≥ needed then .accept
    else
      let pull := decide (maxHeight > tip.height) && decide (maxHeight - tip.height ≤ 3) &&
        decide (pulls.pulledFor ≠ maxHeight) && p.beforeDeadline
      let pulls := if pull then { pulls with pulledFor := maxHeight } else pulls
      if pull && p.pulled then .again pulls
      else
        let pulls := if pull then { pulls with pullFailedFor := maxHeight } else pulls
        let ahead := (p.views.filter fun v => v.height > tip.height).length
        if f.opts.forgeOverMinority && decide (maxHeight > tip.height) &&
            decide (pulls.pullFailedFor = maxHeight) && p.pastMidSlot &&
            minorityRule ahead same p.views.length needed then .accept
        else if p.pastDeadline then .refuse
        else .again pulls

inductive Phase where
  | idle
  | tipRead (tip : Block) (now : UInt32)
  | waiting (turn : Turn) (pulls : Pulls)
  | settled (turn : Turn) (tip : Block)
  | signed (block : Block) (tip : Block)

/-- A node that forges, with the slot its last tick used. -/
structure ForgingNode where
  store : Store
  lastSlot : Nat := 0
  phase : Phase := .idle

namespace ForgingNode

inductive Action where
  | arrive (change : Change)
  | readTip (now : UInt32)
  | readOrder (yields : Bool)
  | poll (p : Poll)
  | build (pool : List Transaction)
  | apply (nowMs : Int)

/-- The tick ends without a block. -/
def stop (n : ForgingNode) : ForgingNode := { n with phase := .idle }

/-- The part of a tick from the forging order to the wait.  Without delegates or block time the
divisions of the source panic. -/
def decideTurn (E : Env) (f : Forger) (n : ForgingNode) (tip : Block) (now : UInt32)
    (yields : Bool) : ForgingNode :=
  let nextHeight := tip.height + 1
  let blocktime := (E.network.milestone nextHeight).blocktime
  let count := (E.network.milestone nextHeight).activeDelegates.toNat
  if count = 0 ∨ blocktime = 0 then n.stop
  else
    let slot := slotNumber now blocktime
    match n.store.forgingOrder E (roundInfo nextHeight count).round with
    | none => { n.stop with lastSlot := slot }
    | some order =>
        match order[(slot + 1) % count]?, order[slot % count]? with
        | some _, some expected =>
            if slot = n.lastSlot ∨ slotNumber tip.timestamp blocktime ≥ slot then n.stop
            else
              match f.keys.find? fun k => k.publicKey = expected.publicKey with
              | none => n.stop
              | some key =>
                  if yields then { n.stop with lastSlot := slot }
                  else { n with
                    lastSlot := slot
                    phase := .waiting { slot, blocktime, nextHeight, key } {} }
        | _, _ => n.stop

/-- The tip that the wait returned may take the slot itself. -/
def settle (n : ForgingNode) (turn : Turn) (tip : Block) : ForgingNode :=
  if slotNumber tip.timestamp turn.blocktime ≥ turn.slot then n.stop
  else { n with phase := .settled turn tip }

/-- The block of a turn on a tip; nothing when the slot must be skipped. -/
def buildBlock (E : Env) (f : Forger) (s : Store) (turn : Turn) (tip : Block)
    (pool : List Transaction) : Option Block :=
  let allowed := E.network.blockVersionsAllowed turn.nextHeight
  let pq := if allowed.1 then f.pqKeyFor s turn.key.publicKey else none
  if allowed.1 && pq.isNone && !allowed.2 then none
  else
    (do
      let txs ← selectTransactions E s pool turn.nextHeight
      forgeBlockWith E turn.key pq tip (slotStart turn.slot turn.blocktime) txs).toOption

/-- `Forger::tick` in the steps between which other tasks run. -/
def step (E : Env) (f : Forger) (n : ForgingNode) (a : Action) : Option ForgingNode :=
  match a, n.phase with
  | .arrive c, _ => if c.Orderly E then some { n with store := n.store.change E c } else none
  | .readTip now, .idle =>
      match n.store.getLastBlock E with
      | .ok (some tip) => some { n with phase := .tipRead tip now }
      | _ => some n
  | .readOrder yields, .tipRead tip now => some (n.decideTurn E f tip now yields)
  | .poll p, .waiting turn pulls =>
      match (n.store.getLastBlock E).toOption.join with
      | none => some n.stop
      | some tip =>
          match f.pollOnce pulls tip p with
          | .accept => some (n.settle turn tip)
          | .refuse => some n.stop
          | .again pulls => some { n with phase := .waiting turn pulls }
  | .build pool, .settled turn tip =>
      match buildBlock E f n.store turn tip pool with
      | some block => some { n with phase := .signed block tip }
      | none => some n.stop
  | .apply nowMs, .signed block tip =>
      let E' := { E with nowMs := nowMs }
      some { n with
        store := (Sync.applyBlocks E' n.store [block] ⟨tip.height, tip.id⟩ true).1
        phase := .idle }
  | _, _ => none

end ForgingNode

namespace Network

/-- Two heights in one round, with the same delegates and the same slots. -/
structure SameRound (N : Network) (h h' : Nat) : Prop where
  delegates : N.delegatesAt h' = N.delegatesAt h
  blocktime : (N.milestone h').blocktime = (N.milestone h).blocktime
  round : (roundInfo h' (N.delegatesAt h)).round = (roundInfo h (N.delegatesAt h)).round

instance (N : Network) (h h' : Nat) : Decidable (N.SameRound h h') :=
  decidable_of_iff
    (N.delegatesAt h' = N.delegatesAt h ∧ (N.milestone h').blocktime = (N.milestone h).blocktime ∧
      (roundInfo h' (N.delegatesAt h)).round = (roundInfo h (N.delegatesAt h)).round)
    ⟨fun h => ⟨h.1, h.2.1, h.2.2⟩, fun h => ⟨h.delegates, h.blocktime, h.round⟩⟩

/-- The round that contains a height. -/
def roundOf (N : Network) (height : Nat) : Nat := (roundInfo height (N.delegatesAt height)).round

end Network

namespace Store

/-- The key at the position of the slot in the forging order of the round of the height. -/
def slotOwner (E : Env) (s : Store) (height slot : Nat) : Option Text :=
  (s.forgingOrder E (E.network.roundOf height)).bind fun order =>
    (order[slot % E.network.delegatesAt height]?).map (·.publicKey)

theorem slotOwner_congr {E : Env} {s s' : Store} {height : Nat}
    (hround : s'.getRound (E.network.roundOf height) = s.getRound (E.network.roundOf height))
    (slot : Nat) : s'.slotOwner E height slot = s.slotOwner E height slot := by
  unfold slotOwner forgingOrder
  rw [hround]

end Store

namespace ForgingNode

/-- The round a tick works in, once it has read the forging order. -/
def round (N : Network) (n : ForgingNode) : Option Nat :=
  match n.phase with
  | .idle | .tipRead _ _ => none
  | .waiting turn _ | .settled turn _ => some (N.roundOf turn.nextHeight)
  | .signed block _ => some (N.roundOf block.height)

/-- A round of the wait that ends it finds a tip below a height of the same round. -/
def AcceptsInRound (N : Network) (f : Forger) (p : Poll) : Phase → Option Block → Prop
  | .waiting turn pulls, some tip =>
      f.pollOnce pulls tip p = .accept → N.SameRound turn.nextHeight (tip.height + 1)
  | _, _ => True

instance (N : Network) (f : Forger) (p : Poll) :
    (phase : Phase) → (tip : Option Block) → Decidable (AcceptsInRound N f p phase tip)
  | .waiting _ _, some _ => inferInstanceAs (Decidable (_ → _))
  | .waiting _ _, none | .idle, _ | .tipRead _ _, _ | .settled _ _, _ | .signed _ _, _ =>
      .isTrue trivial

/-- The snapshot that a tick has read stays, and the wait ends on a tip of the same round. -/
def Steady (E : Env) (f : Forger) (n : ForgingNode) : Action → Prop
  | .arrive c => ∀ r ∈ n.round E.network, n.store.KeepsRound E r c
  | .poll p => AcceptsInRound E.network f p n.phase (n.store.getLastBlock E).toOption.join
  | _ => True

instance (E : Env) (f : Forger) (n : ForgingNode) : (a : Action) → Decidable (n.Steady E f a)
  | .arrive _ => inferInstanceAs (Decidable (∀ r ∈ n.round E.network, _))
  | .poll p => inferInstanceAs (Decidable (AcceptsInRound E.network f p n.phase _))
  | .readTip _ | .readOrder _ | .build _ | .apply _ => .isTrue trivial

/-- The turn belongs to its key. -/
structure TurnOwned (E : Env) (s : Store) (turn : Turn) : Prop where
  pos : 0 < s.lastHeight
  owner : s.slotOwner E turn.nextHeight turn.slot = some turn.key.publicKey
  blocktime : turn.blocktime = (E.network.milestone turn.nextHeight).blocktime
  slot : slotNumber (slotStart turn.slot turn.blocktime) turn.blocktime = turn.slot

/-- The block belongs to the key that signed it. -/
def OwnSlot (E : Env) (s : Store) (b : Block) : Prop :=
  s.slotOwner E b.height (slotNumber b.timestamp (E.network.milestone b.height).blocktime) =
    some b.generatorPublicKey

instance (E : Env) (s : Store) (b : Block) : Decidable (OwnSlot E s b) :=
  inferInstanceAs (Decidable (_ = _))

/-- What every phase of a tick may rely on. -/
def Invariant (E : Env) (n : ForgingNode) : Prop :=
  match n.phase with
  | .idle => True
  | .tipRead _ _ => 0 < n.store.lastHeight
  | .waiting turn _ => TurnOwned E n.store turn
  | .settled turn tip =>
      TurnOwned E n.store turn ∧ E.network.SameRound turn.nextHeight (tip.height + 1)
  | .signed block _ => 0 < n.store.lastHeight ∧ OwnSlot E n.store block

theorem slotNumber_slotStart {now blocktime : UInt32} (h : blocktime ≠ 0) :
    slotNumber (slotStart (slotNumber now blocktime) blocktime) blocktime =
      slotNumber now blocktime := by
  unfold slotNumber slotStart
  have hpos : 0 < blocktime.toNat := by
    rw [Nat.pos_iff_ne_zero]
    intro hzero
    exact h (UInt32.toNat_inj.mp hzero)
  have hle := Nat.div_mul_le_self now.toNat blocktime.toNat
  have hlt := now.toNat_lt
  have hsize : UInt32.size = 2 ^ 32 := rfl
  rw [UInt32.toNat_ofNat_of_lt' (by omega), Nat.mul_div_cancel _ hpos]

theorem Invariant.stop {E : Env} (n : ForgingNode) : Invariant E n.stop := trivial

theorem TurnOwned.congr {E : Env} {s s' : Store} {turn : Turn} (h : TurnOwned E s turn)
    (hround : s'.getRound (E.network.roundOf turn.nextHeight) =
      s.getRound (E.network.roundOf turn.nextHeight)) (hpos : 0 < s'.lastHeight) :
    TurnOwned E s' turn :=
  ⟨hpos, (Store.slotOwner_congr hround _).trans h.owner, h.blocktime, h.slot⟩

/-- Other tasks leave the snapshot of a working tick alone. -/
theorem Invariant.arrive {E : Env} {n : ForgingNode} {c : Change} (h : n.Invariant E)
    (horderly : c.Orderly E) (hkeeps : ∀ r ∈ n.round E.network, n.store.KeepsRound E r c) :
    Invariant E { n with store := n.store.change E c } := by
  rcases n with ⟨store, lastSlot, phase⟩
  cases phase with
  | idle => trivial
  | tipRead tip now => exact Store.change_lastHeight_pos horderly h
  | waiting turn pulls =>
      exact h.congr (Store.change_getRound horderly h.pos (hkeeps _ rfl))
        (Store.change_lastHeight_pos horderly h.pos)
  | settled turn tip =>
      exact ⟨h.1.congr (Store.change_getRound horderly h.1.pos (hkeeps _ rfl))
        (Store.change_lastHeight_pos horderly h.1.pos), h.2⟩
  | signed block tip =>
      exact ⟨Store.change_lastHeight_pos horderly h.1,
        (Store.slotOwner_congr (Store.change_getRound horderly h.1 (hkeeps _ rfl)) _).trans h.2⟩

theorem decideTurn_invariant {E : Env} {f : Forger} {n : ForgingNode} {tip : Block} {now : UInt32}
    {yields : Bool} (hpos : 0 < n.store.lastHeight) :
    Invariant E (n.decideTurn E f tip now yields) := by
  unfold decideTurn
  simp only
  split
  · exact .stop n
  · rename_i hpanic
    rw [not_or] at hpanic
    split
    · trivial
    · rename_i order horder
      split
      · rename_i first expected _ hexpected
        split
        · exact .stop n
        · split
          · exact .stop n
          · rename_i key hkey
            split
            · trivial
            · have hname := List.find?_some hkey
              refine ⟨hpos, ?_, rfl, slotNumber_slotStart hpanic.2⟩
              unfold Store.slotOwner Network.roundOf Network.delegatesAt
              simp only [horder, Option.bind_some, hexpected, Option.map_some]
              rw [of_decide_eq_true hname]
      · exact .stop n

theorem buildBlock_ownSlot {E : Env} {f : Forger} {s : Store} {turn : Turn} {tip block : Block}
    {pool : List Transaction} (hturn : TurnOwned E s turn)
    (hsame : E.network.SameRound turn.nextHeight (tip.height + 1))
    (h : buildBlock E f s turn tip pool = some block) : OwnSlot E s block := by
  unfold buildBlock at h
  simp only at h
  generalize (if (E.network.blockVersionsAllowed turn.nextHeight).1 then
    f.pqKeyFor s turn.key.publicKey else none) = pq at h
  split at h
  · cases h
  generalize hforged : (do
    let txs ← selectTransactions E s pool turn.nextHeight
    forgeBlockWith E turn.key pq tip (slotStart turn.slot turn.blocktime) txs) = forged at h
  cases forged with
  | error e => cases h
  | ok b =>
      obtain rfl := Option.some.inj h
      obtain ⟨txs, -, hforged⟩ := bind_eq_ok.mp hforged
      obtain ⟨hheight, htime, hkey⟩ := forgeBlockWith_ok hforged
      have howner := hturn.owner
      unfold Store.slotOwner Network.roundOf at howner
      unfold OwnSlot Store.slotOwner Network.roundOf
      rw [hheight, htime, hkey, hsame.blocktime, ← hturn.blocktime, hturn.slot, hsame.delegates,
        hsame.round]
      exact howner

/-- One step of a tick or of another task. -/
theorem step_invariant {E : Env} {f : Forger} {n n' : ForgingNode} {a : Action}
    (h : n.Invariant E) (hsteady : n.Steady E f a) (hstep : n.step E f a = some n') :
    n'.Invariant E := by
  cases a with
  | arrive c =>
      simp only [step] at hstep
      split_ifs at hstep with horderly
      injection hstep with hstep
      subst hstep
      exact h.arrive horderly hsteady
  | readTip now =>
      rcases n with ⟨store, lastSlot, _ | _ | _ | _ | _⟩ <;> simp only [step] at hstep <;>
        try contradiction
      split at hstep
      · rename_i tip htip
        injection hstep with hstep
        subst hstep
        refine Nat.pos_of_ne_zero fun hzero => ?_
        unfold Store.getLastBlock at htip
        rw [if_pos hzero] at htip
        cases htip
      · injection hstep with hstep
        subst hstep
        trivial
  | readOrder yields =>
      rcases n with ⟨store, lastSlot, _ | ⟨tip, now⟩ | _ | _ | _⟩ <;> simp only [step] at hstep <;>
        try contradiction
      injection hstep with hstep
      subst hstep
      exact decideTurn_invariant h
  | poll p =>
      rcases n with ⟨store, lastSlot, _ | _ | ⟨turn, pulls⟩ | _ | _⟩ <;>
        simp only [step] at hstep <;> try contradiction
      split at hstep
      · injection hstep with hstep
        subst hstep
        trivial
      · rename_i tip htip
        split at hstep
        · rename_i haccept
          injection hstep with hstep
          subst hstep
          unfold settle
          split_ifs
          · trivial
          · refine ⟨h, ?_⟩
            unfold Steady at hsteady
            simp only [htip] at hsteady
            exact hsteady haccept
        · injection hstep with hstep
          subst hstep
          trivial
        · injection hstep with hstep
          subst hstep
          exact h
  | build pool =>
      rcases n with ⟨store, lastSlot, _ | _ | _ | ⟨turn, tip⟩ | _⟩ <;>
        simp only [step] at hstep <;> try contradiction
      split at hstep
      · rename_i block hblock
        injection hstep with hstep
        subst hstep
        exact ⟨h.1.pos, buildBlock_ownSlot h.1 h.2 hblock⟩
      · injection hstep with hstep
        subst hstep
        trivial
  | apply nowMs =>
      rcases n with ⟨store, lastSlot, _ | _ | _ | _ | ⟨block, tip⟩⟩ <;>
        simp only [step] at hstep <;> try contradiction
      injection hstep with hstep
      subst hstep
      trivial

/-- The block that a tick signs belongs to the key that signs it, in every interleaving with
other tasks. -/
theorem signed_ownSlot (E : Env) (f : Forger) (n₀ n : ForgingNode) (hidle : n₀.phase = .idle)
    (hrun : Reaches (step E f) (Steady E f) n₀ n) (block tip : Block)
    (hsigned : n.phase = .signed block tip) : OwnSlot E n.store block := by
  have hinv : n.Invariant E := hrun.invariant
    (by
      unfold Invariant
      rw [hidle]
      trivial)
    fun t a u ht hgood hnext => step_invariant ht hgood hnext
  unfold Invariant at hinv
  rw [hsigned] at hinv
  exact hinv.2

end ForgingNode

namespace Reference

/-- A first block that registers three delegates. -/
def trioGenesis : Block :=
  first.forge 1 0 (Hex.encode (beBytes 32 0)) 0
    [registration first 1 "one", registration second 1 "two", registration third 1 "three"]

/-- Three delegates to a round. -/
def trioEnv : Env := ⟨primitives, network { activeDelegates := 3 }, 40000⟩

def trioSecond : Block := first.forge 2 8 (trioGenesis.id.getD "") 0 []

/-- The last block of the first round. -/
def trioThird : Block := first.forge 3 16 (trioSecond.id.getD "") 0 []

/-- A node that holds the second key, with two blocks. -/
def trioForger : Forger where
  keys := [{ publicKey := second.publicKey
             sign := fun hash => .ok (Hex.encode (Secp256k1.sign second.secret hash)) }]

def trioNode : ForgingNode where
  store := (((({} : Store).applyBlocks trioEnv [trioGenesis]).1).applyBlocks trioEnv
    [trioSecond]).1

/-- Three peers on the tip. -/
def agreeing (tip : Block) : Poll where
  views := List.replicate 3 { height := tip.height, id := tip.id.getD "" }
  beforeDeadline := true
  pulled := false
  pastMidSlot := false
  pastDeadline := false

/-- A tick in the fourth slot, with what happens before the peers answer. -/
def fourthSlot (arrivals : List ForgingNode.Action) (tip : Block) : List ForgingNode.Action :=
  [.readTip 32, .readOrder false] ++ arrivals ++ [.poll (agreeing tip), .build []]

/-- The height of the block that a node has signed, and whether its slot is the key's. -/
def signedSlot (E : Env) (n : ForgingNode) : Option (Nat × Bool) :=
  match n.phase with
  | .signed block _ => some (block.height, decide (ForgingNode.OwnSlot E n.store block))
  | _ => none

end Reference

open Reference

namespace ForgingNode

theorem signed_of_signedSlot {E : Env} {n : ForgingNode} {height : Nat} {own : Bool}
    (h : signedSlot E n = some (height, own)) :
    ∃ block tip, n.phase = .signed block tip ∧ block.height = height ∧
      (own = true ↔ OwnSlot E n.store block) := by
  unfold signedSlot at h
  split at h
  · rename_i block tip hphase
    rw [Option.some.injEq, Prod.mk.injEq] at h
    exact ⟨block, tip, hphase, h.1, by rw [← h.2, decide_eq_true_iff]⟩
  · cases h

/-- The fourth slot twice: first in peace, and then with the block that ends the first round
coming in while the node waits. -/
theorem fourthSlot_signed :
    ((follow (step trioEnv trioForger) (Steady trioEnv trioForger) trioNode
      (fourthSlot [] trioSecond)).bind (signedSlot trioEnv)).map Prod.fst = some 3 ∧
    (follow (step trioEnv trioForger) (fun _ _ => True) trioNode
      (fourthSlot [.arrive (.write [trioThird] true)] trioThird)).bind (signedSlot trioEnv) =
        some (4, false) := by
  decide +kernel

theorem signed_ownSlot_third :
    ∃ (n : ForgingNode) (block tip : Block), n.phase = .signed block tip ∧ block.height = 3 ∧
      OwnSlot trioEnv n.store block := by
  obtain ⟨⟨height, own⟩, hbind, rfl⟩ := Option.map_eq_some_iff.mp fourthSlot_signed.1
  obtain ⟨n, hn, hslot⟩ := Option.bind_eq_some_iff.mp hbind
  obtain ⟨block, tip, hphase, hheight, -⟩ := signed_of_signedSlot hslot
  have hown := signed_ownSlot trioEnv trioForger trioNode n rfl (.of_follow hn) block tip hphase
  exact ⟨n, block, tip, hphase, hheight, hown⟩

/-- A node that signs in a slot of another delegate. -/
theorem signed_foreign_slot :
    ∃ E f n₀ n block tip, n₀.phase = .idle ∧ Reaches (step E f) (fun _ _ => True) n₀ n ∧
      n.phase = .signed block tip ∧ ¬ OwnSlot E n.store block := by
  obtain ⟨n, hn, hslot⟩ := Option.bind_eq_some_iff.mp fourthSlot_signed.2
  obtain ⟨block, tip, hphase, -, hown⟩ := signed_of_signedSlot hslot
  refine ⟨trioEnv, trioForger, trioNode, n, block, tip, rfl, .of_follow hn, hphase, ?_⟩
  rw [← hown]
  simp

end ForgingNode

end SthCore
