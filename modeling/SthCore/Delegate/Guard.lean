import SthCore.Lib.Bounded
import SthCore.Config

/-!
The double-forge guard: blocks by the node's own keys that come from outside are
kept in a bounded ring, and a key with a recent one yields its slots.  The ring
is compared with the whole history.
-/

namespace SthCore

open SthCore.Lib

inductive GuardMode
  | alert
  | yield
  deriving DecidableEq

structure DoubleForgeGuardConfig where
  enabled : Bool := true
  mode : GuardMode := .yield
  rounds : UInt64 := 2

/-- Where a block came from. -/
inductive Source
  | pullLegacy
  | pushLegacy
  | gossipIroh
  | forged
  deriving DecidableEq

def Source.label : Source → String
  | .pullLegacy => "pull/legacy"
  | .pushLegacy => "push/legacy"
  | .gossipIroh => "gossip/iroh"
  | .forged => "forged"

/-- A block signed by one of our keys that another node forged. -/
structure ForeignBlock where
  height : Nat
  id : Text
  generator : Text
  peer : Text
  source : Source
  atUnix : Int

/-- Blocks by other nodes that are kept. -/
def keep : Nat := 50

/-- Ids of own blocks that are kept. -/
def ownIds : Nat := 256

structure Guard where
  cfg : DoubleForgeGuardConfig := {}
  network : Network
  ownKeys : List Text

structure GuardState where
  foreign : List ForeignBlock := []
  ownForged : List Text := []

/-- `group`: decimal digits in groups of three. -/
def group (n : Nat) : String :=
  let digits := Nat.toDigits 10 n
  String.ofList (digits.zipIdx.flatMap fun (c, i) =>
    if 0 < i ∧ (digits.length - i) % 3 = 0 then [',', c] else [c])

/-- `short`: the front of an id. -/
def short (id : Text) : Text := ⟨id.toList.take 12⟩

/-- A block that is accepted: where from, and when by the chain's clock and by the wall clock. -/
structure Accepted where
  source : Source
  peer : Text
  block : Block
  nowEpoch : UInt32
  nowUnix : Int

def Accepted.id (a : Accepted) : Text := a.block.id.getD ""

inductive GuardEvent
  | ownForged (id : Text)
  | accepted (a : Accepted)

namespace Guard

variable (G : Guard)

/-- Only blocks forged within the yield window count. -/
def isFresh (block : Block) (nowEpoch : UInt32) : Bool :=
  let m := G.network.milestone block.height
  let window := max G.cfg.rounds 1 * m.activeDelegates.toUInt64 * m.blocktime.toUInt64
  let age : Int := nowEpoch.toNat - block.timestamp.toNat
  decide (age ≤ window.toInt64.toInt)

/-- Whether an accepted block is looked at: it was not forged here, it is signed by an own key, and
it is fresh. -/
def concerns (a : Accepted) : Bool :=
  a.source ≠ .forged && decide (a.block.generatorPublicKey ∈ G.ownKeys) &&
    G.isFresh a.block a.nowEpoch

/-- The record of an accepted block. -/
def record (a : Accepted) : ForeignBlock where
  height := a.block.height
  id := a.id
  generator := a.block.generatorPublicKey
  peer := a.peer
  source := a.source
  atUnix := a.nowUnix

def ownForged (st : GuardState) (id : Text) : GuardState :=
  { st with ownForged := pushBounded ownIds st.ownForged id }

def onAccepted (st : GuardState) (a : Accepted) : GuardState :=
  if !G.concerns a then st
  else if a.id ∈ st.ownForged then st
  else if st.foreign.any fun f => f.id = a.id then st
  else { st with foreign := pushBounded keep st.foreign (record a) }

/-- Heights below this are outside the yield window. -/
def windowStart (nextHeight : Nat) (activeDelegates : UInt64) : Nat :=
  nextHeight - (max G.cfg.rounds 1 * max activeDelegates 1).toNat

/-- Why the forger must skip the slot of a key, if it must. -/
def yieldReason (st : GuardState) (nowUnix : Int) (publicKey : Text) (nextHeight : Nat)
    (activeDelegates : UInt64) : Option String :=
  if G.cfg.mode ≠ .yield then none
  else
    let start := G.windowStart nextHeight activeDelegates
    (st.foreign.reverse.find? fun f => f.generator = publicKey && start ≤ f.height).map fun f =>
      s!"double-forge-guard: block {group f.height} ({short f.id}…) by this key arrived from {f.peer} via {f.source.label} {max (nowUnix - f.atUnix) 0}s ago — the key forges on another node, yielding the slot instead of splitting the network (stop the other node, or set delegate.guard.mode: alert)"

def step (st : GuardState) : GuardEvent → GuardState
  | .ownForged id => ownForged st id
  | .accepted a => G.onAccepted st a

def run (events : List GuardEvent) : GuardState := events.foldl G.step {}

/-- The ids of all blocks that the node has forged. -/
def forgedIds (events : List GuardEvent) : List Text :=
  events.filterMap fun e =>
    match e with
    | .ownForged id => some id
    | .accepted _ => none

/-- All accepted blocks of the history that the node has not forged and that were fresh when they
arrived, signed by an own key. -/
def foreignBlocks : List GuardEvent → List Text → List Block
  | [], _ => []
  | .ownForged id :: rest, forged => foreignBlocks rest (forged ++ [id])
  | .accepted a :: rest, forged =>
      if G.concerns a && decide (a.id ∉ forged) then a.block :: foreignBlocks rest forged
      else foreignBlocks rest forged

/-- The history asks the key to yield. -/
def ShouldYield (events : List GuardEvent) (publicKey : Text) (nextHeight : Nat)
    (activeDelegates : UInt64) : Prop :=
  ∃ b ∈ G.foreignBlocks events [], b.generatorPublicKey = publicKey ∧
    nextHeight - (max G.cfg.rounds 1).toNat * (max activeDelegates 1).toNat ≤ b.height

/-- The guard yields as the history asks, at every height and for every number of delegates. -/
def Exact (events : List GuardEvent) : Prop :=
  ∀ (nowUnix : Int) (publicKey : Text) (nextHeight : Nat) (activeDelegates : UInt64),
    (max G.cfg.rounds 1).toNat * (max activeDelegates 1).toNat < 2 ^ 64 →
    ((G.yieldReason (G.run events) nowUnix publicKey nextHeight activeDelegates).isSome ↔
      G.ShouldYield events publicKey nextHeight activeDelegates)

end Guard

/-- Among keys and heights, a height of the key from the given one on. -/
def Covered (marks : List (Text × Nat)) (key : Text) (height : Nat) : Prop :=
  ∃ m ∈ marks, m.1 = key ∧ height ≤ m.2

namespace Covered

variable {l m : List (Text × Nat)} {key : Text} {height low : Nat}

theorem mono (h : Covered l key height) (hle : low ≤ height) : Covered l key low := by
  obtain ⟨mark, hmark, hkey, hheight⟩ := h
  exact ⟨mark, hmark, hkey, hle.trans hheight⟩

theorem append : Covered (l ++ m) key height ↔ Covered l key height ∨ Covered m key height := by
  constructor
  · rintro ⟨mark, hmark, hrest⟩
    rcases List.mem_append.mp hmark with hmark | hmark
    · exact .inl ⟨mark, hmark, hrest⟩
    · exact .inr ⟨mark, hmark, hrest⟩
  · rintro (⟨mark, hmark, hrest⟩ | ⟨mark, hmark, hrest⟩)
    · exact ⟨mark, List.mem_append_left _ hmark, hrest⟩
    · exact ⟨mark, List.mem_append_right _ hmark, hrest⟩

theorem singleton {mark : Text × Nat} :
    Covered [mark] key height ↔ mark.1 = key ∧ height ≤ mark.2 := by
  constructor
  · rintro ⟨m, hm, hrest⟩
    rw [List.mem_singleton.mp hm] at hrest
    exact hrest
  · intro h
    exact ⟨mark, List.mem_singleton_self mark, h⟩

end Covered

def ForeignBlock.mark (f : ForeignBlock) : Text × Nat := (f.generator, f.height)

def Accepted.mark (a : Accepted) : Text × Nat := (a.block.generatorPublicKey, a.block.height)

def GuardState.marks (st : GuardState) : List (Text × Nat) := st.foreign.map ForeignBlock.mark

namespace Guard

variable {G : Guard} {front events : List GuardEvent} {a : Accepted}

/-- Keys and heights of the blocks of the history. -/
def historyMarks (G : Guard) (events : List GuardEvent) : List (Text × Nat) :=
  (G.foreignBlocks events []).map fun b => (b.generatorPublicKey, b.height)

/-- The id of an accepted block is one of those in the ring. -/
def Known (G : Guard) (front : List GuardEvent) (a : Accepted) : Prop :=
  ∃ f ∈ (G.run front).foreign, f.id = a.id

/-- What keeps the ring in step with the history when a block that concerns the guard comes in
whose id is not among the kept own ids. -/
structure Unharmed (G : Guard) (front : List GuardEvent) (a : Accepted) : Prop where
  /-- A block of this node is in the ring already, or its key is with at least its height. -/
  own : a.id ∈ forgedIds front → G.Known front a ∨
    Covered (G.run front).marks a.block.generatorPublicKey a.block.height
  /-- A known id belongs to this node, or its key is in the ring with at least its height. -/
  known : G.Known front a → a.id ∈ forgedIds front ∨
    Covered (G.run front).marks a.block.generatorPublicKey a.block.height
  /-- The record that falls out is outdone by another one of its key. -/
  evicted : ¬ G.Known front a → ∀ f, outgoing keep (G.run front).foreign = some f →
    Covered (G.run (front ++ [.accepted a])).marks f.generator f.height

/-- The ring and the history cover the same. -/
def Faithful (G : Guard) (events : List GuardEvent) : Prop :=
  ∀ key height, Covered (G.run events).marks key height ↔
    Covered (G.historyMarks events) key height

theorem run_append (events : List GuardEvent) (e : GuardEvent) :
    G.run (events ++ [e]) = G.step (G.run events) e :=
  List.foldl_append

theorem forgedIds_append (events more : List GuardEvent) :
    forgedIds (events ++ more) = forgedIds events ++ forgedIds more :=
  List.filterMap_append

theorem foreignBlocks_append (events more : List GuardEvent) (forged : List Text) :
    G.foreignBlocks (events ++ more) forged =
      G.foreignBlocks events forged ++ G.foreignBlocks more (forged ++ forgedIds events) := by
  induction events generalizing forged with
  | nil =>
      rw [List.nil_append]
      exact congrArg (G.foreignBlocks more) (List.append_nil forged).symm
  | cons e rest ih =>
      cases e with
      | ownForged id =>
          change G.foreignBlocks (rest ++ more) (forged ++ [id]) = _
          rw [ih, List.append_assoc]
          rfl
      | accepted b =>
          change (if _ then _ else _) = (if _ then _ else _) ++ _
          split_ifs
          · exact congrArg (List.cons b.block) (ih forged)
          · exact ih forged

/-- What an accepted block adds to the history. -/
theorem historyMarks_accepted (front : List GuardEvent) (a : Accepted) :
    G.historyMarks (front ++ [.accepted a]) = G.historyMarks front ++
      if G.concerns a = true ∧ a.id ∉ forgedIds front then [a.mark] else [] := by
  unfold historyMarks
  rw [foreignBlocks_append, List.map_append, List.nil_append]
  congr 1
  change (if _ then _ else _ : List Block).map _ = _
  by_cases h : G.concerns a = true ∧ a.id ∉ forgedIds front
  · rw [if_pos h, if_pos (by rw [h.1, decide_eq_true h.2]; rfl)]
    rfl
  · rw [if_neg h, if_neg (by rw [Bool.and_eq_true, decide_eq_true_eq]; exact h)]
    rfl

theorem historyMarks_ownForged (front : List GuardEvent) (id : Text) :
    G.historyMarks (front ++ [.ownForged id]) = G.historyMarks front := by
  unfold historyMarks
  rw [foreignBlocks_append]
  exact congrArg _ (List.append_nil _)

/-- The kept own ids are among all of them. -/
theorem ownForged_suffix (events : List GuardEvent) :
    (G.run events).ownForged <:+ forgedIds events := by
  induction events using List.reverseRecOn with
  | nil => exact List.suffix_rfl
  | append_singleton front e ih =>
      rw [run_append, forgedIds_append]
      cases e with
      | ownForged id => exact pushBounded_suffix ih
      | accepted a =>
          change (G.onAccepted _ a).ownForged <:+ _ ++ []
          rw [List.append_nil]
          unfold onAccepted
          split_ifs
          · exact ih
          · exact ih
          · exact ih
          · exact ih

theorem yieldReason_iff {st : GuardState} (hmode : G.cfg.mode = .yield) {nowUnix : Int} {key : Text}
    {nextHeight : Nat} {n : UInt64} :
    (G.yieldReason st nowUnix key nextHeight n).isSome ↔
      Covered st.marks key (G.windowStart nextHeight n) := by
  unfold yieldReason
  rw [if_neg (not_not.mpr hmode)]
  dsimp only
  rw [Option.isSome_map, List.find?_isSome]
  constructor
  · rintro ⟨f, hf, hmatch⟩
    rw [Bool.and_eq_true, decide_eq_true_eq, decide_eq_true_eq] at hmatch
    exact ⟨f.mark, List.mem_map_of_mem (List.mem_reverse.mp hf), hmatch⟩
  · rintro ⟨mark, hmark, hmatch⟩
    obtain ⟨f, hf, rfl⟩ := List.mem_map.mp hmark
    refine ⟨f, List.mem_reverse.mpr hf, ?_⟩
    rw [Bool.and_eq_true, decide_eq_true_eq, decide_eq_true_eq]
    exact hmatch

theorem shouldYield_iff {key : Text} {nextHeight : Nat} {n : UInt64} :
    G.ShouldYield events key nextHeight n ↔ Covered (G.historyMarks events) key
      (nextHeight - (max G.cfg.rounds 1).toNat * (max n 1).toNat) := by
  constructor
  · rintro ⟨b, hb, hmatch⟩
    exact ⟨_, List.mem_map_of_mem hb, hmatch⟩
  · rintro ⟨mark, hmark, hmatch⟩
    obtain ⟨b, hb, rfl⟩ := List.mem_map.mp hmark
    exact ⟨b, hb, hmatch⟩

/-- A window of one delegate can start at any height, so that the answers show what is covered. -/
theorem exact_iff (hmode : G.cfg.mode = .yield) : G.Exact events ↔ G.Faithful events := by
  constructor
  · intro h key height
    have hsingle : max (1 : UInt64) 1 = 1 := rfl
    have hone := h 0 key (height + (max G.cfg.rounds 1).toNat) 1 (by
      rw [hsingle]
      exact (Nat.mul_one _).trans_lt (max G.cfg.rounds 1).toNat_lt)
    rw [yieldReason_iff hmode, shouldYield_iff] at hone
    unfold windowStart at hone
    have hproduct : (max G.cfg.rounds 1).toNat * UInt64.toNat 1 = (max G.cfg.rounds 1).toNat :=
      Nat.mul_one _
    rwa [hsingle, UInt64.mul_one, hproduct, Nat.add_sub_cancel] at hone
  · intro h nowUnix key nextHeight n hbound
    rw [yieldReason_iff hmode, shouldYield_iff, h]
    unfold windowStart
    rw [UInt64.toNat_mul, Nat.mod_eq_of_lt hbound]

/-- A block that concerns the guard, with an id that is neither among the kept own ids nor known,
enters the ring. -/
theorem marks_accepted (hconcerns : G.concerns a = true)
    (hown : a.id ∉ (G.run front).ownForged) (hknown : ¬ G.Known front a) :
    (G.run (front ++ [.accepted a])).foreign =
      pushBounded keep (G.run front).foreign (record a) := by
  have hany : ¬ ((G.run front).foreign.any fun f => f.id = a.id) = true := by
    rw [List.any_eq_true]
    rintro ⟨f, hf, hid⟩
    exact hknown ⟨f, hf, of_decide_eq_true hid⟩
  rw [run_append]
  change (G.onAccepted _ a).foreign = _
  unfold onAccepted
  rw [hconcerns, if_neg (by decide), if_neg hown, if_neg hany]

/-- Any other accepted block leaves the ring alone. -/
theorem marks_passed (h : G.concerns a = true → a.id ∈ (G.run front).ownForged ∨ G.Known front a) :
    (G.run (front ++ [.accepted a])).marks = (G.run front).marks := by
  rw [run_append]
  change (G.onAccepted _ a).marks = _
  unfold onAccepted
  split_ifs with hconcerns hown hany
  · rfl
  · rfl
  · rfl
  · rw [Bool.not_eq_true', Bool.not_eq_false] at hconcerns
    rcases h hconcerns with hin | ⟨f, hf, hid⟩
    · exact absurd hin hown
    · exact absurd (List.any_eq_true.mpr ⟨f, hf, decide_eq_true hid⟩) hany

theorem Unharmed.faithful (hfaithful : G.Faithful front) (hconcerns : G.concerns a = true)
    (hown : a.id ∉ (G.run front).ownForged) (h : G.Unharmed front a) :
    G.Faithful (front ++ [.accepted a]) := by
  intro key height
  rw [historyMarks_accepted, Covered.append, ← hfaithful]
  by_cases hknown : G.Known front a
  · rw [marks_passed fun _ => .inr hknown]
    refine ⟨Or.inl, ?_⟩
    rintro (hring | hnew)
    · exact hring
    · split_ifs at hnew with hadded
      · obtain ⟨rfl, hheight⟩ := Covered.singleton.mp hnew
        exact ((h.known hknown).resolve_left hadded.2).mono hheight
      · obtain ⟨m, hm, -⟩ := hnew
        cases hm
  · have hpush := marks_accepted hconcerns hown hknown
    constructor
    · rintro ⟨mark, hmark, hmatch⟩
      unfold GuardState.marks at hmark
      rw [hpush] at hmark
      obtain ⟨f, hf, rfl⟩ := List.mem_map.mp hmark
      rcases of_mem_pushBounded hf with hold | rfl
      · exact .inl ⟨_, List.mem_map_of_mem hold, hmatch⟩
      · by_cases hforged : a.id ∈ forgedIds front
        · obtain ⟨hkey, hheight⟩ := hmatch
          left
          rw [← hkey]
          exact ((h.own hforged).resolve_left hknown).mono hheight
        · right
          rw [if_pos ⟨hconcerns, hforged⟩]
          exact Covered.singleton.mpr hmatch
    · have hnew : ∀ f ∈ pushBounded keep (G.run front).foreign (record a),
          f.mark ∈ (G.run (front ++ [.accepted a])).marks := by
        intro f hf
        unfold GuardState.marks
        rw [hpush]
        exact List.mem_map_of_mem hf
      rintro (⟨mark, hmark, hmatch⟩ | hadded)
      · obtain ⟨f, hf, rfl⟩ := List.mem_map.mp hmark
        rcases mem_pushBounded_or keep (record a) hf with hkept | hout
        · exact ⟨_, hnew f hkept, hmatch⟩
        · obtain ⟨hkey, hheight⟩ := hmatch
          rw [← hkey]
          exact (h.evicted hknown f hout).mono hheight
      · split_ifs at hadded
        · exact ⟨_, hnew _ mem_pushBounded_self, Covered.singleton.mp hadded⟩
        · obtain ⟨m, hm, -⟩ := hadded
          cases hm

theorem unharmed_of_faithful (hfaithful : G.Faithful front) (hconcerns : G.concerns a = true)
    (hown : a.id ∉ (G.run front).ownForged) (h : G.Faithful (front ++ [.accepted a])) :
    G.Unharmed front a := by
  have hstep : ∀ key height, Covered (G.run (front ++ [.accepted a])).marks key height ↔
      Covered (G.run front).marks key height ∨ Covered
        (if G.concerns a = true ∧ a.id ∉ forgedIds front then [a.mark] else []) key height := by
    intro key height
    rw [h, historyMarks_accepted, Covered.append, ← hfaithful]
  have hself : ¬ G.Known front a → Covered (G.run (front ++ [.accepted a])).marks
      a.block.generatorPublicKey a.block.height := by
    intro hknown
    refine ⟨(record a).mark, ?_, rfl, le_rfl⟩
    unfold GuardState.marks
    rw [marks_accepted hconcerns hown hknown]
    exact List.mem_map_of_mem mem_pushBounded_self
  refine ⟨fun hforged => ?_, fun hknown => ?_, fun hknown f hout => ?_⟩
  · by_cases hknown : G.Known front a
    · exact .inl hknown
    · rcases (hstep _ _).mp (hself hknown) with hring | hnew
      · exact .inr hring
      · rw [if_neg fun hadded => hadded.2 hforged] at hnew
        obtain ⟨m, hm, -⟩ := hnew
        cases hm
  · by_cases hforged : a.id ∈ forgedIds front
    · exact .inl hforged
    · right
      have hcovered := (hstep a.block.generatorPublicKey a.block.height).mpr (.inr (by
        rw [if_pos ⟨hconcerns, hforged⟩]
        exact Covered.singleton.mpr ⟨rfl, le_rfl⟩))
      rwa [marks_passed fun _ => .inr hknown] at hcovered
  · exact (hstep _ _).mpr (.inl ⟨f.mark, List.mem_map_of_mem (mem_of_outgoing hout), rfl, le_rfl⟩)

/-- One event keeps ring and history in step exactly when it does no harm. -/
theorem faithful_append_iff (hfaithful : G.Faithful front) (e : GuardEvent) :
    G.Faithful (front ++ [e]) ↔ ∀ a, e = .accepted a → G.concerns a = true →
      a.id ∉ (G.run front).ownForged → G.Unharmed front a := by
  constructor
  · rintro h a rfl hconcerns hown
    exact unharmed_of_faithful hfaithful hconcerns hown h
  · intro h
    cases e with
    | ownForged id =>
        intro key height
        rw [historyMarks_ownForged, run_append, ← hfaithful]
        rfl
    | accepted a =>
        by_cases hconcerns : G.concerns a = true
        · by_cases hown : a.id ∈ (G.run front).ownForged
          · -- a kept own id is an own id, so that neither side changes
            have hforged : a.id ∈ forgedIds front := (ownForged_suffix front).subset hown
            intro key height
            rw [marks_passed fun _ => .inl hown, historyMarks_accepted,
              if_neg fun hadded => hadded.2 hforged, List.append_nil]
            exact hfaithful key height
          · exact (h a rfl hconcerns hown).faithful hfaithful hconcerns hown
        · intro key height
          rw [marks_passed fun hyes => absurd hyes hconcerns, historyMarks_accepted,
            if_neg fun hadded => hconcerns hadded.1, List.append_nil]
          exact hfaithful key height

/-- The guard answers as the history asks throughout a run exactly when no accepted block of the
run does harm: an own block is still remembered, a known id is that of the same key, and what
falls out of the ring is outdone. -/
theorem exact_run_iff (G : Guard) (hmode : G.cfg.mode = .yield) (events : List GuardEvent) :
    (∀ front, front <+: events → G.Exact front) ↔
      ∀ front a, front ++ [.accepted a] <+: events → G.concerns a = true →
        a.id ∉ (G.run front).ownForged → G.Unharmed front a := by
  constructor
  · intro h front a hprefix
    have hfront := (exact_iff hmode).mp (h front ((List.prefix_append _ _).trans hprefix))
    have hnext := (exact_iff hmode).mp (h _ hprefix)
    exact (faithful_append_iff hfront _).mp hnext a rfl
  · intro h front
    induction front using List.reverseRecOn with
    | nil => exact fun _ => (exact_iff hmode).mpr fun _ _ => Iff.rfl
    | append_singleton front e ih =>
        intro hprefix
        have hfront := (exact_iff hmode).mp (ih ((List.prefix_append _ _).trans hprefix))
        refine (exact_iff hmode).mpr ((faithful_append_iff hfront e).mpr ?_)
        rintro a rfl
        exact h front a hprefix

/-- A guard of two keys that yields for ten rounds. -/
def watched : Guard where
  cfg := { rounds := 10 }
  network :=
    { nethash := "", genesisBlockId := "", burnAddress := "", epochUnix := 0, milestones := [{}],
      nonempty := List.cons_ne_nil _ _ }
  ownKeys := ["first", "second"]

/-- A fresh block of a key from outside, with its height as its id. -/
def arrival (key : Text) (height : Nat) : GuardEvent :=
  .accepted
    { source := .gossipIroh, peer := "peer", nowEpoch := 8, nowUnix := 0
      block :=
        { id := some (Text.ofNat height), timestamp := 8, previousBlock := "", height,
          numberOfTransactions := 0, totalAmount := 0, totalFee := 0, reward := 0,
          payloadLength := 0, payloadHash := "", generatorPublicKey := key } }

/-- One block of the first key, and fifty of the second one behind it. -/
def crowded : List GuardEvent :=
  arrival "first" 100 :: (List.range' 101 50).map (arrival "second")

theorem exact_run_iff_crowded :
    (∀ front, front <+: crowded → watched.Exact front) ↔
      ∀ front a, front ++ [.accepted a] <+: crowded → watched.concerns a = true →
        a.id ∉ (watched.run front).ownForged → watched.Unharmed front a :=
  exact_run_iff watched rfl crowded

/-- The block of the first key has fallen out of the ring, 51 heights into a window of 210. -/
theorem crowded_out : watched.cfg.mode = .yield ∧
    watched.yieldReason (watched.run crowded) 0 "first" 151 21 = none ∧
    watched.ShouldYield crowded "first" 151 21 := by
  refine ⟨rfl, by decide +kernel, ?_⟩
  have hblock : (watched.foreignBlocks crowded []).any fun b =>
      b.generatorPublicKey = "first" && b.height == 100 := by
    decide +kernel
  obtain ⟨b, hb, hmatch⟩ := List.any_eq_true.mp hblock
  rw [Bool.and_eq_true, decide_eq_true_eq, beq_iff_eq] at hmatch
  exact ⟨b, hb, hmatch.1, by rw [hmatch.2]; decide⟩

end Guard

end SthCore
