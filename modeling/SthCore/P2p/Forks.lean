import SthCore.Chain.Rewritten
import SthCore.Lib.Turns
import SthCore.P2p.Follow

/-!
The live loop on a peer with another branch: it rolls back deeper and deeper until the chain is a
part of that branch, and then takes its blocks.
-/

namespace SthCore

open SthCore.Lib

namespace P2p

/-- The height a peer reports, and its blocks above a height, so many at most. -/
structure LegacyPeer where
  height : Nat
  getBlocks : Nat → Nat → List Block

/-- A peer that has a branch. -/
def LegacyPeer.of (branch : List Block) : LegacyPeer where
  height := branch.length
  getBlocks := fun lastHeight limit => (branch.drop lastHeight).take limit

/-- How a turn of the live loop ends. -/
inductive TurnEnd
  /-- The peer has nothing new. -/
  | waiting
  /-- The node fell behind, and goes back to catching up. -/
  | left
  /-- Another intake path moved the tip while the blocks were on their way. -/
  | moved
  | rolledBack (height : Nat)
  | refused (e : Error)
  | applied
  | rejected (e : Error)
  | failed (e : Error)

/-- A node that follows a peer. -/
structure Follower where
  store : Store
  forkDepth : Nat := 1

/-- `follow_live` before its loop. -/
def Follower.start (s : Store) : Follower := { store := { s with undoEnabled := true } }

/-- The blocks are on another branch: roll back, and deeper the next time. -/
def Follower.rollback (E : Env) (n : Follower) (tip : Sync.ChainTip) : Follower × TurnEnd :=
  let (store, rolled) := n.store.rollbackTo E (max (tip.height - n.forkDepth) 1)
  let n := { n with store, forkDepth := min (n.forkDepth * 3) undoDepth }
  match rolled with
  | .ok height => (n, .rolledBack height)
  | .error e => (n, .refused e)

def Follower.apply (E : Env) (verify : Bool) (n : Follower) (blocks : List Block)
    (tip : Sync.ChainTip) : Follower × TurnEnd :=
  match Sync.applyBlocks E n.store blocks tip verify with
  | (store, .ok _) => ({ n with store, forkDepth := 1 }, .applied)
  | (store, .error e) => ({ n with store }, .rejected e)

/-- One turn of the loop of `follow_live` on a peer; other paths may change the chain while the
blocks are on their way. -/
def Follower.turn (E : Env) (verify : Bool) (peer : LegacyPeer) (meanwhile : Store → Store)
    (n : Follower) : Follower × TurnEnd :=
  match readTip E n.store with
  | .error e => (n, .failed e)
  | .ok tip =>
      if peer.height ≤ tip.height then (n, .waiting)
      else if 2 * maxBlocksPerRequest < peer.height - tip.height then (n, .left)
      else
        let n := { n with store := meanwhile n.store }
        match peer.getBlocks tip.height maxBlocksPerRequest with
        | [] => (n, .waiting)
        | first :: rest =>
            match readTip E n.store with
            | .error e => (n, .failed e)
            | .ok current =>
                if current.height ≠ tip.height then (n, .moved)
                else if first.height = tip.height + 1 ∧
                    tip.id.any fun id => decide (first.previousBlock ≠ id) then n.rollback E tip
                else n.apply E verify (first :: rest) tip


/-- The chain has the block at its height. -/
def Holds (E : Env) (s : Store) (b : Block) : Prop :=
  ∃ record d, s.blocks[b.height]? = some record ∧ decodeBlock E record = .ok d ∧ d.id = b.id

/-- A branch from the first block on, of blocks that can be stored. -/
structure Branch (P : Primitives) (N : Network) (branch : List Block) : Prop where
  above : Chain.Above 0 branch
  follows : branch.IsChain Follows
  readable : ∀ b ∈ branch, ∀ now, b.Readable ⟨P, N, now⟩

/-- The chain and the branch have the same blocks up to a height, and others above it. -/
structure Parted (E : Env) (s : Store) (branch : List Block) (height : Nat) : Prop where
  pos : 0 < height
  le : height ≤ s.lastHeight
  common : ∀ b ∈ branch, b.height ≤ height → Holds E s b
  apart : ∀ b ∈ branch, height < b.height → b.height ≤ s.lastHeight → ¬ Holds E s b

variable {P : Primitives} {N : Network} {s : Store} {branch : List Block} {height : Nat}

/-- What the peer answers: the blocks of the branch that follow on a height. -/
theorem getBlocks_of (hbranch : Branch P N branch) (hlt : height < branch.length) :
    ∃ first rest, (LegacyPeer.of branch).getBlocks height maxBlocksPerRequest = first :: rest ∧
      Chain.Above height (first :: rest) ∧ (∀ b ∈ first :: rest, b ∈ branch) ∧
      ∀ below ∈ branch, below.height = height → Follows below first := by
  have hsplit : branch.take height ++ ((branch.drop height).take maxBlocksPerRequest ++
      (branch.drop height).drop maxBlocksPerRequest) = branch := by
    rw [List.take_append_drop, List.take_append_drop]
  have hlength : (branch.take height).length = height := by
    rw [List.length_take]
    omega
  have habove : Chain.Above height ((branch.drop height).take maxBlocksPerRequest) := by
    have hall := hbranch.above
    rw [← hsplit] at hall
    have hlater := hall.append.2
    rw [hlength, Nat.zero_add] at hlater
    exact hlater.append.1
  have hmem : ∀ b ∈ (branch.drop height).take maxBlocksPerRequest, b ∈ branch := fun b hb =>
    List.mem_of_mem_drop (List.mem_of_mem_take hb)
  show ∃ first rest, (branch.drop height).take maxBlocksPerRequest = first :: rest ∧ _
  cases hserved : (branch.drop height).take maxBlocksPerRequest with
  | nil =>
      have hempty := congrArg List.length hserved
      rw [List.length_take, List.length_drop, List.length_nil] at hempty
      unfold maxBlocksPerRequest at hempty
      omega
  | cons first rest =>
      rw [hserved] at habove hmem
      refine ⟨first, rest, rfl, habove, hmem, fun below hbelow hheight => ?_⟩
      have hfirst := habove.first first rfl
      exact hbranch.above.follows hbranch.follows hbelow (hmem first List.mem_cons_self) (by omega)

/-- A turn that leaves the follower without a further one of its kind. -/
def TurnEnd.Stops (e : TurnEnd) : Prop :=
  e = .left ∨ (∃ err, e = .refused err) ∨ ∃ err, e = .rejected err

/-- The chain without its last blocks, above the height where the branch parts from it. -/
structure Losing (P : Primitives) (N : Network) (s : Store) (height : Nat) (n : Follower) :
    Prop where
  solid : n.store.Solid ⟨P, N, 0⟩
  kept : ∀ h ≤ n.store.lastHeight, n.store.blocks[h]? = s.blocks[h]?
  le : n.store.lastHeight ≤ s.lastHeight
  parted : height < n.store.lastHeight
  pos : 0 < n.forkDepth
  depth : n.forkDepth ≤ 1 + 2 * (s.lastHeight - n.store.lastHeight)

/-- The chain is a part of the branch. -/
structure OnBranch (P : Primitives) (N : Network) (branch : List Block) (lowest : Nat)
    (n : Follower) : Prop where
  solid : n.store.Solid ⟨P, N, 0⟩
  low : lowest ≤ n.store.lastHeight
  le : n.store.lastHeight ≤ branch.length
  holds : ∀ b ∈ branch, b.height ≤ n.store.lastHeight → Holds ⟨P, N, 0⟩ n.store b

/-- Where rollbacks may lead: less than three times as deep as the fork, and not below the first
block. -/
def lowest (s : Store) (height : Nat) : Nat :=
  max 1 (s.lastHeight - (3 * (s.lastHeight - height) - 2))

/-- A turn on a peer that is ahead, while nothing else moves the tip. -/
theorem turn_served {E : Env} {verify : Bool} {n : Follower} {tip : Sync.ChainTip} {first : Block}
    {rest : List Block} (htip : readTip E n.store = .ok tip) (hlt : tip.height < branch.length)
    (hnear : branch.length - tip.height ≤ 2 * maxBlocksPerRequest)
    (hserved : (LegacyPeer.of branch).getBlocks tip.height maxBlocksPerRequest = first :: rest) :
    n.turn E verify (.of branch) id =
      if first.height = tip.height + 1 ∧ tip.id.any fun id => decide (first.previousBlock ≠ id) then
        n.rollback E tip
      else n.apply E verify (first :: rest) tip := by
  have hpeer : (LegacyPeer.of branch).height = branch.length := rfl
  unfold Follower.turn
  simp only [htip, hpeer, id_eq, hserved]
  rw [if_neg (by omega), if_neg (by omega), if_neg fun h => h rfl]

/-- The blocks of the peer follow on the tip exactly when the tip is a block of its branch. -/
theorem forked_iff {now : Int} {n : Follower} (hsolid : n.store.Solid ⟨P, N, now⟩)
    (hbranch : Branch P N branch) (hpos : 0 < n.store.lastHeight)
    (hlt : n.store.lastHeight < branch.length) :
    ∃ tip first rest, tip.height = n.store.lastHeight ∧
      readTip ⟨P, N, now⟩ n.store = .ok tip ∧
      (LegacyPeer.of branch).getBlocks tip.height maxBlocksPerRequest = first :: rest ∧
      Chain.Above n.store.lastHeight (first :: rest) ∧ (∀ b ∈ first :: rest, b ∈ branch) ∧
      ((first.height = tip.height + 1 ∧
          tip.id.any fun id => decide (first.previousBlock ≠ id)) ↔
        ∀ b ∈ branch, b.height = n.store.lastHeight → ¬ Holds ⟨P, N, now⟩ n.store b) := by
  obtain ⟨record, d, hrecord, hd, htip⟩ := hsolid.exists_tip hpos
  obtain ⟨first, rest, hserved, habove, hmem, hfollows⟩ := getBlocks_of hbranch hlt
  obtain ⟨id, hid⟩ : ∃ id, d.id = some id := by
    obtain ⟨b, hb, -⟩ := hsolid.record _ record hrecord
    obtain rfl := Except.ok.inj (hb.reads.symm.trans hd)
    exact Option.isSome_iff_exists.mp hb.id
  refine ⟨_, first, rest, rfl, htip, hserved, habove, hmem, ?_⟩
  dsimp only
  rw [hid]
  constructor
  · rintro ⟨-, hother⟩ b hb hheight ⟨record', d', hrecord', hd', hsame⟩
    rw [hheight, hrecord] at hrecord'
    obtain rfl := Option.some.inj hrecord'
    obtain rfl := Except.ok.inj (hd.symm.trans hd')
    have hparent := (hfollows b hb hheight).2
    rw [← hsame, hid] at hparent
    exact of_decide_eq_true hother (Option.some.inj hparent).symm
  · intro hother
    obtain ⟨below, hbelow, hheight⟩ : ∃ below ∈ branch, below.height = n.store.lastHeight :=
      List.mem_map.mp (hbranch.above.mem_heights.mpr ⟨hpos, by omega⟩)
    have hparent := (hfollows below hbelow hheight).2
    refine ⟨habove.first first rfl, decide_eq_true ?_⟩
    rintro rfl
    refine hother below hbelow hheight ⟨record, d, ?_, hd, hid.trans hparent.symm⟩
    rw [hheight]
    exact hrecord

theorem turn_left {E : Env} {verify : Bool} {n : Follower} {tip : Sync.ChainTip}
    (htip : readTip E n.store = .ok tip)
    (hfar : 2 * maxBlocksPerRequest < branch.length - tip.height) :
    n.turn E verify (.of branch) id = (n, .left) := by
  have hpeer : (LegacyPeer.of branch).height = branch.length := rfl
  unfold Follower.turn
  simp only [htip, hpeer]
  rw [if_neg (by omega), if_pos hfar]

theorem Holds.congr {s' : Store} {b : Block} {E : Env} (h : Holds E s b)
    (hsame : s'.blocks[b.height]? = s.blocks[b.height]?) : Holds E s' b := by
  obtain ⟨record, d, hrecord, hd, hid⟩ := h
  exact ⟨record, d, hsame.trans hrecord, hd, hid⟩

/-- A rollback brings the node nearer to the branch, or onto it. -/
theorem Losing.turn {now : Int} {n : Follower} (h : Losing P N s height n)
    (hparted : Parted ⟨P, N, 0⟩ s branch height) (hbranch : Branch P N branch)
    (hahead : s.lastHeight < branch.length) :
    (n.turn ⟨P, N, now⟩ true (.of branch) id).2.Stops ∨
    (n.turn ⟨P, N, now⟩ true (.of branch) id).1.store.lastHeight < n.store.lastHeight ∧
      (Losing P N s height (n.turn ⟨P, N, now⟩ true (.of branch) id).1 ∨
        OnBranch P N branch (lowest s height) (n.turn ⟨P, N, now⟩ true (.of branch) id).1) := by
  have hsolid := h.solid.atTime now
  have hle := h.le
  have hheight := h.parted
  have hfork := hparted.pos
  obtain ⟨tip, first, rest, htipHeight, htip, hserved, -, -, hforked⟩ :=
    forked_iff hsolid hbranch (by omega) (by omega)
  by_cases hnear : branch.length - tip.height ≤ 2 * maxBlocksPerRequest
  · have hother : ∀ b ∈ branch, b.height = n.store.lastHeight →
        ¬ Holds ⟨P, N, now⟩ n.store b := by
      intro b hb hb' hholds
      refine hparted.apart b hb (by omega) (by omega) ?_
      exact Holds.congr hholds (h.kept b.height (by omega)).symm
    rw [turn_served htip (by omega) hnear hserved, if_pos (hforked.mpr hother), Follower.rollback,
      htipHeight]
    rcases hrolled : n.store.rollbackTo ⟨P, N, now⟩ (max (n.store.lastHeight - n.forkDepth) 1)
      with ⟨s', e | reached⟩
    · exact .inl (.inr (.inl ⟨e, rfl⟩))
    · right
      have hdepth := h.depth
      have hpos := h.pos
      obtain ⟨hsolid', hend, hkept⟩ := hsolid.rollbackTo (by omega) hrolled
      have hrecords : ∀ i ≤ s'.lastHeight, s'.blocks[i]? = s.blocks[i]? := by
        intro i hi
        rw [hkept i (by omega), h.kept i (by omega)]
      refine ⟨show s'.lastHeight < n.store.lastHeight by omega, ?_⟩
      by_cases hstill : height < s'.lastHeight
      · left
        refine ⟨hsolid'.atTime 0, hrecords, show s'.lastHeight ≤ s.lastHeight by omega, hstill, ?_, ?_⟩
        · show 0 < min (n.forkDepth * 3) undoDepth
          unfold undoDepth
          omega
        · show min (n.forkDepth * 3) undoDepth ≤ 1 + 2 * (s.lastHeight - s'.lastHeight)
          omega
      · right
        refine ⟨hsolid'.atTime 0, ?_, show s'.lastHeight ≤ branch.length by omega, ?_⟩
        · show lowest s height ≤ s'.lastHeight
          unfold lowest
          omega
        · intro b hb hlow
          have hlow : b.height ≤ s'.lastHeight := hlow
          exact (hparted.common b hb (by omega)).congr (hrecords b.height hlow)
  · rw [turn_left htip (by omega)]
    exact .inl (.inl rfl)

/-- On the branch the node takes the blocks of the peer. -/
theorem OnBranch.turn {now : Int} {n : Follower} {low : Nat} (h : OnBranch P N branch low n)
    (hP : P.Lawful) (hlow : 0 < low) (hbranch : Branch P N branch)
    (hlt : n.store.lastHeight < branch.length) :
    (n.turn ⟨P, N, now⟩ true (.of branch) id).2.Stops ∨
    n.store.lastHeight < (n.turn ⟨P, N, now⟩ true (.of branch) id).1.store.lastHeight ∧
      OnBranch P N branch low (n.turn ⟨P, N, now⟩ true (.of branch) id).1 := by
  have hsolid := h.solid.atTime now
  have hpos := Nat.lt_of_lt_of_le hlow h.low
  obtain ⟨tip, first, rest, htipHeight, htip, hserved, habove, hmem, hforked⟩ :=
    forked_iff hsolid hbranch hpos hlt
  by_cases hnear : branch.length - tip.height ≤ 2 * maxBlocksPerRequest
  · have hown : ¬ ∀ b ∈ branch, b.height = n.store.lastHeight →
        ¬ Holds ⟨P, N, now⟩ n.store b := by
      intro hother
      obtain ⟨b, hb, hheight⟩ : ∃ b ∈ branch, b.height = n.store.lastHeight :=
        List.mem_map.mp (hbranch.above.mem_heights.mpr ⟨hpos, by omega⟩)
      exact hother b hb hheight (h.holds b hb (by omega))
    rw [turn_served htip (by omega) hnear hserved, if_neg (mt hforked.mp hown), Follower.apply]
    rcases happlied : Sync.applyBlocks ⟨P, N, now⟩ n.store (first :: rest) tip true
      with ⟨s', e | tip'⟩
    · exact .inl (.inr (.inr ⟨e, rfl⟩))
    · right
      have hreadable : ∀ b ∈ first :: rest, b.Readable ⟨P, N, now⟩ := fun b hb =>
        hbranch.readable b (hmem b hb) now
      have hsolid' := hsolid.applyBlocks hP htip hreadable
      rw [happlied] at hsolid'
      unfold Sync.applyBlocks at happlied
      split at happlied
      · cases (Prod.mk.inj happlied).2
      rename_i reached hcheck
      obtain ⟨-, -, hwhole, -⟩ := hsolid.checked hP htip hreadable hcheck
      obtain ⟨front, behind, hfront, hstacked, hall⟩ :=
        Chain.applyBlocks_stacked ⟨P, N, now⟩ habove
      obtain ⟨rfl, hresult⟩ := Prod.mk.inj happlied
      have hok : (n.store.applyBlocks ⟨P, N, now⟩ (first :: rest)).2 = .ok () := by
        obtain ⟨u, hu, -⟩ := map_eq_ok.mp hresult
        exact hu
      obtain rfl := hall hok
      rw [List.append_nil] at hfront
      rw [← hfront] at hstacked
      have hheight := hstacked.height
      have hlast : (n.store.applyBlocks ⟨P, N, now⟩ (first :: rest)).1.lastHeight ≤
          branch.length := by
        obtain ⟨b, hb⟩ := Option.isSome_iff_exists.mp
          (List.getLast?_isSome.mpr (List.cons_ne_nil first rest))
        have hb' := habove.last hb
        have := (hbranch.above.mem (hmem b (List.mem_of_getLast? hb))).2
        omega
      refine ⟨?_, hsolid'.atTime 0, ?_, hlast, fun b hb hle => ?_⟩
      · show n.store.lastHeight < (n.store.applyBlocks ⟨P, N, now⟩ (first :: rest)).1.lastHeight
        rw [hheight, List.length_cons]
        omega
      · show low ≤ (n.store.applyBlocks ⟨P, N, now⟩ (first :: rest)).1.lastHeight
        have := h.low
        omega
      · have hle : b.height ≤ (n.store.applyBlocks ⟨P, N, now⟩ (first :: rest)).1.lastHeight := hle
        by_cases hold : b.height ≤ n.store.lastHeight
        · refine (h.holds b hb hold).congr (hstacked.kept b.height ?_)
          rw [habove.mem_heights]
          omega
        · obtain ⟨c, hc, hsame⟩ : ∃ c ∈ first :: rest, c.height = b.height :=
            List.mem_map.mp (habove.mem_heights.mpr ⟨by omega, by omega⟩)
          have hown := hbranch.above.getElem?_eq (hmem c hc)
          rw [hsame, hbranch.above.getElem?_eq hb] at hown
          obtain rfl := Option.some.inj hown
          obtain ⟨p, hp, hwritten⟩ := hstacked.written b hc
          obtain ⟨d, hd, hheader⟩ := hwhole b hc p hp
          have hid := congrArg Block.id hheader
          exact ⟨p.2, d, hwritten, hd.reads, hid⟩
  · rw [turn_left htip (by omega)]
    exact .inl (.inl rfl)

open Reference

end P2p

end SthCore
