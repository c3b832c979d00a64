import SthCore.Storage.Store

/-!
Rounds, slots and the shuffle that turns a ranked list of delegates into the
forging order of a round.
-/

namespace SthCore

structure RoundInfo where
  round : Nat
  roundHeight : Nat
  nextRound : Nat
  maxDelegates : Nat
  deriving DecidableEq

def roundInfo (height maxDelegates : Nat) : RoundInfo :=
  let h := max height 1
  let round := (h - 1) / maxDelegates + 1
  { round
    roundHeight := (round - 1) * maxDelegates + 1
    nextRound := if h % maxDelegates = 0 then round + 1 else round
    maxDelegates }

def slotNumber (timestamp blocktime : UInt32) : Nat :=
  timestamp.toNat / blocktime.toNat

def slotStart (slot : Nat) (blocktime : UInt32) : UInt32 :=
  UInt32.ofNat (slot * blocktime.toNat)

/-- `slice::swap`. -/
def swapAt {α : Type} (items : List α) (i j : Nat) : List α :=
  match items[i]?, items[j]? with
  | some a, some b => (items.set i b).set j a
  | _, _ => items

/-- The inner loop of the shuffle: at most four swaps from one seed. -/
def shuffleStep {α : Type} (seed : Bytes) (n : Nat) (acc : List α × Nat) (x : Nat) : List α × Nat :=
  if acc.2 < n then (swapAt acc.1 ((seed.getD x 0).toNat % n) acc.2, acc.2 + 1) else acc

/-- The outer loop.  After every four swaps one index is skipped, so `n` rounds
of it are enough. -/
def shuffleFrom {α : Type} (P : Primitives) (n : Nat) : Nat → List α → Nat → Bytes → List α
  | 0, items, _, _ => items
  | fuel + 1, items, i, seed =>
      if i < n then
        let acc := [0, 1, 2, 3].foldl (shuffleStep seed n) (items, i)
        shuffleFrom P n fuel acc.1 (acc.2 + 1) (P.sha256 seed)
      else items

/-- `shuffle`: swaps driven by the hash of the round number. -/
def shuffle {α : Type} (P : Primitives) (items : List α) (round : Nat) : List α :=
  shuffleFrom P items.length items.length items 0 (P.sha256 (utf8Bytes (Text.ofNat round)))

namespace Store

/-- `forging_order`: nothing without a stored snapshot of the round. -/
def forgingOrder (E : Env) (s : Store) (round : Nat) : Option (List DelegateRank) :=
  (s.getRound round).map fun list => shuffle E.prim list round

/-- Top `count` delegates for the round that starts after the tip. -/
def activeDelegates (E : Env) (s : Store) (count : Nat) : List DelegateRank :=
  let next := s.lastHeight + 1
  let info := roundInfo next (E.network.milestone next).activeDelegates.toNat
  s.activeDelegatesExcluding count (s.bannedDelegates E info.round next)

/-- `forging_order_or_live`: the snapshot, or the live ranking when there is none. -/
def forgingOrderOrLive (E : Env) (s : Store) (round maxDelegates : Nat) : List DelegateRank :=
  shuffle E.prim ((s.getRound round).getD (s.activeDelegates E maxDelegates)) round

end Store

end SthCore
