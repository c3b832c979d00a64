import SthCore.Models

/-!
Network parameters and the milestones that switch them by height.  Amounts keep
the 64-bit arithmetic of the source, which wraps in release builds.
-/

namespace SthCore

open SthCore.Lib

/-- Static fees of group 3. -/
structure TokenFees where
  init : UInt64 := 50000000000
  transfer : UInt64 := 10000000
  transferPerRecipient : UInt64 := 1000000
  mint : UInt64 := 100000000
  burn : UInt64 := 10000000
  tokenMeta : UInt64 := 100000000
  initBurnPercent : UInt8 := 50
  sell : UInt64 := 100000000
  buy : UInt64 := 10000000
  cancel : UInt64 := 10000000

/-- Smartoshi burned for each `TokenInit`. -/
def TokenFees.initBurn (f : TokenFees) : UInt64 :=
  f.init * (min f.initBurnPercent 100).toUInt64 / 100

structure PqParams where
  active : Bool := false
  feePerByte : UInt64 := 10000
  commitmentGrace : Nat := 86400
  blocks : Bool := false
  blocksGrace : Nat := 43200

structure MasternodeParams where
  enabled : Bool := false
  collateralAmount : UInt64 := 1000000000000

structure TokenMarketParams where
  enabled : Bool := false
  maxOpenOrders : UInt32 := 0

structure FinalityParams where
  active : Bool := false
  quorum : UInt32 := 0
  slashing : Bool := false
  slashingRoundsField : UInt32 := 0

/-- `slashing_rounds()`: thirty rounds unless the milestone says otherwise. -/
def FinalityParams.slashingRounds (f : FinalityParams) : Nat :=
  if f.slashingRoundsField = 0 then 30 else f.slashingRoundsField.toNat

/-- Parameters in force from a given height on. -/
structure Milestone where
  height : Nat := 1
  reward : UInt64 := 0
  activeDelegates : UInt32 := 21
  blocktime : UInt32 := 8
  blockVersion : UInt32 := 0
  maxTransactions : UInt32 := 500
  maxPayload : UInt64 := 84000000
  staticFees : List (String × UInt64) := []
  sobjActive : Bool := false
  tokens : Bool := false
  tokenFees : TokenFees := {}
  tokenTransferMaxRecipients : UInt16 := 64
  tokenMarket : TokenMarketParams := {}
  masternodes : MasternodeParams := {}
  sobjV2 : Bool := false
  strictBalance : Bool := false
  pq : PqParams := {}
  finality : FinalityParams := {}

/-- Core transaction type names in type order. -/
def feeNames : List (String × UInt16) :=
  [("transfer", 0), ("secondSignature", 1), ("delegateRegistration", 2), ("vote", 3),
    ("multiSignature", 4), ("ipfs", 5), ("multiPayment", 6), ("delegateResignation", 7),
    ("htlcLock", 8), ("htlcClaim", 9), ("htlcRefund", 10)]

namespace Milestone

def staticFee (m : Milestone) (name : String) : UInt64 :=
  ((m.staticFees.find? (·.1 == name)).map (·.2)).getD 0

def staticFeeForType (m : Milestone) (type : UInt16) : UInt64 :=
  ((feeNames.find? (·.2 == type)).map fun e => m.staticFee e.1).getD 0

/-- Votes of a certificate: more than two thirds unless the milestone says otherwise. -/
def finalityQuorum (m : Milestone) : UInt32 :=
  if 0 < m.finality.quorum then m.finality.quorum else m.activeDelegates * 2 / 3 + 1

/-- Number of delegates in a round, at least one. -/
def roundLength (m : Milestone) : Nat :=
  max m.activeDelegates.toNat 1

end Milestone

/-- Static network configuration.  A network has at least one milestone. -/
structure Network where
  pubkeyHash : UInt8 := 63
  nethash : Text
  genesisBlockId : Text
  burnAddress : Text
  epochUnix : Int
  milestones : List Milestone
  nonempty : milestones ≠ []

namespace Network

/-- The last milestone at or below `height`. -/
def milestone (n : Network) (height : Nat) : Milestone :=
  (n.milestones.reverse.find? fun m => decide (m.height ≤ max height 1)).getD
    (n.milestones.head n.nonempty)

def pqActivationHeight (n : Network) : Option Nat :=
  (n.milestones.find? (·.pq.active)).map (·.height)

def pqBlocksActivationHeight (n : Network) : Option Nat :=
  (n.milestones.find? (·.pq.blocks)).map (·.height)

/-- Block versions accepted at `height`: version 1 allowed, version 0 allowed. -/
def blockVersionsAllowed (n : Network) (height : Nat) : Bool × Bool :=
  let m := n.milestone height
  if !m.pq.blocks then (false, true)
  else
    let graceEnd := (n.pqBlocksActivationHeight.getD height) + m.pq.blocksGrace
    (true, decide (height < graceEnd))

def epochToUnix (n : Network) (epoch : UInt32) : Int :=
  n.epochUnix + epoch.toNat

/-- Chain time of a unix time in seconds. -/
def unixToEpoch (n : Network) (unix : Int) : UInt32 :=
  UInt32.ofNat (unix - n.epochUnix).toNat

end Network

end SthCore
