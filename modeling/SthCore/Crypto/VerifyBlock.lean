import SthCore.Rules.Token
import SthCore.Rules.Quantum

/-!
Structural and cryptographic verification of a block.  Linkage to the stored
chain is not checked here.
-/

namespace SthCore

namespace VerifyBlock

/-- One error text when a condition holds. -/
def complain (condition : Bool) (message : String) : List String :=
  if condition then [message] else []

/-- The text of a failed rule. -/
def complaint {α : Type} (check : Rules.Check α) (id : Text) : List String :=
  match check with
  | .ok _ => []
  | .error e => [s!"{e}: {id}"]

/-- `check_transaction`: id and signature of one transaction. -/
def checkTransaction (P : Primitives) (tx : Transaction) : List String :=
  match tx.id with
  | none => []
  | some id =>
      match transactionId P tx with
      | .error e => [s!"Cannot serialise transaction {id}: {e.display}"]
      | .ok computed =>
          if computed ≠ id then [s!"Invalid transaction id: {id} expected: {computed}"]
          else
            match verifyTransactionSignature P tx with
            | .ok true => []
            | .ok false => [s!"Invalid transaction signature: {id}"]
            | .error e => [s!"Cannot verify transaction {id}: {e.display}"]

/-- Missing and repeated ids and passed expirations, in order. -/
def checkIds (height : Nat) (seen : List Text) : List Transaction → List String
  | [] => []
  | tx :: rest =>
      match tx.id with
      | none => "Transaction without id" :: checkIds height seen rest
      | some id =>
          complain (seen.contains id) s!"Encountered duplicate transaction: {id}" ++
            complain (tx.expiration.any fun e => decide (0 < e.toNat) && decide (e.toNat ≤ height))
              s!"Encountered expired transaction: {id}" ++
            checkIds height (id :: seen) rest

/-- Format rules of one transaction. -/
def checkFormat (P : Primitives) (ms : Milestone) (tx : Transaction) : List String :=
  let id := tx.id.getD "?"
  complaint (Rules.checkPqFormat tx ms) id ++
    if tx.typeGroup = typeGroupCore then []
    else if tx.isToken then
      if !ms.tokens then [s!"Token transaction before tokens activation: {id}"]
      else complaint (Rules.checkTokenFormat P tx ms) id
    else if !tx.isSobj then
      [s!"Unsupported transaction typeGroup {tx.typeGroup.toNat} type {tx.type.toNat}: {id}"]
    else if !ms.sobjActive then
      [s!"SmartObject transaction before sobj (ship13) activation: {id}"]
    else complaint (Rules.checkSobjFormat P tx ms) id

/-- The versions a height accepts. -/
def checkVersion (network : Network) (ms : Milestone) (block : Block) : List String :=
  let (v1, v0) := network.blockVersionsAllowed block.height
  let ok := if block.version = blockVersionPq then v1 else v0 && block.version = ms.blockVersion
  if ok then []
  else if block.version = 0 ∧ v1 then
    ["Invalid block version: pq.blocks requires version 1 (BlockPqRequiredError)"]
  else ["Invalid block version"]

/-- Presence and shape of the hybrid signature. -/
def checkPqSignature (block : Block) : List String :=
  if block.version = blockVersionPq then
    match block.pqSignature with
    | none => ["Version 1 block without pqSignature (BlockPqSignatureMissingError)"]
    | some pq =>
        if pq.algorithm ≠ algMlDsa44 then
          [s!"Unknown pqSignature algorithm {pq.algorithm.toNat}"]
        else complain (pq.signature.utf8ByteSize ≠ pqSigLen * 2) "Invalid pqSignature length"
  else complain block.pqSignature.isSome "pqSignature is only valid on version 1 blocks"

def checkSignature (P : Primitives) (block : Block) : List String :=
  match verifyBlockSignature P block with
  | .ok true => []
  | .ok false => ["Failed to verify block signature"]
  | .error e => [s!"Failed to verify block signature: {e.display}"]

def checkId (P : Primitives) (block : Block) : List String :=
  match block.id with
  | none => []
  | some id =>
      match blockId P block with
      | .ok computed =>
          complain (block.height ≠ 1 && computed ≠ id)
            s!"Invalid block id: {id} expected: {computed}"
      | .error e => [s!"Cannot compute block id: {e.display}"]

/-- The payload hash; that of the genesis block is the nethash. -/
def checkPayload (P : Primitives) (network : Network) (block : Block) : List String :=
  if block.height = 1 then
    complain (block.payloadHash ≠ network.nethash)
      "Genesis payload hash does not match the network nethash"
  else
    match blockPayloadHash P block with
    | .ok h => complain (h ≠ block.payloadHash) "Invalid payload hash"
    | .error e => [s!"Cannot compute payload hash: {e.display}"]

/-- Sum over the transactions that have an id. -/
def totalOf (f : Transaction → UInt64) (block : Block) : Nat :=
  ((block.transactions.filter fun tx => tx.id.isSome).map fun tx => (f tx).toNat).sum

end VerifyBlock

open VerifyBlock in
/-- `verify_block`: the list of errors, empty for a verified block. -/
def verifyBlock (E : Env) (block : Block) : List String :=
  let ms := E.network.milestone block.height
  let count := UInt32.ofNat block.transactions.length
  complain (block.height ≠ 1 && block.previousBlock.isEmpty) "Invalid previous block" ++
  complain (block.reward ≠ ms.reward)
    s!"Invalid block reward: {block.reward.toNat} expected: {ms.reward.toNat}" ++
  checkSignature E.prim block ++
  checkVersion E.network ms block ++
  checkPqSignature block ++
  complain (block.timestamp > E.nowEpoch + ms.blocktime) "Invalid block timestamp" ++
  complain (count ≠ block.numberOfTransactions) "Invalid number of transactions" ++
  complain (decide (block.height > 1) && count > ms.maxTransactions)
    "Transactions length is too high" ++
  checkId E.prim block ++
  checkIds block.height [] block.transactions ++
  block.transactions.flatMap (checkTransaction E.prim) ++
  block.transactions.flatMap (checkFormat E.prim ms) ++
  complain (totalOf (·.amount) block ≠ block.totalAmount.toNat) "Invalid total amount" ++
  complain (totalOf (·.fee) block ≠ block.totalFee.toNat) "Invalid total fee" ++
  checkPayload E.prim E.network block

end SthCore
