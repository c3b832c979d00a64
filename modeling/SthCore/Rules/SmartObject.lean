import SthCore.Rules.Text

/-!
Format and wallet-aware rules of smart object transactions.
-/

namespace SthCore

open SthCore.Lib

namespace Rules

abbrev Check := Except String

/-- Fail with `message` when a condition holds. -/
def refuse (condition : Bool) (message : String) : Check Unit :=
  if condition then .error message else .ok ()

/-- A value, or the message that says why it is missing. -/
def need {α : Type} (value : Option α) (message : String) : Check α :=
  match value with
  | some a => .ok a
  | none => .error message

def sobjNameOk (name : Text) : Bool :=
  1 ≤ name.utf8ByteSize && name.utf8ByteSize ≤ 40 &&
    name.toList.all fun c => Text.isAlphanumeric c || "_!@$&.-".toList.contains c

/-- The pointer field: any text under `sobjV2`, else a base58 hash. -/
def sobjDataOk (P : Primitives) (ms : Milestone) (data : Text) : Bool :=
  if ms.sobjV2 then
    1 ≤ data.utf8ByteSize && data.utf8ByteSize ≤ 255 && !data.toList.any Text.isControl
  else 1 ≤ data.utf8ByteSize && data.utf8ByteSize ≤ 128 && (P.base58Decode data).isOk

def isMarketAction (action : SobjAction) : Bool :=
  action = .transfer || action = .sell || action = .buy

/-- What `check_sobj_format` asks of a registration. -/
def checkRegisterFormat (ms : Milestone) (e : SmartObjectAsset) : Check Unit := do
  refuse e.registrationId.isSome "SmartObject: register must not carry registrationId"
  refuse (!(e.data.name.any sobjNameOk)) "SmartObject: register requires a valid name"
  refuse (ms.sobjV2 && e.type = tickerSobjType && !tickerOk (e.data.name.getD ""))
    "SmartObjectTickerInvalidError: type-5 name must match ^[A-Z0-9]\x7b3,10\x7d$"

/-- What it asks of every action on an existing object. -/
def checkExistingFormat (e : SmartObjectAsset) (action : SobjAction) : Check Unit := do
  refuse (!(e.registrationId.any fun id => id.utf8ByteSize = 64 && Hex.isHex id))
    "SmartObject: update/resign require registrationId"
  refuse e.data.name.isSome "SmartObject: name cannot be changed"
  refuse ((action = .resign || isMarketAction action) && e.data.ntfryData.isSome)
    "SmartObject: resign / transfer / sell / buy must not carry data"

/-- `check_sobj_format`: the parsed asset of a well-formed transaction. -/
def checkSobjFormat (P : Primitives) (tx : Transaction) (ms : Milestone) :
    Check SmartObjectAsset := do
  let e ← need tx.sobjAsset "SmartObject: missing or malformed asset"
  refuse (tx.amount ≠ 0) "SmartObject: amount must be 0"
  let action ← need (SobjAction.ofCode e.action) s!"SmartObject: unknown action {e.action.toNat}"
  let fee := sobjStaticFee action + pqSurcharge tx ms.pq.feePerByte
  refuse (tx.fee ≠ fee) s!"StaticFeeMismatchError: sObject fee must be exactly {fee.toNat}"
  refuse (isMarketAction action && !ms.sobjV2)
    "SmartObjectTransferNotActiveError: sObject transfer / sell / buy need milestone sobjV2"
  refuse (e.recipientId.isSome != (action = .transfer))
    "SmartObject: recipientId is only valid for transfer (action 3)"
  refuse (e.price.isSome != (action = .sell)) "SmartObject: price is only valid for sell (action 4)"
  refuse (e.recipientId.any fun r => !(addressToBytes P r).isOk) "SmartObject: invalid recipientId"
  refuse (e.data.ntfryData.any fun d => !sobjDataOk P ms d) "SmartObject: invalid ntfryData"
  match action with
  | .register => checkRegisterFormat ms e
  | _ => checkExistingFormat e action
  return e

/-- What the wallet-aware rules read: the sender's wallet, the records it wrote
earlier in the batch, and lookups over the whole chain state. -/
structure SobjView where
  wallet : Option WalletState
  pending : OrderedMap Text SmartObject
  nameTaken : Text → UInt8 → Bool
  lookup : Text → Option (Text × SmartObject)
  tokenSupply : Text → Option UInt64

namespace SobjView

/-- A record of the sender: pending, else in its wallet. -/
def record (v : SobjView) (reg : Text) : Option SmartObject :=
  (v.pending[reg]?).or (v.wallet.bind fun w => w.sobjects[reg]?)

def balance (v : SobjView) : Int := (v.wallet.map fun w => w.balance).getD 0

/-- Whether the sender already runs a service node. -/
def hasServiceNode (v : SobjView) : Bool :=
  let live (e : Text × SmartObject) : Bool := e.2.type = sobjTypeServiceNode && !e.2.resigned
  v.wallet.any (fun w => w.sobjects.toList.any live) || v.pending.toList.any live

end SobjView

/-- Purchase: the record lives in the seller's wallet. -/
def checkBuy (tx : Transaction) (e : SmartObjectAsset) (v : SobjView) : Check Unit := do
  let (owner, rec) ← need (v.lookup (e.registrationId.getD "")) "SmartObjectNotRegisteredError"
  refuse rec.resigned "SmartObjectAlreadyResignedError"
  refuse (rec.type ≠ e.type || rec.subType ≠ e.subType) "SmartObjectWrongTypeError"
  let price ← need (rec.price.filter fun p => p > 0)
    "SmartObjectNotForSaleError: no open sale order"
  refuse (v.wallet.any fun w => w.address = owner)
    "SmartObjectTransferToSelfError: you already own this sObject"
  refuse (v.balance < 0 || v.balance < (satAdd price tx.fee).toNat)
    s!"SmartObjectInsufficientBalanceError: price {price.toNat} + fee {tx.fee.toNat} needed"

/-- A service node: active, well formed, the only one, and with its collateral. -/
def checkServiceNode (tx : Transaction) (ms : Milestone) (e : SmartObjectAsset) (v : SobjView) :
    Check Unit := do
  refuse (!ms.masternodes.enabled)
    "SmartObjectTypeNotActiveError: Service Nodes need milestone masternodes.enabled (SHIP-42)"
  refuse (parseServiceNode (e.data.ntfryData.getD "")).isNone
    "ServiceNodeDataInvalidError: ntfryData must be iroh://<EndpointId 64 hex>?roles=relay,…"
  refuse v.hasServiceNode "ServiceNodeAlreadyRegisteredError: one Service Node per wallet"
  refuse (v.balance < (ms.masternodes.collateralAmount.toInt64 + tx.fee.toInt64).toInt)
    (s!"ServiceNodeCollateralError: balance must stay >= " ++
      s!"{ms.masternodes.collateralAmount.toNat} smartoshi after the fee")

/-- Delegate objects carry the delegate's own name. -/
def checkDelegateName (name : Text) (v : SobjView) : Check Unit := do
  let username ← need (v.wallet.bind fun w => w.username) "SmartObjectSenderIsNotDelegateError"
  refuse (username ≠ name) "SmartObjectNameDoesNotMatchDelegateError"

def checkRegister (tx : Transaction) (id : Text) (ms : Milestone) (e : SmartObjectAsset)
    (v : SobjView) : Check Unit := do
  refuse (v.record id).isSome "SmartObjectAlreadyRegisteredError"
  let name := e.data.name.getD ""
  refuse (v.nameTaken name e.type) "SmartObjectNameAlreadyRegisteredError"
  if e.type = sobjTypeServiceNode then checkServiceNode tx ms e v
  if e.type = sobjTypeDelegate then checkDelegateName name v

/-- Update, resign, transfer and sell of an object of the sender. -/
def checkExisting (e : SmartObjectAsset) (action : SobjAction) (v : SobjView) : Check Unit := do
  let reg := e.registrationId.getD ""
  let rec ← need (v.record reg) "SmartObjectNotRegisteredError"
  refuse rec.resigned "SmartObjectAlreadyResignedError"
  refuse (rec.type ≠ e.type) "SmartObjectWrongTypeError"
  let leaves := action = .transfer || action = .sell
  refuse (action = .transfer && v.wallet.any fun w => w.address = e.recipientId.getD "")
    "SmartObjectTransferToSelfError"
  refuse (leaves && rec.type = sobjTypeDelegate)
    "SmartObjectDelegateNotTransferableError: delegate sObjects follow the delegate key"
  if rec.type = sobjTypeServiceNode then
    refuse leaves
      "ServiceNodeNotTransferableError: a Service Node object stays with its collateral wallet"
    refuse (action = .update && (parseServiceNode (e.data.ntfryData.getD "")).isNone)
      "ServiceNodeDataInvalidError: ntfryData must be iroh://<EndpointId 64 hex>?roles=relay,…"
  refuse (rec.subType ≠ e.subType) "SmartObjectWrongSubTypeError"
  -- a ticker with a live token cannot be orphaned
  refuse (action = .resign && rec.type = tickerSobjType && (v.tokenSupply reg).any fun s => s > 0)
    ("TokenSmartObjectStillActiveError: the token has live supply — " ++
      "burn it to 0 before resigning its registry")

/-- `check_sobj`. -/
def checkSobj (P : Primitives) (tx : Transaction) (ms : Milestone) (v : SobjView) :
    Check Unit := do
  let e ← checkSobjFormat P tx ms
  let id ← need tx.id "SmartObject: transaction without id"
  match SobjAction.ofCode e.action with
  | some .buy => checkBuy tx e v
  | some .register => checkRegister tx id ms e v
  | some action => checkExisting e action v
  | none => .ok ()

end Rules

end SthCore
