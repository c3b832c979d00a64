import SthCore.Lib.OrderedMap
import SthCore.Lib.Text

/-!
The data that travels between nodes: blocks, transactions and their assets.
The fields follow the JSON mirror of the legacy core.  The two assets that the
source parses out of the verbatim `extra` map are kept as the result of that
parse.
-/

namespace SthCore

open SthCore.Lib

abbrev Bytes := List UInt8

/-- Core transaction types (type group 1). -/
inductive CoreType where
  | transfer
  | secondSignature
  | delegateRegistration
  | vote
  | multiSignature
  | ipfs
  | multiPayment
  | delegateResignation
  | htlcLock
  | htlcClaim
  | htlcRefund
  deriving DecidableEq

/-- The core type with a given number on the wire. -/
def CoreType.ofCode (code : UInt16) : Option CoreType :=
  if code = 0 then some .transfer
  else if code = 1 then some .secondSignature
  else if code = 2 then some .delegateRegistration
  else if code = 3 then some .vote
  else if code = 4 then some .multiSignature
  else if code = 5 then some .ipfs
  else if code = 6 then some .multiPayment
  else if code = 7 then some .delegateResignation
  else if code = 8 then some .htlcLock
  else if code = 9 then some .htlcClaim
  else if code = 10 then some .htlcRefund
  else none

/-- Native token types (type group 3). -/
inductive TokenType where
  | init
  | transfer
  | mint
  | burn
  | tokenMeta
  | sell
  | buy
  | cancel
  deriving DecidableEq

/-- The token type with a given number; `cancel` is the last one. -/
def TokenType.ofCode (code : UInt16) : Option TokenType :=
  if code = 0 then some .init
  else if code = 1 then some .transfer
  else if code = 2 then some .mint
  else if code = 3 then some .burn
  else if code = 4 then some .tokenMeta
  else if code = 5 then some .sell
  else if code = 6 then some .buy
  else if code = 7 then some .cancel
  else none

/-- Actions of a smart object transaction. -/
inductive SobjAction where
  | register
  | update
  | resign
  | transfer
  | sell
  | buy
  deriving DecidableEq

def SobjAction.ofCode (code : UInt8) : Option SobjAction :=
  if code = 0 then some .register
  else if code = 1 then some .update
  else if code = 2 then some .resign
  else if code = 3 then some .transfer
  else if code = 4 then some .sell
  else if code = 5 then some .buy
  else none

def typeGroupCore : UInt32 := 1
def typeGroupSobj : UInt32 := 2
def typeGroupToken : UInt32 := 3

/-- `sobj::TYPE`: the one accepted type of group 2. -/
def sobjType : UInt16 := 6
def sobjTypeDelegate : UInt8 := 4
def sobjTypeServiceNode : UInt8 := 7
/-- Smart objects of this type act as the ticker registry of tokens. -/
def tickerSobjType : UInt8 := 5

def flagMintable : UInt8 := 1
def flagBurnable : UInt8 := 2
def flagFrozenCap : UInt8 := 4

/-- Version of transactions that carry a list of second-signature blocks. -/
def versionPq : UInt8 := 3
/-- Version of blocks that carry a hybrid signature. -/
def blockVersionPq : UInt32 := 1

/-- `asset.token.meta`: the manifest of a token. -/
structure TokenMeta where
  name : Text
  description : Option Text := none
  website : Option Text := none
  logoType : Option Text := none
  logo : Option Text := none
  deriving DecidableEq

structure TokenTransferItem where
  recipientId : Text
  amount : UInt64
  deriving DecidableEq

/-- `asset.token` of a transaction of group 3. -/
structure TokenAsset where
  id : Text
  decimals : Option UInt8 := none
  flags : Option UInt8 := none
  initialSupply : Option UInt64 := none
  supplyCap : Option UInt64 := none
  transfers : Option (List TokenTransferItem) := none
  memo : Option Text := none
  amount : Option UInt64 := none
  recipientId : Option Text := none
  tokenMeta : Option TokenMeta := none
  price : Option UInt64 := none
  orderId : Option Text := none
  deriving DecidableEq

structure SmartObjectData where
  name : Option Text := none
  ntfryData : Option Text := none
  deriving DecidableEq

/-- The asset of a smart object transaction. -/
structure SmartObjectAsset where
  type : UInt8
  subType : UInt8
  action : UInt8
  registrationId : Option Text := none
  recipientId : Option Text := none
  price : Option UInt64 := none
  data : SmartObjectData := {}
  deriving DecidableEq

structure DelegateAsset where
  username : Text
  deriving DecidableEq

structure SecondSignatureAsset where
  publicKey : Text
  algorithm : Option UInt8 := none
  deriving DecidableEq

structure MultiSignatureAsset where
  min : UInt8
  publicKeys : List Text
  deriving DecidableEq

structure Payment where
  amount : UInt64
  recipientId : Text
  deriving DecidableEq

structure HtlcExpiration where
  type : UInt8
  value : UInt32
  deriving DecidableEq

structure HtlcLockAsset where
  secretHash : Text
  expiration : HtlcExpiration
  deriving DecidableEq

structure HtlcClaimAsset where
  lockTransactionId : Text
  unlockSecret : Text
  deriving DecidableEq

structure HtlcRefundAsset where
  lockTransactionId : Text
  deriving DecidableEq

/-- `asset` of a transaction.  `token` and `sobj` are what the source reads from
the keys it keeps verbatim in `extra`. -/
structure TransactionAsset where
  votes : Option (List Text) := none
  delegate : Option DelegateAsset := none
  signature : Option SecondSignatureAsset := none
  multiSignature : Option MultiSignatureAsset := none
  payments : Option (List Payment) := none
  ipfs : Option Text := none
  lock : Option HtlcLockAsset := none
  claim : Option HtlcClaimAsset := none
  refund : Option HtlcRefundAsset := none
  token : Option TokenAsset := none
  sobj : Option SmartObjectAsset := none
  deriving DecidableEq

/-- One block of a version-3 second-signature section. -/
structure PqSignatureBlock where
  algorithm : UInt8
  signature : Text
  deriving DecidableEq

structure Transaction where
  version : UInt8 := 2
  network : Option UInt8 := none
  typeGroup : UInt32 := 1
  type : UInt16
  nonce : Option UInt64 := none
  senderPublicKey : Text
  fee : UInt64
  amount : UInt64 := 0
  vendorField : Option Text := none
  expiration : Option UInt32 := none
  recipientId : Option Text := none
  asset : Option TransactionAsset := none
  signature : Option Text := none
  secondSignature : Option Text := none
  signSignature : Option Text := none
  signatures : Option (List Text) := none
  secondSignatures : Option (List PqSignatureBlock) := none
  id : Option Text := none
  blockId : Option Text := none
  blockHeight : Option Nat := none
  sequence : Option UInt32 := none
  deriving DecidableEq

namespace Transaction

/-- The core type of a transaction of group 1. -/
def coreType (tx : Transaction) : Option CoreType :=
  if tx.typeGroup = typeGroupCore then CoreType.ofCode tx.type else none

/-- The token type of a transaction of group 3. -/
def tokenType (tx : Transaction) : Option TokenType :=
  if tx.typeGroup = typeGroupToken then TokenType.ofCode tx.type else none

def isSobj (tx : Transaction) : Bool :=
  tx.typeGroup = typeGroupSobj && tx.type = sobjType

def isToken (tx : Transaction) : Bool :=
  tx.tokenType.isSome

def isPq (tx : Transaction) : Bool :=
  tx.version = versionPq

def tokenAsset (tx : Transaction) : Option TokenAsset :=
  if tx.isToken then tx.asset.bind (·.token) else none

def sobjAsset (tx : Transaction) : Option SmartObjectAsset :=
  if tx.isSobj then tx.asset.bind (·.sobj) else none

/-- Whether the type carries a vendor field on the wire. -/
def hasVendorField (tx : Transaction) : Bool :=
  tx.coreType = some .transfer || tx.coreType = some .multiPayment ||
    tx.coreType = some .htlcLock

/-- The second signature under either of its two field names. -/
def secondSignatureAny (tx : Transaction) : Option Text :=
  tx.secondSignature.or tx.signSignature

def pqBlocks (tx : Transaction) : List PqSignatureBlock :=
  tx.secondSignatures.getD []

def payments (tx : Transaction) : List Payment :=
  (tx.asset.bind (·.payments)).getD []

end Transaction

structure Block where
  id : Option Text := none
  version : UInt32 := 0
  timestamp : UInt32
  previousBlock : Text
  height : Nat
  numberOfTransactions : UInt32
  totalAmount : UInt64
  totalFee : UInt64
  reward : UInt64
  payloadLength : UInt32
  payloadHash : Text
  generatorPublicKey : Text
  blockSignature : Option Text := none
  pqSignature : Option PqSignatureBlock := none
  transactions : List Transaction := []
  deriving DecidableEq

/-- The unified error type.  `panic` stands for a Rust panic, which the source
does not turn into a value. -/
inductive Error where
  | hex (message : String)
  | address (message : String)
  | publicKey (message : String)
  | signature (message : String)
  | serialization (message : String)
  | storage (message : String)
  | blockValidation (message : String)
  | notFound (message : String)
  | overflow (message : String)
  | sync (message : String)
  | staleTip (message : String)
  | futureBlock (message : String)
  | panic (message : String)
  deriving DecidableEq

/-- The text of an error, with the prefix that names its kind. -/
def Error.display : Error → String
  | hex m => "hex decode error: " ++ m
  | address m => "invalid address: " ++ m
  | publicKey m => "invalid public key: " ++ m
  | signature m => "invalid signature: " ++ m
  | serialization m => "serialization error: " ++ m
  | storage m => "storage error: " ++ m
  | blockValidation m => "block validation failed: " ++ m
  | notFound m => "not found: " ++ m
  | overflow m => "arithmetic overflow: " ++ m
  | sync m => "sync error: " ++ m
  | staleTip m => "stale tip: " ++ m
  | futureBlock m => "block from the future: " ++ m
  | panic m => m

end SthCore
