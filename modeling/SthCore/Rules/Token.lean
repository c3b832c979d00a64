import SthCore.Rules.SmartObject

/-!
Format and state rules of native tokens and of the token market.
-/

namespace SthCore

open SthCore.Lib

namespace Rules

def maxDecimals : UInt8 := 8
def maxMemo : Nat := 64
def metaMaxName : Nat := 64
def metaMaxDescription : Nat := 512
def metaMaxWebsite : Nat := 128
def metaMaxLogo : Nat := 8192
/-- Default number of open orders a seller may have for one token. -/
def maxOpenOrders : Nat := 64

def metaTextOk (max : Nat) (text : Text) : Bool :=
  !text.isEmpty && text.utf8ByteSize ≤ max && !text.toList.any Text.isControl

def pngMagic : Bytes := [0x89, 0x50, 0x4e, 0x47, 0x0d, 0x0a, 0x1a, 0x0a]

/-- An SVG document without scripts. -/
def checkSvg (bytes : Bytes) : Check Unit := do
  let text ← need (Text.ofUtf8 bytes) "TokenLogoInvalidError: SVG must be UTF-8"
  let lower := text.toLower.toList
  let head := lower.dropWhile Text.isWhitespace
  refuse (!(("<svg".toList.isPrefixOf head || "<?xml".toList.isPrefixOf head) &&
      Text.contains lower "<svg".toList))
    "TokenLogoInvalidError: not an SVG document"
  refuse (Text.contains lower "<script".toList || Text.contains lower "javascript:".toList ||
      Text.contains lower "<foreignobject".toList)
    "TokenLogoInvalidError: SVG must not contain scripts"

def checkLogo (P : Primitives) (m : TokenMeta) (type : Text) : Check Unit := do
  let bytes ← need (logoBytes P m) "TokenMetaInvalidError: logo must be base64"
  refuse (bytes.isEmpty || bytes.length > metaMaxLogo)
    s!"TokenLogoTooLargeError: logo must be 1..={metaMaxLogo} bytes"
  if type = "png" then
    refuse (!pngMagic.isPrefixOf bytes) "TokenLogoInvalidError: not a PNG file"
  else checkSvg bytes

/-- `check_token_meta`. -/
def checkTokenMeta (P : Primitives) (m : TokenMeta) : Check Unit := do
  refuse (!metaTextOk metaMaxName m.name)
    s!"TokenMetaInvalidError: name must be 1..={metaMaxName} bytes"
  refuse (m.description.any fun d => !metaTextOk metaMaxDescription d)
    s!"TokenMetaInvalidError: description must be 1..={metaMaxDescription} bytes"
  refuse (m.website.any fun w => !metaTextOk metaMaxWebsite w || w.toList.any Text.isWhitespace)
    s!"TokenMetaInvalidError: website must be 1..={metaMaxWebsite} bytes without spaces"
  match m.logoType, m.logo with
  | none, none => .ok ()
  | some type, some _ =>
      if type = "svg" ∨ type = "png" then checkLogo P m type
      else .error "TokenMetaInvalidError: logoType must be svg|png and come together with logo"
  | _, _ => .error "TokenMetaInvalidError: logoType must be svg|png and come together with logo"

/-- Format of a `TokenInit`. -/
def checkInitFormat (a : TokenAsset) : Check Unit := do
  let flags := a.flags.getD 0
  let init := a.initialSupply.getD 0
  let cap := a.supplyCap.getD 0
  refuse (a.decimals.getD 0 > maxDecimals) "TokenDecimalsInvalidError: decimals must be 0..=8"
  refuse (flags &&& ~~~(flagMintable ||| flagBurnable ||| flagFrozenCap) ≠ 0)
    "TokenFlagsInvalidError: reserved flag bits set"
  refuse (init = 0 || init > cap) "TokenSupplyInvalidError: 0 < initialSupply <= supplyCap"
  refuse (flags &&& flagMintable = 0 && init ≠ cap)
    "TokenSupplyInvalidError: non-mintable token must have initialSupply == supplyCap"

/-- Format of a `TokenTransfer`. -/
def checkTransferFormat (ms : Milestone) (a : TokenAsset) : Check Unit := do
  let items := a.transfers.getD []
  let most := ms.tokenTransferMaxRecipients.toNat
  refuse (items.isEmpty || items.length > most)
    s!"TokenTransferRecipientsError: 1..={most} recipients"
  refuse (items.any fun i => i.amount = 0) "TokenAmountInvalidError: amount must be > 0"
  refuse ((items.map fun i => i.amount.toNat).sum > 2 ^ 64 - 1)
    "TokenAmountInvalidError: total overflows u64"
  refuse (a.memo.any fun m => m.utf8ByteSize > maxMemo)
    "TokenMemoTooLongError: memo must be <= 64 bytes"

/-- Format of an order, a fill or a cancellation. -/
def checkMarketFormat (ms : Milestone) (a : TokenAsset) (type : TokenType) : Check Unit := do
  refuse (!ms.tokenMarket.enabled)
    "TokenTypeNotActiveError: tokenMarket is not enabled at this height (SHIP-43)"
  let amount := a.amount.getD 0
  let price := a.price.getD 0
  if type = .sell then
    refuse (amount = 0 || price = 0) "TokenOrderInvalidError: amount and price must be > 0"
    refuse (amount.toNat * price.toNat > 2 ^ 64 - 1)
      "TokenOrderOverflowError: amount × price exceeds u64"
  else
    refuse (!(a.orderId.any Text.isId)) "TokenOrderInvalidError: orderId must be 64 hex"
    refuse (type = .buy && amount = 0) "TokenOrderAmountError: amount must be > 0"

/-- Static fee of a token transaction, once its fields are well formed. -/
def tokenFee (P : Primitives) (ms : Milestone) (a : TokenAsset) (type : TokenType) :
    Check UInt64 := do
  let f := ms.tokenFees
  match type with
  | .init => do
      checkInitFormat a
      return f.init
  | .transfer => do
      checkTransferFormat ms a
      return f.transfer + f.transferPerRecipient * (UInt64.ofNat (a.transfers.getD []).length - 1)
  | .mint => do
      refuse (a.amount.getD 0 = 0 || a.recipientId.isNone)
        "TokenAmountInvalidError: mint needs amount > 0 and recipientId"
      return f.mint
  | .tokenMeta => do
      checkTokenMeta P (← need a.tokenMeta "TokenMetaInvalidError: missing asset.token.meta")
      return f.tokenMeta
  | .sell => do
      checkMarketFormat ms a .sell
      return f.sell
  | .buy => do
      checkMarketFormat ms a .buy
      return f.buy
  | .cancel => do
      checkMarketFormat ms a .cancel
      return f.cancel
  | .burn => do
      refuse (a.amount.getD 0 = 0) "TokenAmountInvalidError: burn amount must be > 0"
      return f.burn

/-- `check_token_format`: the parsed asset of a well-formed transaction. -/
def checkTokenFormat (P : Primitives) (tx : Transaction) (ms : Milestone) : Check TokenAsset := do
  let missing := "Token: missing or malformed asset.token"
  let type ← need tx.tokenType missing
  let a ← need tx.tokenAsset missing
  refuse (tx.amount ≠ 0) "Token: amount must be 0"
  refuse (tx.vendorField.any fun v => !v.isEmpty) "Token: vendorField is not allowed (use memo)"
  refuse (!Text.isId a.id) "Token: id must be a 32-byte hex registration id"
  let fee := (← tokenFee P ms a type) + pqSurcharge tx ms.pq.feePerByte
  refuse (tx.fee ≠ fee)
    (s!"StaticFeeMismatchError: token fee must be exactly {fee.toNat} (milestone tokenFees), " ++
      s!"transaction pays {tx.fee.toNat} — the forging node runs other tokenFees / core version")
  return a

/-- View of the token state: storage and the pending changes of a batch. -/
structure TokenView where
  tokenOwner : Text → Option Text
  tokenState : Text → Option TokenState
  tokenBalance : Text → Text → UInt64
  /-- Owner, name and resigned mark of a ticker object. -/
  tickerSobj : Text → Option (Text × Text × Bool)
  order : Text → Option TokenOrder
  openOrders : Text → Text → Nat

/-- `token_buy_total`: STH the buyer pays, zero for every other transaction. -/
def tokenBuyTotal (tx : Transaction) (view : TokenView) : UInt64 :=
  match tx.tokenType, tx.tokenAsset with
  | some .buy, some a =>
      match a.orderId.bind view.order with
      | some o => satMul (a.amount.getD 0) o.price
      | none => 0
  | _, _ => 0

def checkSell (a : TokenAsset) (sender : Text) (view : TokenView) : Check Unit := do
  let _ ← need (view.tokenState a.id) "TokenNotFoundError"
  refuse (view.tokenBalance sender a.id < a.amount.getD 0) "TokenInsufficientBalanceError"
  refuse (view.openOrders sender a.id ≥ maxOpenOrders)
    s!"TokenTooManyOrdersError: at most {maxOpenOrders} open orders per token"

/-- The open order of this token that a fill or a cancellation names. -/
def openOrder (a : TokenAsset) (view : TokenView) : Check TokenOrder := do
  let order ← need (view.order (a.orderId.getD "")) "TokenOrderNotFoundError"
  refuse (!order.isOpen) "TokenOrderClosedError"
  refuse (order.tokenId ≠ a.id) "TokenOrderMismatchError: order belongs to another token"
  return order

def checkFill (a : TokenAsset) (sender : Text) (view : TokenView) : Check Unit := do
  let order ← openOrder a view
  refuse (order.seller = sender) "TokenOrderSelfTradeError"
  let amount := a.amount.getD 0
  refuse (amount = 0 || amount > order.remaining)
    s!"TokenOrderAmountError: {order.remaining.toNat} units remaining"

def checkCancel (a : TokenAsset) (sender : Text) (view : TokenView) : Check Unit := do
  let order ← openOrder a view
  refuse (order.seller ≠ sender) "TokenOrderNotOwnerError"

def checkInit (a : TokenAsset) (sender : Text) (view : TokenView) : Check Unit := do
  let (owner, name, resigned) ← need (view.tickerSobj a.id)
    "TokenSmartObjectNotFoundError: no type-5 sObject with this id"
  refuse resigned "TokenSmartObjectResignedError"
  refuse (owner ≠ sender)
    "TokenNotSmartObjectOwnerError: only the sObject registrant can initialize the token"
  refuse (!tickerOk name) "TokenSymbolInvalidError: ticker must match ^[A-Z0-9]\x7b3,10\x7d$"
  refuse (view.tokenState a.id).isSome "TokenAlreadyInitializedError"

def checkMeta (a : TokenAsset) (sender : Text) (view : TokenView) : Check Unit := do
  let _ ← need (view.tokenState a.id) "TokenNotFoundError"
  refuse (view.tokenOwner a.id ≠ some sender)
    "TokenNotOwnerError: only the owner can publish the manifest"

def checkTransfer (a : TokenAsset) (sender : Text) (view : TokenView) : Check Unit := do
  let _ ← need (view.tokenState a.id) "TokenNotFoundError"
  refuse (view.tokenBalance sender a.id < ((a.transfers.getD []).map fun i => i.amount).sum)
    "TokenInsufficientBalanceError"

def checkMint (a : TokenAsset) (sender : Text) (view : TokenView) : Check Unit := do
  let st ← need (view.tokenState a.id) "TokenNotFoundError"
  refuse (view.tokenOwner a.id ≠ some sender) "TokenNotOwnerError: only the owner can mint"
  refuse (st.flags &&& flagMintable = 0) "TokenNotMintableError"
  refuse (satAdd st.supply (a.amount.getD 0) > st.supplyCap) "TokenSupplyCapExceededError"

def checkBurn (a : TokenAsset) (sender : Text) (view : TokenView) : Check Unit := do
  let st ← need (view.tokenState a.id) "TokenNotFoundError"
  refuse (st.flags &&& flagBurnable = 0) "TokenNotBurnableError"
  refuse (view.tokenBalance sender a.id < a.amount.getD 0) "TokenInsufficientBalanceError"

/-- `check_token`. -/
def checkToken (type : TokenType) (a : TokenAsset) (sender : Text) (view : TokenView) :
    Check Unit :=
  match type with
  | .sell => checkSell a sender view
  | .buy => checkFill a sender view
  | .cancel => checkCancel a sender view
  | .init => checkInit a sender view
  | .tokenMeta => checkMeta a sender view
  | .transfer => checkTransfer a sender view
  | .mint => checkMint a sender view
  | .burn => checkBurn a sender view

end Rules

end SthCore
