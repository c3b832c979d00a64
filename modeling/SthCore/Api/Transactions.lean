import SthCore.Chain.Timestamps
import SthCore.Crypto.TxDeserializer
import SthCore.Lib.Pages
import SthCore.Storage.ChainOrder

/-!
Listings of transactions: the filters of a query, the walk over the index of a
wallet or of the chain, and the page that is returned.
-/

namespace SthCore

open SthCore.Lib

/-- Query parameters in the order of the caller. -/
structure Params where
  entries : List (Text × Text)

namespace Params

def get (q : Params) (key : Text) : Option Text :=
  (q.entries.find? fun e => e.1 = key).map fun e => e.2

/-- `parse`, for the unsigned type of `bits` bits. -/
def parse (q : Params) (bits : Nat) (key : Text) : Option Nat :=
  (q.get key).bind fun v => ((parseU64 v).map UInt64.toNat).filter fun n => n < 2 ^ bits

/-- `order`: the field, and whether it ascends. -/
def order (q : Params) : Option (Text × Bool) :=
  (q.get "orderBy").map fun o =>
    match Text.splitOnce ':' o.toList with
    | some (field, dir) => (⟨field⟩, (Text.mk dir).toLower = "asc")
    | none => (o, false)

def ascending (q : Params) : Bool := (q.order.map fun o => o.2).getD false

/-- `page_params`: the page, and the limit of its rows. -/
def pageParams (q : Params) : Nat × Nat :=
  (max 1 ((q.parse 64 "page").getD 1), max 1 (min 100 ((q.parse 64 "limit").getD 100)))

end Params

inductive Role where
  | any
  | sent
  | received
  deriving DecidableEq

/-- `sender_address`: empty when the public key has none. -/
def senderAddress (E : Env) (tx : Transaction) : Text :=
  ((E.addressOf tx.senderPublicKey).toOption).getD ""

def receives (tx : Transaction) (address : Text) : Bool :=
  tx.recipientId = some address ||
    tx.payments.any (fun p => p.recipientId = address) ||
    tx.tokenAsset.any (fun a => a.recipientId = some address ||
      (a.transfers.getD []).any fun t => t.recipientId = address) ||
    tx.sobjAsset.any fun e => e.recipientId = some address

namespace Params

/-- The first and the last timestamp that a query asks for. -/
def span (q : Params) : Option UInt32 × Option UInt32 :=
  let exact := q.parse 32 "timestamp"
  ((exact.or (q.parse 32 "timestamp.from")).map UInt32.ofNat,
    (exact.or (q.parse 32 "timestamp.to")).map UInt32.ofNat)

/-- Where the page starts, in `usize` arithmetic. -/
def skip (q : Params) : Nat := (q.pageParams.1 - 1) * q.pageParams.2 % 2 ^ 64

end Params

/-- What a walk over the index of a wallet checks of a role. -/
def Role.check (E : Env) (tx : Transaction) (wallet : Text) : Role → Bool
  | .any => true
  | .sent => senderAddress E tx = wallet
  | .received => receives tx wallet

namespace Params

/-- The address whose index a listing walks. -/
def indexed (q : Params) (wallet : Option Text) : Option Text :=
  wallet.or ((q.get "address").or ((q.get "senderId").or (q.get "recipientId")))

end Params

namespace Store

end Store

end SthCore
