import SthCore.Api.Transactions

/-!
What a listing of transactions returns: a page of the stored transactions that
pass the filters, in the order of the chain.
-/

namespace SthCore

open SthCore.Lib

/-- Whether a transaction is sent from an address or to it. -/
def involves (E : Env) (tx : Transaction) (address : Text) : Bool :=
  senderAddress E tx = address || receives tx address

/-- Where the page of a query starts. -/
def Params.offset (q : Params) : Nat := (q.pageParams.1 - 1) * q.pageParams.2

/-- What a role says of a wallet and a transaction. -/
def Role.holds (E : Env) (tx : Transaction) (wallet : Text) : Role → Bool
  | .any => involves E tx wallet
  | .sent => senderAddress E tx = wallet
  | .received => receives tx wallet

namespace Store

variable {E : Env} {s : Store} {q : Params}

variable {wallet : Option Text} {role : Role} {extra : List (Text × Text)}

end Store

end SthCore
