import SthCore.Crypto.Reference
import SthCore.Crypto.BlockSerializer

/-!
Key pairs, and the transactions and blocks they sign.
-/

namespace SthCore

namespace Reference

/-- A secret and its compressed public key. -/
structure KeyPair where
  secret : Nat
  publicKey : Text

namespace KeyPair

def ofNumbers (secret publicKey : Nat) : KeyPair where
  secret := secret
  publicKey := Hex.encode (beBytes 33 publicKey)

/-- The address on a network with the default prefix byte. -/
def address (k : KeyPair) : Text :=
  ((addressFromPublicKey primitives k.publicKey mainnetByte).toOption).getD ""

def signature (k : KeyPair) (hash : Except Error Bytes) : Option Text :=
  hash.toOption.map fun h => Hex.encode (Secp256k1.sign k.secret h)

/-- A transaction with the sender's key, its signature and its id. -/
def sign (k : KeyPair) (tx : Transaction) : Transaction :=
  let tx := { tx with senderPublicKey := k.publicKey, network := some mainnetByte }
  let tx := { tx with signature := k.signature (transactionSigningHash primitives tx) }
  { tx with id := (transactionId primitives tx).toOption }

/-- The sum of a field over a list of transactions. -/
def sumOf (f : Transaction → UInt64) (txs : List Transaction) : UInt64 := (txs.map f).sum

/-- A block after the one with id `previous`, with its signature and its id. -/
def forge (k : KeyPair) (height : Nat) (timestamp : UInt32) (previous : Text) (reward : UInt64)
    (txs : List Transaction) : Block :=
  let block : Block := {
    timestamp
    previousBlock := previous
    height
    numberOfTransactions := UInt32.ofNat txs.length
    totalAmount := sumOf (fun tx => tx.amount) txs
    totalFee := sumOf (fun tx => tx.fee) txs
    reward
    payloadLength := UInt32.ofNat (32 * txs.length)
    payloadHash := ""
    generatorPublicKey := k.publicKey
    transactions := txs }
  let block := { block with
    payloadHash := ((blockPayloadHash primitives block).toOption).getD "" }
  let hash := (serializeBlock block false).map primitives.sha256
  let block := { block with blockSignature := k.signature hash }
  { block with id := (blockId primitives block).toOption }

end KeyPair

/-! Key pairs with the secrets 1, 2 and 3, and a chain that the first one starts. -/

def first : KeyPair :=
  .ofNumbers 1 0x0279be667ef9dcbbac55a06295ce870b07029bfcdb2dce28d959f2815b16f81798

def second : KeyPair :=
  .ofNumbers 2 0x02c6047f9441ed7d6d3045406e95c07cd85c778e4b8cef3ca7abac09b95c709ee5

def third : KeyPair :=
  .ofNumbers 3 0x02f9308a019258c31049344f85f89d5229b531c845836f99b08601f113bce036f9

/-- A block without a predecessor and without transactions. -/
def genesis : Block := first.forge 1 0 (Hex.encode (beBytes 32 0)) 0 []

/-- A network with one milestone that starts with `genesis`. -/
def network (m : Milestone) : Network where
  nethash := genesis.payloadHash
  genesisBlockId := genesis.id.getD ""
  burnAddress := ""
  epochUnix := 0
  milestones := [m]
  nonempty := by simp

/-- A transfer of an amount, with a fee of 10. -/
def transfer (sender recipient : KeyPair) (nonce amount : UInt64) : Transaction :=
  sender.sign { type := 0, nonce := some nonce, senderPublicKey := "", fee := 10, amount,
                recipientId := some recipient.address }

/-- A registration as a delegate, with a fee of 10. -/
def registration (sender : KeyPair) (nonce : UInt64) (username : Text) : Transaction :=
  sender.sign { type := 2, nonce := some nonce, senderPublicKey := "", fee := 10,
                asset := some { delegate := some { username } } }

/-- A first block in which the first key registers as a delegate. -/
def delegateGenesis : Block :=
  first.forge 1 0 (Hex.encode (beBytes 32 0)) 0 [registration first 1 "one"]

/-- A legacy schnorr signature in hex. -/
def KeyPair.schnorr (k : KeyPair) (hash : Bytes) : Text :=
  match Hex.decode k.publicKey with
  | .ok key => ((Secp256k1.signSchnorrLegacy k.secret key hash).map Hex.encode).getD ""
  | .error _ => ""

end Reference

end SthCore
