import SthCore.Rules.SmartObject

/-!
Second signatures: the legacy second key and the quantum-shield blocks of
version-3 transactions.
-/

namespace SthCore

namespace Rules

def isSecondSignature (tx : Transaction) : Bool :=
  tx.typeGroup = typeGroupCore && tx.type = 1

/-- `check_second_signature`: the sender's registered second key decides. -/
def checkSecondSignature (P : Primitives) (tx : Transaction) (secondPublicKey : Option Text) :
    Check Unit :=
  if tx.isPq then .ok ()
  else
    match secondPublicKey with
    | some pk =>
        if isSecondSignature tx then
          .error "SecondSignatureAlreadyRegisteredError: wallet already has a second signature"
        else
          match verifyTransactionSecondSignature P tx pk with
          | .ok true => .ok ()
          | .ok false =>
              if tx.secondSignatureAny.isNone then
                .error "MissingSecondSignatureError: transaction requires a second signature"
              else .error "InvalidSecondSignatureError: second signature is invalid"
          | .error e => .error s!"InvalidSecondSignatureError: {e.display}"
    | none =>
        if tx.secondSignatureAny.isSome then
          .error "UnexpectedSecondSignatureError: wallet has no second signature"
        else .ok ()

/-- `registered_second_key`: the key a legacy registration installs. -/
def registeredSecondKey (tx : Transaction) : Check (Option Text) :=
  if !isSecondSignature tx || tx.isPq then .ok none
  else do
    let sig ← need (tx.asset.bind fun a => a.signature)
      "SecondSignatureRegistration without asset.signature.publicKey"
    let pk := sig.publicKey
    let head := pk.toList.take 2
    refuse (!(pk.utf8ByteSize = 66 && (head = ['0', '2'] || head = ['0', '3']) && Hex.isHex pk))
      s!"SecondSignatureRegistration: invalid public key {pk}"
    return some pk

/-- Signature bytes of a known second-signature algorithm. -/
def pqBlockLength (algorithm : UInt8) : Check Nat :=
  if algorithm = 0 then .ok 64
  else if algorithm = algMlDsa44 then .ok pqSigLen
  else .error s!"ERR_PQ_ALGORITHM: unknown second-signature algorithm {algorithm.toNat}"

/-- Blocks after `previous`: known algorithms, exact sizes, ascending order. -/
def checkPqBlocks (previous : Option PqSignatureBlock) : List PqSignatureBlock → Check Unit
  | [] => .ok ()
  | b :: rest => do
      let want ← pqBlockLength b.algorithm
      refuse (b.signature.utf8ByteSize ≠ want * 2 || !Hex.isHex b.signature)
        s!"ERR_PQ_LENGTH: algorithm {b.algorithm.toNat} signature must be {want} bytes"
      refuse (previous.any fun p => p.algorithm > b.algorithm)
        "ERR_PQ_ORDER: second-signature blocks must be in ascending algorithm order"
      checkPqBlocks (some b) rest

/-- The key a version-3 registration carries. -/
def checkPqRegistration (tx : Transaction) : Check Unit := do
  let sig ← need (tx.asset.bind fun a => a.signature) "ERR_PQ_ALGORITHM: missing asset.signature"
  refuse (sig.algorithm ≠ some algMlDsa44)
    "ERR_PQ_ALGORITHM: asset.signature.algorithm must be 1 (ML-DSA-44)"
  refuse (sig.publicKey.utf8ByteSize ≠ pqPkLen * 2 || !Hex.isHex sig.publicKey)
    s!"ERR_PQ_LENGTH: ML-DSA-44 public key must be {pqPkLen} bytes"

/-- `check_pq_format`. -/
def checkPqFormat (tx : Transaction) (ms : Milestone) : Check Unit :=
  if !tx.isPq then .ok ()
  else do
    refuse (!ms.pq.active) "ERR_PQ_NOT_ACTIVE: version 3 transactions need milestone pq.active"
    refuse (tx.pqBlocks.length > 2) "ERR_PQ_LENGTH: at most two second-signature blocks"
    checkPqBlocks none tx.pqBlocks
    refuse tx.secondSignatureAny.isSome
      "ERR_PQ_LENGTH: v3 carries secondSignatures blocks, not secondSignature"
    if isSecondSignature tx then checkPqRegistration tx
    if tx.typeGroup = typeGroupCore then
      let least := ms.staticFeeForType tx.type + pqSurcharge tx ms.pq.feePerByte
      refuse (tx.fee < least)
        s!"ERR_PQ_FEE: version 3 fee must be at least static fee + PQ surcharge = {least.toNat}"

/-- Wallet state the version-3 rules read. -/
structure PqWalletView where
  secondPublicKey : Option Text
  pqKey : Option PqKey
  commitment : Option PqCommitment

/-- One signature block against a key of its algorithm. -/
def pqBlockOk (P : Primitives) (message : Bytes) (b : PqSignatureBlock) (algorithm : UInt8)
    (keyHex : Text) : Bool :=
  if b.algorithm ≠ algorithm then false
  else if algorithm = 0 then
    (verifySignature P message b.signature keyHex).toOption.getD false
  else
    match Hex.decode keyHex, Hex.decode b.signature with
    | .ok pk, .ok sig => pqVerify P pk message sig
    | _, _ => false

/-- Inside the grace window a key must match the commitment made for it. -/
def commitmentMismatch (P : Primitives) (ms : Milestone) (height : Nat) (activation : Option Nat)
    (w : PqWalletView) (newKey : Bytes) : Bool :=
  match w.commitment, activation with
  | some c, some act =>
      decide (height < act + ms.pq.commitmentGrace) && c.commitment ≠ Hex.encode (P.sha256 newKey)
  | _, _ => false

/-- The key that has to approve a registration, with its algorithm. -/
def pqProof (w : PqWalletView) : Option (UInt8 × Text) :=
  match w.pqKey, w.secondPublicKey with
  | some k, _ => some (k.algorithm, k.publicKey)
  | none, some legacy => some (0, legacy)
  | none, none => none

def checkPqRegister (P : Primitives) (tx : Transaction) (ms : Milestone) (height : Nat)
    (activation : Option Nat) (w : PqWalletView) (message : Bytes) : Check PqKey := do
  let sig ← need (tx.asset.bind fun a => a.signature) "ERR_PQ_ALGORITHM: missing asset.signature"
  let newKey ← need (Hex.decode sig.publicKey).toOption "ERR_PQ_LENGTH: public key is not hex"
  refuse (commitmentMismatch P ms height activation w newKey)
    "ERR_PQ_COMMITMENT_MISMATCH: the key differs from the stage-A commitment (grace window)"
  let proof := pqProof w
  let expected := 1 + (if proof.isSome then 1 else 0)
  refuse (tx.pqBlocks.length ≠ expected)
    (if proof.isSome then
      "ERR_PQ_LEGACY_PROOF_REQUIRED: registration must carry [current key, new key] blocks"
    else "ERR_PQ_SECOND_SIGNATURE_REQUIRED: registration must carry exactly one block signed by the new key")
  let blank : PqSignatureBlock := { algorithm := 255, signature := "" }
  refuse (proof.any fun p => !pqBlockOk P message (tx.pqBlocks.getD 0 blank) p.1 p.2)
    "ERR_PQ_LEGACY_PROOF_REQUIRED: first block must be a valid signature of the current second key"
  refuse (!pqBlockOk P message (tx.pqBlocks.getD (expected - 1) blank) algMlDsa44 sig.publicKey)
    "ERR_PQ_SECOND_SIGNATURE_INVALID: last block must be signed by the new ML-DSA-44 key"
  return { algorithm := algMlDsa44, publicKey := sig.publicKey, since := height }

/-- Signature blocks of a version-3 transaction that registers nothing. -/
def checkPqSignature (P : Primitives) (tx : Transaction) (w : PqWalletView) (message : Bytes) :
    Check Unit :=
  match w.pqKey, w.secondPublicKey, tx.pqBlocks with
  | some k, _, [b] =>
      if b.algorithm ≠ k.algorithm then
        .error "ERR_PQ_SECOND_SIGNATURE_REQUIRED: exactly one block of the registered PQ algorithm"
      else if pqBlockOk P message b k.algorithm k.publicKey then .ok ()
      else .error "ERR_PQ_SECOND_SIGNATURE_INVALID"
  | some _, _, _ =>
      .error "ERR_PQ_SECOND_SIGNATURE_REQUIRED: exactly one block of the registered PQ algorithm"
  | none, some legacy, blocks =>
      let invalid :=
        "ERR_PQ_SECOND_SIGNATURE_INVALID: legacy second signature block (algorithm 0) required"
      match blocks with
      | [b] => if pqBlockOk P message b 0 legacy then .ok () else .error invalid
      | _ => .error invalid
  | none, none, blocks =>
      refuse (!blocks.isEmpty) "UnexpectedSecondSignatureError: wallet has no second signature"

/-- `check_pq`: the key a version-3 registration installs. -/
def checkPq (P : Primitives) (tx : Transaction) (ms : Milestone) (height : Nat)
    (activation : Option Nat) (w : PqWalletView) : Check (Option PqKey) :=
  if !tx.isPq then
    if w.pqKey.isSome then
      .error ("ERR_PQ_SECOND_SIGNATURE_REQUIRED: wallet is PQ-locked, " ++
        "send a version 3 transaction with its ML-DSA block")
    else .ok none
  else do
    checkPqFormat tx ms
    let message ← match transactionPqMessage P tx with
      | .ok m => .ok m
      | .error e => .error s!"ERR_PQ_SECOND_SIGNATURE_INVALID: {e.display}"
    if isSecondSignature tx then
      return some (← checkPqRegister P tx ms height activation w message)
    checkPqSignature P tx w message
    return none

end Rules

end SthCore
