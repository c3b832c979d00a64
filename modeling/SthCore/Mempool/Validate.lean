import SthCore.Mempool.Pool
import SthCore.Storage.Written

/-!
Admission of a transaction to the pool: `validate`, the checks it is made of,
and the batches that run it.
-/

namespace SthCore

open SthCore.Lib

/-! Fees per byte are binary64 numbers. -/

namespace Binary64

/-- The integer nearest to a rational, the even one of two. -/
def roundEven (q : Rat) : Int :=
  let n := q.floor
  if q - n < 1 / 2 then n
  else if 1 / 2 < q - n then n + 1
  else if n % 2 = 0 then n else n + 1

/-- A power of two. -/
def pow2 (e : Int) : Rat :=
  if 0 ≤ e then ((2 ^ e.toNat : Nat) : Rat) else mkRat 1 (2 ^ (-e).toNat)

/-- The exponent of the greatest power of two up to a positive number. -/
def exponent (q : Rat) : Int :=
  let e := (q.num.toNat.log2 : Int) - q.den.log2
  if pow2 e ≤ q then e else e - 1

/-- The number with 53 significant bits nearest to a non-negative one; neither overflow nor
subnormal numbers occur among fees and sizes. -/
def nearest (q : Rat) : Rat :=
  if q = 0 then 0
  else
    let unit := pow2 (exponent q - 52)
    roundEven (q / unit) * unit

/-- A number with two decimals. -/
def display (q : Rat) : String :=
  let cents := (roundEven (q * 100)).toNat
  let pad := if cents % 100 < 10 then "0" else ""
  s!"{cents / 100}.{pad}{cents % 100}"

end Binary64

/-- Fee per byte. -/
def feeRate (fee : UInt64) (bytes : Nat) : Rat :=
  Binary64.nearest (Binary64.nearest fee.toNat / Binary64.nearest (max bytes 1))

/-- A pending transaction that may be evicted. -/
structure Candidate where
  rate : Rat
  bytes : Nat
  id : Text

namespace PoolConfig

variable (C : PoolConfig)

abbrev Verdict := Except PoolError

def poolError {α : Type} (type message : String) : Verdict α := .error { type, message }

/-- Fail when a condition holds. -/
def reject (condition : Bool) (type message : String) : Verdict Unit :=
  if condition then poolError type message else .ok ()

/-- A failed rule of a block as an error of the pool. -/
def asPoolError {α : Type} (type : String) (check : Rules.Check α) : Verdict α :=
  check.mapError fun message => { type, message }

/-- `storage_err` and the other errors whose text is shown. -/
def shown {α : Type} (type : String) (result : Except Error α) : Verdict α :=
  result.mapError fun e => { type, message := e.display }

/-- The pool holds no transaction twice. -/
def checkNew (p : Pool) (id : Text) : Verdict Unit :=
  reject (p.txs[id]?).isSome "ERR_DUPLICATE" s!"Transaction {id} is already in the pool"

/-- The greatest pending nonce under a spelling of a sender key. -/
def lastNonce (p : Pool) (senderPublicKey : Text) : UInt64 :=
  (((C.entries p).filter fun e => e.2.senderPublicKey = senderPublicKey).map fun e =>
    e.2.nonce.getD 0).foldl max 0

/-- The last pending transactions of the other senders that pay less per byte, cheapest first. -/
def candidates (E : Env) (p : Pool) (tx : Transaction) (size : Nat) : List Candidate :=
  let last := (C.entries p).filter fun e =>
    e.2.senderPublicKey ≠ tx.senderPublicKey &&
      C.lastNonce p e.2.senderPublicKey = e.2.nonce.getD 0
  let priced := last.map fun e =>
    let bytes := C.txSize E e.2
    { rate := feeRate e.2.fee bytes, bytes, id := e.1 : Candidate }
  (priced.filter fun c => c.rate < feeRate tx.fee size).insertionSort fun a b => a.rate ≤ b.rate

/-- Victims until enough slots and bytes are free: slots, bytes and ids. -/
def collect (needSlots needBytes slots bytes : Nat) : List Candidate → Nat × Nat × List Text
  | [] => (slots, bytes, [])
  | c :: rest =>
      if needSlots ≤ slots ∧ needBytes ≤ bytes then (slots, bytes, [])
      else
        let more := collect needSlots needBytes (slots + 1) (bytes + c.bytes) rest
        (more.1, more.2.1, c.id :: more.2.2)

/-- `eviction_candidates`. -/
def evictionCandidates (E : Env) (p : Pool) (tx : Transaction) (size needSlots needBytes : Nat) :
    Verdict (List Text) :=
  let found := collect needSlots needBytes 0 0 (C.candidates E p tx size)
  if needSlots ≤ found.1 ∧ needBytes ≤ found.2.1 then .ok found.2.2
  else poolError "ERR_POOL_FULL"
    (s!"Transaction pool is full and the fee {tx.fee.toNat} " ++
      s!"({Binary64.display (feeRate tx.fee size)} per byte) does not beat the cheapest " ++
      "pending transactions (replace-by-fee)")

/-- Slots and bytes that a newcomer of some size lacks. -/
def needs (p : Pool) (size : Nat) : Nat × Nat :=
  (if C.maxSize ≤ p.txs.size then 1 else 0, p.bytes + size - C.maxBytes)

/-- The pending transactions that have to make room. -/
def room (E : Env) (p : Pool) (tx : Transaction) (size : Nat) : Verdict (List Text) :=
  let needSlots := (C.needs p size).1
  let needBytes := (C.needs p size).2
  if 0 < needSlots ∨ 0 < needBytes then
    if C.antispam.enabled && C.antispam.replaceByFee then
      C.evictionCandidates E p tx size needSlots needBytes
    else poolError "ERR_POOL_FULL"
      (s!"Transaction pool is full ({p.txs.size} of {C.maxSize} transactions, " ++
        s!"{p.bytes} of {C.maxBytes} bytes)")
  else .ok []

/-- Not on the chain, of a known kind, for this network. -/
def checkKind (E : Env) (s : Store) (tx : Transaction) (id : Text) : Verdict Unit := do
  let forged ← shown "ERR_UNKNOWN" (s.getTransaction E id)
  reject forged.isSome "ERR_FORGED" s!"Transaction {id} is already forged"
  reject (!(tx.version = 2 || tx.isPq) ||
      !(tx.typeGroup = typeGroupCore || tx.isSobj || tx.isToken))
    "ERR_UNKNOWN" "Only version 2 / 3 core, sObject and token transactions are supported"
  reject (tx.network.any fun n => n ≠ E.network.pubkeyHash) "ERR_WRONG_NETWORK"
    (s!"Transaction network {(tx.network.getD 0).toNat} does not match " ++
      s!"{E.network.pubkeyHash.toNat}")

/-- `check_core_fee`: the dynamic minimum or exactly the static fee, and whether the transaction
may be relayed. -/
def checkCoreFee (tx : Transaction) (size : Nat) (ms : Milestone) : Verdict Bool :=
  if tx.typeGroup ≠ typeGroupCore || tx.isPq then .ok true
  else
    let name := ((feeNames.find? fun e => e.2 == tx.type).map fun e => e.1).getD ""
    let df := C.dynamicFees
    if !df.enabled then
      let staticFee := ms.staticFeeForType tx.type
      if tx.fee ≠ staticFee then
        poolError "ERR_LOW_FEE"
          (s!"Fee {tx.fee.toNat} does not match the static fee {staticFee.toNat} of {name} " ++
            "(dynamic fees are disabled on this node)")
      else .ok true
    else
      let least := df.minFee name size df.minFeePool
      if tx.fee < least then
        poolError "ERR_LOW_FEE"
          (s!"The fee {tx.fee.toNat} is too low to enter the pool: minimum " ++
            s!"({(df.addon name).toNat} + {size} bytes) × {df.minFeePool.toNat} = {least.toNat}")
      else .ok (decide (df.minFee name size df.minFeeBroadcast ≤ tx.fee))

/-- `recipients`. -/
def recipients (tx : Transaction) : List Text :=
  tx.recipientId.toList ++ tx.payments.map fun p => p.recipientId

def validateAddress (E : Env) (address : Text) : Bool :=
  match addressToBytes E.prim address with
  | .ok bytes => bytes.head? = some E.network.pubkeyHash
  | .error _ => false

/-- The signature and the addresses; the address of the sender. -/
def checkSigned (E : Env) (tx : Transaction) : Verdict Text := do
  let valid ← shown "ERR_BAD_DATA" (verifyTransactionSignature E.prim tx)
  reject (!valid) "ERR_BAD_DATA" "Transaction signature is invalid"
  let sender ← shown "ERR_BAD_DATA" (E.addressOf tx.senderPublicKey)
  let wrong := (recipients tx).find? fun r => !validateAddress E r
  let shownWrong := wrong.getD ""
  reject wrong.isSome "ERR_BAD_DATA" s!"Invalid recipient {shownWrong}"
  return sender

/-- The pending transactions under the sender's key as it is spelled, by nonce. -/
def pendingOf (p : Pool) (senderPublicKey : Text) : List Transaction :=
  (((C.entries p).map fun e => e.2).filter fun t =>
    t.senderPublicKey = senderPublicKey).insertionSort fun a b => a.nonce.getD 0 ≤ b.nonce.getD 0

/-- `check_sender`. -/
def checkSender (sender : Text) (pending pendingBytes size : Nat) : Verdict Unit :=
  if !C.antispam.enabled then .ok ()
  else if C.antispam.maxPerSender ≤ pending then
    poolError "ERR_SPAM_SENDER"
      (s!"Sender {sender} already has {pending} pending transactions in this pool " ++
        s!"(max {C.antispam.maxPerSender})")
  else if C.antispam.maxBytesPerSender < pendingBytes + size then
    poolError "ERR_SPAM_SENDER"
      (s!"Sender {sender} already holds {pendingBytes} pending bytes in this pool " ++
        s!"(max {C.antispam.maxBytesPerSender})")
  else .ok ()

/-- A resend of a pending nonce does not add to what its sender holds. -/
def checkHoard (E : Env) (sender : Text) (pending : List Transaction) (tx : Transaction)
    (size : Nat) : Verdict Unit :=
  if pending.any fun t => t.nonce = tx.nonce then .ok ()
  else C.checkSender sender pending.length (pending.map (C.txSize E)).sum size

/-- The pending transaction with this nonce, when the newcomer pays no less. -/
def replacement (sender : Text) (pending : List Transaction) (tx : Transaction) :
    Verdict (Option Text) :=
  match tx.nonce with
  | none => .ok none
  | some n =>
      match pending.find? fun t => t.nonce = some n with
      | none => .ok none
      | some old =>
          if tx.fee < old.fee then
            let oldId := old.id.getD "?"
            poolError "ERR_BAD_NONCE"
              (s!"Sender {sender}: nonce {n.toNat} is already pending in this node's pool " ++
                s!"({oldId}) with fee {old.fee.toNat}; resend with a fee of at least " ++
                s!"{old.fee.toNat} to replace it")
          else .ok old.id

/-- The nonce after the one of the chain and those pending. -/
def expectedNonce (nonce : Nat) (others : List Transaction) : UInt64 :=
  UInt64.ofNat (nonce + 1 + others.length)

def nonceDetail (sender : Text) (nonce : Nat) (others : List Transaction) : String :=
  if others.isEmpty then s!"chain nonce {nonce}, nothing pending"
  else
    let least := (others.head?.bind fun t => t.nonce).getD 0
    let greatest := (others.getLast?.bind fun t => t.nonce).getD 0
    s!"chain nonce {nonce} + {others.length} pending in this node's pool: " ++
      s!"{least.toNat}–{greatest.toNat}; resend a pending nonce with an equal or higher fee " ++
      s!"to replace it, see GET /api/transactions/unconfirmed?senderId={sender}"

/-- A nonce that replaces nothing must be the next one. -/
def checkNonce (sender : Text) (nonce : Nat) (others : List Transaction)
    (replaces : Option Text) (tx : Transaction) : Verdict Unit :=
  match tx.nonce with
  | none => poolError "ERR_BAD_NONCE" "Transaction nonce is missing"
  | some n =>
      let expected := expectedNonce nonce others
      if replaces.isSome ∨ n = expected then .ok ()
      else poolError "ERR_BAD_NONCE"
        (s!"Sender {sender}: nonce {n.toNat}, expected {expected.toNat} " ++
          s!"({nonceDetail sender nonce others})")

/-- The second key of a registration still in the pool. -/
def pendingSecondKey (others : List Transaction) : Option Text :=
  others.findSome? fun t => (Rules.registeredSecondKey t).toOption.join

/-- The PQ key of a registration still in the pool. -/
def pendingPqKey (others : List Transaction) (height : Nat) : Option PqKey := do
  let t ← others.find? fun t => t.isPq && Rules.isSecondSignature t
  let sig ← t.asset.bind fun a => a.signature
  return { algorithm := sig.algorithm.getD 1, publicKey := sig.publicKey, since := height }

/-- The code of a failed PQ rule is the first part of its text. -/
def pqCode (message : String) : String :=
  if "ERR_PQ_".toList.isPrefixOf message.toList then
    String.ofList (message.toList.takeWhile fun c => c ≠ ':')
  else "ERR_BAD_DATA"

/-- Second keys, with the registrations that wait in the pool. -/
def checkPoolKeys (E : Env) (s : Store) (tx : Transaction) (wallet : Option WalletState)
    (others : List Transaction) : Verdict Unit := do
  let height := s.lastHeight + 1
  let secondKey := (wallet.bind fun w => w.secondPublicKey).or (pendingSecondKey others)
  let pendingPq := pendingPqKey others height
  let view : Rules.PqWalletView :=
    { secondPublicKey := if pendingPq.isSome then none else secondKey
      pqKey := pendingPq.or (wallet.bind fun w => w.pqKey)
      commitment := wallet.bind fun w => w.pqCommitment }
  let pq := Rules.checkPq E.prim tx (E.network.milestone height) height
    E.network.pqActivationHeight view
  let _ ← pq.mapError fun m => { type := pqCode m, message := m : PoolError }
  asPoolError "ERR_BAD_DATA" (Rules.checkSecondSignature E.prim tx secondKey)
  let _ ← asPoolError "ERR_BAD_DATA" (Rules.registeredSecondKey tx)

/-! The token view of the pool: storage with what is pending. -/

def isMarket (type : TokenType) (tx : Transaction) : Bool := tx.tokenType = some type

/-- What the sender's pending transactions take from a token balance. -/
def pendingTokens (p : Pool) (senderPublicKey id : Text) : UInt64 :=
  let own := (C.entries p).filter fun e => e.2.senderPublicKey = senderPublicKey
  (own.filterMap fun e => (e.2.tokenAsset.filter fun a => a.id = id).map fun a =>
    match e.2.tokenType with
    | some .transfer => ((a.transfers.getD []).map fun i => i.amount).sum
    | some .burn | some .sell => a.amount.getD 0
    | _ => 0).sum

/-- A stored order, or the one that a pending transaction would open. -/
def knownOrder (E : Env) (s : Store) (p : Pool) (id : Text) : Option TokenOrder :=
  (s.tokenOrder id).or do
    let t ← p.txs[id]?
    let a ← t.tokenAsset.filter fun _ => isMarket .sell t
    let seller ← (E.addressOf t.senderPublicKey).toOption
    return { id, tokenId := a.id, seller, amount := a.amount.getD 0, filled := 0
             price := a.price.getD 0, height := 0 }

/-- The effect of a pending fill or cancellation on an order. -/
def touchOrder (id : Text) (o : TokenOrder) (tx : Transaction) : TokenOrder :=
  match tx.tokenAsset.filter fun a => a.orderId = some id, tx.tokenType with
  | some a, some .buy =>
      let filled := min (satAdd o.filled (a.amount.getD 0)) o.amount
      { o with filled, closed := if o.amount ≤ filled then some (2 ^ 64 - 1) else o.closed }
  | some _, some .cancel => { o with closed := some (2 ^ 64 - 1) }
  | _, _ => o

def isPendingSell (senderPublicKey tokenId : Text) (tx : Transaction) : Bool :=
  tx.senderPublicKey = senderPublicKey && isMarket .sell tx &&
    tx.tokenAsset.any fun a => a.id = tokenId

/-- `PoolTokenView`. -/
def tokenView (E : Env) (s : Store) (p : Pool) (senderPublicKey : Text) : Rules.TokenView where
  tokenOwner := fun id => s.tokenOwner[id]?
  tokenState := s.tokenState
  tokenBalance := fun address id =>
    satSub (s.tokenBalance address id) (C.pendingTokens p senderPublicKey id)
  tickerSobj := fun id => do
    let (owner, r) ← s.findSobject E id
    if r.type = tickerSobjType then return (owner, r.data.name.getD "", r.resigned) else none
  order := fun id => (knownOrder E s p id).map fun o =>
    ((C.entries p).map fun e => e.2).foldl (touchOrder id) o
  openOrders := fun seller tokenId =>
    ((s.walletOrders seller).filter fun o => o.tokenId = tokenId).length +
      (((C.entries p).map fun e => e.2).filter (isPendingSell senderPublicKey tokenId)).length

def checkPoolToken (E : Env) (s : Store) (p : Pool) (tx : Transaction) (sender : Text)
    (type : TokenType) : Verdict Unit := do
  let ms := E.network.milestone (s.lastHeight + 1)
  reject (!ms.tokens) "ERR_UNKNOWN" "Token transactions are not activated yet"
  let a ← asPoolError "ERR_BAD_DATA" (Rules.checkTokenFormat E.prim tx ms)
  reject (type = .init && (C.entries p).any fun e =>
      isMarket .init e.2 && e.2.tokenAsset.any fun o => o.id = a.id)
    "ERR_PENDING" "TokenInit for this id is already pending"
  asPoolError "ERR_APPLY"
    (Rules.checkToken type a sender (C.tokenView E s p tx.senderPublicKey))

/-- `Mempool::spent`: the price of a purchase is that of the stored order. -/
def spent (E : Env) (s : Store) (tx : Transaction) : Int :=
  let payments := (tx.payments.map fun p => (p.amount.toNat : Int)).sum
  let bought := ((tx.sobjAsset.filter fun e => SobjAction.ofCode e.action = some .buy).bind
    fun e => e.registrationId.bind fun reg => s.findSobject E reg).bind fun r => r.2.price
  let filled := ((tx.tokenAsset.filter fun _ => isMarket .buy tx).bind fun a =>
    (a.orderId.bind s.tokenOrder).map fun o => satMul (a.amount.getD 0) o.price).getD 0
  tx.amount.toNat + tx.fee.toNat + payments + (bought.getD 0).toNat + filled.toNat

/-- Whether a pending registration takes the name of this one. -/
def nameClash (e : SmartObjectAsset) (tx : Transaction) : Bool :=
  tx.sobjAsset.any fun q => SobjAction.ofCode q.action = some .register && q.type = e.type &&
    q.data.name.map Text.toLower = some (e.data.name.getD "").toLower

def checkPoolSobj (E : Env) (s : Store) (p : Pool) (tx : Transaction) (sender : Text)
    (others : List Transaction) : Verdict Unit := do
  let ms := E.network.milestone (s.lastHeight + 1)
  reject (!tx.isSobj) "ERR_UNKNOWN"
    s!"unsupported typeGroup {tx.typeGroup.toNat} type {tx.type.toNat}"
  reject (!ms.sobjActive) "ERR_UNKNOWN"
    "SmartObject transactions are not activated yet (milestone ship13 / sobj)"
  -- a purchase must be affordable after everything the sender already has in the pool
  let wallet := (s.getWallet sender).map fun w =>
    { w with balance := max (w.balance - (others.map (spent E s)).sum) i64Min }
  asPoolError "ERR_APPLY" (Rules.checkSobj E.prim tx ms
    { wallet, pending := ∅, nameTaken := fun name type => (s.sobjByName name type).isSome
      lookup := s.findSobject E
      tokenSupply := fun id => (s.tokenState id).map fun st => st.supply })
  let registered := tx.sobjAsset.filter fun e => SobjAction.ofCode e.action = some .register
  let name := ((registered.bind fun e => e.data.name).getD "").toLower
  reject (registered.any fun e => (C.entries p).any fun q => nameClash e q.2) "ERR_PENDING"
    s!"SmartObject registration for \"{name}\" already in the pool"

def checkPoolBalance (E : Env) (s : Store) (tx : Transaction) (sender : Text) (balance : Int)
    (others : List Transaction) : Verdict Unit :=
  if balance - (others.map (spent E s)).sum < spent E s tx then
    poolError "ERR_LOW_BALANCE" s!"Sender {sender} has insufficient balance"
  else if tx.coreType = some .transfer && tx.recipientId.isNone then
    poolError "ERR_BAD_DATA" "Transfer without recipient"
  else .ok ()

/-- The rules of tokens and smart objects. -/
def checkPoolAsset (E : Env) (s : Store) (p : Pool) (tx : Transaction) (sender : Text)
    (others : List Transaction) : Verdict Unit :=
  match tx.tokenType with
  | some type => C.checkPoolToken E s p tx sender type
  | none =>
      if tx.typeGroup = typeGroupCore then .ok () else C.checkPoolSobj E s p tx sender others

/-- `validate`. -/
def validate (E : Env) (s : Store) (p : Pool) (tx : Transaction) : Verdict Admit := do
  let id := tx.id.getD ""
  checkNew p id
  let size := C.txSize E tx
  let evicts ← C.room E p tx size
  checkKind E s tx id
  let broadcast ← C.checkCoreFee tx size (E.network.milestone (s.lastHeight + 1))
  let sender ← checkSigned E tx
  let wallet := s.getWallet sender
  let pending := C.pendingOf p tx.senderPublicKey
  C.checkHoard E sender pending tx size
  let replaces ← replacement sender pending tx
  let others := pending.filter fun t => t.nonce ≠ tx.nonce
  checkNonce sender ((wallet.map fun w => w.nonce).getD 0) others replaces tx
  checkPoolKeys E s tx wallet others
  C.checkPoolAsset E s p tx sender others
  checkPoolBalance E s tx sender ((wallet.map fun w => w.balance).getD 0) others
  return { broadcast, replaces, evicts }

/-- A replacement is the pending transaction with the nonce of the newcomer; without one no
pending transaction has this nonce. -/
theorem replacement_ok {sender : Text} {pending : List Transaction} {tx : Transaction}
    {replaces : Option Text} (h : replacement sender pending tx = .ok replaces)
    (hnonce : tx.nonce.isSome) :
    (∃ old ∈ pending, old.nonce = tx.nonce ∧ replaces = old.id) ∨
    (replaces = none ∧ ∀ u ∈ pending, u.nonce ≠ tx.nonce) := by
  obtain ⟨n, hn⟩ := Option.isSome_iff_exists.mp hnonce
  unfold replacement at h
  rw [hn] at h ⊢
  dsimp only at h
  split at h
  · rename_i hnone
    injection h with h
    refine .inr ⟨h.symm, fun u hu => ?_⟩
    simpa using List.find?_eq_none.mp hnone u hu
  · rename_i old hold
    split_ifs at h
    · cases h
    · injection h with h
      refine .inl ⟨old, List.mem_of_find?_eq_some hold, ?_, h.symm⟩
      simpa using List.find?_some hold

theorem checkNonce_ok {sender : Text} {nonce : Nat} {others : List Transaction}
    {replaces : Option Text} {tx : Transaction}
    (h : checkNonce sender nonce others replaces tx = .ok ()) :
    ∃ n, tx.nonce = some n ∧ (replaces.isSome ∨ n = expectedNonce nonce others) := by
  unfold checkNonce at h
  split at h
  · cases h
  · rename_i n hn
    dsimp only at h
    split_ifs at h with hnext
    · exact ⟨n, hn, hnext⟩
    · cases h

/-- What an admitted transaction has passed, as far as the pool's own limits and nonces go. -/
structure Validated (E : Env) (s : Store) (p : Pool) (tx : Transaction) (sender : Text)
    (grant : Admit) : Prop where
  fresh : p.txs[tx.id.getD ""]? = none
  room : C.room E p tx (C.txSize E tx) = .ok grant.evicts
  address : E.addressOf tx.senderPublicKey = .ok sender
  hoard : C.checkHoard E sender (C.pendingOf p tx.senderPublicKey) tx (C.txSize E tx) = .ok ()
  replaces : replacement sender (C.pendingOf p tx.senderPublicKey) tx = .ok grant.replaces
  nonce : checkNonce sender (s.walletAt sender).nonce
    ((C.pendingOf p tx.senderPublicKey).filter fun t => t.nonce ≠ tx.nonce) grant.replaces tx =
      .ok ()

/-- The victims are candidates from the front, with their number and their bytes. -/
theorem collect_eq (needSlots needBytes slots bytes : Nat) (l : List Candidate) :
    ∃ out : List Candidate, out.Sublist l ∧ collect needSlots needBytes slots bytes l =
      (slots + out.length, bytes + (out.map Candidate.bytes).sum, out.map Candidate.id) := by
  induction l generalizing slots bytes with
  | nil => exact ⟨[], .slnil, by simp [collect]⟩
  | cons c rest ih =>
      unfold collect
      split_ifs
      · exact ⟨[], List.nil_sublist _, by simp⟩
      · obtain ⟨out, hsub, hmore⟩ := ih (slots + 1) (bytes + c.bytes)
        refine ⟨c :: out, hsub.cons_cons c, ?_⟩
        simp only [hmore, List.length_cons, List.map_cons, List.sum_cons, Prod.mk.injEq, and_true]
        omega

variable {C}

/-- What makes a pending transaction a candidate. -/
structure Evictable (C : PoolConfig) (E : Env) (p : Pool) (tx : Transaction) (c : Candidate)
    (u : Transaction) : Prop where
  pending : p.txs[c.id]? = some u
  bytes : C.txSize E u = c.bytes
  other : u.senderPublicKey ≠ tx.senderPublicKey
  last : C.lastNonce p u.senderPublicKey = u.nonce.getD 0

theorem candidates_nodup (E : Env) (p : Pool) (tx : Transaction) (size : Nat) :
    ((C.candidates E p tx size).map Candidate.id).Nodup := by
  have hkeys : (p.txs.toList.map fun e => e.1).Nodup := by
    rw [Std.ExtTreeMap.map_fst_toList_eq_keys]
    exact OrderedMap.keys_nodup p.txs
  have hentries := ((C.entries_perm p).map fun e => e.1).nodup_iff.mpr hkeys
  unfold candidates
  rw [((List.perm_insertionSort _ _).map Candidate.id).nodup_iff]
  refine List.Nodup.sublist (List.filter_sublist.map Candidate.id) ?_
  rw [List.map_map]
  exact List.Nodup.sublist (List.Sublist.map (fun e : Text × Transaction => e.1)
    List.filter_sublist) hentries

theorem candidates_evictable {E : Env} {p : Pool} {tx : Transaction} {size : Nat} {c : Candidate}
    (h : c ∈ C.candidates E p tx size) : ∃ u, C.Evictable E p tx c u := by
  unfold candidates at h
  rw [List.mem_insertionSort, List.mem_filter, List.mem_map] at h
  obtain ⟨⟨e, he, rfl⟩, -⟩ := h
  rw [List.mem_filter, (C.entries_perm p).mem_iff, Bool.and_eq_true, decide_eq_true_eq,
    decide_eq_true_eq] at he
  exact ⟨e.2, Std.ExtTreeMap.mem_toList_iff_getElem?_eq_some.mp he.1, rfl, he.2.1, he.2.2⟩

/-- The evicted make the room that was missing. -/
theorem room_ok {E : Env} {p : Pool} {tx : Transaction} {size : Nat} {evicts : List Text}
    (h : C.room E p tx size = .ok evicts) :
    ∃ out : List Candidate, evicts = out.map Candidate.id ∧
      (out.map Candidate.id).Nodup ∧ (∀ c ∈ out, ∃ u, C.Evictable E p tx c u) ∧
      (C.needs p size).1 ≤ out.length ∧ (C.needs p size).2 ≤ (out.map Candidate.bytes).sum := by
  unfold room at h
  dsimp only at h
  split_ifs at h with hneeds
  · unfold evictionCandidates at h
    dsimp only at h
    obtain ⟨out, hsub, hcollect⟩ := collect_eq (C.needs p size).1 (C.needs p size).2 0 0
      (C.candidates E p tx size)
    rw [hcollect] at h
    split_ifs at h with henough
    · injection h with h
      rw [Nat.zero_add, Nat.zero_add] at henough
      refine ⟨out, h.symm, (candidates_nodup E p tx size).sublist (hsub.map _), ?_, henough⟩
      exact fun c hc => candidates_evictable (hsub.subset hc)
    · cases h
  · cases h
  · injection h with h
    refine ⟨[], h.symm, List.nodup_nil, by simp, ?_⟩
    rw [not_or, Nat.not_lt, Nat.not_lt] at hneeds
    exact hneeds

theorem reject_ok {condition : Bool} {type message : String} {u : Unit}
    (h : reject condition type message = .ok u) : condition = false := by
  unfold reject at h
  split_ifs at h with hc
  · cases h
  · simpa using hc

theorem mapError_ok {ε ε' α : Type} {f : ε → ε'} {x : Except ε α} {a : α}
    (h : x.mapError f = .ok a) : x = .ok a := by
  cases x with
  | error e => cases h
  | ok b =>
      injection h with h
      rw [h]

theorem checkSigned_ok {E : Env} {tx : Transaction} {sender : Text}
    (h : checkSigned E tx = .ok sender) : E.addressOf tx.senderPublicKey = .ok sender := by
  obtain ⟨valid, -, h⟩ := bind_eq_ok.mp h
  obtain ⟨_, -, h⟩ := bind_eq_ok.mp h
  obtain ⟨a, ha, h⟩ := bind_eq_ok.mp h
  obtain ⟨_, -, h⟩ := bind_eq_ok.mp h
  rw [← pure_eq_ok.mp h]
  exact mapError_ok ha

theorem validate_ok {E : Env} {s : Store} {p : Pool} {tx : Transaction} {grant : Admit}
    (h : C.validate E s p tx = .ok grant) : ∃ sender, C.Validated E s p tx sender grant := by
  unfold validate at h
  obtain ⟨_, hfresh, h⟩ := bind_eq_ok.mp h
  obtain ⟨evicts, hroom, h⟩ := bind_eq_ok.mp h
  obtain ⟨_, -, h⟩ := bind_eq_ok.mp h
  obtain ⟨broadcast, -, h⟩ := bind_eq_ok.mp h
  obtain ⟨sender, hsender, h⟩ := bind_eq_ok.mp h
  obtain ⟨_, hhoard, h⟩ := bind_eq_ok.mp h
  obtain ⟨replaces, hreplaces, h⟩ := bind_eq_ok.mp h
  obtain ⟨_, hnonce, h⟩ := bind_eq_ok.mp h
  obtain ⟨_, -, h⟩ := bind_eq_ok.mp h
  obtain ⟨_, -, h⟩ := bind_eq_ok.mp h
  obtain ⟨_, -, h⟩ := bind_eq_ok.mp h
  obtain rfl := pure_eq_ok.mp h
  refine ⟨sender, ?_, hroom, checkSigned_ok hsender, hhoard, hreplaces, ?_⟩
  · exact Option.not_isSome_iff_eq_none.mp (ne_true_of_eq_false (reject_ok hfresh))
  · convert hnonce
    unfold Store.walletAt
    cases s.getWallet sender <;> rfl

variable (C)

/-- A transaction with the id of its bytes, which must be the one it came with. -/
def identify (E : Env) (tx : Transaction) : Except (Text × PoolError) Newcomer :=
  match transactionId E.prim tx with
  | .error e => .error (Text.ofString "unknown", { type := "ERR_BAD_DATA", message := e.display })
  | .ok id =>
      match tx.id.filter fun given => given ≠ id with
      | some given => .error (given,
          { type := "ERR_BAD_DATA"
            message := s!"Transaction id {given} does not match its bytes ({id})" })
      | none => .ok { id, tx := { tx with id := some id }, keyed := rfl }

/-- What is checked of an incoming transaction before the pool is written: the newcomer with the
verdict, or the id and the reason of the refusal. -/
def examine (E : Env) (s : Store) (p : Pool) (tx : Transaction) :
    Except (Text × PoolError) (Newcomer × Admit) := do
  let t ← identify E tx
  let verdict := do
    checkNew p t.id
    C.validate E s p t.tx
  let grant ← verdict.mapError fun e => (t.id, e)
  return (t, grant)

variable {C}

theorem identify_ok {E : Env} {tx : Transaction} {t : Newcomer} (h : identify E tx = .ok t) :
    t.tx = { tx with id := some t.id } := by
  unfold identify at h
  split at h
  · cases h
  · split at h
    · cases h
    · rw [← Except.ok.inj h]

theorem examine_ok {E : Env} {s : Store} {p : Pool} {tx : Transaction} {t : Newcomer}
    {grant : Admit} (h : C.examine E s p tx = .ok (t, grant)) :
    t.tx = { tx with id := some t.id } ∧ ∃ sender, C.Validated E s p t.tx sender grant := by
  obtain ⟨u, hu, h⟩ := bind_eq_ok.mp h
  obtain ⟨verdict, hverdict, h⟩ := bind_eq_ok.mp h
  obtain ⟨rfl, rfl⟩ := Prod.mk.inj (pure_eq_ok.mp h)
  obtain ⟨_, -, hvalidate⟩ := bind_eq_ok.mp (mapError_ok hverdict)
  exact ⟨identify_ok hu, validate_ok hvalidate⟩

end PoolConfig

/-- The answer to a batch: ids accepted, relayed and refused, with the reasons. -/
structure PoolResponse where
  accept : List Text := []
  broadcast : List Text := []
  invalid : List Text := []
  errors : OrderedMap Text PoolError := ∅

namespace PoolConfig

variable (C : PoolConfig)

/-- One transaction of a batch, with nothing in between. -/
def addOne (E : Env) (s : Store) (tip : Nat) (state : Pool × PoolResponse) (tx : Transaction) :
    Pool × PoolResponse :=
  let (p, resp) := state
  match C.examine E s p tx with
  | .error (id, e) =>
      (p, { resp with invalid := resp.invalid ++ [id], errors := resp.errors.insert id e })
  | .ok (t, grant) =>
      (C.insert E tip p t grant,
        { resp with
          accept := resp.accept ++ [t.id]
          broadcast := if grant.broadcast then resp.broadcast ++ [t.id] else resp.broadcast })

/-- `add_many` after the gate. -/
def addMany (E : Env) (s : Store) (p : Pool) (incoming : List Transaction) :
    Pool × PoolResponse :=
  incoming.foldl (C.addOne E s s.lastHeight) (p, {})

end PoolConfig

end SthCore
