import SthCore.Chain.Nonces
import SthCore.Crypto.Payloads
import SthCore.Storage.Names

/-!
Second keys: what the rules know of them inside a batch, what storage keeps of
them, and the quantum-shield key that locks a wallet once it is registered.
-/

namespace SthCore

open SthCore.Lib

/-- The second keys of a wallet. -/
structure SecondKeys where
  legacy : Option Text := none
  pq : Option PqKey := none

def WalletState.secondKeys (w : WalletState) : SecondKeys where
  legacy := w.secondPublicKey
  pq := w.pqKey

/-- The keys of a wallet after one of its transactions: a registration installs its key, and a
PQ key takes the place of a legacy one. -/
def SecondKeys.after (k : SecondKeys) (block : Block) (tx : Transaction) : SecondKeys :=
  match tx.asset.bind (·.signature) with
  | none => k
  | some sig =>
      if Rules.isSecondSignature tx then
        if tx.isPq then
          { pq := some { algorithm := algMlDsa44, publicKey := sig.publicKey,
                         since := block.height } }
        else { k with legacy := some sig.publicKey }
      else k

/-- A transaction carries an ML-DSA block by a key. -/
def MlDsaSigned (P : Primitives) (tx : Transaction) (publicKey : Text) : Prop :=
  ∃ block ∈ tx.pqBlocks, ∃ message key signature,
    block.algorithm = algMlDsa44 ∧ transactionPqMessage P tx = .ok message ∧
    Hex.decode publicKey = .ok key ∧ Hex.decode block.signature = .ok signature ∧
    pqVerify P key message signature = true

/-- A transaction of a wallet respects its keys: once there is a PQ key the transaction is signed
by it, and it is signed by every PQ key that it installs. -/
structure Authorised (P : Primitives) (k : SecondKeys) (block : Block) (tx : Transaction) :
    Prop where
  locked : ∀ key, k.pq = some key → tx.isPq ∧ MlDsaSigned P tx key.publicKey
  installed : ∀ key, (k.after block tx).pq = some key → k.pq = some key ∨
    Rules.isSecondSignature tx ∧ tx.isPq ∧ MlDsaSigned P tx key.publicKey
  algorithm : Rules.isSecondSignature tx → tx.isPq → ∀ sig,
    tx.asset.bind (·.signature) = some sig → sig.algorithm = some algMlDsa44

/-- Every PQ key is one of ML-DSA. -/
def SecondKeys.MlDsa (k : SecondKeys) : Prop := ∀ key, k.pq = some key → key.algorithm = algMlDsa44

theorem SecondKeys.MlDsa.after {k : SecondKeys} (h : k.MlDsa) (block : Block) (tx : Transaction) :
    (k.after block tx).MlDsa := by
  unfold SecondKeys.after
  split
  · exact h
  · split_ifs
    · rintro key ⟨⟩
      rfl
    · exact h
    · exact h

namespace Rules

theorem mlDsaSigned_of_pqBlockOk {P : Primitives} {tx : Transaction} {message : Bytes}
    {b : PqSignatureBlock} {publicKey : Text} (hmessage : transactionPqMessage P tx = .ok message)
    (hb : b ∈ tx.pqBlocks) (h : pqBlockOk P message b algMlDsa44 publicKey = true) :
    MlDsaSigned P tx publicKey := by
  unfold pqBlockOk at h
  split_ifs at h with halgorithm hzero
  · exact absurd hzero (by decide)
  · split at h
    · rename_i key signature hkey hsignature
      exact ⟨b, hb, message, key, signature, by simpa using halgorithm, hmessage, hkey,
        hsignature, h⟩
    · cases h

theorem getD_mem_of_length {blocks : List PqSignatureBlock} {n : Nat} (h : n < blocks.length)
    (blank : PqSignatureBlock) : blocks.getD n blank ∈ blocks := by
  rw [List.getD_eq_getElem _ _ h]
  exact List.getElem_mem h

/-- What an accepted registration of a PQ key has proven. -/
theorem checkPqRegister_ok {P : Primitives} {tx : Transaction} {ms : Milestone} {height : Nat}
    {activation : Option Nat} {w : PqWalletView} {message : Bytes} {key : PqKey}
    (hmessage : transactionPqMessage P tx = .ok message)
    (h : checkPqRegister P tx ms height activation w message = .ok key)
    (hmldsa : ∀ k, w.pqKey = some k → k.algorithm = algMlDsa44) :
    ∃ sig, tx.asset.bind (·.signature) = some sig ∧
      key = { algorithm := algMlDsa44, publicKey := sig.publicKey, since := height } ∧
      MlDsaSigned P tx sig.publicKey ∧
      ∀ k, w.pqKey = some k → MlDsaSigned P tx k.publicKey := by
  unfold checkPqRegister at h
  obtain ⟨sig, hsig, h⟩ := bind_eq_ok.mp h
  obtain ⟨newKey, -, h⟩ := bind_eq_ok.mp h
  obtain ⟨u, -, h⟩ := bind_eq_ok.mp h
  extract_lets proof expected blank at h
  obtain ⟨u, hcount, h⟩ := bind_eq_ok.mp h
  obtain ⟨u, hproof, h⟩ := bind_eq_ok.mp h
  obtain ⟨u, hnew, h⟩ := bind_eq_ok.mp h
  rw [need_ok] at hsig
  rw [refuse_ok] at hcount hproof hnew
  simp only [ne_eq, decide_eq_false_iff_not, not_not] at hcount
  have hexpected : expected = 1 + (if proof.isSome then 1 else 0) := rfl
  refine ⟨sig, hsig, (pure_eq_ok.mp h).symm, ?_, ?_⟩
  · refine mlDsaSigned_of_pqBlockOk hmessage (getD_mem_of_length (n := expected - 1) ?_ blank)
      (by simpa using hnew)
    rw [hcount]
    omega
  · intro k hk
    have hkey : proof = some (algMlDsa44, k.publicKey) := by
      simp only [proof, pqProof, hk, hmldsa k hk]
    rw [hkey] at hproof
    refine mlDsaSigned_of_pqBlockOk hmessage (getD_mem_of_length (n := 0) ?_ blank)
      (by simpa using hproof)
    rw [hcount]
    omega

/-- A registration of a PQ key names the algorithm. -/
theorem checkPqFormat_algorithm {tx : Transaction} {ms : Milestone} {sig : SecondSignatureAsset}
    (h : checkPqFormat tx ms = .ok ()) (hpq : tx.isPq = true) (hsecond : isSecondSignature tx = true)
    (hsig : tx.asset.bind (·.signature) = some sig) : sig.algorithm = some algMlDsa44 := by
  unfold checkPqFormat at h
  rw [if_neg (by simp [hpq])] at h
  obtain ⟨_, -, h⟩ := bind_eq_ok.mp h
  obtain ⟨_, -, h⟩ := bind_eq_ok.mp h
  obtain ⟨_, -, h⟩ := bind_eq_ok.mp h
  obtain ⟨_, -, h⟩ := bind_eq_ok.mp h
  simp only [hsecond, if_true] at h
  obtain ⟨_, hregistration, -⟩ := bind_eq_ok.mp h
  unfold checkPqRegistration at hregistration
  obtain ⟨sig', hsig', hregistration⟩ := bind_eq_ok.mp hregistration
  obtain ⟨_, halgorithm, -⟩ := bind_eq_ok.mp hregistration
  rw [need_ok, hsig] at hsig'
  injection hsig' with hsig'
  rw [hsig']
  simpa using halgorithm

/-- A transaction of a wallet with a PQ key that registers nothing carries one block by it. -/
theorem checkPqSignature_ok {P : Primitives} {tx : Transaction} {w : PqWalletView}
    {message : Bytes} {k : PqKey} (hmessage : transactionPqMessage P tx = .ok message)
    (h : checkPqSignature P tx w message = .ok ()) (hk : w.pqKey = some k)
    (hmldsa : k.algorithm = algMlDsa44) : MlDsaSigned P tx k.publicKey := by
  unfold checkPqSignature at h
  rw [hk] at h
  split at h
  · rename_i key _ b hkey hblocks
    injection hkey with hkey
    subst hkey
    split_ifs at h with halgorithm hok
    rw [hmldsa] at hok
    exact mlDsaSigned_of_pqBlockOk hmessage (by rw [hblocks]; exact List.mem_singleton_self b) hok
  · cases h
  · rename_i hnone _
    cases hnone
  · rename_i hnone _
    cases hnone

/-- What `check_pq` has proven of a transaction that it accepts. -/
theorem checkPq_ok {P : Primitives} {tx : Transaction} {ms : Milestone} {height : Nat}
    {activation : Option Nat} {w : PqWalletView} {installed : Option PqKey}
    (h : checkPq P tx ms height activation w = .ok installed)
    (hmldsa : ∀ k, w.pqKey = some k → k.algorithm = algMlDsa44) :
    (∀ k, w.pqKey = some k → tx.isPq ∧ MlDsaSigned P tx k.publicKey) ∧
    ((installed = none ∧ ¬ (isSecondSignature tx ∧ tx.isPq)) ∨
      ∃ sig, tx.asset.bind (·.signature) = some sig ∧ isSecondSignature tx ∧ tx.isPq ∧
        sig.algorithm = some algMlDsa44 ∧ MlDsaSigned P tx sig.publicKey ∧
        installed = some { algorithm := algMlDsa44, publicKey := sig.publicKey,
                           since := height }) := by
  unfold checkPq at h
  by_cases hv3 : tx.isPq = true
  · rw [if_neg (by simp [hv3])] at h
    obtain ⟨u, hformat, h⟩ := bind_eq_ok.mp h
    cases hmessage : transactionPqMessage P tx with
    | error e =>
        simp only [hmessage] at h
        obtain ⟨_, hfail, -⟩ := bind_eq_ok.mp h
        cases hfail
    | ok message =>
        simp only [hmessage, ok_bind] at h
        by_cases hsecond : isSecondSignature tx = true
        · rw [if_pos hsecond] at h
          obtain ⟨key, hkey, h⟩ := bind_eq_ok.mp h
          obtain ⟨sig, hsig, rfl, hnew, hold⟩ := checkPqRegister_ok hmessage hkey hmldsa
          exact ⟨fun k hk => ⟨hv3, hold k hk⟩, .inr ⟨sig, hsig, hsecond, hv3,
            checkPqFormat_algorithm hformat hv3 hsecond hsig, hnew, (pure_eq_ok.mp h).symm⟩⟩
        · rw [if_neg hsecond] at h
          obtain ⟨u, hsigned, h⟩ := bind_eq_ok.mp h
          refine ⟨?_, .inl ⟨(pure_eq_ok.mp h).symm, fun hboth => hsecond hboth.1⟩⟩
          intro k hk
          exact ⟨hv3, checkPqSignature_ok hmessage hsigned hk (hmldsa k hk)⟩
  · -- a PQ key locks the wallet for other versions
    rw [if_pos (by simp [hv3])] at h
    split_ifs at h with hlocked
    rw [Except.ok.injEq] at h
    refine ⟨?_, .inl ⟨h.symm, fun hboth => hv3 hboth.2⟩⟩
    intro k hk
    simp [hk] at hlocked

/-- The key that a legacy registration installs. -/
theorem registeredSecondKey_ok {tx : Transaction} {key : Option Text}
    (h : registeredSecondKey tx = .ok key) :
    (key = none ∧ ¬ (isSecondSignature tx ∧ ¬ tx.isPq)) ∨
    ∃ sig, tx.asset.bind (·.signature) = some sig ∧ isSecondSignature tx ∧ ¬ tx.isPq ∧
      key = some sig.publicKey := by
  unfold registeredSecondKey at h
  split_ifs at h with hskip
  · rw [Except.ok.injEq] at h
    refine .inl ⟨h.symm, ?_⟩
    rintro ⟨hsecond, hpq⟩
    simp [hsecond, hpq] at hskip
  · obtain ⟨sig, hsig, h⟩ := bind_eq_ok.mp h
    obtain ⟨_, -, h⟩ := bind_eq_ok.mp h
    rw [need_ok] at hsig
    simp only [Bool.or_eq_true, Bool.not_eq_true', not_or, Bool.not_eq_false] at hskip
    exact .inr ⟨sig, hsig, hskip.1, hskip.2, (pure_eq_ok.mp h).symm⟩

end Rules

namespace Sync

/-- The keys of an address as the rules see them inside a batch. -/
def Batch.secondKeys (s : Store) (b : Batch) (address : Text) : SecondKeys :=
  match b.keys[address]? with
  | some legacy => { legacy, pq := (b.pqKeys[address]?).join }
  | none => (s.walletAt address).secondKeys

/-- The keys of a batch stay. -/
structure SameKeys (b b' : Batch) : Prop where
  keys : b'.keys = b.keys
  pqKeys : b'.pqKeys = b.pqKeys

namespace SameKeys

variable {b b' b'' : Batch}

theorem refl (b : Batch) : SameKeys b b := ⟨rfl, rfl⟩

theorem trans (h : SameKeys b b') (h' : SameKeys b' b'') : SameKeys b b'' :=
  ⟨h'.keys.trans h.keys, h'.pqKeys.trans h.pqKeys⟩

theorem secondKeys (h : SameKeys b b') (s : Store) (address : Text) :
    b'.secondKeys s address = b.secondKeys s address := by
  unfold Batch.secondKeys
  rw [h.keys, h.pqKeys]

end SameKeys

theorem foldl_sameKeys {α : Type} {f : Batch → α → Batch} (hf : ∀ b a, SameKeys b (f b a))
    (l : List α) (b : Batch) : SameKeys b (l.foldl f b) := by
  induction l generalizing b with
  | nil => exact .refl b
  | cons a rest ih => exact (hf b a).trans (ih (f b a))

theorem credit_sameKeys (b : Batch) (address : Text) (amount : Int) :
    SameKeys b (b.credit address amount) := ⟨rfl, rfl⟩

theorem bump_sameKeys (s : Store) (b : Batch) (address id : Text) (delta : Int) :
    SameKeys b (b.bump s address id delta) := ⟨rfl, rfl⟩

theorem modifyState_sameKeys (s : Store) (b : Batch) (id : Text) (f : TokenState → TokenState) :
    SameKeys b (b.modifyState s id f) := by
  unfold Batch.modifyState
  split
  · exact ⟨rfl, rfl⟩
  · exact .refl b

theorem putSobject_sameKeys (b : Batch) (address reg : Text) (rec : SmartObject) :
    SameKeys b (b.putSobject address reg rec) := ⟨rfl, rfl⟩

theorem dropSobject_sameKeys (b : Batch) (address reg : Text) :
    SameKeys b (b.dropSobject address reg) := by
  unfold Batch.dropSobject
  split
  · exact ⟨rfl, rfl⟩
  · exact .refl b

theorem applyToken_sameKeys (E : Env) (s : Store) (b : Batch) (type : TokenType) (a : TokenAsset)
    (sender : Text) (height : Nat) (txId : Text) :
    SameKeys b (b.applyToken E s type a sender height txId) := by
  unfold Batch.applyToken
  cases type with
  | init => exact ⟨rfl, rfl⟩
  | transfer =>
      simp only
      exact foldl_sameKeys (fun b it => (bump_sameKeys s b _ _ _).trans
        (bump_sameKeys s _ _ _ _)) _ b
  | mint =>
      simp only
      exact (bump_sameKeys s b _ _ _).trans (modifyState_sameKeys s _ _ _)
  | tokenMeta => exact modifyState_sameKeys s b _ _
  | sell => exact ⟨rfl, rfl⟩
  | buy =>
      simp only
      split
      · exact .refl b
      · exact ⟨rfl, rfl⟩
  | cancel =>
      simp only
      split
      · exact .refl b
      · exact ⟨rfl, rfl⟩
  | burn =>
      simp only
      exact (bump_sameKeys s b _ _ _).trans (modifyState_sameKeys s _ _ _)

theorem creditCore_sameKeys (E : Env) (s : Store) (b : Batch) (tx : Transaction) (sender : Text) :
    SameKeys b (creditCore E s b tx sender) := by
  have hlock : ∀ claim, SameKeys b (creditLock E s b tx claim) := by
    intro claim
    unfold creditLock
    split
    · exact .refl b
    · split
      · exact .refl b
      · exact ⟨rfl, rfl⟩
  unfold creditCore
  split
  · split
    · exact credit_sameKeys b _ _
    · exact .refl b
  · exact foldl_sameKeys (fun b p => credit_sameKeys b _ _) _ b
  · split
    · exact ⟨rfl, rfl⟩
    · exact .refl b
  · exact hlock true
  · exact hlock false
  · exact .refl b

theorem creditForger_sameKeys (E : Env) (b : Batch) (block : Block) :
    SameKeys b (creditForger E b block) := by
  unfold creditForger
  split
  · exact .refl b
  · exact credit_sameKeys b _ _

theorem tokenStep_sameKeys {E : Env} {s : Store} {b b' : Batch} {block : Block} {tx : Transaction}
    {sender : Text} {type : TokenType} {wallet : Option WalletState}
    (h : tokenStep E s b block tx sender type wallet = .ok b') : SameKeys b b' := by
  have hend : ∀ {b₁ : Batch} {a : TokenAsset}, SameKeys b b₁ →
      (pure (b₁.applyToken E s type a sender block.height (tx.id.getD "")) : Except Error Batch) =
        .ok b' → SameKeys b b' := by
    intro b₁ a hb₁ hb'
    rw [← pure_eq_ok.mp hb']
    exact hb₁.trans (applyToken_sameKeys E s b₁ type a sender _ _)
  unfold tokenStep at h
  extract_lets ms at h
  split_ifs at h
  · cases h
  · obtain ⟨a, -, h⟩ := bind_eq_ok.mp h
    obtain ⟨_, -, h⟩ := bind_eq_ok.mp h
    by_cases hbuy : type = .buy
    · rw [if_pos hbuy] at h
      obtain ⟨b₁, hb₁, h⟩ := bind_eq_ok.mp h
      refine hend ?_ h
      unfold checkTokenBuy at hb₁
      extract_lets total balance seller at hb₁
      split_ifs at hb₁
      injection hb₁ with hb₁
      rw [← hb₁]
      exact (credit_sameKeys b _ _).trans (credit_sameKeys _ _ _)
    · rw [if_neg hbuy] at h
      obtain ⟨b₁, hb₁, h⟩ := bind_eq_ok.mp h
      injection hb₁ with hb₁
      exact hend (hb₁ ▸ .refl b) h

theorem handOver_sameKeys {E : Env} {s : Store} {b b' : Batch} {block : Block} {tx : Transaction}
    {sender : Text} {e : SmartObjectAsset} (h : handOver E s b block tx sender e = .ok b') :
    SameKeys b b' := by
  have hend : ∀ {b₁ : Batch} {previous next reg : Text} {rec : SmartObject},
      SameKeys b b₁ → SameKeys b
        ((((b₁.dropSobject previous reg).putSobject next reg rec).setOwner s reg next)) := by
    intro b₁ previous next reg rec hb₁
    have hdrop := hb₁.trans (dropSobject_sameKeys b₁ previous reg)
    have hput := hdrop.trans (putSobject_sameKeys _ next reg rec)
    exact hput.trans (modifyState_sameKeys s _ reg fun st => { st with owner := next })
  unfold handOver at h
  extract_lets missing reg at h
  by_cases hbuy : SobjAction.ofCode e.action = some .buy
  · rw [if_pos hbuy] at h
    split at h
    · cases h
    · rename_i owner rec _
      extract_lets price at h
      simp only [pure_bind] at h
      cases hheld : ((((b.credit sender (-price)).credit owner price).held owner)[reg]?).or
          (s.heldSobject owner reg) with
      | none =>
          simp +zetaDelta only [hheld] at h
          cases h
      | some rec =>
          simp +zetaDelta only [hheld] at h
          rw [← pure_eq_ok.mp h]
          have hpaid := (credit_sameKeys b sender (-price)).trans (credit_sameKeys _ owner price)
          exact ⟨(hend hpaid).keys, (hend hpaid).pqKeys⟩
  · rw [if_neg hbuy] at h
    simp only [pure_bind] at h
    cases hheld : ((b.held sender)[reg]?).or (s.heldSobject sender reg) with
    | none =>
        simp +zetaDelta only [hheld] at h
        cases h
    | some rec =>
        simp +zetaDelta only [hheld] at h
        rw [← pure_eq_ok.mp h]
        exact ⟨(hend (.refl b)).keys, (hend (.refl b)).pqKeys⟩

theorem sobjStep_sameKeys {E : Env} {s : Store} {b b' : Batch} {block : Block} {tx : Transaction}
    {sender : Text} {wallet : Option WalletState}
    (h : sobjStep E s b block tx sender wallet = .ok b') : SameKeys b b' := by
  unfold sobjStep at h
  extract_lets missing e action gone name at h
  clear_value name gone action
  split_ifs at h
  · cases h
  · obtain ⟨_, -, h⟩ := bind_eq_ok.mp h
    split at h
    · exact handOver_sameKeys h
    · exact handOver_sameKeys h
    · rw [← pure_eq_ok.mp h]
      exact ⟨rfl, rfl⟩
    · split at h
      · cases h
      · rw [← pure_eq_ok.mp h]
        exact putSobject_sameKeys b _ _ _

/-- The wallet that the rules see has the stored keys. -/
theorem batchWallet_secondKeys (s : Store) (b : Batch) (sender : Text) :
    { legacy := (batchWallet s b sender).bind (·.secondPublicKey)
      pq := (batchWallet s b sender).bind (·.pqKey) : SecondKeys } =
    (s.walletAt sender).secondKeys := by
  unfold batchWallet Store.walletAt WalletState.secondKeys
  split_ifs <;> cases s.getWallet sender <;> rfl

theorem Batch.secondKeys_of_isSome {s : Store} {b : Batch} {a : Text}
    (h : b.keys[a]?.isSome) :
    b.secondKeys s a = { legacy := (b.keys[a]?).join, pq := (b.pqKeys[a]?).join } := by
  obtain ⟨legacy, hlegacy⟩ := Option.isSome_iff_exists.mp h
  simp only [Batch.secondKeys, hlegacy, Option.join_some]

/-- The sender's keys are read into the batch. -/
def readKeys (b : Batch) (sender : Text) (k : SecondKeys) : Batch :=
  match b.keys[sender]? with
  | some _ => b
  | none => { b with
      keys := b.keys.insert sender k.legacy
      pqKeys := b.pqKeys.insert sender k.pq }

theorem readKeys_secondKeys (s : Store) (b : Batch) (sender : Text) :
    (readKeys b sender (s.walletAt sender).secondKeys).keys[sender]?.isSome ∧
    ∀ a, (readKeys b sender (s.walletAt sender).secondKeys).secondKeys s a =
      b.secondKeys s a := by
  unfold readKeys
  cases hkeys : b.keys[sender]? with
  | some legacy => exact ⟨by rw [hkeys]; rfl, fun _ => rfl⟩
  | none =>
      refine ⟨by simp, ?_⟩
      intro a
      unfold Batch.secondKeys
      by_cases ha : sender = a
      · subst ha
        simp [hkeys]
      · simp only [OrderedMap.getElem?_insert_eq, ha, if_false]

/-- The keys of the sender after an insertion, and of everyone else. -/
theorem insert_secondKeys {s : Store} {b b' : Batch} {sender : Text} {k : SecondKeys}
    (hkeys : b'.keys = b.keys.insert sender k.legacy)
    (hpq : b'.pqKeys = b.pqKeys ∧ (b.pqKeys[sender]?).join = k.pq ∨
      b'.pqKeys = b.pqKeys.insert sender k.pq) :
    b'.secondKeys s sender = k ∧ ∀ a, a ≠ sender → b'.secondKeys s a = b.secondKeys s a := by
  constructor
  · rw [Batch.secondKeys_of_isSome (by rw [hkeys]; simp), hkeys]
    rcases hpq with ⟨hpq, hsame⟩ | hpq
    · rw [hpq, hsame]
      simp
    · rw [hpq]
      simp
  · intro a ha
    unfold Batch.secondKeys
    rcases hpq with ⟨hpq, -⟩ | hpq <;>
      simp only [hkeys, hpq, OrderedMap.getElem?_insert_eq, ha.symm, if_false]

/-- Keys of the sender and of everyone else after `check_second_signature` and `check_pq`. -/
theorem checkKeys_ok {E : Env} {s : Store} {b b' : Batch} {block : Block} {tx : Transaction}
    {sender : Text} {wallet : Option WalletState}
    (h : checkKeys E b block tx sender wallet = .ok b')
    (hwallet : { legacy := wallet.bind (·.secondPublicKey), pq := wallet.bind (·.pqKey) :
      SecondKeys } = (s.walletAt sender).secondKeys)
    (hmldsa : (b.secondKeys s sender).MlDsa) :
    Authorised E.prim (b.secondKeys s sender) block tx ∧
    b'.secondKeys s sender = (b.secondKeys s sender).after block tx ∧
    ∀ a, a ≠ sender → b'.secondKeys s a = b.secondKeys s a := by
  unfold checkKeys at h
  extract_lets b₁ key view at h
  have hread : b₁ = readKeys b sender (s.walletAt sender).secondKeys := by
    rw [← hwallet]
    rfl
  obtain ⟨hsome, hsame⟩ := readKeys_secondKeys s b sender
  rw [← hread] at hsome hsame
  clear_value b₁
  obtain ⟨installed, hinstalled, h⟩ := bind_eq_ok.mp h
  extract_lets b₂ at h
  obtain ⟨_, -, h⟩ := bind_eq_ok.mp h
  obtain ⟨registered, hregistered, hend⟩ := bind_eq_ok.mp h
  have hregistered := Rules.registeredSecondKey_ok (ruled_ok.mp hregistered)
  have hkeys := Batch.secondKeys_of_isSome (s := s) hsome
  rw [← hsame sender] at hmldsa ⊢
  simp only [← hsame]
  have hmldsa' : ∀ k, (b₁.pqKeys[sender]?).join = some k → k.algorithm = algMlDsa44 := by
    rwa [hkeys] at hmldsa
  obtain ⟨hlocked, hinstalled⟩ := Rules.checkPq_ok (ruled_ok.mp hinstalled) hmldsa'
  have hpq : (b₁.secondKeys s sender).pq = (b₁.pqKeys[sender]?).join := by
    rw [hkeys]
  rcases hinstalled with ⟨hnone, hplain⟩ | ⟨sig, hsig, hsecond, hv3, halgorithm, hsigned, hkey⟩
  · -- no PQ key is registered
    have hb₂ : b₂ = b₁ := by
      simp only [b₂, hnone]
    clear_value b₂
    subst hb₂
    have hafter : ((b₂.secondKeys s sender).after block tx).pq = (b₂.secondKeys s sender).pq := by
      unfold SecondKeys.after
      split
      · rfl
      · split_ifs with hsecond hv3
        · exact absurd ⟨hsecond, hv3⟩ hplain
        · rfl
        · rfl
    refine ⟨⟨?_, ?_, ?_⟩, ?_⟩
    · intro k hk
      exact hlocked k (hpq.symm.trans hk)
    · intro k hk
      exact .inl (hafter ▸ hk)
    · intro hsecond hv3
      exact absurd ⟨hsecond, hv3⟩ hplain
    · rcases hregistered with ⟨hnone, hlegacy⟩ | ⟨sig, hsig, hsecond, hv3, hkey⟩
      · rw [hnone] at hend
        rw [← pure_eq_ok.mp hend]
        refine ⟨?_, fun _ _ => rfl⟩
        unfold SecondKeys.after
        split
        · rfl
        · split_ifs with hsecond hv3
          · exact absurd ⟨hsecond, hv3⟩ hplain
          · exact absurd ⟨hsecond, hv3⟩ hlegacy
          · rfl
      · rw [hkey] at hend
        rw [← pure_eq_ok.mp hend]
        refine insert_secondKeys ?_ (.inl ⟨rfl, ?_⟩)
        · simp only [SecondKeys.after, hsig, hsecond, hv3, if_true]
          rfl
        · rw [hafter, hpq]
  · -- a PQ key is registered
    have hregistered : registered = none := by
      rcases hregistered with ⟨hnone, -⟩ | ⟨_, -, -, hv3', -⟩
      · exact hnone
      · exact absurd hv3 hv3'
    have hafter : (b₁.secondKeys s sender).after block tx =
        { pq := some { algorithm := algMlDsa44, publicKey := sig.publicKey,
                       since := block.height } } := by
      simp only [SecondKeys.after, hsig, hsecond, hv3, if_true]
    refine ⟨⟨?_, ?_, ?_⟩, ?_⟩
    · intro k hk
      exact hlocked k (hpq.symm.trans hk)
    · intro k hk
      rw [hafter] at hk
      injection hk with hk
      rw [← hk]
      exact .inr ⟨hsecond, hv3, hsigned⟩
    · intro _ _ sig' hsig'
      rw [hsig] at hsig'
      injection hsig' with hsig'
      rw [← hsig']
      exact halgorithm
    · rw [hregistered] at hend
      rw [← pure_eq_ok.mp hend, hafter]
      simp only [b₂, hkey]
      exact insert_secondKeys rfl (.inr rfl)

theorem checkTx_ok {E : Env} {s : Store} {b b' : Batch} {block : Block} {tx : Transaction}
    (h : checkTx E s block b tx = .ok b') (hmldsa : ∀ a, (b.secondKeys s a).MlDsa) :
    ∃ sender, E.addressOf tx.senderPublicKey = .ok sender ∧
      Authorised E.prim (b.secondKeys s sender) block tx ∧
      b'.secondKeys s sender = (b.secondKeys s sender).after block tx ∧
      ∀ a, a ≠ sender → b'.secondKeys s a = b.secondKeys s a := by
  obtain ⟨sender, hsender, h⟩ := bind_eq_ok.mp h
  extract_lets wallet cost b₁ at h
  obtain ⟨_, -, h⟩ := bind_eq_ok.mp h
  obtain ⟨b₂, hkeys, h⟩ := bind_eq_ok.mp h
  have hcredited : SameKeys b b₁ :=
    (credit_sameKeys b _ _).trans (creditCore_sameKeys E s _ tx sender)
  have hrest : SameKeys b₂ b' := by
    split at h
    · exact tokenStep_sameKeys h
    · split_ifs at h
      · exact sobjStep_sameKeys h
      · rw [← pure_eq_ok.mp h]
        exact .refl b₂
  obtain ⟨hauthorised, hsent, hothers⟩ := checkKeys_ok hkeys (batchWallet_secondKeys s b sender)
    (by rw [hcredited.secondKeys]; exact hmldsa sender)
  simp only [hcredited.secondKeys] at hauthorised hsent hothers
  refine ⟨sender, hsender, hauthorised, ?_, ?_⟩
  · rw [hrest.secondKeys, hsent]
  · intro a ha
    rw [hrest.secondKeys, hothers a ha]

end Sync

namespace Chain

open Accumulate (placed)

variable {P : Primitives} {N : Network}

/-- The keys of an address after a transaction of anyone. -/
def keysStep (P : Primitives) (N : Network) (a : Text) (k : SecondKeys)
    (e : Block × Transaction) : SecondKeys :=
  if sentBy P N a e.2 then k.after e.1 e.2 else k

/-- The keys of an address after transactions in order. -/
def keysAfter (P : Primitives) (N : Network) (a : Text) (k : SecondKeys)
    (entries : List (Block × Transaction)) : SecondKeys :=
  entries.foldl (keysStep P N a) k

/-- Every transaction of the address respects the keys in force at it. -/
def Respected (P : Primitives) (N : Network) (a : Text) :
    SecondKeys → List (Block × Transaction) → Prop
  | _, [] => True
  | k, e :: rest =>
      (sentBy P N a e.2 → Authorised P k e.1 e.2) ∧ Respected P N a (keysStep P N a k e) rest

theorem keysAfter_append (a : Text) (k : SecondKeys) (l l' : List (Block × Transaction)) :
    keysAfter P N a k (l ++ l') = keysAfter P N a (keysAfter P N a k l) l' :=
  List.foldl_append

theorem respected_append {a : Text} {k : SecondKeys} {l l' : List (Block × Transaction)} :
    Respected P N a k (l ++ l') ↔
      Respected P N a k l ∧ Respected P N a (keysAfter P N a k l) l' := by
  induction l generalizing k with
  | nil => simp [Respected, keysAfter]
  | cons e rest ih =>
      simp only [List.cons_append, Respected, ih, and_assoc]
      rfl

theorem keysStep_mlDsa {a : Text} {k : SecondKeys} (h : k.MlDsa) (e : Block × Transaction) :
    (keysStep P N a k e).MlDsa := by
  unfold keysStep
  split_ifs
  · exact h.after e.1 e.2
  · exact h

theorem keysAfter_mlDsa {a : Text} {k : SecondKeys} (h : k.MlDsa)
    (entries : List (Block × Transaction)) : (keysAfter P N a k entries).MlDsa := by
  induction entries generalizing k with
  | nil => exact h
  | cons e rest ih => exact ih (keysStep_mlDsa h e)

section Rules

variable {now : Int} {s : Store} {b b' : Sync.Batch}

theorem checkTx_step {block : Block} {tx : Transaction}
    (h : Sync.checkTx ⟨P, N, now⟩ s block b tx = .ok b') (hmldsa : ∀ a, (b.secondKeys s a).MlDsa)
    (a : Text) :
    (sentBy P N a tx → Authorised P (b.secondKeys s a) block tx) ∧
    b'.secondKeys s a = keysStep P N a (b.secondKeys s a) (block, tx) := by
  obtain ⟨sender, hsender, hauthorised, hsent, hothers⟩ := Sync.checkTx_ok h hmldsa
  have hby : sentBy P N a tx = decide (sender = a) := by
    unfold sentBy
    rw [show addressFromPublicKey _ _ _ = _ from hsender]
  unfold keysStep
  simp only [hby, decide_eq_true_eq]
  by_cases ha : sender = a
  · subst ha
    exact ⟨fun _ => hauthorised, by rw [if_pos rfl]; exact hsent⟩
  · exact ⟨fun heq => absurd heq ha, by rw [if_neg ha]; exact hothers a (Ne.symm ha)⟩

theorem checkTxs_respected {block : Block} {txs : List Transaction}
    (h : txs.foldlM (Sync.checkTx ⟨P, N, now⟩ s block) b = .ok b')
    (hmldsa : ∀ a, (b.secondKeys s a).MlDsa) (a : Text) :
    Respected P N a (b.secondKeys s a) (txs.map fun tx => (block, tx)) ∧
    b'.secondKeys s a = keysAfter P N a (b.secondKeys s a) (txs.map fun tx => (block, tx)) := by
  induction txs generalizing b with
  | nil =>
      rw [foldlM_nil_ok] at h
      exact ⟨trivial, by rw [h]; rfl⟩
  | cons tx rest ih =>
      obtain ⟨b₁, htx, hrest⟩ := foldlM_cons_ok.mp h
      have hstep := fun a => checkTx_step htx hmldsa a
      have hmldsa₁ : ∀ a, (b₁.secondKeys s a).MlDsa := by
        intro a
        rw [(hstep a).2]
        exact keysStep_mlDsa (hmldsa a) _
      obtain ⟨hrespected, hafter⟩ := ih hrest hmldsa₁
      rw [(hstep a).2] at hrespected hafter
      exact ⟨⟨(hstep a).1, hrespected⟩, hafter⟩

/-- What the rules have checked of a batch, and the keys that they end with. -/
theorem checkStatefulRules_respected {blocks : List Block} {batch : Sync.Batch}
    (h : Sync.checkStatefulRules ⟨P, N, now⟩ s blocks = .ok batch)
    (hmldsa : ∀ a, (s.walletAt a).secondKeys.MlDsa) (a : Text) :
    Respected P N a (s.walletAt a).secondKeys (placed blocks) ∧
    batch.secondKeys s a = keysAfter P N a (s.walletAt a).secondKeys (placed blocks) := by
  have hstart : ∀ a, Sync.Batch.secondKeys s {} a = (s.walletAt a).secondKeys := by
    intro a
    simp [Sync.Batch.secondKeys]
  suffices hgen : ∀ (blocks : List Block) (b : Sync.Batch), (∀ a, (b.secondKeys s a).MlDsa) →
      blocks.foldlM (Sync.checkBlock ⟨P, N, now⟩ s) b = .ok batch →
      Respected P N a (b.secondKeys s a) (placed blocks) ∧
      batch.secondKeys s a = keysAfter P N a (b.secondKeys s a) (placed blocks) by
    have hall := hgen blocks {} (by intro a; rw [hstart]; exact hmldsa a) h
    rwa [hstart] at hall
  intro blocks
  induction blocks with
  | nil =>
      intro b _ hfold
      rw [foldlM_nil_ok] at hfold
      exact ⟨trivial, by rw [hfold]; rfl⟩
  | cons block rest ih =>
      intro b hb hfold
      obtain ⟨b₁, hblock, hrest⟩ := foldlM_cons_ok.mp hfold
      obtain ⟨_, -, hblock⟩ := bind_eq_ok.mp hblock
      obtain ⟨b₂, htxs, hblock⟩ := bind_eq_ok.mp hblock
      have hforged : Sync.SameKeys b₂ b₁ := by
        rw [← pure_eq_ok.mp hblock]
        exact Sync.creditForger_sameKeys _ _ _
      have hchecked := fun a => checkTxs_respected htxs hb a
      have hb₁ : ∀ a, (b₁.secondKeys s a).MlDsa := by
        intro a
        rw [hforged.secondKeys, (hchecked a).2]
        exact keysAfter_mlDsa (hb a) _
      obtain ⟨hrespected, hafter⟩ := ih b₁ hb₁ hrest
      rw [hforged.secondKeys, (hchecked a).2] at hrespected hafter
      have hsplit : placed (block :: rest) =
          block.transactions.map (fun tx => (block, tx)) ++ placed rest := rfl
      rw [hsplit, respected_append, keysAfter_append]
      exact ⟨⟨(hchecked a).1, hrespected⟩, hafter⟩

end Rules

/-! What storage makes of the registrations of a sub-batch. -/

/-- The keys of a wallet after a delta. -/
def applied (d : WalletDelta) (k : SecondKeys) : SecondKeys where
  legacy := if d.pqKey.isSome then none else d.secondPublicKey.or k.legacy
  pq := d.pqKey.or k.pq

theorem apply_secondKeys {w w' : WalletState} {d : WalletDelta} (h : w.apply d = .ok w') :
    w'.secondKeys = applied d w.secondKeys := by
  obtain ⟨-, -, issued, tokens, -, -, rfl⟩ := WalletState.apply_eq_ok h
  rfl

/-- The keys that a delta installs. -/
def installs (d : WalletDelta) : Option Text × Option PqKey := (d.secondPublicKey, d.pqKey)

theorem applied_congr {d d' : WalletDelta} (h : installs d' = installs d) (k : SecondKeys) :
    applied d' k = applied d k := by
  obtain ⟨hlegacy, hpq⟩ := Prod.mk.inj h
  unfold applied
  rw [hlegacy, hpq]

theorem installs_apply {op : Op} (h : op.registers = false ∨ op.name.isSome) (d : WalletDelta) :
    installs (op.apply d) = installs d := by
  cases op <;> first | rfl | simp [Op.registers, Op.name] at h

variable {E : Env} {s : Store} {batch : List Block} {block : Block} {index : Nat}
  {tx : Transaction} {sender : Text} {ds : Deltas} {ops : Ops}

theorem effect_secondSignature (hsecond : Rules.isSecondSignature tx)
    (h : Accumulate.effect E s batch block index tx sender ds = .ok ops) :
    ops = Accumulate.secondSignature block tx sender := by
  have hcore := isSecondSignature_iff.mp hsecond
  have hgroup : tx.typeGroup = typeGroupCore := by
    by_contra hne
    rw [Accumulate.coreType_none_of_group hne] at hcore
    cases hcore
  have hsobj : tx.sobjAsset = none := by
    unfold Transaction.sobjAsset Transaction.isSobj
    rw [hgroup]
    rfl
  have htoken : tx.tokenType = none := by
    unfold Transaction.tokenType
    rw [hgroup]
    rfl
  unfold Accumulate.effect at h
  rw [hsobj, htoken, hcore] at h
  exact (pure_eq_ok.mp h).symm

theorem effect_installs (hsecond : ¬ Rules.isSecondSignature tx)
    (h : Accumulate.effect E s batch block index tx sender ds = .ok ops) :
    ∀ o ∈ ops, ∀ d, installs (o.2.apply d) = installs d := by
  intro o ho d
  cases Accumulate.effect_registers h with
  | plain hplain => exact installs_apply (.inl (hplain o ho)) d
  | name htype del hdel hops =>
      subst hops
      rw [List.mem_singleton.mp ho]
      exact installs_apply (.inr rfl) d
  | key htype hops => exact absurd (isSecondSignature_iff.mpr htype) hsecond

/-- One transaction in the deltas of its sub-batch. -/
theorem applied_transaction {a : Text} {k K : SecondKeys}
    (haddress : E.addressOf tx.senderPublicKey = .ok sender)
    (hops : Accumulate.effect E s batch block index tx sender (ds.run [(sender, .spend tx)]) = .ok ops)
    (hauthorised : sentBy E.prim E.network a tx → Authorised E.prim K block tx)
    (hK : applied (ds.get a) k = K) :
    applied ((ds.run ((sender, .spend tx) :: ops)).get a) k =
      keysStep E.prim E.network a K (block, tx) := by
  have hby : sentBy E.prim E.network a tx = decide (sender = a) := by
    unfold sentBy
    rw [show addressFromPublicKey _ _ _ = _ from haddress]
  rw [hby, decide_eq_true_eq] at hauthorised
  simp only [keysStep, hby, decide_eq_true_eq]
  by_cases hsecond : Rules.isSecondSignature tx = true
  · rw [effect_secondSignature hsecond hops]
    unfold Accumulate.secondSignature SecondKeys.after
    cases hsig : tx.asset.bind (·.signature) with
    | none =>
        have hsame : installs ((ds.run [(sender, .spend tx)]).get a) = installs (ds.get a) :=
          Deltas.run_frame installs ds _ (by simp; exact fun _ => rfl) a
        rw [applied_congr hsame, hK]
        simp
    | some sig =>
        by_cases ha : sender = a
        · subst ha
          have hauthorised := hauthorised rfl
          simp only [hsecond, if_true]
          by_cases hv3 : tx.isPq = true
          · have halgorithm := hauthorised.algorithm hsecond hv3 sig hsig
            simp only [hv3, if_true, Deltas.run_cons, Deltas.run_nil, Deltas.get_upd]
            simp [applied, Op.apply, halgorithm]
          · -- a legacy key is registered while there is no PQ key
            have hunlocked : K.pq = none := by
              cases hpq : K.pq with
              | none => rfl
              | some key => exact absurd (hauthorised.locked key hpq).1 hv3
            simp only [hv3, Deltas.run_cons]
            have hnone : (ds.get sender).pqKey = none := by
              rw [← hK] at hunlocked
              exact (Option.or_eq_none_iff.mp hunlocked).1
            rw [← hK]
            simp [applied, Op.apply, hnone]
        · rw [if_neg ha, Deltas.run_get_of_notMem _ _ _ ?_, hK]
          split_ifs <;> simp [Ne.symm ha]
  · -- nothing is registered
    have hsame : installs ((ds.run ((sender, .spend tx) :: ops)).get a) = installs (ds.get a) := by
      refine Deltas.run_frame installs ds _ ?_ a
      intro o ho d
      rcases List.mem_cons.mp ho with rfl | ho
      · rfl
      · exact effect_installs hsecond hops o ho d
    rw [applied_congr hsame, hK]
    have hafter : K.after block tx = K := by
      unfold SecondKeys.after
      split
      · rfl
      · rw [if_neg hsecond]
    rw [hafter, ite_self]

/-- The deltas of a sub-batch install what its registrations say. -/
theorem batchDeltas_applied {a : Text} {k : SecondKeys} (h : batchDeltas E s batch = .ok ds)
    (hrespected : Respected E.prim E.network a k (placed batch)) :
    applied (ds.get a) k = keysAfter E.prim E.network a k (placed batch) := by
  have hall := Accumulate.batchDeltas_induction
    (R := fun _ done ds => Respected E.prim E.network a k done →
      applied (ds.get a) k = keysAfter E.prim E.network a k done)
    (fun _ => rfl) ?_ ?_ h
  · exact hall hrespected
  · intro forged done ds block ops _ hops hR hrespected
    obtain ⟨generator, -, rfl⟩ := Accumulate.forger_eq_ok hops
    rw [← hR hrespected]
    refine applied_congr (Deltas.run_frame installs ds _ ?_ a) k
    intro o ho d
    split_ifs at ho <;> simp at ho <;> rcases ho with rfl | rfl <;> rfl
  · intro forged done ds block tx index address ops _ _ haddress hops hR hrespected
    rw [respected_append] at hrespected
    rw [keysAfter_append]
    exact applied_transaction haddress hops hrespected.2.1 (hR hrespected.1)

/-- The stored keys after a sub-batch. -/
theorem Step.secondKeys {good : Condition} {s s' : Store} {blocks : List Block} {a : Text}
    (st : Step P N good s blocks s')
    (hrespected : Respected P N a (s.walletAt a).secondKeys (placed blocks)) :
    (s'.walletAt a).secondKeys = keysAfter P N a (s.walletAt a).secondKeys (placed blocks) := by
  rw [st.walletAt_eq, ← batchDeltas_applied st.deltas hrespected, Store.walletAt, Deltas.get]
  rcases Store.writeEntries_wallet st.committed.written a with ⟨hds, hget⟩ | ⟨d, w, hds, hw, hget⟩
  · rw [hget, hds]
    rfl
  · rw [hget, hds]
    exact apply_secondKeys hw

/-- An accepted call: its transactions respect the keys, and the keys that the rules end with are
those that storage keeps. -/
theorem applyBlocks_secondKeys {now : Int} {s s' : Store} {blocks : List Block}
    {tip tip' : Sync.ChainTip}
    (h : Sync.applyBlocks ⟨P, N, now⟩ s blocks tip true = (s', .ok tip'))
    (hmldsa : ∀ a, (s.walletAt a).secondKeys.MlDsa) (a : Text) :
    Respected P N a (s.walletAt a).secondKeys (placed blocks) ∧
    (s'.walletAt a).secondKeys = keysAfter P N a (s.walletAt a).secondKeys (placed blocks) := by
  obtain ⟨-, hverified, ⟨batch, hrules⟩, happly⟩ := Sync.applyBlocks_eq_ok h
  obtain ⟨hrespected, -⟩ := checkStatefulRules_respected hrules hmldsa a
  refine ⟨hrespected, ?_⟩
  rw [Store.applyBlocks_eq_applyChunks] at happly
  have hflat := Store.chunks_flatten ⟨P, N, now⟩ s blocks
  have heach := (callMeets_unconditional ⟨P, N, now⟩ s blocks).each
  have hall := applyChunks_induction
    (R := fun chain t => Respected P N a (s.walletAt a).secondKeys (placed chain) →
      (t.walletAt a).secondKeys = keysAfter P N a (s.walletAt a).secondKeys (placed chain))
    ?_ (by rwa [hflat]) heach happly (show _ from fun (_ : Respected P N a _ (placed [])) => rfl)
  · rw [List.nil_append, hflat] at hall
    exact hall hrespected
  · intro chain t c t' st hR hchain
    rw [Accumulate.placed_append, respected_append] at hchain
    rw [Accumulate.placed_append, keysAfter_append, ← hR hchain.1]
    exact st.secondKeys (hR hchain.1 ▸ hchain.2)

/-- No wallet has keys before the first block. -/
theorem Run.secondKeys {undo : Bool} {chain : List Block} {s : Store} {tip : Sync.ChainTip}
    (hrun : Run P N unconditional { undoEnabled := undo } ⟨0, none⟩ chain s tip) (a : Text) :
    Respected P N a {} (placed chain) ∧
    (s.walletAt a).secondKeys = keysAfter P N a {} (placed chain) := by
  induction hrun generalizing a with
  | refl =>
      refine ⟨trivial, ?_⟩
      simp [Store.walletAt, Store.getWallet, WalletState.new, WalletState.secondKeys, keysAfter,
        Accumulate.placed]
  | step now hrun hcall hmeets ih =>
      rename_i s₁ s₂ tip₁ tip₂ chain blocks
      have hmldsa : ∀ a, (s₁.walletAt a).secondKeys.MlDsa := by
        intro a
        rw [(ih a).2]
        exact keysAfter_mlDsa (by rintro key ⟨⟩) _
      obtain ⟨hrespected, hafter⟩ := applyBlocks_secondKeys hcall hmldsa a
      rw [(ih a).2] at hrespected hafter
      rw [Accumulate.placed_append, respected_append, keysAfter_append]
      exact ⟨⟨(ih a).1, hrespected⟩, hafter⟩
  | setUndo on hrun ih => exact ih a

/-- At every place of a list the transaction respects the keys in force there. -/
theorem Respected.at {a : Text} {k : SecondKeys} {before after : List (Block × Transaction)}
    {block : Block} {tx : Transaction}
    (h : Respected P N a k (before ++ (block, tx) :: after)) (hsent : sentBy P N a tx) :
    Authorised P (keysAfter P N a k before) block tx :=
  (respected_append.mp h).2.1 hsent

end Chain

open Chain in
/-- In every chain of accepted batches a transaction respects the keys that its sender has at that
place, storage has these keys, and the rules know the keys that storage has after the next
batch. -/
theorem second_keys_locked (P : Primitives) (N : Network) (undo : Bool) (chain : List Block)
    (s : Store) (tip : Sync.ChainTip)
    (hrun : Run P N unconditional { undoEnabled := undo } ⟨0, none⟩ chain s tip) (a : Text) :
    (∀ before block tx after, Accumulate.placed chain = before ++ (block, tx) :: after →
      sentBy P N a tx → Authorised P (keysAfter P N a {} before) block tx) ∧
    (s.walletAt a).secondKeys = keysAfter P N a {} (Accumulate.placed chain) ∧
    ∀ now blocks batch s' tip', Sync.checkStatefulRules ⟨P, N, now⟩ s blocks = .ok batch →
      Sync.applyBlocks ⟨P, N, now⟩ s blocks tip true = (s', .ok tip') →
      batch.secondKeys s a = (s'.walletAt a).secondKeys := by
  have hkeys := fun a => hrun.secondKeys a
  refine ⟨?_, (hkeys a).2, ?_⟩
  · intro before block tx after hplaced hsent
    have hrespected := (hkeys a).1
    rw [hplaced] at hrespected
    exact hrespected.at hsent
  · intro now blocks batch s' tip' hrules hcall
    have hmldsa : ∀ a, (s.walletAt a).secondKeys.MlDsa := by
      intro a
      rw [(hkeys a).2]
      exact keysAfter_mlDsa (by rintro key ⟨⟩) _
    rw [(checkStatefulRules_respected hrules hmldsa a).2,
      (applyBlocks_secondKeys hcall hmldsa a).2]

namespace Reference

/-- A block in which the first key takes the second one as its second key. -/
def secondKeyBlock : Block :=
  first.forge 2 8 (genesis.id.getD "") 0 [first.sign {
    type := 1, nonce := some 1, senderPublicKey := "", fee := 10
    asset := some { signature := some { publicKey := second.publicKey } } }]

end Reference

open Reference in
theorem second_keys_locked_registered :
    ∃ s tip, Chain.Run primitives (network {}) Chain.unconditional {} ⟨0, none⟩
        [genesis, secondKeyBlock] s tip ∧
      (s.walletAt first.address).secondKeys.legacy = some second.publicKey := by
  have haccepted : (Sync.applyBlocks ⟨primitives, network {}, 8000⟩ {}
      [genesis, secondKeyBlock] ⟨0, none⟩ true).2 = .ok ⟨2, secondKeyBlock.id⟩ := by
    decide +kernel
  have hrun := Chain.Run.single 8000 haccepted (Chain.callMeets_unconditional _ _ _)
  have hlegacy : (Chain.keysAfter primitives (network {}) first.address {}
      (Accumulate.placed [genesis, secondKeyBlock])).legacy = some second.publicKey := by
    decide +kernel
  obtain ⟨-, hkeys, -⟩ := second_keys_locked primitives (network {}) false
    [genesis, secondKeyBlock] _ _ hrun first.address
  refine ⟨_, _, hrun, ?_⟩
  rw [hkeys]
  exact hlegacy

end SthCore
