import SthCore.Chain.Verified
import SthCore.Crypto.Base58
import SthCore.Crypto.Headers
import SthCore.Crypto.ReadBack
import SthCore.Crypto.Signing
import SthCore.Storage.Record

/-!
Accepted blocks in storage: when a block that passed the checks is read back
from its record, and that it passes them again.
-/

namespace SthCore

open SthCore.Lib

namespace Sync

/-- The keys of a transaction that the stateful rules have taken apart. -/
structure KeysChecked (tx : Transaction) : Prop where
  sender : ∃ sender, Hex.decode tx.senderPublicKey = .ok sender ∧ sender.length = 33
  second : Rules.isSecondSignature tx → tx.isPq = false → ∀ sig pk,
    tx.asset.bind (·.signature) = some sig → Hex.decode sig.publicKey = .ok pk → pk.length = 33

theorem registeredSecondKey_length {tx : Transaction} {key : Option Text}
    (h : Rules.registeredSecondKey tx = .ok key) (hsecond : Rules.isSecondSignature tx)
    (hpq : tx.isPq = false) {sig : SecondSignatureAsset} {pk : Bytes}
    (hsig : tx.asset.bind (·.signature) = some sig) (hpk : Hex.decode sig.publicKey = .ok pk) :
    pk.length = 33 := by
  unfold Rules.registeredSecondKey at h
  rw [hsecond, hpq] at h
  obtain ⟨sig', hsig', h⟩ := bind_eq_ok.mp h
  obtain ⟨u, hshape, -⟩ := bind_eq_ok.mp h
  rw [Rules.need_ok, hsig] at hsig'
  injection hsig' with hsig'
  subst hsig'
  simp only [Rules.refuse_ok, Bool.not_eq_false', Bool.and_eq_true, decide_eq_true_eq] at hshape
  have hsize := Hex.utf8ByteSize_of_decode hpk
  omega

theorem checkTx_keys {E : Env} {s : Store} {block : Block} {b b' : Batch} {tx : Transaction}
    (h : checkTx E s block b tx = .ok b') : KeysChecked tx := by
  obtain ⟨sender, hsender, h⟩ := bind_eq_ok.mp h
  obtain ⟨u, -, h⟩ := bind_eq_ok.mp h
  obtain ⟨keyed, hkeys, -⟩ := bind_eq_ok.mp h
  constructor
  · obtain ⟨pk, hpk, hsender⟩ := bind_eq_ok.mp hsender
    simp only [throw_bind, ite_error_eq_ok, not_not] at hsender
    exact ⟨pk, hpk, hsender.1⟩
  · intro hsecond hpq sig pk hsig hpk
    unfold checkKeys at hkeys
    extract_lets b₁ key at hkeys
    obtain ⟨installed, -, hkeys⟩ := bind_eq_ok.mp hkeys
    extract_lets b₂ at hkeys
    obtain ⟨u, -, hkeys⟩ := bind_eq_ok.mp hkeys
    obtain ⟨registered, hregistered, -⟩ := bind_eq_ok.mp hkeys
    exact registeredSecondKey_length (ruled_ok.mp hregistered) hsecond hpq hsig hpk

theorem checkStatefulRules_keys {E : Env} {s : Store} {blocks : List Block} {batch : Batch}
    (h : checkStatefulRules E s blocks = .ok batch) {b : Block} (hb : b ∈ blocks) :
    ∀ tx ∈ b.transactions, KeysChecked tx := by
  obtain ⟨before, after, hblock⟩ := foldlM_mem h b hb
  obtain ⟨u, -, hblock⟩ := bind_eq_ok.mp hblock
  obtain ⟨rest, htxs, -⟩ := bind_eq_ok.mp hblock
  intro tx htx
  obtain ⟨_, _, hstep⟩ := foldlM_mem htxs tx htx
  exact checkTx_keys hstep

end Sync

/-- What the checks do not ask of a transaction and the reader relies on. -/
structure Transaction.Readable (E : Env) (tx : Transaction) : Prop where
  network : tx.network.isSome ∨ E.network.pubkeyHash = mainnetByte
  nonce : tx.nonce.isSome
  amount : ∀ type, tx.coreType = some type → type.carriesAmount = false → tx.amount = 0
  payload : ∀ type, tx.coreType = some type → CoreReadable E.prim tx type
  signatures : SignaturesReadable tx
  size : ∀ raw, serializeTransaction E.prim tx {} E.network.pubkeyHash = .ok raw →
    raw.length < 2 ^ 32

/-- A transaction and what is read back of it. -/
structure Restored (E : Env) (height : Nat) (tx d : Transaction) : Prop where
  known : tx.id.isSome
  id : d.id = tx.id
  amount : d.amount = tx.amount
  fee : d.fee = tx.fee
  expiration : d.expiration = none ∨ d.expiration = some (tx.expiration.getD 0)
  transaction : VerifyBlock.checkTransaction E.prim d = []
  format : VerifyBlock.checkFormat E.prim (E.network.milestone height) d = []

/-- The block and the position of a transaction are not on the wire and not checked. -/
theorem Restored.placed {E : Env} {height : Nat} {tx d : Transaction} (h : Restored E height tx d)
    (block : Block) (index : Nat) : Restored E height tx (placeTransaction block d index) :=
  ⟨h.known, h.id, h.amount, h.fee, h.expiration, h.transaction, h.format⟩

/-- Which format rules a transaction has passed. -/
theorem checkFormat_cases {P : Primitives} {ms : Milestone} {tx : Transaction}
    (h : VerifyBlock.checkFormat P ms tx = []) :
    (∃ u, Rules.checkPqFormat tx ms = .ok u) ∧ (tx.typeGroup = typeGroupCore ∨
      (∃ a, Rules.checkTokenFormat P tx ms = .ok a) ∨
      ∃ e, Rules.checkSobjFormat P tx ms = .ok e) := by
  unfold VerifyBlock.checkFormat at h
  simp only [List.append_eq_nil_iff] at h
  obtain ⟨hpq, h⟩ := h
  refine ⟨VerifyBlock.complaint_eq_nil.mp hpq, ?_⟩
  split_ifs at h with hcore htoken htokens hsobj hactive
  · exact .inl hcore
  · exact .inr (.inl (VerifyBlock.complaint_eq_nil.mp h))
  · exact .inr (.inr (VerifyBlock.complaint_eq_nil.mp h))

section Restored

variable {P : Primitives} {ms : Milestone} {tx : Transaction}

theorem exists_sobjFormat (h : VerifyBlock.checkFormat P ms tx = []) :
    ∀ e, tx.sobjAsset = some e → ∃ ms action, Rules.SobjFormat P ms e action := by
  intro e he
  have hgroup : tx.typeGroup = typeGroupSobj := by
    unfold Transaction.sobjAsset Transaction.isSobj at he
    split_ifs at he with hsobj
    exact (by simpa using hsobj : _ ∧ _).1
  rcases (checkFormat_cases h).2 with hcore | ⟨a, htoken⟩ | ⟨e', hsobj⟩
  · rw [hgroup] at hcore
    exact absurd hcore (by decide)
  · obtain ⟨type, htype, -⟩ := Rules.checkTokenFormat_ok.mp htoken
    unfold Transaction.tokenType at htype
    rw [hgroup] at htype
    cases htype
  · obtain ⟨hasset, -, action, -, hwell⟩ := Rules.checkSobjFormat_ok.mp hsobj
    rw [he] at hasset
    injection hasset with hasset
    subst hasset
    exact ⟨ms, action, hwell⟩

/-- Only core transactions may say an amount. -/
theorem amount_of_checkFormat {bytes : Bytes} (h : VerifyBlock.checkFormat P ms tx = [])
    (hpayload : serializeTypePayload P tx = .ok bytes)
    (hplain : ∀ type, tx.coreType = some type → type.carriesAmount = false → tx.amount = 0) :
    (if tx.coreType.any CoreType.carriesAmount then tx.amount else 0) = tx.amount := by
  cases htype : tx.coreType with
  | some type =>
      cases hcarries : type.carriesAmount with
      | true => simp [hcarries]
      | false => simp [hcarries, hplain type htype hcarries]
  | none =>
      rcases (checkFormat_cases h).2 with hcore | ⟨a, htoken⟩ | ⟨e, hsobj⟩
      · have hnot : tx.isSobj = false := by
          unfold Transaction.isSobj
          rw [hcore]
          rfl
        have hnone : tx.tokenType = none := by
          unfold Transaction.tokenType
          rw [hcore]
          rfl
        simp [serializeTypePayload, hnot, hnone, hcore, htype] at hpayload
      · obtain ⟨type, -, -, hzero, -⟩ := Rules.checkTokenFormat_ok.mp htoken
        rw [hzero]
        rfl
      · obtain ⟨-, hzero, -⟩ := Rules.checkSobjFormat_ok.mp hsobj
        rw [hzero]
        rfl

theorem pqBlocks_unmarked (h : VerifyBlock.checkFormat P ms tx = []) :
    tx.isPq → ∀ b ∈ tx.pqBlocks, b.algorithm ≠ 0xff := by
  intro hpq b hb
  obtain ⟨u, hformat⟩ := (checkFormat_cases h).1
  obtain ⟨-, -, hblocks, -⟩ := (Rules.checkPqFormat_ok hpq).mp hformat
  exact (Rules.checkPqBlocks_mem hblocks b hb).1

end Restored

theorem Transaction.exists_restored {E : Env} (hP : E.prim.Lawful) {height : Nat}
    {tx : Transaction} (hread : tx.Readable E) (hkeys : Sync.KeysChecked tx) (hid : tx.id.isSome)
    (htransaction : VerifyBlock.checkTransaction E.prim tx = [])
    (hformat : VerifyBlock.checkFormat E.prim (E.network.milestone height) tx = []) :
    ∃ d raw, serializeTransaction E.prim tx {} E.network.pubkeyHash = .ok raw ∧
      deserializeTransaction E.prim raw = .ok d ∧ Restored E height tx d := by
  obtain ⟨id, hid⟩ := Option.isSome_iff_exists.mp hid
  obtain ⟨hcomputed, hverify⟩ := VerifyBlock.checkTransaction_eq_nil hid htransaction
  obtain ⟨raw, hraw, hhash⟩ := bind_eq_ok.mp hcomputed
  rw [pure_eq_ok] at hhash
  have hnetwork : tx.network.isSome ∨ E.network.pubkeyHash = mainnetByte := hread.network
  rw [← serializeTransaction_network hnetwork] at hraw
  obtain ⟨sender, hsender, hlength⟩ := hkeys.sender
  obtain ⟨p, g, hback⟩ := exists_readBack hP hraw hread.nonce hsender hlength hread.payload
    hkeys.second (exists_sobjFormat hformat) hread.signatures (pqBlocks_unmarked hformat)
  obtain ⟨bytes, hbytes, hpayload⟩ := hback.payload
  refine ⟨tx.readBack E.prim E.network.pubkeyHash raw p g, raw, hraw, hback.reads, ?_⟩
  constructor
  · rw [hid]
    rfl
  · rw [hid, ← hhash]
    rfl
  · exact hpayload.amount.trans (amount_of_checkFormat hformat hbytes hread.amount)
  · rfl
  · exact hpayload.expiration
  · exact hback.checkTransaction hP hraw hnetwork ⟨sender, hsender⟩ hverify
  · exact hback.checkFormat hP hformat

/-- Transactions in the order of their `sequence`. -/
def InSequence (txs : List Transaction) : Prop :=
  txs.Pairwise fun t u => t.sequence.getD 0 ≤ u.sequence.getD 0

theorem insertBySequence_last {tx : Transaction} {sorted : List Transaction}
    (h : ∀ t ∈ sorted, t.sequence.getD 0 ≤ tx.sequence.getD 0) :
    insertBySequence tx sorted = sorted ++ [tx] := by
  induction sorted with
  | nil => rfl
  | cons head tail ih =>
      have hhead : ¬ tx.sequence.getD 0 < head.sequence.getD 0 :=
        UInt32.not_lt.mpr (h head List.mem_cons_self)
      rw [insertBySequence, if_neg hhead, ih fun t ht => h t (List.mem_cons_of_mem head ht)]
      rfl

theorem sortBySequence_eq_self {txs : List Transaction} (h : InSequence txs) :
    sortBySequence txs = txs := by
  have hrun : ∀ done rest : List Transaction, InSequence (done ++ rest) →
      rest.foldl (fun sorted tx => insertBySequence tx sorted) done = done ++ rest := by
    intro done rest hsorted
    induction rest generalizing done with
    | nil => exact (List.append_nil done).symm
    | cons tx rest ih =>
        have hlast : ∀ t ∈ done, t.sequence.getD 0 ≤ tx.sequence.getD 0 := by
          intro t ht
          exact (List.pairwise_append.mp hsorted).2.2 t ht tx List.mem_cons_self
        rw [List.foldl_cons, insertBySequence_last hlast, ih, List.append_assoc]
        · rfl
        · rwa [List.append_assoc]
  exact hrun [] txs h

theorem inSequence_placed (block : Block) {txs : List Transaction} (h : txs.length < 2 ^ 32) :
    InSequence (txs.mapIdx fun i tx => placeTransaction block tx i) := by
  unfold InSequence
  rw [List.pairwise_iff_getElem]
  intro i j hi hj hij
  rw [List.length_mapIdx] at hi hj
  have hi : i < UInt32.size := Nat.lt_trans hi h
  have hj : j < UInt32.size := Nat.lt_trans hj h
  simp only [List.getElem_mapIdx, placeTransaction, Option.getD_some, UInt32.le_iff_toNat_le]
  rw [UInt32.toNat_ofNat_of_lt' hi, UInt32.toNat_ofNat_of_lt' hj]
  exact Nat.le_of_lt hij

section Block

variable {E : Env} {block : Block} {height : Nat} {txs ds : List Transaction}

theorem checkIds_restored {seen : List Text} (hall : List.Forall₂ (Restored E height) txs ds)
    (h : VerifyBlock.checkIds height seen txs = []) :
    VerifyBlock.checkIds height seen ds = [] := by
  induction hall generalizing seen with
  | nil => rfl
  | @cons tx d txs ds hone hrest ih =>
      cases hid : tx.id with
      | none => simp [VerifyBlock.checkIds, hid] at h
      | some id =>
          simp only [VerifyBlock.checkIds, hid, List.append_eq_nil_iff,
            VerifyBlock.complain_eq_nil] at h
          obtain ⟨⟨hseen, hlive⟩, htail⟩ := h
          simp only [VerifyBlock.checkIds, hone.id, hid, List.append_eq_nil_iff,
            VerifyBlock.complain_eq_nil]
          refine ⟨⟨hseen, ?_⟩, ih htail⟩
          rcases hone.expiration with hnone | hsome
          · rw [hnone]
            rfl
          · rw [hsome]
            cases hexp : tx.expiration with
            | none => rfl
            | some e =>
                rw [hexp] at hlive
                exact hlive

theorem totalOf_restored {f : Transaction → UInt64}
    (hall : List.Forall₂ (Restored E height) block.transactions ds)
    (hf : ∀ tx d, Restored E height tx d → f d = f tx) :
    VerifyBlock.totalOf f { block with transactions := ds } = VerifyBlock.totalOf f block := by
  unfold VerifyBlock.totalOf
  have hsums : ∀ txs ds : List Transaction, List.Forall₂ (Restored E height) txs ds →
      ((ds.filter fun tx => tx.id.isSome).map fun tx => (f tx).toNat).sum =
        ((txs.filter fun tx => tx.id.isSome).map fun tx => (f tx).toNat).sum := by
    intro txs ds hall
    induction hall with
    | nil => rfl
    | @cons tx d txs ds hone hrest ih =>
        rw [List.filter_cons, List.filter_cons, hone.id]
        split_ifs
        · rw [List.map_cons, List.map_cons, List.sum_cons, List.sum_cons, hf tx d hone, ih]
        · exact ih
  exact hsums _ _ hall

theorem blockPayloadHash_restored {P : Primitives}
    (hall : List.Forall₂ (Restored E height) block.transactions ds)
    (horder : block.transactions.all (·.sequence.isSome) → InSequence block.transactions)
    (hplaced : InSequence ds) :
    blockPayloadHash P { block with transactions := ds } = blockPayloadHash P block := by
  have hkept : ∀ txs : List Transaction, (txs.all (·.sequence.isSome) → InSequence txs) →
      (if txs.all (·.sequence.isSome) then sortBySequence txs else txs) = txs := by
    intro txs h
    split_ifs with hsome
    · exact sortBySequence_eq_self (h hsome)
    · rfl
  unfold blockPayloadHash
  simp only [hkept ds fun _ => hplaced, hkept block.transactions horder]
  rw [mapM_eq_of_forall₂ hall]
  intro tx d hone
  obtain ⟨id, hid⟩ := Option.isSome_iff_exists.mp hone.known
  rw [hone.id, hid]

theorem verifyBlock_restored (h : verifyBlock E block = [])
    (hall : List.Forall₂ (Restored E block.height) block.transactions ds)
    (horder : block.height ≠ 1 → block.transactions.all (·.sequence.isSome) →
      InSequence block.transactions)
    (hplaced : InSequence ds) : verifyBlock E { block with transactions := ds } = [] := by
  have hcount : ds.length = block.transactions.length := hall.length_eq.symm
  have hamount := totalOf_restored (f := (·.amount)) hall fun tx d hone => hone.amount
  have hfee := totalOf_restored (f := (·.fee)) hall fun tx d hone => hone.fee
  simp only [verifyBlock, List.append_eq_nil_iff, List.flatMap_eq_nil_iff] at h ⊢
  obtain ⟨⟨⟨⟨⟨⟨hheader, hids⟩, -⟩, -⟩, htotal⟩, htotalFee⟩, hpayload⟩ := h
  refine ⟨⟨⟨⟨⟨⟨?_, checkIds_restored hall hids⟩, ?_⟩, ?_⟩, ?_⟩, ?_⟩, ?_⟩
  · rw [hcount]
    exact hheader
  · intro d hd
    obtain ⟨tx, -, hone⟩ := forall₂_mem_right hall d hd
    exact hone.transaction
  · intro d hd
    obtain ⟨tx, -, hone⟩ := forall₂_mem_right hall d hd
    exact hone.format
  · rw [hamount]
    exact htotal
  · rw [hfee]
    exact htotalFee
  · unfold VerifyBlock.checkPayload at hpayload ⊢
    by_cases hfirst : block.height = 1
    · simp only [hfirst, if_true] at hpayload ⊢
      exact hpayload
    · simp only [hfirst, if_false] at hpayload ⊢
      rw [blockPayloadHash_restored hall (horder hfirst) hplaced]
      exact hpayload

end Block

/-- What verification has found out about a header. -/
structure HeaderChecked (P : Primitives) (b : Block) : Prop where
  signature : ∃ sig bytes, b.blockSignature = some sig ∧ Hex.decode sig = .ok bytes ∧ counted bytes
  id : ∃ raw, serializeBlock b true = .ok raw ∧
    (b.height ≠ 1 → b.id = some (Hex.encode (P.sha256 raw)))
  pqSignature : ∀ pq ∈ b.pqSignature, b.version = blockVersionPq ∧
    pq.signature.utf8ByteSize = pqSigLen * 2
  payloadHash : b.height ≠ 1 → ∃ hash, b.payloadHash = Hex.encode hash ∧ hash.length = 32

theorem headerChecked_of_verifyBlock {E : Env} (hP : E.prim.Lawful) {b : Block} (hid : b.id.isSome)
    (h : verifyBlock E b = []) : HeaderChecked E.prim b := by
  simp only [verifyBlock, List.append_eq_nil_iff] at h
  obtain ⟨⟨⟨⟨⟨⟨⟨⟨⟨⟨⟨⟨⟨-, hsig⟩, -⟩, hpq⟩, -⟩, -⟩, -⟩, hcheckId⟩, -⟩, -⟩, -⟩, -⟩, -⟩, hpayload⟩ := h
  constructor
  · unfold VerifyBlock.checkSignature at hsig
    split at hsig
    · rename_i htrue
      unfold verifyBlockSignature at htrue
      split at htrue
      · cases htrue
      · rename_i sig hfield
        obtain ⟨message, -, htrue⟩ := bind_eq_ok.mp htrue
        obtain ⟨bytes, hbytes, htrue⟩ := bind_eq_ok.mp htrue
        exact ⟨sig, bytes, hfield, hbytes, hP.ecdsa_der _ _ _ htrue⟩
    · cases hsig
    · cases hsig
  · obtain ⟨id, hid⟩ := Option.isSome_iff_exists.mp hid
    simp only [VerifyBlock.checkId, hid] at hcheckId
    split at hcheckId
    · rename_i computed hcomputed
      obtain ⟨raw, hraw, hhash⟩ := bind_eq_ok.mp hcomputed
      rw [pure_eq_ok] at hhash
      refine ⟨raw, hraw, ?_⟩
      intro hfirst
      simp only [VerifyBlock.complain_eq_nil, ne_eq, hfirst, not_false_eq_true, decide_true,
        Bool.true_and, decide_eq_false_iff_not, not_not] at hcheckId
      rw [hid, hhash, hcheckId]
    · cases hcheckId
  · intro pq hmem
    rw [Option.mem_def] at hmem
    unfold VerifyBlock.checkPqSignature at hpq
    rw [hmem] at hpq
    split_ifs at hpq with hversion
    · simp only at hpq
      split_ifs at hpq
      · refine ⟨hversion, ?_⟩
        simpa [VerifyBlock.complain_eq_nil] using hpq
    · simp [VerifyBlock.complain_eq_nil] at hpq
  · intro hfirst
    simp only [VerifyBlock.checkPayload, hfirst, if_false] at hpayload
    split at hpayload
    · rename_i hash hhash
      obtain ⟨ids, -, hhash⟩ := bind_eq_ok.mp hhash
      rw [pure_eq_ok] at hhash
      simp only [VerifyBlock.complain_eq_nil, ne_eq, decide_eq_false_iff_not, not_not] at hpayload
      exact ⟨E.prim.sha256 ids.flatten, by rw [hhash, hpayload], hP.sha256_length _⟩
    · cases hpayload

/-- What the checks do not ask of a header and the reader relies on. -/
structure Block.HeaderReadable (E : Env) (b : Block) : Prop where
  id : if b.height = 1 then b.id = some E.network.genesisBlockId else b.id.isSome
  height : b.height < 2 ^ 32
  previousBlock : b.previousBlock.toLower = b.previousBlock
  payloadHash : b.height = 1 →
    b.payloadHash.toLower = b.payloadHash ∧ b.payloadHash.utf8ByteSize = 64
  generator : b.generatorPublicKey.toLower = b.generatorPublicKey ∧
    b.generatorPublicKey.utf8ByteSize = 66
  blockSignature : ∀ sig ∈ b.blockSignature, sig.toLower = sig
  pqSignature : ∀ pq ∈ b.pqSignature, pq.signature.toLower = pq.signature

instance (E : Env) (b : Block) : Decidable (b.HeaderReadable E) :=
  decidable_of_iff ((if b.height = 1 then b.id = some E.network.genesisBlockId else b.id.isSome) ∧
      b.height < 2 ^ 32 ∧ b.previousBlock.toLower = b.previousBlock ∧
      (b.height = 1 → b.payloadHash.toLower = b.payloadHash ∧ b.payloadHash.utf8ByteSize = 64) ∧
      (b.generatorPublicKey.toLower = b.generatorPublicKey ∧
        b.generatorPublicKey.utf8ByteSize = 66) ∧
      (∀ sig ∈ b.blockSignature, sig.toLower = sig) ∧
      ∀ pq ∈ b.pqSignature, pq.signature.toLower = pq.signature)
    ⟨fun ⟨hid, hheight, hprevious, hpayload, hgenerator, hsignature, hpq⟩ =>
      ⟨hid, hheight, hprevious, hpayload, hgenerator, hsignature, hpq⟩,
    fun h => ⟨h.id, h.height, h.previousBlock, h.payloadHash, h.generator, h.blockSignature,
      h.pqSignature⟩⟩

theorem Hex.toLower_encode (bytes : Bytes) : (Hex.encode bytes).toLower = Hex.encode bytes :=
  (Hex.encode_of_decode (Hex.decode_encode bytes)).symm

section Header

variable {E : Env} {b : Block}

theorem Block.HeaderReadable.payload (h : b.HeaderReadable E) (hchecked : HeaderChecked E.prim b) :
    b.payloadHash.toLower = b.payloadHash ∧ b.payloadHash.utf8ByteSize = 64 := by
  by_cases hfirst : b.height = 1
  · exact h.payloadHash hfirst
  · obtain ⟨hash, hhash, hlength⟩ := hchecked.payloadHash hfirst
    rw [hhash, Hex.toLower_encode, Hex.utf8ByteSize_encode, hlength]
    exact ⟨rfl, rfl⟩

theorem Block.HeaderReadable.wireHeader (h : b.HeaderReadable E)
    (hchecked : HeaderChecked E.prim b) :
    { b.wireHeader with height := b.height % 2 ^ 32 } = { b with id := none, transactions := [] } := by
  have hsignature : b.blockSignature.map Text.toLower = b.blockSignature := by
    cases hsig : b.blockSignature with
    | none => rfl
    | some sig => rw [Option.map_some, h.blockSignature sig hsig]
  have hpq : (b.pqSignature.map fun pq => { pq with signature := pq.signature.toLower }) =
      b.pqSignature := by
    cases hfield : b.pqSignature with
    | none => rfl
    | some pq => rw [Option.map_some, h.pqSignature pq hfield]
  unfold Block.wireHeader
  rw [hsignature, hpq, h.previousBlock, (h.payload hchecked).1, h.generator.1,
    Nat.mod_eq_of_lt h.height]

/-- The header of a verified block is read back as it was. -/
theorem exists_headerFrame (hchecked : HeaderChecked E.prim b) (h : b.HeaderReadable E) :
    ∃ raw, serializeBlock b true = .ok raw ∧ raw.length < 2 ^ 32 ∧
      deserializeBlockHeader E.prim E.network raw = .ok { b with transactions := [] } := by
  obtain ⟨raw, hraw, hid⟩ := hchecked.id
  obtain ⟨sig, bytes, hsig, hbytes, hcounted⟩ := hchecked.signature
  have hversion : b.pqSignature.isSome → b.version ≥ blockVersionPq := by
    intro hsome
    obtain ⟨pq, hpq⟩ := Option.isSome_iff_exists.mp hsome
    rw [(hchecked.pqSignature pq hpq).1]
    exact UInt32.le_refl _
  obtain ⟨f, hf, hprevious, hblock⟩ := exists_headerBytes hraw (by rw [hsig]; rfl) hversion
  rw [h.wireHeader hchecked] at hblock
  have hsignature : f.signature.map Hex.encode = some sig :=
    (congrArg Block.blockSignature hblock).trans hsig
  have hpq : (f.pq.map fun p => { algorithm := p.1, signature := Hex.encode p.2 }) =
      b.pqSignature := congrArg Block.pqSignature hblock
  have hpayload : (Hex.encode f.payloadHash).utf8ByteSize = 64 := by
    have hfield : Hex.encode f.payloadHash = b.payloadHash := congrArg Block.payloadHash hblock
    rw [hfield]
    exact (h.payload hchecked).2
  have hgenerator : (Hex.encode f.generator).utf8ByteSize = 66 := by
    have hfield : Hex.encode f.generator = b.generatorPublicKey :=
      congrArg Block.generatorPublicKey hblock
    rw [hfield]
    exact h.generator.2
  rw [Hex.utf8ByteSize_encode] at hpayload hgenerator
  obtain ⟨x, hx, hencoded⟩ := Option.map_eq_some_iff.mp hsignature
  have hsame : x = bytes := by
    rw [← hencoded, Hex.decode_encode] at hbytes
    injection hbytes
  subst hsame
  have hpqSize : ∀ p ∈ f.pq, f.version ≥ blockVersionPq ∧ p.2.length = pqSigLen := by
    intro p hp
    rw [Option.mem_def] at hp
    rw [hp] at hpq
    obtain ⟨hone, hsize⟩ := hchecked.pqSignature _ (Option.mem_def.mpr hpq.symm)
    have hfield : f.version = b.version := congrArg Block.version hblock
    refine ⟨?_, ?_⟩
    · rw [hfield, hone]
      exact UInt32.le_refl _
    · rw [Hex.utf8ByteSize_encode] at hsize
      omega
  have hreadable : f.Readable := by
    refine ⟨hprevious, by omega, by omega, ?_, ?_, ?_⟩
    · rw [hx]
      exact hcounted
    · intro hsome
      obtain ⟨p, hp⟩ := Option.isSome_iff_exists.mp hsome
      exact (hpqSize p hp).1
    · intro p hp
      rw [(hpqSize p hp).2]
      decide
  refine ⟨raw, hraw, ?_, ?_⟩
  · rw [← hf]
    exact hreadable.raw_length
  · have hheight : f.height.toNat = b.height := congrArg Block.height hblock
    obtain ⟨id, hfield⟩ : ∃ id, b.id = some id := by
      have hsome := h.id
      split_ifs at hsome
      · exact ⟨_, hsome⟩
      · exact Option.isSome_iff_exists.mp hsome
    have hknown : (if f.height.toNat = 1 then .ok E.network.genesisBlockId
        else blockId E.prim f.toBlock) = .ok id := by
      rw [hheight, hblock]
      have hgenesis := h.id
      split_ifs at hgenesis ⊢ with hfirst
      · rw [hfield] at hgenesis
        injection hgenesis with hgenesis
        rw [hgenesis]
      · have hhash := hid hfirst
        rw [hfield] at hhash
        injection hhash with hhash
        rw [hhash]
        exact bind_eq_ok.mpr ⟨raw, hraw, rfl⟩
    rw [← hf, HeaderBytes.deserialize_raw hreadable hknown, hblock, ← hfield]

end Header

/-- What the checks do not ask of a block and the reader relies on. -/
structure Block.Readable (E : Env) (b : Block) : Prop where
  header : b.HeaderReadable E
  transactions : ∀ tx ∈ b.transactions, tx.Readable E
  sequence : b.height ≠ 1 → b.transactions.all (·.sequence.isSome) → InSequence b.transactions
  count : b.transactions.length < 2 ^ 32

/-- An accepted block of this shape is read back from its record with the same header, id and
transaction ids, and is accepted again. -/
theorem accepted_block_read_back {E : Env} (hP : E.prim.Lawful) {s : Store} {blocks : List Block}
    {batch : Sync.Batch} {b : Block} (hverify : verifyBlock E b = []) (hmem : b ∈ blocks)
    (hrules : Sync.checkStatefulRules E s blocks = .ok batch) (hread : b.Readable E) :
    ∃ record d, writeRecord E b = .ok record ∧ readRecord E record = .ok d ∧
      { d with transactions := [] } = { b with transactions := [] } ∧
      d.transactions.map (·.id) = b.transactions.map (·.id) ∧ verifyBlock E d = [] := by
  have hid : b.id.isSome := by
    have hsome := hread.header.id
    split_ifs at hsome
    · rw [hsome]
      rfl
    · exact hsome
  obtain ⟨header, hheader, hsize, hparsed⟩ :=
    exists_headerFrame (headerChecked_of_verifyBlock hP hid hverify) hread.header
  have hkeys := Sync.checkStatefulRules_keys hrules hmem
  have hverified := verified_of_verifyBlock hid hverify
  have hchecked : ∀ tx ∈ b.transactions, VerifyBlock.checkTransaction E.prim tx = [] := by
    simp only [verifyBlock, List.append_eq_nil_iff, List.flatMap_eq_nil_iff] at hverify
    exact hverify.1.1.1.1.2
  -- every transaction with its frame and what is read from it
  obtain ⟨pairs, hpairs⟩ := exists_forall₂ (R := fun tx (p : Bytes × Transaction) =>
      serializeTransaction E.prim tx {} E.network.pubkeyHash = .ok p.1 ∧ p.1.length < 2 ^ 32 ∧
      deserializeTransaction E.prim p.1 = .ok p.2 ∧ Restored E b.height tx p.2) (by
    intro tx htx
    have hone := hread.transactions tx htx
    obtain ⟨d, raw, hraw, hd, hrestored⟩ := Transaction.exists_restored hP hone (hkeys tx htx)
      (hverified.txIds tx htx) (hchecked tx htx) (hverified.format tx htx)
    exact ⟨(raw, d), hraw, hone.size raw hraw, hd, hrestored⟩)
  let plain : Block := { b with transactions := [] }
  let ds := (pairs.map Prod.snd).mapIdx fun i tx => placeTransaction plain tx i
  have hall : List.Forall₂ (Restored E b.height) b.transactions ds := by
    apply forall₂_mapIdx
    · rw [List.forall₂_map_right_iff]
      exact hpairs.imp fun tx p hp => hp.2.2.2
    · exact fun i tx d hone => hone.placed plain i
  have hwrite : b.transactions.mapM
      (fun tx => serializeTransaction E.prim tx {} E.network.pubkeyHash) =
        .ok (pairs.map Prod.fst) := by
    apply mapM_ok_of_forall₂
    rw [List.forall₂_map_right_iff]
    exact hpairs.imp fun tx p hp => hp.1
  have hreadAll : (pairs.map Prod.fst).mapM (deserializeTransaction E.prim) =
      .ok (pairs.map Prod.snd) := by
    apply mapM_map_ok
    intro p hp
    obtain ⟨tx, -, -, -, hd, -⟩ := forall₂_mem_right hpairs p hp
    exact hd
  have hshort : ∀ raw ∈ header :: pairs.map Prod.fst, raw.length < 2 ^ 32 := by
    intro raw hraw
    rcases List.mem_cons.mp hraw with rfl | hraw
    · exact hsize
    · obtain ⟨p, hp, rfl⟩ := List.mem_map.mp hraw
      obtain ⟨tx, -, -, hlength, -⟩ := forall₂_mem_right hpairs p hp
      exact hlength
  have hencode : encodeBlock E b = .ok (header :: pairs.map Prod.fst) :=
    bind_eq_ok.mpr ⟨header, hheader, bind_eq_ok.mpr ⟨_, hwrite, rfl⟩⟩
  have hdecode : decodeBlock E (header :: pairs.map Prod.fst) = .ok { b with transactions := ds } :=
    bind_eq_ok.mpr ⟨plain, hparsed, bind_eq_ok.mpr ⟨_, hreadAll, rfl⟩⟩
  refine ⟨_, { b with transactions := ds }, bind_eq_ok.mpr ⟨_, hencode, rfl⟩, ?_, rfl, ?_, ?_⟩
  · rw [readRecord_frames E hshort, hdecode]
  · exact (map_eq_of_forall₂ hall fun tx d hone => hone.id.symm).symm
  · apply verifyBlock_restored hverify hall hread.sequence
    apply inSequence_placed
    rw [List.length_map, ← hpairs.length_eq]
    exact hread.count

namespace Reference

/-- A transfer of 5 in the first slot after the first block. -/
def transferBlock : Block :=
  first.forge 2 8 (genesis.id.getD "") 0 [transfer first second 1 5]

/-- The same transfer without a nonce. -/
def noncelessBlock : Block :=
  first.forge 2 8 (genesis.id.getD "") 0 [first.sign {
    type := 0, nonce := none, senderPublicKey := "", fee := 10, amount := 5
    recipientId := some second.address }]

/-- A single DER signature. -/
def derSigned (tx : Transaction) : Bool :=
  !tx.isPq && tx.secondSignatureAny.isNone && tx.signatures.isNone &&
    (hexField tx.signature).toOption.all fun sig => counted sig && !detectSchnorr sig.length

theorem signaturesReadable_of_derSigned {tx : Transaction} (h : derSigned tx) :
    SignaturesReadable tx := by
  simp only [derSigned, Bool.and_eq_true, Bool.not_eq_true', Option.isNone_iff_eq_none] at h
  obtain ⟨⟨⟨hpq, hsecond⟩, hparts⟩, hsig⟩ := h
  intro first middle last hsections
  have hmiddle := hsections.middle
  obtain ⟨parts, hlist, hlast⟩ := hsections.last
  rw [hsections.first] at hsig
  simp only [Except.toOption, Option.all_some, Bool.and_eq_true, Bool.not_eq_true'] at hsig
  rw [hpq, hsecond] at hmiddle
  rw [hparts] at hlist
  injection hmiddle with hmiddle
  injection hlist with hlist
  subst hmiddle hlist
  rw [hpq] at hlast ⊢
  refine .inr ⟨hsig.2, hlast, hsig.1, .inl rfl⟩

end Reference

open Reference

theorem transfer_readable (E : Env) (hE : E = ⟨primitives, network {}, 16000⟩) :
    (transfer first second 1 5).Readable E := by
  subst hE
  obtain ⟨htype, hnetwork, hnonce, hsigned, hsize⟩ :
      (transfer first second 1 5).coreType = some .transfer ∧
      ((transfer first second 1 5).network.isSome ∨ (network {}).pubkeyHash = mainnetByte) ∧
      (transfer first second 1 5).nonce.isSome ∧ derSigned (transfer first second 1 5) ∧
      (serializeTransaction primitives (transfer first second 1 5) {}
        mainnetByte).toOption.all (fun raw => raw.length < 2 ^ 32) := by
    decide +kernel
  constructor
  · exact hnetwork
  · exact hnonce
  · intro type hcore hplain
    obtain rfl := Option.some.inj (htype.symm.trans hcore)
    cases hplain
  · intro type hcore
    obtain rfl := Option.some.inj (htype.symm.trans hcore)
    rfl
  · exact signaturesReadable_of_derSigned hsigned
  · intro raw hraw
    change serializeTransaction primitives (transfer first second 1 5) {} mainnetByte = .ok raw
      at hraw
    rw [hraw] at hsize
    simpa [Except.toOption] using hsize

theorem transferBlock_readable (E : Env) (hE : E = ⟨primitives, network {}, 16000⟩) :
    transferBlock.Readable E := by
  have htransfer := transfer_readable E hE
  subst hE
  constructor
  · decide +kernel
  · intro tx htx
    rw [List.mem_singleton.mp htx]
    exact htransfer
  · intro _ _
    exact List.pairwise_singleton _ _
  · decide

/-- A block with a transfer is read back. -/
theorem accepted_block_read_back_transfer :
    ∃ record d, writeRecord ⟨primitives, network {}, 16000⟩ transferBlock = .ok record ∧
      readRecord ⟨primitives, network {}, 16000⟩ record = .ok d ∧
      { d with transactions := [] } = { transferBlock with transactions := [] } ∧
      d.transactions.map (·.id) = transferBlock.transactions.map (·.id) ∧
      verifyBlock ⟨primitives, network {}, 16000⟩ d = [] := by
  obtain ⟨hverify, hrules⟩ : verifyBlock ⟨primitives, network {}, 16000⟩ transferBlock = [] ∧
      (Sync.checkStatefulRules ⟨primitives, network {}, 16000⟩ {}
        [transferBlock]).toOption.isSome := by
    decide +kernel
  cases h : Sync.checkStatefulRules ⟨primitives, network {}, 16000⟩ {} [transferBlock] with
  | error e =>
      rw [h] at hrules
      cases hrules
  | ok batch =>
      exact accepted_block_read_back (E := ⟨primitives, network {}, 16000⟩) primitives_lawful
        hverify (List.mem_singleton_self _) h (transferBlock_readable _ rfl)

/-- A block with a transaction without a nonce is accepted, and its record cannot be read. -/
theorem nonceless_block_not_read_back :
    verifyBlock ⟨primitives, network {}, 16000⟩ noncelessBlock = [] ∧
    (Sync.checkStatefulRules ⟨primitives, network {}, 16000⟩ {} [noncelessBlock]).toOption.isSome ∧
    ((writeRecord ⟨primitives, network {}, 16000⟩ noncelessBlock).toOption.map fun record =>
      (readRecord ⟨primitives, network {}, 16000⟩ record).toOption) = some none := by
  decide +kernel

end SthCore
