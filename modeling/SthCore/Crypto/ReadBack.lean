import SthCore.Crypto.Sections
import SthCore.Crypto.VerifyBlock

/-!
A transaction as it is read back from its bytes.  It has the bytes it was read
from, under every choice of signatures, and passes the checks again.
-/

namespace SthCore

open SthCore.Lib

/-- The vendor field that is on the wire. -/
def Transaction.wireVendor (tx : Transaction) : Option Text :=
  if tx.hasVendorField then Text.nonempty tx.vendorField else none

/-- What is read in front of the payload; `networkByte` stands for a missing network field. -/
def Transaction.wireHead (tx : Transaction) (networkByte : UInt8) : Transaction where
  version := tx.version
  network := some (tx.network.getD networkByte)
  typeGroup := tx.typeGroup
  type := tx.type
  nonce := tx.nonce
  senderPublicKey := tx.senderPublicKey.toLower
  fee := tx.fee
  vendorField := tx.wireVendor

theorem Transaction.nonempty_wireVendor (tx : Transaction) :
    Text.nonempty tx.wireVendor = tx.wireVendor := by
  unfold Transaction.wireVendor
  split_ifs
  · unfold Text.nonempty
    rw [Option.filter_filter]
    simp
  · rfl

/-- Reading the vendor field once is enough. -/
theorem Transaction.wireVendor_eq {d tx : Transaction} (hkind : SameKind d tx)
    (h : d.vendorField = tx.wireVendor) : d.wireVendor = tx.wireVendor := by
  have hkept := tx.nonempty_wireVendor
  unfold Transaction.wireVendor at hkept ⊢
  rw [hkind.hasVendorField, h]
  split_ifs with hhas
  · rw [if_pos hhas] at hkept
    unfold Transaction.wireVendor
    rw [if_pos hhas, hkept]
  · rfl

theorem serializeVendorField_ok {tx : Transaction} {raw : Bytes} :
    serializeVendorField tx = .ok raw ↔ (utf8Bytes (tx.wireVendor.getD "")).length ≤ 255 ∧
      u8of (utf8Bytes (tx.wireVendor.getD "")).length :: utf8Bytes (tx.wireVendor.getD "") = raw := by
  have hempty : (utf8Bytes "").length ≤ 255 := by decide
  unfold serializeVendorField Transaction.wireVendor
  cases hvf : tx.vendorField with
  | none =>
      have hnone : (if tx.hasVendorField = true then Text.nonempty none else none) = none := by
        split_ifs <;> rfl
      rw [hnone]
      simp only [Except.ok.injEq]
      exact ⟨fun h => ⟨hempty, h⟩, fun h => h.2⟩
  | some vf =>
      cases hhas : tx.hasVendorField with
      | false =>
          simp only [Bool.false_and, Bool.false_eq_true, if_false, Except.ok.injEq]
          exact ⟨fun h => ⟨hempty, h⟩, fun h => h.2⟩
      | true =>
          cases hfull : vf.isEmpty with
          | true =>
              have hnone : Text.nonempty (some vf) = none := Option.filter_some_neg (by simp [hfull])
              simp only [hnone, hfull, Bool.not_true, Bool.and_false, Bool.false_eq_true, if_false, if_true,
                Except.ok.injEq]
              exact ⟨fun h => ⟨hempty, h⟩, fun h => h.2⟩
          | false =>
              have hsome : Text.nonempty (some vf) = some vf := Option.filter_some_pos (by simp [hfull])
              simp only [hsome, hfull, Bool.not_false, Bool.and_true, if_true, Option.getD_some,
                ite_error_eq_ok, gt_iff_lt, not_lt, Except.ok.injEq]

theorem reads_common {P : Primitives} (hP : P.Lawful) {tx : Transaction} {networkByte : UInt8}
    {common vendor sender : Bytes} (hversion : tx.version ≠ 1) (hnonce : tx.nonce.isSome)
    (hsender : Hex.decode tx.senderPublicKey = .ok sender) (hlength : sender.length = 33)
    (hcommon : serializeCommon tx networkByte = .ok common)
    (hvendor : serializeVendorField tx = .ok vendor) :
    Reads (deserializeCommon P) (common ++ vendor) (tx.wireHead networkByte) := by
  obtain ⟨n, hn⟩ := Option.isSome_iff_exists.mp hnonce
  obtain ⟨hsize, rfl⟩ := serializeVendorField_ok.mp hvendor
  simp only [serializeCommon, hsender, hn, ok_bind, pure_eq_ok] at hcommon
  subst hcommon
  unfold deserializeCommon
  apply Reads.of_append_nil
  simp only [List.cons_append, List.nil_append, List.append_assoc]
  apply Reads.bind_u8
  rw [if_neg (by decide)]
  apply Reads.bind_u8
  apply Reads.bind_u8
  rw [if_neg hversion]
  apply (Reads.u32 _).bind
  apply (Reads.u16 _).bind
  apply (Reads.u64 _).bind
  apply (Reads.hex hlength).bind
  apply (Reads.u64 _).bind
  apply Reads.bind_text8 hP hsize
  let head : Transaction := { version := tx.version, network := some (tx.network.getD networkByte)
                              typeGroup := tx.typeGroup, type := tx.type, nonce := some n
                              senderPublicKey := Hex.encode sender, fee := tx.fee }
  have hhead : (if head.hasVendorField then { head with vendorField := Text.nonempty tx.wireVendor }
      else head) = tx.wireHead networkByte := by
    have hsame : head.hasVendorField = tx.hasVendorField := rfl
    unfold Transaction.wireHead
    rw [hsame, ← Hex.encode_of_decode hsender, hn]
    cases hhas : tx.hasVendorField with
    | true =>
        rw [tx.nonempty_wireVendor]
        rfl
    | false =>
        have hnone : tx.wireVendor = none := by
          unfold Transaction.wireVendor
          rw [hhas]
          rfl
        rw [hnone]
        rfl
  rw [← hhead]
  exact Reads.pure _

/-- The parts of a transaction in bytes, in front of the signatures. -/
structure WireParts (P : Primitives) (tx : Transaction) (networkByte : UInt8)
    (common vendor payload : Bytes) : Prop where
  version : tx.version ≠ 1
  common : serializeCommon tx networkByte = .ok common
  vendor : serializeVendorField tx = .ok vendor
  payload : serializeTypePayload P tx = .ok payload

theorem serializeTransaction_ok {P : Primitives} {tx : Transaction} {opts : SerializeOptions}
    {networkByte : UInt8} {raw : Bytes} :
    serializeTransaction P tx opts networkByte = .ok raw ↔ ∃ common vendor payload sigs,
      WireParts P tx networkByte common vendor payload ∧
      serializeSignatures tx opts = .ok sigs ∧ common ++ (vendor ++ payload ++ sigs) = raw := by
  unfold serializeTransaction
  simp only [throw_bind, ite_error_eq_ok, bind_eq_ok, pure_eq_ok]
  constructor
  · rintro ⟨hversion, common, hcommon, vendor, hvendor, payload, hpayload, sigs, hsigs, hraw⟩
    exact ⟨common, vendor, payload, sigs, ⟨hversion, hcommon, hvendor, hpayload⟩, hsigs, hraw⟩
  · rintro ⟨common, vendor, payload, sigs, ⟨hversion, hcommon, hvendor, hpayload⟩, hsigs, hraw⟩
    exact ⟨hversion, common, hcommon, vendor, hvendor, payload, hpayload, sigs, hsigs, hraw⟩

theorem VerifyBlock.complaint_eq_nil {α : Type} {check : Rules.Check α} {id : Text} :
    VerifyBlock.complaint check id = [] ↔ ∃ a, check = .ok a := by
  cases check <;> simp [VerifyBlock.complaint]

/-- What is read from the bytes of a transaction, with the id they have. -/
def Transaction.readBack (P : Primitives) (tx : Transaction) (networkByte : UInt8) (raw : Bytes)
    (p : Payload) (g : SignatureFields) : Transaction :=
  { ((tx.wireHead networkByte).withPayload p).withSignatures g with
    id := some (Hex.encode (P.sha256 raw)) }

/-- A transaction that is read from its bytes and written to them again. -/
structure ReadBack (P : Primitives) (tx : Transaction) (networkByte : UInt8) (raw : Bytes)
    (p : Payload) (g : SignatureFields) : Prop where
  reads : deserializeTransaction P raw = .ok (tx.readBack P networkByte raw p g)
  writes : ∀ opts other, serializeTransaction P (tx.readBack P networkByte raw p g) opts other =
    serializeTransaction P tx opts networkByte
  payload : ∃ bytes, serializeTypePayload P tx = .ok bytes ∧
    PayloadRead P tx (tx.wireHead networkByte) bytes p
  signatures : ∃ first middle last, Sections tx first middle last ∧
    SignaturesRead tx ((tx.wireHead networkByte).withPayload p) first middle last g

theorem exists_readBack {P : Primitives} (hP : P.Lawful) {tx : Transaction} {networkByte : UInt8}
    {raw sender : Bytes} (h : serializeTransaction P tx {} networkByte = .ok raw)
    (hnonce : tx.nonce.isSome) (hsender : Hex.decode tx.senderPublicKey = .ok sender)
    (hlength : sender.length = 33)
    (hpayload : ∀ type, tx.coreType = some type → CoreReadable P tx type)
    (hkey : Rules.isSecondSignature tx → tx.isPq = false → ∀ sig pk,
      tx.asset.bind (·.signature) = some sig → Hex.decode sig.publicKey = .ok pk → pk.length = 33)
    (hformat : ∀ e, tx.sobjAsset = some e → ∃ ms action, Rules.SobjFormat P ms e action)
    (hsignatures : SignaturesReadable tx)
    (hmark : tx.isPq → ∀ b ∈ tx.pqBlocks, b.algorithm ≠ 0xff) :
    ∃ p g, ReadBack P tx networkByte raw p g := by
  obtain ⟨common, vendor, payload, sigs, hparts, hsigs, hraw⟩ := serializeTransaction_ok.mp h
  obtain ⟨first, middle, last, hsections, rfl⟩ := exists_sections hsigs
  have hkind : SameKind (tx.wireHead networkByte) tx := ⟨rfl, rfl, rfl⟩
  obtain ⟨p, hp⟩ := exists_payloadRead hP hkind hparts.payload hpayload hkey hformat
  obtain ⟨g, hg⟩ : ∃ g, SignaturesRead tx ((tx.wireHead networkByte).withPayload p) first middle
      last g := exists_signaturesRead hsections hsignatures rfl hmark
  have hhead := reads_common hP hparts.version hnonce hsender hlength hparts.common hparts.vendor
  refine ⟨p, g, ?_, ?_, ⟨payload, hparts.payload, hp⟩, ⟨first, middle, last, hsections, hg⟩⟩
  · have hbytes : raw = (common ++ vendor) ++ (payload ++ (first ++ middle ++ last)) := by
      rw [← hraw]
      simp only [List.append_assoc]
    have hrun : (deserializeCommon P >>= deserializeTypePayload P >>= deserializeSignatures) raw =
        .ok (((tx.wireHead networkByte).withPayload p).withSignatures g, []) := by
      rw [hbytes]
      exact (Reader.bind_run (Reader.bind_ok.mpr ⟨_, _, hhead _, hp.reads _⟩)).trans hg.reads
    unfold deserializeTransaction
    rw [hrun]
    rfl
  · intro opts other
    have hcommon : serializeCommon (tx.readBack P networkByte raw p g) other = .ok common := by
      obtain ⟨sender', hsender', hcommon⟩ := bind_eq_ok.mp hparts.common
      exact bind_eq_ok.mpr ⟨sender', Hex.decode_toLower hsender', hcommon⟩
    have hwire : (tx.readBack P networkByte raw p g).wireVendor = tx.wireVendor :=
      Transaction.wireVendor_eq ⟨rfl, rfl, rfl⟩ rfl
    have hvendor : serializeVendorField (tx.readBack P networkByte raw p g) = .ok vendor := by
      rw [serializeVendorField_ok, hwire]
      exact serializeVendorField_ok.mp hparts.vendor
    have hreceived : WireParts P (tx.readBack P networkByte raw p g) other common vendor payload :=
      ⟨hparts.version, hcommon, hvendor, hp.writes⟩
    have hone := serializeTransaction_ok.mpr ⟨common, vendor, payload, _, hreceived,
      hg.sections.serializeSignatures opts, rfl⟩
    have htwo := serializeTransaction_ok.mpr ⟨common, vendor, payload, _, hparts,
      hsections.serializeSignatures opts, rfl⟩
    exact hone.trans htwo.symm

namespace Rules

theorem checkPqBlocks_cons_ok {previous : Option PqSignatureBlock} {b : PqSignatureBlock}
    {rest : List PqSignatureBlock} {u : Unit} :
    checkPqBlocks previous (b :: rest) = .ok u ↔ ∃ want, pqBlockLength b.algorithm = .ok want ∧
      b.signature.utf8ByteSize = want * 2 ∧ Hex.isHex b.signature ∧
      (previous.any fun p => p.algorithm > b.algorithm) = false ∧
      checkPqBlocks (some b) rest = .ok u := by
  rw [checkPqBlocks]
  simp only [bind_eq_ok, refuse_ok, exists_and_left, exists_const, Bool.or_eq_false_iff, ne_eq,
    decide_eq_false_iff_not, not_not, Bool.not_eq_false', and_assoc]

/-- Blocks of known algorithms, in hex. -/
theorem checkPqBlocks_mem {previous : Option PqSignatureBlock} {blocks : List PqSignatureBlock}
    (h : checkPqBlocks previous blocks = .ok ()) :
    ∀ b ∈ blocks, b.algorithm ≠ 0xff ∧ Hex.isHex b.signature := by
  induction blocks generalizing previous with
  | nil => simp
  | cons b rest ih =>
      obtain ⟨want, hwant, -, hhex, -, hrest⟩ := checkPqBlocks_cons_ok.mp h
      intro c hc
      rcases List.mem_cons.mp hc with rfl | hc
      · refine ⟨?_, hhex⟩
        intro hmark
        rw [hmark] at hwant
        simp [pqBlockLength, algMlDsa44] at hwant
      · exact ih hrest c hc

theorem checkPqBlocks_received {previous : Option PqSignatureBlock}
    {blocks : List PqSignatureBlock} (h : checkPqBlocks previous blocks = .ok ()) :
    checkPqBlocks (previous.map PqSignatureBlock.received) (blocks.map PqSignatureBlock.received) =
      .ok () := by
  induction blocks generalizing previous with
  | nil => rfl
  | cons b rest ih =>
      obtain ⟨want, hwant, hsize, hhex, horder, hrest⟩ := checkPqBlocks_cons_ok.mp h
      obtain ⟨hlower, hsame⟩ := Hex.isHex_toLower hhex
      refine checkPqBlocks_cons_ok.mpr ⟨want, hwant, hsame.trans hsize, hlower, ?_, ih hrest⟩
      cases previous with
      | none => rfl
      | some q => exact horder

theorem pqSurcharge_received {d tx : Transaction} (hpq : d.isPq = tx.isPq)
    (hblocks : tx.isPq → d.pqBlocks = tx.pqBlocks.map PqSignatureBlock.received)
    (hhex : tx.isPq → ∀ b ∈ tx.pqBlocks, Hex.isHex b.signature) (feePerByte : UInt64) :
    pqSurcharge d feePerByte = pqSurcharge tx feePerByte := by
  unfold pqSurcharge
  rw [hpq]
  cases htx : tx.isPq with
  | false => rfl
  | true =>
      have hsizes : (tx.pqBlocks.map PqSignatureBlock.received).map
          (fun b => 3 + UInt64.ofNat (b.signature.utf8ByteSize / 2)) =
          tx.pqBlocks.map fun b => 3 + UInt64.ofNat (b.signature.utf8ByteSize / 2) := by
        rw [List.map_map]
        apply List.map_congr_left
        intro b hb
        have hsame := (Hex.isHex_toLower (hhex htx b hb)).2
        change 3 + UInt64.ofNat (b.signature.toLower.utf8ByteSize / 2) = _
        rw [hsame]
      rw [hblocks htx, hsizes]

theorem checkPqFormat_ok {tx : Transaction} {ms : Milestone} {u : Unit} (hpq : tx.isPq = true) :
    checkPqFormat tx ms = .ok u ↔ ms.pq.active ∧ tx.pqBlocks.length ≤ 2 ∧
      checkPqBlocks none tx.pqBlocks = .ok () ∧ tx.secondSignatureAny = none ∧
      (isSecondSignature tx → checkPqRegistration tx = .ok ()) ∧
      (tx.typeGroup = typeGroupCore →
        ¬ tx.fee < ms.staticFeeForType tx.type + pqSurcharge tx ms.pq.feePerByte) := by
  unfold checkPqFormat
  rw [hpq]
  simp only [Bool.not_true, Bool.false_eq_true, if_false, bind_eq_ok, refuse_ok, exists_and_left,
    exists_const, Bool.not_eq_false', gt_iff_lt, decide_eq_false_iff_not, not_lt,
    Option.isSome_eq_false_iff, Option.isNone_iff_eq_none]
  have hunit : ∀ check : Check Unit, (∃ v, check = .ok v) ↔ check = .ok () :=
    fun check => ⟨fun h => h.choose_spec, fun h => ⟨(), h⟩⟩
  by_cases hsecond : isSecondSignature tx = true
  · by_cases hgroup : tx.typeGroup = typeGroupCore
    · simp [hsecond, hgroup, bind_eq_ok, hunit]
    · simp [hsecond, hgroup, hunit]
  · by_cases hgroup : tx.typeGroup = typeGroupCore
    · simp [hsecond, hgroup, hunit]
    · simp [hsecond, hgroup, hunit]

end Rules

/-- The network byte matters only to transactions without one. -/
theorem serializeTransaction_network {P : Primitives} {tx : Transaction} {networkByte other : UInt8}
    (h : tx.network.isSome ∨ networkByte = other) (opts : SerializeOptions) :
    serializeTransaction P tx opts networkByte = serializeTransaction P tx opts other := by
  rcases h with h | rfl
  · have hcommon : serializeCommon tx networkByte = serializeCommon tx other := by
      obtain ⟨byte, hbyte⟩ := Option.isSome_iff_exists.mp h
      unfold serializeCommon
      rw [hbyte]
      rfl
    unfold serializeTransaction
    rw [hcommon]
  · rfl

theorem Transaction.isSobj_of_tokenType {tx : Transaction} {type : TokenType}
    (h : tx.tokenType = some type) : tx.isSobj = false := by
  unfold Transaction.tokenType at h
  unfold Transaction.isSobj
  split_ifs at h with hgroup
  rw [hgroup]
  rfl

theorem Transaction.coreType_of_tokenType {tx : Transaction} {type : TokenType}
    (h : tx.tokenType = some type) : tx.coreType = none := by
  unfold Transaction.tokenType at h
  unfold Transaction.coreType
  split_ifs at h with hgroup
  rw [hgroup]
  rfl

theorem Transaction.coreType_of_isSobj {tx : Transaction} (h : tx.isSobj = true) :
    tx.coreType = none := by
  simp only [Transaction.isSobj, Bool.and_eq_true, decide_eq_true_eq] at h
  unfold Transaction.coreType
  rw [h.1]
  rfl

namespace ReadBack

variable {P : Primitives} {tx : Transaction} {networkByte : UInt8} {raw : Bytes} {p : Payload}
  {g : SignatureFields}

theorem verifySignature (hP : P.Lawful) (h : ReadBack P tx networkByte raw p g)
    (hnetwork : tx.network.isSome ∨ networkByte = mainnetByte)
    (hsender : ∃ sender, Hex.decode tx.senderPublicKey = .ok sender)
    (hverify : verifyTransactionSignature P tx = .ok true) :
    verifyTransactionSignature P (tx.readBack P networkByte raw p g) = .ok true := by
  obtain ⟨first, middle, last, hsections, hread⟩ := h.signatures
  obtain ⟨sender, hsender⟩ := hsender
  unfold verifyTransactionSignature at hverify ⊢
  cases hsig : tx.signature with
  | none => simp [hsig] at hverify
  | some sig =>
      have hfirst := hsections.first
      simp only [hsig, hexField] at hverify hfirst
      obtain ⟨hash, hhash, hverify⟩ := bind_eq_ok.mp hverify
      have hfield : (tx.readBack P networkByte raw p g).signature = some (Hex.encode first) :=
        hread.signature
      rw [hfield]
      refine bind_eq_ok.mpr ⟨hash, ?_, ?_⟩
      · unfold transactionSigningHash at hhash ⊢
        rw [h.writes, serializeTransaction_network hnetwork]
        exact hhash
      · have hkey : Hex.decode tx.senderPublicKey.toLower = Hex.decode tx.senderPublicKey := by
          rw [hsender, Hex.decode_toLower hsender]
        unfold SthCore.verifySignature at hverify ⊢
        obtain ⟨bytes, hbytes, hverify⟩ := bind_eq_ok.mp hverify
        rw [hfirst] at hbytes
        injection hbytes with hbytes
        subst hbytes
        refine bind_eq_ok.mpr ⟨first, Hex.decode_encode first, ?_⟩
        change (if first.length = 64 then P.verifySchnorrLegacy hash first tx.senderPublicKey.toLower
          else P.verifyEcdsa hash first tx.senderPublicKey.toLower) = .ok true
        rw [hP.schnorr_key hash first _ _ hkey, hP.ecdsa_key hash first _ _ hkey]
        exact hverify

/-- The id and the signature check out again. -/
theorem checkTransaction (hP : P.Lawful) (h : ReadBack P tx networkByte raw p g)
    (hraw : serializeTransaction P tx {} networkByte = .ok raw)
    (hnetwork : tx.network.isSome ∨ networkByte = mainnetByte)
    (hsender : ∃ sender, Hex.decode tx.senderPublicKey = .ok sender)
    (hverify : verifyTransactionSignature P tx = .ok true) :
    VerifyBlock.checkTransaction P (tx.readBack P networkByte raw p g) = [] := by
  have hid : transactionId P (tx.readBack P networkByte raw p g) =
      .ok (Hex.encode (P.sha256 raw)) := by
    unfold transactionId
    rw [h.writes, hraw]
    rfl
  have hfield : (tx.readBack P networkByte raw p g).id = some (Hex.encode (P.sha256 raw)) := rfl
  unfold VerifyBlock.checkTransaction
  rw [hfield]
  simp only [hid, h.verifySignature hP hnetwork hsender hverify, ne_eq, not_true_eq_false, if_false]

theorem checkPqFormat (h : ReadBack P tx networkByte raw p g) {ms : Milestone}
    (hformat : Rules.checkPqFormat tx ms = .ok ()) :
    Rules.checkPqFormat (tx.readBack P networkByte raw p g) ms = .ok () ∧
    Rules.pqSurcharge (tx.readBack P networkByte raw p g) ms.pq.feePerByte =
      Rules.pqSurcharge tx ms.pq.feePerByte := by
  obtain ⟨bytes, -, hpayload⟩ := h.payload
  obtain ⟨first, middle, last, -, hread⟩ := h.signatures
  have hsame : (tx.readBack P networkByte raw p g).isPq = tx.isPq := rfl
  cases hpq : tx.isPq with
  | false =>
      constructor
      · unfold Rules.checkPqFormat
        rw [hsame, hpq]
        rfl
      · unfold Rules.pqSurcharge
        rw [hsame, hpq]
        rfl
  | true =>
      obtain ⟨hactive, hcount, hblocks, hsecond, hregistration, hfee⟩ :=
        (Rules.checkPqFormat_ok hpq).mp hformat
      have hfield : (tx.readBack P networkByte raw p g).pqBlocks =
          tx.pqBlocks.map PqSignatureBlock.received := hread.blocks hpq
      have hsurcharge : Rules.pqSurcharge (tx.readBack P networkByte raw p g) ms.pq.feePerByte =
          Rules.pqSurcharge tx ms.pq.feePerByte :=
        Rules.pqSurcharge_received hsame (fun _ => hfield)
          (fun _ b hb => (Rules.checkPqBlocks_mem hblocks b hb).2) _
      refine ⟨(Rules.checkPqFormat_ok (hsame.trans hpq)).mpr ⟨hactive, ?_, ?_, ?_, ?_, ?_⟩,
        hsurcharge⟩
      · rw [hfield, List.length_map]
        exact hcount
      · rw [hfield]
        exact Rules.checkPqBlocks_received hblocks
      · have hany : (tx.readBack P networkByte raw p g).secondSignatureAny = g.secondSignature :=
          Option.or_none
        rw [hany]
        exact hread.second hpq
      · intro hregister
        exact hpayload.registration hregister hpq (hregistration hregister)
      · intro hgroup
        rw [hsurcharge]
        exact hfee hgroup

/-- The format rules accept what is read back. -/
theorem checkFormat (hP : P.Lawful) (h : ReadBack P tx networkByte raw p g) {ms : Milestone}
    (hformat : VerifyBlock.checkFormat P ms tx = []) :
    VerifyBlock.checkFormat P ms (tx.readBack P networkByte raw p g) = [] := by
  obtain ⟨bytes, hbytes, hpayload⟩ := h.payload
  have hkind : SameKind (tx.readBack P networkByte raw p g) tx := ⟨rfl, rfl, rfl⟩
  unfold VerifyBlock.checkFormat at hformat ⊢
  simp only [List.append_eq_nil_iff] at hformat ⊢
  obtain ⟨hpqFormat, hformat⟩ := hformat
  obtain ⟨u, hpqFormat⟩ := VerifyBlock.complaint_eq_nil.mp hpqFormat
  obtain ⟨hpq, hsurcharge⟩ := h.checkPqFormat hpqFormat
  refine ⟨VerifyBlock.complaint_eq_nil.mpr ⟨(), hpq⟩, ?_⟩
  rw [hkind.typeGroup, hkind.isToken, hkind.isSobj]
  split_ifs at hformat ⊢ with hgroup htoken htokens hsobj hactive
  · rfl
  · obtain ⟨a, ha⟩ := VerifyBlock.complaint_eq_nil.mp hformat
    obtain ⟨type, htype, hasset, -, hvendor, hid, fee, hfee, hpaid⟩ := Rules.checkTokenFormat_ok.mp ha
    refine VerifyBlock.complaint_eq_nil.mpr ⟨a.received P type, Rules.checkTokenFormat_ok.mpr ?_⟩
    have hbody : serializeToken P tx type = .ok bytes := by
      unfold serializeTypePayload at hbytes
      rw [tx.isSobj_of_tokenType htype, htype] at hbytes
      exact hbytes
    obtain ⟨id, body, hhex, -, hwritten, -⟩ := (serializeToken_ok hasset).mp hbody
    have hplain : (tx.readBack P networkByte raw p g).amount = 0 := by
      refine hpayload.amount.trans ?_
      rw [tx.coreType_of_tokenType htype]
      rfl
    have hsilent : tx.wireVendor = none := by
      unfold Transaction.wireVendor Text.nonempty
      rw [Option.any_eq_false] at hvendor
      rw [Option.filter_eq_none_iff.mpr fun v hv => by simp [hvendor v hv]]
      exact ite_self none
    refine ⟨type, htype, hpayload.token type a htype hasset, hplain, ?_, ?_, fee, ?_, ?_⟩
    · change (tx.wireVendor.any fun v => !v.isEmpty) = false
      rw [hsilent]
      rfl
    · rw [TokenAsset.received_id]
      exact Text.isId_toLower hid (Hex.isHex_iff.mpr ⟨id, hhex⟩)
    · exact Rules.tokenFee_received hwritten hfee
    · rw [hsurcharge]
      exact hpaid
  · obtain ⟨e, he⟩ := VerifyBlock.complaint_eq_nil.mp hformat
    obtain ⟨hasset, -, action, hfee, hwell⟩ := Rules.checkSobjFormat_ok.mp he
    refine VerifyBlock.complaint_eq_nil.mpr ⟨e.received, Rules.checkSobjFormat_ok.mpr ?_⟩
    have hplain : (tx.readBack P networkByte raw p g).amount = 0 := by
      refine hpayload.amount.trans ?_
      rw [tx.coreType_of_isSobj (by simpa using hsobj)]
      rfl
    refine ⟨hpayload.sobj e hasset, hplain, action, ?_, hwell.received hP⟩
    rw [hsurcharge]
    exact hfee

end ReadBack

end SthCore
