import SthCore.Crypto.Tokens
import SthCore.Rules.Quantum

/-!
The payload of a transaction of each type, as it is read back from its bytes.
-/

namespace SthCore

open SthCore.Lib

/-- The fields of a transaction that its payload sets. -/
structure Payload where
  amount : UInt64 := 0
  expiration : Option UInt32 := none
  recipientId : Option Text := none
  asset : Option TransactionAsset := none

/-- The transaction with the fields of another payload. -/
def Transaction.withPayload (tx : Transaction) (p : Payload) : Transaction :=
  { tx with amount := p.amount, expiration := p.expiration, recipientId := p.recipientId
            asset := p.asset }

/-- Records of a sign byte and 33 bytes of a key. -/
def VoteRecords (count : Nat) (raw : Bytes) : Prop :=
  ∃ records : List (UInt8 × Bytes), records.length = count ∧
    (∀ r ∈ records, (r.1 = 0 ∨ r.1 = 1) ∧ r.2.length = 33) ∧
    raw = (records.map fun r => r.1 :: r.2).flatten

/-- What the serializer takes for granted about a payload and the reader relies on: counts
that fit their field, and hex texts that fill the bytes they are read from. -/
def CoreReadable (P : Primitives) (tx : Transaction) : CoreType → Prop
  | .transfer => tx.recipientId.isSome
  | .secondSignature => True
  | .delegateRegistration => ∀ a ∈ tx.asset, ∀ d ∈ a.delegate, (utf8Bytes d.username).length ≤ 255
  | .vote => ∀ a ∈ tx.asset, ∀ votes ∈ a.votes, ∀ bodies, votes.mapM serializeVote = .ok bodies →
      votes.length ≤ 255 ∧ VoteRecords votes.length bodies.flatten
  | .multiSignature => ∀ a ∈ tx.asset, ∀ ms ∈ a.multiSignature, ∀ keys,
      ms.publicKeys.mapM Hex.decode = .ok keys →
      ms.publicKeys.length ≤ 255 ∧ keys.flatten.length = 33 * ms.publicKeys.length
  | .ipfs => ∀ a ∈ tx.asset, ∀ text ∈ a.ipfs, ∀ raw, P.base58Decode text = .ok raw → counted raw
  | .multiPayment => ∀ a ∈ tx.asset, ∀ payments ∈ a.payments, payments.length ≤ 65535
  | .delegateResignation => True
  | .htlcLock => ∃ lock secret, tx.asset.bind (·.lock) = some lock ∧
      Hex.decode lock.secretHash = .ok secret ∧
      secret.length + (if tx.recipientId.isSome then 21 else 0) = 53
  | .htlcClaim => ∃ claim lock secret, tx.asset.bind (·.claim) = some claim ∧
      Hex.decode claim.lockTransactionId = .ok lock ∧ Hex.decode claim.unlockSecret = .ok secret ∧
      lock.length + secret.length = 64
  | .htlcRefund => ∃ refund lock, tx.asset.bind (·.refund) = some refund ∧
      Hex.decode refund.lockTransactionId = .ok lock ∧ lock.length = 32

/-- Types whose amount is on the wire. -/
def CoreType.carriesAmount : CoreType → Bool
  | .transfer | .htlcLock => true
  | _ => false

/-- A payload that is read from the given bytes and written to them again. -/
structure CoreRead (P : Primitives) (tx head : Transaction) (type : CoreType) (raw : Bytes)
    (p : Payload) : Prop where
  reads : Reads (deserializeCore P (head.withPayload {}) type) raw (head.withPayload p)
  writes : serializeCore P (head.withPayload p) type = .ok raw
  amount : p.amount = if type.carriesAmount then tx.amount else 0
  expiration : p.expiration = none ∨ p.expiration = some (tx.expiration.getD 0)
  registration : type = .secondSignature → tx.isPq → Rules.checkPqRegistration tx = .ok () →
    Rules.checkPqRegistration (head.withPayload p) = .ok ()

theorem Rules.checkPqRegistration_ok {tx : Transaction} {u : Unit} :
    Rules.checkPqRegistration tx = .ok u ↔ ∃ sig, tx.asset.bind (·.signature) = some sig ∧
      sig.algorithm = some algMlDsa44 ∧ sig.publicKey.utf8ByteSize = pqPkLen * 2 ∧
      Hex.isHex sig.publicKey := by
  unfold Rules.checkPqRegistration
  simp only [bind_eq_ok, Rules.need_ok, Rules.refuse_ok, exists_and_left, exists_const, ne_eq,
    decide_eq_false_iff_not, not_not, Bool.or_eq_false_iff, Bool.not_eq_false']

section Core

variable {P : Primitives} {tx head : Transaction} {raw : Bytes}

theorem coreRead_transfer (hP : P.Lawful) (h : serializeCore P tx .transfer = .ok raw)
    (hread : CoreReadable P tx .transfer) : ∃ p, CoreRead P tx head .transfer raw p := by
  obtain ⟨r, hr⟩ := Option.isSome_iff_exists.mp hread
  simp only [serializeCore, serializeRecipient, hr, bind_eq_ok, pure_eq_ok] at h
  obtain ⟨address, haddress, rfl⟩ := h
  refine ⟨{ amount := tx.amount, expiration := some (tx.expiration.getD 0), recipientId := some r },
    ?_, ?_, rfl, .inr rfl, by rintro ⟨⟩⟩
  · rw [List.append_assoc]
    exact (Reads.u64 _).bind ((Reads.u32 _).bind ((Reads.address hP haddress).bind_pure _))
  · exact bind_eq_ok.mpr ⟨address, haddress, rfl⟩

theorem coreRead_secondSignature (h : serializeCore P tx .secondSignature = .ok raw)
    (hversion : head.isPq = tx.isPq)
    (hkey : tx.isPq = false → ∀ sig pk, tx.asset.bind (·.signature) = some sig →
      Hex.decode sig.publicKey = .ok pk → pk.length = 33) :
    ∃ p, CoreRead P tx head .secondSignature raw p := by
  simp only [serializeCore, bind_eq_ok, required_ok] at h
  obtain ⟨a, ha, sig, hsig, h⟩ := h
  have hfield : tx.asset.bind (·.signature) = some sig := by rw [ha, Option.bind_some, hsig]
  have hhead : ∀ p, (head.withPayload p).isPq = tx.isPq := fun _ => hversion
  cases hpq : tx.isPq with
  | true =>
      simp only [hpq, if_true, bind_eq_ok, throw_bind, ite_error_eq_ok, pure_eq_ok, gt_iff_lt,
        not_lt] at h
      obtain ⟨pk, hpk, hlen, rfl⟩ := h
      have hlower := Hex.encode_of_decode hpk
      let received : SecondSignatureAsset :=
        { publicKey := sig.publicKey.toLower, algorithm := some (sig.algorithm.getD 0) }
      refine ⟨{ asset := some { signature := some received } }, ?_, ?_, rfl, .inl rfl, ?_⟩
      · unfold deserializeCore
        simp only [hhead, hpq, if_true]
        apply Reads.of_append_nil
        simp only [List.cons_append, List.append_assoc]
        apply Reads.bind_u8
        apply (Reads.u16 _).bind
        rw [toNat_ofNat_u16 hlen]
        apply (Reads.hex rfl).bind
        rw [hlower]
        exact Reads.pure _
      · unfold serializeCore
        simp only [hhead, hpq, if_true]
        refine bind_eq_ok.mpr ⟨_, rfl, bind_eq_ok.mpr ⟨received, rfl, ?_⟩⟩
        refine bind_eq_ok.mpr ⟨pk, Hex.decode_toLower hpk, ?_⟩
        rw [if_neg (not_lt.mpr hlen)]
        rfl
      · intro _ _ hregistration
        obtain ⟨sig', hsig', halgorithm, hsize, hhex⟩ :=
          Rules.checkPqRegistration_ok.mp hregistration
        rw [hfield] at hsig'
        injection hsig' with hsig'
        subst hsig'
        obtain ⟨hlowerHex, hlowerSize⟩ := Hex.isHex_toLower hhex
        refine Rules.checkPqRegistration_ok.mpr
          ⟨received, rfl, ?_, hlowerSize.trans hsize, hlowerHex⟩
        simp [received, halgorithm]
  | false =>
      simp only [hpq, Bool.false_eq_true, if_false] at h
      have hlen := hkey hpq sig raw hfield h
      let received : SecondSignatureAsset := { publicKey := sig.publicKey.toLower }
      refine ⟨{ asset := some { signature := some received } }, ?_, ?_, rfl, .inl rfl, ?_⟩
      · unfold deserializeCore
        simp only [hhead, hpq, Bool.false_eq_true, if_false]
        apply Reads.of_append_nil
        apply (Reads.hex hlen).bind
        rw [Hex.encode_of_decode h]
        exact Reads.pure _
      · unfold serializeCore
        simp only [hhead, hpq, Bool.false_eq_true, if_false]
        exact bind_eq_ok.mpr ⟨_, rfl, bind_eq_ok.mpr ⟨received, rfl, Hex.decode_toLower h⟩⟩
      · intro _ htrue
        rw [hpq] at htrue
        cases htrue

theorem coreRead_delegate (h : serializeCore P tx .delegateRegistration = .ok raw)
    (hread : CoreReadable P tx .delegateRegistration) :
    ∃ p, CoreRead P tx head .delegateRegistration raw p := by
  simp only [serializeCore, bind_eq_ok, required_ok, pure_eq_ok] at h
  obtain ⟨a, ha, d, hd, rfl⟩ := h
  have hlen := hread a ha d hd
  refine ⟨{ asset := some { delegate := some d } }, ?_, rfl, rfl, .inl rfl, by rintro ⟨⟩⟩
  apply Reads.of_append_nil
  apply Reads.bind_u8
  rw [u8of_toNat hlen]
  apply (Reads.bytes rfl).bind
  have hname : Text.ofUtf8 (utf8Bytes d.username) = some d.username := Text.ofUtf8_utf8Bytes _
  rw [hname]
  exact Reads.pure _

theorem coreRead_vote (h : serializeCore P tx .vote = .ok raw)
    (hread : CoreReadable P tx .vote) : ∃ p, CoreRead P tx head .vote raw p := by
  simp only [serializeCore, bind_eq_ok, required_ok, pure_eq_ok] at h
  obtain ⟨a, ha, votes, hvotes, bodies, hbodies, rfl⟩ := h
  obtain ⟨hcount, records, hlen, hrecords, hflat⟩ := hread a ha votes hvotes bodies hbodies
  have hvote : ∀ r ∈ records, Reads deserializeVote (r.1 :: r.2)
      (Text.ofString (if r.1 = 1 then "+" else "-") ++ Hex.encode r.2) := by
    intro r hr
    apply Reads.bind_u8
    exact (Reads.hex (hrecords r hr).2).bind_pure _
  refine ⟨{ asset := some { votes := some (records.map fun r =>
    Text.ofString (if r.1 = 1 then "+" else "-") ++ Hex.encode r.2) } },
    ?_, ?_, rfl, .inl rfl, by rintro ⟨⟩⟩
  · apply Reads.bind_u8
    rw [u8of_toNat hcount, hflat, ← hlen]
    exact (Reads.map_flatten hvote).bind_pure _
  · have hwrite : (records.map fun r =>
        Text.ofString (if r.1 = 1 then "+" else "-") ++ Hex.encode r.2).mapM serializeVote =
        .ok (records.map fun r => r.1 :: r.2) := by
      refine mapM_map_ok fun r hr => ?_
      obtain ⟨hsign, -⟩ := hrecords r hr
      have hdecode : Hex.decode (Hex.encode r.2) = .ok r.2 := Hex.decode_encode r.2
      rcases hsign with hsign | hsign
      · rw [hsign]
        exact bind_eq_ok.mpr ⟨r.2, hdecode, rfl⟩
      · rw [hsign]
        exact bind_eq_ok.mpr ⟨r.2, hdecode, rfl⟩
    refine bind_eq_ok.mpr ⟨_, rfl, bind_eq_ok.mpr ⟨_, rfl, bind_eq_ok.mpr ⟨_, hwrite, ?_⟩⟩⟩
    rw [List.length_map, hlen, hflat]
    rfl

theorem coreRead_multiSignature (h : serializeCore P tx .multiSignature = .ok raw)
    (hread : CoreReadable P tx .multiSignature) :
    ∃ p, CoreRead P tx head .multiSignature raw p := by
  simp only [serializeCore, bind_eq_ok, required_ok, pure_eq_ok] at h
  obtain ⟨a, ha, ms, hms, keys, hkeys, rfl⟩ := h
  obtain ⟨hcount, htotal⟩ := hread a ha ms hms keys hkeys
  obtain ⟨pieces, hlen, hwidth, hflat⟩ := exists_pieces _ htotal
  let received : MultiSignatureAsset := { min := ms.min, publicKeys := pieces.map Hex.encode }
  refine ⟨{ asset := some { multiSignature := some received } }, ?_, ?_, rfl, .inl rfl, by rintro ⟨⟩⟩
  · apply Reads.bind_u8
    apply Reads.bind_u8
    rw [u8of_toNat hcount, ← hflat, ← hlen]
    exact (Reads.pieces hwidth).bind_pure _
  · refine bind_eq_ok.mpr ⟨_, rfl, bind_eq_ok.mpr ⟨_, rfl,
      bind_eq_ok.mpr ⟨_, mapM_decode_encode pieces, ?_⟩⟩⟩
    rw [List.length_map, hlen, hflat]
    rfl

theorem coreRead_ipfs (hP : P.Lawful) (h : serializeCore P tx .ipfs = .ok raw)
    (hread : CoreReadable P tx .ipfs) : ∃ p, CoreRead P tx head .ipfs raw p := by
  simp only [serializeCore, bind_eq_ok, required_ok] at h
  obtain ⟨a, ha, text, htext, h⟩ := h
  have hdecode : P.base58Decode text = .ok raw := by
    cases hraw : P.base58Decode text with
    | error e => simp [hraw, Except.wrap] at h
    | ok bytes => simpa [hraw, Except.wrap] using h
  have hcounted := hread a ha text htext raw hdecode
  have hencode := hP.base58_encode text raw hdecode
  refine ⟨{ asset := some { ipfs := some text } }, ?_, ?_, rfl, .inl rfl, by rintro ⟨⟩⟩
  · match raw, hcounted, hencode with
    | hashFn :: len :: digest, hcounted, hencode =>
        have hlen : digest.length = len.toNat := by simpa [counted] using hcounted
        have hipfs : Reads (deserializeIpfs P) (hashFn :: len :: digest) text := by
          rw [← hencode]
          apply Reads.bind_u8
          apply Reads.bind_u8
          exact (Reads.bytes hlen).bind_pure fun x => P.base58Encode (hashFn :: len :: x)
        exact hipfs.bind_pure _
  · refine bind_eq_ok.mpr ⟨_, rfl, bind_eq_ok.mpr ⟨_, rfl, h⟩⟩

theorem coreRead_multiPayment (hP : P.Lawful) (h : serializeCore P tx .multiPayment = .ok raw)
    (hread : CoreReadable P tx .multiPayment) :
    ∃ p, CoreRead P tx head .multiPayment raw p := by
  simp only [serializeCore, bind_eq_ok, required_ok] at h
  obtain ⟨a, ha, payments, hpayments, bodies, hbodies, h⟩ := h
  rw [pure_eq_ok] at h
  subst h
  have hcount := hread a ha payments hpayments
  have hitems : Reads (Reader.times payments.length (do
      let amount ← Reader.u64
      return { amount, recipientId := ← readAddress P : Payment }))
      bodies.flatten (payments.map fun p => p) := by
    refine Reads.mapM hbodies fun item _ body hbody => ?_
    obtain ⟨address, haddress, hbody⟩ := bind_eq_ok.mp hbody
    rw [pure_eq_ok] at hbody
    subst hbody
    exact (Reads.u64 _).bind ((Reads.address hP haddress).bind_pure _)
  rw [List.map_id'] at hitems
  refine ⟨{ asset := some { payments := some payments } }, ?_, ?_, rfl, .inl rfl, by rintro ⟨⟩⟩
  · apply (Reads.u16 _).bind
    rw [toNat_ofNat_u16 hcount]
    exact hitems.bind_pure _
  · exact bind_eq_ok.mpr ⟨_, rfl, bind_eq_ok.mpr ⟨_, rfl, bind_eq_ok.mpr ⟨_, hbodies, rfl⟩⟩⟩

theorem coreRead_resignation (h : serializeCore P tx .delegateResignation = .ok raw) :
    ∃ p, CoreRead P tx head .delegateResignation raw p := by
  rw [serializeCore, pure_eq_ok] at h
  subst h
  exact ⟨{}, Reads.pure _, rfl, rfl, .inl rfl, by rintro ⟨⟩⟩

/-- Any 58 bytes are a secret hash, an expiration and an address. -/
theorem exists_lockBytes {tail : Bytes} (h : tail.length = 58) :
    ∃ (secret : Bytes) (type : UInt8) (value : UInt32) (address : Bytes), secret.length = 32 ∧
      address.length = 21 ∧ tail = secret ++ (type :: (u32le value ++ address)) := by
  have hdrop : (tail.drop 32).length = 26 := by
    rw [List.length_drop, h]
  match hrest : tail.drop 32, hdrop with
  | type :: rest, hdrop =>
      have hlength : rest.length = 25 := by simpa using hdrop
      have hfour : (rest.take 4).length = 4 := by
        rw [List.length_take]
        omega
      have hvalue : u32le (UInt32.ofNat (ofLeBytes (rest.take 4))) = rest.take 4 := by
        have hlt := ofLeBytes_lt (rest.take 4)
        rw [hfour] at hlt
        have hback := leBytes_ofLeBytes (rest.take 4)
        rw [hfour] at hback
        rw [u32le, UInt32.toNat_ofNat_of_lt' hlt, hback]
      refine ⟨tail.take 32, type, UInt32.ofNat (ofLeBytes (rest.take 4)), rest.drop 4, ?_, ?_, ?_⟩
      · rw [List.length_take]
        omega
      · rw [List.length_drop]
        omega
      · rw [hvalue, List.take_append_drop, ← hrest, List.take_append_drop]

theorem coreRead_htlcLock (hP : P.Lawful) (h : serializeCore P tx .htlcLock = .ok raw)
    (hread : CoreReadable P tx .htlcLock) : ∃ p, CoreRead P tx head .htlcLock raw p := by
  obtain ⟨lock, secret, hlock, hsecret, htotal⟩ := hread
  simp only [serializeCore, hlock, hsecret, ok_bind, pure_bind, bind_eq_ok, pure_eq_ok] at h
  obtain ⟨address, haddress, rfl⟩ := h
  have hwidth : address.length = if tx.recipientId.isSome then 21 else 0 := by
    unfold serializeRecipient at haddress
    cases hr : tx.recipientId with
    | none =>
        rw [hr] at haddress
        injection haddress with haddress
        rw [← haddress]
        rfl
    | some r =>
        rw [hr] at haddress
        exact (addressToBytes_ok.mp haddress).2
  have hsize : (secret ++ (lock.expiration.type ::
      (u32le lock.expiration.value ++ address))).length = 58 := by
    simp only [List.length_append, List.length_cons, u32le, leBytes_length, hwidth]
    omega
  obtain ⟨hash, type, value, recipient, hhash, hrecipient, htail⟩ := exists_lockBytes hsize
  have hbytes : u64le tx.amount ++ (secret ++ lock.expiration.type :: u32le lock.expiration.value) ++
      address = u64le tx.amount ++ (hash ++ (type :: (u32le value ++ recipient))) := by
    rw [← htail]
    simp
  rw [hbytes]
  let received : HtlcLockAsset := { secretHash := Hex.encode hash, expiration := { type, value } }
  refine ⟨{ amount := tx.amount, recipientId := some (addressFromBytes P recipient)
            asset := some { lock := some received } }, ?_, ?_, rfl, .inl rfl, by rintro ⟨⟩⟩
  · apply Reads.of_append_nil
    simp only [List.append_assoc, List.cons_append]
    apply (Reads.u64 _).bind
    apply (Reads.hex hhash).bind
    apply Reads.bind_u8
    apply (Reads.u32 _).bind
    have haddr : Reads (readAddress P) recipient (addressFromBytes P recipient) :=
      (Reads.bytes hrecipient).bind_pure _
    apply haddr.bind
    exact Reads.pure _
  · have haddr : addressToBytes P (addressFromBytes P recipient) = .ok recipient :=
      addressToBytes_ok.mpr ⟨hP.base58Check_decode recipient, hrecipient⟩
    have hdecode : Hex.decode (Hex.encode hash) = .ok hash := Hex.decode_encode hash
    refine bind_eq_ok.mpr ⟨hash, hdecode, bind_eq_ok.mpr ⟨_, rfl, ?_⟩⟩
    refine bind_eq_ok.mpr ⟨recipient, haddr, ?_⟩
    simp [received, Transaction.withPayload]

theorem coreRead_htlcClaim (h : serializeCore P tx .htlcClaim = .ok raw)
    (hread : CoreReadable P tx .htlcClaim) : ∃ p, CoreRead P tx head .htlcClaim raw p := by
  obtain ⟨claim, lock, secret, hclaim, hlock, hsecret, htotal⟩ := hread
  simp only [serializeCore, hclaim, hlock, hsecret, ok_bind, pure_eq_ok] at h
  have hlength : raw.length = 64 := by rw [← h, List.length_append, htotal]
  have hfirst : (raw.take 32).length = 32 := by
    rw [List.length_take]
    omega
  have hsecond : (raw.drop 32).length = 32 := by
    rw [List.length_drop]
    omega
  let received : HtlcClaimAsset :=
    { lockTransactionId := Hex.encode (raw.take 32), unlockSecret := Hex.encode (raw.drop 32) }
  refine ⟨{ asset := some { claim := some received } }, ?_, ?_, rfl, .inl rfl, by rintro ⟨⟩⟩
  · have hreads : Reads (deserializeCore P (head.withPayload {}) .htlcClaim)
        (raw.take 32 ++ raw.drop 32) _ :=
      (Reads.hex hfirst).bind ((Reads.hex hsecond).bind_pure _)
    rw [List.take_append_drop] at hreads
    exact hreads
  · refine bind_eq_ok.mpr ⟨raw.take 32, Hex.decode_encode _,
      bind_eq_ok.mpr ⟨raw.drop 32, Hex.decode_encode _, ?_⟩⟩
    rw [List.take_append_drop]
    rfl

theorem coreRead_htlcRefund (h : serializeCore P tx .htlcRefund = .ok raw)
    (hread : CoreReadable P tx .htlcRefund) : ∃ p, CoreRead P tx head .htlcRefund raw p := by
  obtain ⟨refund, lock, hrefund, hlock, hlength⟩ := hread
  simp only [serializeCore, hrefund, hlock, Except.ok.injEq] at h
  subst h
  let received : HtlcRefundAsset := { lockTransactionId := Hex.encode lock }
  refine ⟨{ asset := some { refund := some received } }, ?_, Hex.decode_encode lock, rfl,
    .inl rfl, by rintro ⟨⟩⟩
  exact (Reads.hex hlength).bind_pure _

/-- Every core payload that the reader's layout fits is read back. -/
theorem exists_coreRead (hP : P.Lawful) {type : CoreType} (h : serializeCore P tx type = .ok raw)
    (hread : CoreReadable P tx type) (hversion : head.isPq = tx.isPq)
    (hkey : type = .secondSignature → tx.isPq = false → ∀ sig pk,
      tx.asset.bind (·.signature) = some sig → Hex.decode sig.publicKey = .ok pk →
      pk.length = 33) :
    ∃ p, CoreRead P tx head type raw p := by
  cases type with
  | transfer => exact coreRead_transfer hP h hread
  | secondSignature => exact coreRead_secondSignature h hversion (hkey rfl)
  | delegateRegistration => exact coreRead_delegate h hread
  | vote => exact coreRead_vote h hread
  | multiSignature => exact coreRead_multiSignature h hread
  | ipfs => exact coreRead_ipfs hP h hread
  | multiPayment => exact coreRead_multiPayment hP h hread
  | delegateResignation => exact coreRead_resignation h
  | htlcLock => exact coreRead_htlcLock hP h hread
  | htlcClaim => exact coreRead_htlcClaim h hread
  | htlcRefund => exact coreRead_htlcRefund h hread

end Core

/-- Transactions of one version, group and type. -/
structure SameKind (d tx : Transaction) : Prop where
  version : d.version = tx.version
  typeGroup : d.typeGroup = tx.typeGroup
  type : d.type = tx.type

namespace SameKind

variable {d tx : Transaction}

theorem isPq (h : SameKind d tx) : d.isPq = tx.isPq := by
  unfold Transaction.isPq
  rw [h.version]

theorem isSobj (h : SameKind d tx) : d.isSobj = tx.isSobj := by
  unfold Transaction.isSobj
  rw [h.typeGroup, h.type]

theorem tokenType (h : SameKind d tx) : d.tokenType = tx.tokenType := by
  unfold Transaction.tokenType
  rw [h.typeGroup, h.type]

theorem coreType (h : SameKind d tx) : d.coreType = tx.coreType := by
  unfold Transaction.coreType
  rw [h.typeGroup, h.type]

theorem isToken (h : SameKind d tx) : d.isToken = tx.isToken := by
  unfold Transaction.isToken
  rw [h.tokenType]

theorem hasVendorField (h : SameKind d tx) : d.hasVendorField = tx.hasVendorField := by
  unfold Transaction.hasVendorField
  rw [h.coreType]

theorem isSecondSignature (h : SameKind d tx) :
    Rules.isSecondSignature d = Rules.isSecondSignature tx := by
  unfold Rules.isSecondSignature
  rw [h.typeGroup, h.type]

end SameKind

theorem CoreType.ofCode_secondSignature {code : UInt16}
    (h : CoreType.ofCode code = some .secondSignature) : code = 1 := by
  by_contra hne
  unfold CoreType.ofCode at h
  rw [if_neg hne] at h
  repeat (split at h; · cases h)
  cases h

theorem isSecondSignature_iff {tx : Transaction} :
    Rules.isSecondSignature tx = true ↔ tx.coreType = some .secondSignature := by
  unfold Rules.isSecondSignature Transaction.coreType
  rw [Bool.and_eq_true, decide_eq_true_eq, decide_eq_true_eq]
  constructor
  · rintro ⟨hgroup, htype⟩
    rw [if_pos hgroup, htype]
    rfl
  · intro h
    split_ifs at h with hgroup
    exact ⟨hgroup, CoreType.ofCode_secondSignature h⟩

theorem TokenAsset.received_id (P : Primitives) (a : TokenAsset) (type : TokenType) :
    (a.received P type).id = a.id.toLower := by
  cases type <;> rfl

/-- A payload of any type that is read from its bytes and written to them again. -/
structure PayloadRead (P : Primitives) (tx head : Transaction) (raw : Bytes) (p : Payload) :
    Prop where
  reads : Reads (deserializeTypePayload P (head.withPayload {})) raw (head.withPayload p)
  writes : serializeTypePayload P (head.withPayload p) = .ok raw
  amount : p.amount = if tx.coreType.any CoreType.carriesAmount then tx.amount else 0
  expiration : p.expiration = none ∨ p.expiration = some (tx.expiration.getD 0)
  registration : Rules.isSecondSignature tx → tx.isPq → Rules.checkPqRegistration tx = .ok () →
    Rules.checkPqRegistration (head.withPayload p) = .ok ()
  token : ∀ type a, tx.tokenType = some type → tx.tokenAsset = some a →
    (head.withPayload p).tokenAsset = some (a.received P type)
  sobj : ∀ e, tx.sobjAsset = some e → (head.withPayload p).sobjAsset = some e.received

section Payload

variable {P : Primitives} {tx head : Transaction} {raw : Bytes}

theorem exists_payloadRead_sobj (hP : P.Lawful) (hkind : SameKind head tx)
    (hsobj : tx.isSobj = true) (h : serializeSobj tx = .ok raw)
    (hformat : ∀ e, tx.sobjAsset = some e → ∃ ms action, Rules.SobjFormat P ms e action) :
    ∃ p, PayloadRead P tx head raw p := by
  obtain ⟨e, he, -⟩ := bind_eq_ok.mp h
  rw [required_ok] at he
  obtain ⟨ms, action, hwell⟩ := hformat e he
  have hhead : ∀ p, (head.withPayload p).isSobj = true := fun _ => hkind.isSobj.trans hsobj
  have hcore : tx.coreType = none := by
    simp only [Transaction.isSobj, Bool.and_eq_true, decide_eq_true_eq] at hsobj
    unfold Transaction.coreType
    rw [hsobj.1]
    rfl
  have htoken : tx.tokenType = none := by
    simp only [Transaction.isSobj, Bool.and_eq_true, decide_eq_true_eq] at hsobj
    unfold Transaction.tokenType
    rw [hsobj.1]
    rfl
  have hasset : (head.withPayload { asset := some { sobj := some e.received } }).sobjAsset =
      some e.received := by
    unfold Transaction.sobjAsset
    rw [hhead]
    rfl
  refine ⟨{ asset := some { sobj := some e.received } }, ?_, ?_, ?_, .inl rfl, ?_, ?_, ?_⟩
  · unfold deserializeTypePayload
    rw [if_pos (hhead _)]
    exact (reads_sobj hP he h).bind_pure _
  · unfold serializeTypePayload
    rw [if_pos (hhead _)]
    exact serializeSobj_received hP hwell he hasset h
  · rw [hcore]
    rfl
  · intro hsecond
    rw [isSecondSignature_iff, hcore] at hsecond
    cases hsecond
  · intro type a htype
    rw [htoken] at htype
    cases htype
  · intro e' he'
    rw [he] at he'
    injection he' with he'
    rw [hasset, he']

theorem exists_payloadRead_token (hP : P.Lawful) (hkind : SameKind head tx) {type : TokenType}
    (htype : tx.tokenType = some type) (h : serializeToken P tx type = .ok raw) :
    ∃ p, PayloadRead P tx head raw p := by
  obtain ⟨a, ha, -⟩ := bind_eq_ok.mp h
  rw [required_ok] at ha
  have hgroup : tx.typeGroup = typeGroupToken := by
    unfold Transaction.tokenType at htype
    split_ifs at htype with hgroup
    exact hgroup
  have hsobj : tx.isSobj = false := by
    unfold Transaction.isSobj
    rw [hgroup]
    rfl
  have hcore : tx.coreType = none := by
    unfold Transaction.coreType
    rw [hgroup]
    rfl
  have hheadSobj : ∀ p, ¬ (head.withPayload p).isSobj = true := by
    intro p hp
    have hfalse : (head.withPayload p).isSobj = false := hkind.isSobj.trans hsobj
    rw [hfalse] at hp
    cases hp
  have hheadType : ∀ p, (head.withPayload p).tokenType = some type :=
    fun _ => hkind.tokenType.trans htype
  have hasset : (head.withPayload { asset := some { token := some (a.received P type) } }).tokenAsset =
      some (a.received P type) := by
    unfold Transaction.tokenAsset Transaction.isToken
    rw [hheadType]
    rfl
  refine ⟨{ asset := some { token := some (a.received P type) } }, ?_, ?_, ?_, .inl rfl, ?_, ?_, ?_⟩
  · unfold deserializeTypePayload
    rw [if_neg (hheadSobj _), hheadType]
    exact (reads_token hP ha h).bind_pure _
  · unfold serializeTypePayload
    rw [if_neg (hheadSobj _), hheadType]
    obtain ⟨id, body, hid, hlen, hbody, rfl⟩ := (serializeToken_ok ha).mp h
    refine (serializeToken_ok hasset).mpr ⟨id, body, ?_, hlen, tokenBody_received hbody, rfl⟩
    rw [TokenAsset.received_id]
    exact Hex.decode_toLower hid
  · rw [hcore]
    rfl
  · intro hsecond
    rw [isSecondSignature_iff, hcore] at hsecond
    cases hsecond
  · intro type' a' htype' ha'
    rw [htype] at htype'
    rw [ha] at ha'
    injection htype' with htype'
    injection ha' with ha'
    rw [hasset, htype', ha']
  · intro e he
    unfold Transaction.sobjAsset at he
    rw [hsobj] at he
    cases he

theorem exists_payloadRead_core (hP : P.Lawful) (hkind : SameKind head tx) {type : CoreType}
    (hsobj : tx.isSobj = false) (htoken : tx.tokenType = none)
    (hgroup : tx.typeGroup = typeGroupCore) (htype : tx.coreType = some type)
    (h : serializeCore P tx type = .ok raw) (hread : CoreReadable P tx type)
    (hkey : Rules.isSecondSignature tx → tx.isPq = false → ∀ sig pk,
      tx.asset.bind (·.signature) = some sig → Hex.decode sig.publicKey = .ok pk →
      pk.length = 33) : ∃ p, PayloadRead P tx head raw p := by
  have hsecond : type = .secondSignature → Rules.isSecondSignature tx = true := by
    intro heq
    rw [isSecondSignature_iff, htype, heq]
  obtain ⟨p, hp⟩ : ∃ p, CoreRead P tx head type raw p :=
    exists_coreRead hP h hread hkind.isPq fun heq => hkey (hsecond heq)
  have hheadSobj : ∀ p, ¬ (head.withPayload p).isSobj = true := by
    intro p hp
    have hfalse : (head.withPayload p).isSobj = false := hkind.isSobj.trans hsobj
    rw [hfalse] at hp
    cases hp
  have hheadToken : ∀ p, (head.withPayload p).tokenType = none :=
    fun _ => hkind.tokenType.trans htoken
  have hheadCore : ∀ p, (head.withPayload p).coreType = some type :=
    fun _ => hkind.coreType.trans htype
  have hheadGroup : ∀ p, ¬ (head.withPayload p).typeGroup ≠ typeGroupCore := by
    intro p
    rw [not_not]
    exact hkind.typeGroup.trans hgroup
  refine ⟨p, ?_, ?_, ?_, hp.expiration, ?_, ?_, ?_⟩
  · unfold deserializeTypePayload
    rw [if_neg (hheadSobj _), hheadToken]
    dsimp only
    rw [if_neg (hheadGroup _), hheadCore]
    exact hp.reads
  · unfold serializeTypePayload
    rw [if_neg (hheadSobj _), hheadToken]
    dsimp only
    rw [if_neg (hheadGroup _), hheadCore]
    exact hp.writes
  · rw [htype]
    exact hp.amount
  · intro hregistration
    rw [isSecondSignature_iff, htype] at hregistration
    injection hregistration with hregistration
    exact hp.registration hregistration
  · intro type' a htype'
    rw [htoken] at htype'
    cases htype'
  · intro e he
    unfold Transaction.sobjAsset at he
    rw [hsobj] at he
    cases he

/-- Every payload that the reader's layout fits is read back. -/
theorem exists_payloadRead (hP : P.Lawful) (hkind : SameKind head tx)
    (h : serializeTypePayload P tx = .ok raw)
    (hread : ∀ type, tx.coreType = some type → CoreReadable P tx type)
    (hkey : Rules.isSecondSignature tx → tx.isPq = false → ∀ sig pk,
      tx.asset.bind (·.signature) = some sig → Hex.decode sig.publicKey = .ok pk → pk.length = 33)
    (hformat : ∀ e, tx.sobjAsset = some e → ∃ ms action, Rules.SobjFormat P ms e action) :
    ∃ p, PayloadRead P tx head raw p := by
  unfold serializeTypePayload at h
  split_ifs at h with hsobj hgroup
  · exact exists_payloadRead_sobj hP hkind hsobj h hformat
  · cases htype : tx.tokenType with
    | some type =>
        rw [htype] at h
        exact exists_payloadRead_token hP hkind htype h
    | none =>
        rw [htype] at h
        simp at h
  · cases htype : tx.tokenType with
    | some type =>
        rw [htype] at h
        exact exists_payloadRead_token hP hkind htype h
    | none =>
        rw [htype] at h
        cases hcore : tx.coreType with
        | none => simp [hcore] at h
        | some type =>
            simp only [hcore] at h
            exact exists_payloadRead_core hP hkind (by simpa using hsobj) htype (by simpa using hgroup)
              hcore h (hread type hcore) hkey

end Payload

end SthCore
