import SthCore.Crypto.Objects
import SthCore.Rules.Token

/-!
The asset of a token transaction as it is read back: the fields that its type
writes, with ids in lower case.
-/

namespace SthCore

open SthCore.Lib

/-- The payload of a token transaction after the id of the token. -/
def tokenBody (P : Primitives) (a : TokenAsset) : TokenType → Except Error Bytes
  | .init => .ok ([a.decimals.getD 0, a.flags.getD 0] ++
      u64le (a.initialSupply.getD 0) ++ u64le (a.supplyCap.getD 0))
  | .transfer => serializeTokenTransfer P a
  | .mint => do
      let recipient ← required a.recipientId "missing recipientId"
      return u64le (a.amount.getD 0) ++ (← addressToBytes P recipient)
  | .sell => .ok (u64le (a.amount.getD 0) ++ u64le (a.price.getD 0))
  | .buy => do
      let oid ← Hex.decode (a.orderId.getD "")
      if oid.length ≠ 32 then .error (.serialization "orderId must be 32 bytes")
      else return oid ++ u64le (a.amount.getD 0)
  | .cancel => do
      let oid ← Hex.decode (a.orderId.getD "")
      if oid.length ≠ 32 then .error (.serialization "orderId must be 32 bytes")
      else return oid
  | .tokenMeta => serializeTokenMeta P a
  | .burn => .ok (u64le (a.amount.getD 0))

theorem serializeToken_ok {P : Primitives} {tx : Transaction} {a : TokenAsset} {type : TokenType}
    {raw : Bytes} (ha : tx.tokenAsset = some a) :
    serializeToken P tx type = .ok raw ↔ ∃ id body, Hex.decode a.id = .ok id ∧ id.length = 32 ∧
      tokenBody P a type = .ok body ∧ raw = id ++ body := by
  have hstep : serializeToken P tx type = (do
      let id ← Hex.decode a.id
      if id.length ≠ 32 then Except.error (Error.serialization "token id must be 32 bytes")
      else do
        let body ← tokenBody P a type
        return id ++ body) := by
    unfold serializeToken
    rw [ha]
    change (Except.ok a >>= _) = _
    rw [ok_bind]
    congr 1
    funext id
    by_cases hlen : id.length = 32
    · simp only [hlen, ne_eq, not_true_eq_false, if_false]
      cases type with
      | buy =>
          simp only [tokenBody, bind_assoc, if_true]
          congr 1
          funext oid
          by_cases hoid : oid.length = 32
          · simp [hoid]
          · simp only [hoid, ne_eq, not_false_eq_true, if_true]
            rfl
      | cancel =>
          simp only [tokenBody, bind_assoc]
          congr 1
          funext oid
          by_cases hoid : oid.length = 32
          · simp [hoid]
          · simp only [hoid, ne_eq, not_false_eq_true, if_true]
            rfl
      | mint => simp only [tokenBody, bind_assoc, pure_bind]
      | _ => rfl
    · simp only [hlen, ne_eq, not_false_eq_true, if_true]
      rfl
  rw [hstep, bind_eq_ok]
  simp only [ite_error_eq_ok, not_not, bind_eq_ok, pure_eq_ok]
  constructor
  · rintro ⟨id, hid, hlen, body, hbody, rfl⟩
    exact ⟨id, body, hid, hlen, hbody, rfl⟩
  · rintro ⟨id, body, hid, hlen, hbody, rfl⟩
    exact ⟨id, hid, hlen, body, hbody, rfl⟩

/-- A manifest as it is read from its bytes. -/
def TokenMeta.received (P : Primitives) (m : TokenMeta) : TokenMeta where
  name := m.name
  description := Text.nonempty m.description
  website := Text.nonempty m.website
  logoType :=
    if logoTypeByte m = 1 then some "svg" else if logoTypeByte m = 2 then some "png" else none
  logo := m.logo.filter fun l => (P.base64Decode l).any fun raw => !raw.isEmpty

/-- An asset as it is read from its bytes: the fields that its type writes. -/
def TokenAsset.received (P : Primitives) (a : TokenAsset) (type : TokenType) : TokenAsset :=
  let id := a.id.toLower
  let amount := some (a.amount.getD 0)
  match type with
  | .init => { id, decimals := some (a.decimals.getD 0), flags := some (a.flags.getD 0)
               initialSupply := some (a.initialSupply.getD 0)
               supplyCap := some (a.supplyCap.getD 0) }
  | .transfer => { id, transfers := some (a.transfers.getD []), memo := Text.nonempty a.memo }
  | .mint => { id, amount, recipientId := a.recipientId }
  | .sell => { id, amount, price := some (a.price.getD 0) }
  | .buy => { id, amount, orderId := some ((a.orderId.getD "").toLower) }
  | .cancel => { id, orderId := some ((a.orderId.getD "").toLower) }
  | .tokenMeta => { id, tokenMeta := a.tokenMeta.map (TokenMeta.received P) }
  | .burn => { id, amount }

theorem serializeTokenTransfer_ok {P : Primitives} {a : TokenAsset} {raw : Bytes} :
    serializeTokenTransfer P a = .ok raw ↔ (a.transfers.getD []).length ≤ 65535 ∧
      (utf8Bytes (a.memo.getD "")).length ≤ 255 ∧ ∃ bodies,
      ((a.transfers.getD []).mapM fun it => do
        return u64le it.amount ++ (← addressToBytes P it.recipientId)) = .ok bodies ∧
      u16le (UInt16.ofNat (a.transfers.getD []).length) ++ (bodies.flatten ++
        (u8of (utf8Bytes (a.memo.getD "")).length :: utf8Bytes (a.memo.getD ""))) = raw := by
  unfold serializeTokenTransfer
  simp only [throw_bind, ite_error_eq_ok, bind_eq_ok, not_or, gt_iff_lt, not_lt, pure_eq_ok,
    and_assoc, List.append_assoc]

theorem serializeTokenMeta_ok {P : Primitives} {a : TokenAsset} {m : TokenMeta} {raw : Bytes}
    (hm : a.tokenMeta = some m) :
    serializeTokenMeta P a = .ok raw ↔ ∃ logo,
      (match m.logo with
        | some text => P.base64Decode text = some logo
        | none => logo = []) ∧
      (utf8Bytes m.name).length ≤ 255 ∧ (utf8Bytes (m.description.getD "")).length ≤ 65535 ∧
      (utf8Bytes (m.website.getD "")).length ≤ 255 ∧ logo.length ≤ 65535 ∧
      u8of (utf8Bytes m.name).length :: (utf8Bytes m.name ++
        (u16le (UInt16.ofNat (utf8Bytes (m.description.getD "")).length) ++
        (utf8Bytes (m.description.getD "") ++ u8of (utf8Bytes (m.website.getD "")).length ::
        (utf8Bytes (m.website.getD "") ++ logoTypeByte m ::
        (u16le (UInt16.ofNat logo.length) ++ logo))))) = raw := by
  unfold serializeTokenMeta
  rw [hm]
  change (Except.ok m >>= _) = _ ↔ _
  rw [ok_bind]
  cases hlogo : m.logo with
  | none =>
      simp only [Option.isSome_none, Bool.false_eq_true, if_false, ok_bind, throw_bind,
        ite_error_eq_ok, pure_eq_ok, not_or, gt_iff_lt, not_lt, and_assoc, List.append_assoc,
        List.cons_append, exists_eq_left]
  | some text =>
      simp only [Option.isSome_some, if_true, bind_eq_ok, throw_bind, ite_error_eq_ok,
        pure_eq_ok, not_or, gt_iff_lt, not_lt, and_assoc, List.append_assoc, List.cons_append]
      have hrequired : ∀ logo, required (logoBytes P m) "logo is not base64" = .ok logo ↔
          P.base64Decode text = some logo := by
        intro logo
        unfold logoBytes required
        rw [hlogo, Option.bind_some]
        cases P.base64Decode text <;> simp
      simp only [hrequired]

theorem required_ok {α : Type} {field : Option α} {message : String} {a : α} :
    required field message = .ok a ↔ field = some a := by
  cases field <;> simp [required]

theorem tokenBody_mint_ok {P : Primitives} {a : TokenAsset} {raw : Bytes} :
    tokenBody P a .mint = .ok raw ↔ ∃ recipient address, a.recipientId = some recipient ∧
      addressToBytes P recipient = .ok address ∧ u64le (a.amount.getD 0) ++ address = raw := by
  simp only [tokenBody, bind_eq_ok, required_ok, pure_eq_ok, exists_and_left]

theorem tokenBody_buy_ok {P : Primitives} {a : TokenAsset} {raw : Bytes} :
    tokenBody P a .buy = .ok raw ↔ ∃ oid, Hex.decode (a.orderId.getD "") = .ok oid ∧
      oid.length = 32 ∧ oid ++ u64le (a.amount.getD 0) = raw := by
  simp only [tokenBody, bind_eq_ok, ite_error_eq_ok, not_not, pure_eq_ok]

theorem tokenBody_cancel_ok {P : Primitives} {a : TokenAsset} {raw : Bytes} :
    tokenBody P a .cancel = .ok raw ↔ Hex.decode (a.orderId.getD "") = .ok raw ∧
      raw.length = 32 := by
  simp only [tokenBody, bind_eq_ok, ite_error_eq_ok, not_not, pure_eq_ok]
  constructor
  · rintro ⟨oid, hoid, hlen, rfl⟩
    exact ⟨hoid, hlen⟩
  · rintro ⟨hoid, hlen⟩
    exact ⟨raw, hoid, hlen, rfl⟩

theorem tokenBody_meta_ok {P : Primitives} {a : TokenAsset} {raw : Bytes}
    (h : tokenBody P a .tokenMeta = .ok raw) : ∃ m, a.tokenMeta = some m := by
  obtain ⟨m, hm, -⟩ := bind_eq_ok.mp (show serializeTokenMeta P a = .ok raw from h)
  exact ⟨m, required_ok.mp hm⟩

theorem reads_tokenTransfer {P : Primitives} (hP : P.Lawful) {a : TokenAsset} {id : Text}
    {raw : Bytes} (h : serializeTokenTransfer P a = .ok raw) :
    Reads (deserializeTokenTransfer P id) raw
      { id, transfers := some (a.transfers.getD []), memo := Text.nonempty a.memo } := by
  obtain ⟨hcount, hmemo, bodies, hbodies, rfl⟩ := serializeTokenTransfer_ok.mp h
  have hitems : Reads (Reader.times (a.transfers.getD []).length (do
      let amount ← Reader.u64
      return { recipientId := ← readAddress P, amount : TokenTransferItem }))
      bodies.flatten ((a.transfers.getD []).map fun item => item) := by
    refine Reads.mapM hbodies fun item _ body hbody => ?_
    obtain ⟨address, haddress, hbody⟩ := bind_eq_ok.mp hbody
    rw [pure_eq_ok] at hbody
    subst hbody
    exact (Reads.u64 _).bind ((Reads.address hP haddress).bind_pure _)
  rw [List.map_id'] at hitems
  unfold deserializeTokenTransfer
  apply Reads.of_append_nil
  simp only [List.append_assoc, List.cons_append]
  apply (Reads.u16 _).bind
  rw [toNat_ofNat_u16 hcount]
  apply hitems.bind
  apply Reads.bind_text8 hP hmemo
  exact Reads.pure _

theorem reads_tokenMeta {P : Primitives} (hP : P.Lawful) {a : TokenAsset} {m : TokenMeta}
    {id : Text} {raw : Bytes} (hm : a.tokenMeta = some m)
    (h : serializeTokenMeta P a = .ok raw) :
    Reads (deserializeTokenMeta P id) raw { id, tokenMeta := some (m.received P) } := by
  obtain ⟨logo, hlogo, hname, hdescription, hwebsite, hsize, rfl⟩ := (serializeTokenMeta_ok hm).mp h
  have hreceived : (if logo.length = 0 then none else some (P.base64Encode logo)) =
      m.logo.filter fun l => (P.base64Decode l).any fun raw => !raw.isEmpty := by
    cases htext : m.logo with
    | none =>
        rw [htext] at hlogo
        rw [hlogo]
        rfl
    | some text =>
        rw [htext] at hlogo
        dsimp only at hlogo
        rw [hP.base64_encode text logo hlogo, Option.filter_some, hlogo]
        cases logo with
        | nil => rfl
        | cons b rest => rfl
  unfold deserializeTokenMeta
  apply Reads.of_append_nil
  simp only [List.append_assoc, List.cons_append]
  have hlabel : (utf8Bytes ((some m.name).getD "")).length ≤ 255 := hname
  apply Reads.bind_text8 hP hlabel
  apply Reads.bind_text16 hP hdescription
  apply Reads.bind_text8 hP hwebsite
  apply Reads.bind_u8
  apply (Reads.u16 _).bind
  rw [toNat_ofNat_u16 hsize]
  apply (Reads.bytes rfl).bind
  rw [hreceived]
  have hkept : (Text.nonempty (some m.name)).getD "" = m.name := Text.nonempty_getD _
  have htype : ((if logoTypeByte m = 1 then some "svg"
      else if logoTypeByte m = 2 then some "png" else none : Option String) >>= fun name =>
      Pure.pure (Text.ofString name)) = (m.received P).logoType := by
    unfold TokenMeta.received
    split_ifs <;> rfl
  rw [hkept, htype]
  exact Reads.pure _

theorem reads_token {P : Primitives} (hP : P.Lawful) {tx : Transaction} {a : TokenAsset}
    {type : TokenType} {raw : Bytes} (ha : tx.tokenAsset = some a)
    (h : serializeToken P tx type = .ok raw) :
    Reads (deserializeToken P type) raw (a.received P type) := by
  obtain ⟨id, body, hid, hlen, hbody, rfl⟩ := (serializeToken_ok ha).mp h
  have hlower := Hex.encode_of_decode hid
  unfold deserializeToken
  apply (Reads.hex hlen).bind
  rw [hlower]
  cases type with
  | init =>
      injection hbody with hbody
      subst hbody
      apply Reads.of_append_nil
      simp only [List.cons_append, List.nil_append, List.append_assoc]
      apply Reads.bind_u8
      apply Reads.bind_u8
      apply (Reads.u64 _).bind
      apply (Reads.u64 _).bind
      exact Reads.pure _
  | transfer => exact reads_tokenTransfer hP hbody
  | mint =>
      obtain ⟨recipient, address, hrecipient, haddress, rfl⟩ := tokenBody_mint_ok.mp hbody
      unfold TokenAsset.received
      rw [hrecipient]
      exact (Reads.u64 _).bind ((Reads.address hP haddress).bind_pure _)
  | sell =>
      injection hbody with hbody
      subst hbody
      exact (Reads.u64 _).bind ((Reads.u64 _).bind_pure _)
  | buy =>
      obtain ⟨oid, hoid, hsize, rfl⟩ := tokenBody_buy_ok.mp hbody
      unfold TokenAsset.received
      rw [← Hex.encode_of_decode hoid]
      exact (Reads.hex hsize).bind ((Reads.u64 _).bind_pure _)
  | cancel =>
      obtain ⟨hoid, hsize⟩ := tokenBody_cancel_ok.mp hbody
      unfold TokenAsset.received
      rw [← Hex.encode_of_decode hoid]
      exact (Reads.hex hsize).bind_pure _
  | tokenMeta =>
      obtain ⟨m, hm⟩ := tokenBody_meta_ok hbody
      unfold TokenAsset.received
      rw [hm]
      exact reads_tokenMeta hP hm hbody
  | burn =>
      injection hbody with hbody
      subst hbody
      exact (Reads.u64 _).bind_pure _


theorem logoTypeByte_cases (m : TokenMeta) :
    logoTypeByte m = 0 ∨ logoTypeByte m = 1 ∨ logoTypeByte m = 2 := by
  unfold logoTypeByte
  split_ifs
  · exact .inr (.inl rfl)
  · exact .inr (.inr rfl)
  · exact .inl rfl

theorem logoTypeByte_received {P : Primitives} (m : TokenMeta) :
    logoTypeByte (m.received P) = logoTypeByte m := by
  have hlabel : (m.received P).logoType = if logoTypeByte m = 1 then some (Text.ofString "svg")
      else if logoTypeByte m = 2 then some (Text.ofString "png") else none := rfl
  rcases logoTypeByte_cases m with hbyte | hbyte | hbyte
  · rw [hbyte] at hlabel ⊢
    unfold logoTypeByte
    rw [hlabel]
    decide
  · rw [hbyte] at hlabel ⊢
    unfold logoTypeByte
    rw [hlabel]
    decide
  · rw [hbyte] at hlabel ⊢
    unfold logoTypeByte
    rw [hlabel]
    decide

/-- What is read back has the bytes it was read from. -/
theorem tokenBody_received {P : Primitives} {a : TokenAsset} {type : TokenType}
    {raw : Bytes} (h : tokenBody P a type = .ok raw) :
    tokenBody P (a.received P type) type = .ok raw := by
  cases type with
  | transfer =>
      obtain ⟨hcount, hmemo, bodies, hbodies, rfl⟩ := serializeTokenTransfer_ok.mp h
      have htext : ((a.received P .transfer).memo).getD "" = a.memo.getD "" :=
        Text.nonempty_getD a.memo
      refine serializeTokenTransfer_ok.mpr ?_
      rw [htext]
      exact ⟨hcount, hmemo, bodies, hbodies, rfl⟩
  | buy =>
      obtain ⟨oid, hoid, hsize, rfl⟩ := tokenBody_buy_ok.mp h
      exact tokenBody_buy_ok.mpr ⟨oid, Hex.decode_toLower hoid, hsize, rfl⟩
  | cancel =>
      obtain ⟨hoid, hsize⟩ := tokenBody_cancel_ok.mp h
      exact tokenBody_cancel_ok.mpr ⟨Hex.decode_toLower hoid, hsize⟩
  | tokenMeta =>
      obtain ⟨m, hm⟩ := tokenBody_meta_ok h
      have hm' : (a.received P .tokenMeta).tokenMeta = some (m.received P) := by
        simp [TokenAsset.received, hm]
      obtain ⟨logo, hlogo, hname, hdescription, hwebsite, hsize, rfl⟩ :=
        (serializeTokenMeta_ok hm).mp h
      refine (serializeTokenMeta_ok hm').mpr ⟨logo, ?_, hname, ?_, ?_, hsize, ?_⟩
      · unfold TokenMeta.received
        dsimp only
        cases htext : m.logo with
        | none =>
            rw [htext] at hlogo
            exact hlogo
        | some text =>
            rw [htext] at hlogo
            dsimp only at hlogo
            rw [Option.filter_some, hlogo]
            cases logo with
            | nil => rfl
            | cons b rest => exact hlogo
      · exact (congrArg (fun t => (utf8Bytes t).length) (Text.nonempty_getD _)).trans_le hdescription
      · exact (congrArg (fun t => (utf8Bytes t).length) (Text.nonempty_getD _)).trans_le hwebsite
      · rw [logoTypeByte_received]
        unfold TokenMeta.received
        dsimp only
        rw [Text.nonempty_getD, Text.nonempty_getD]
  | _ => exact h

theorem Text.isHexDigit_toLower {c : Char} (h : Text.isHexDigit c) :
    Text.isHexDigit c.toLower := by
  have hascii : c.toNat < 128 := by
    have hbound : ∀ {lo hi : Char}, lo ≤ c ∧ c ≤ hi → c.toNat ≤ hi.toNat := fun hc => hc.2
    simp only [Text.isHexDigit, Char.isDigit, Bool.or_eq_true, Bool.and_eq_true,
      decide_eq_true_eq] at h
    rcases h with (h | h) | h
    · exact Nat.lt_of_le_of_lt (hbound (show '0' ≤ c ∧ c ≤ '9' from h)) (by decide)
    · exact Nat.lt_of_le_of_lt (hbound h) (by decide)
    · exact Nat.lt_of_le_of_lt (hbound h) (by decide)
  have hall : ∀ i : Fin 128, Text.isHexDigit (Char.ofNat i) →
      Text.isHexDigit (Char.ofNat i).toLower := by
    decide +kernel
  have hc := hall ⟨c.toNat, hascii⟩
  rw [Char.ofNat_toNat] at hc
  exact hc h

theorem Text.isId_toLower {text : Text} (h : Text.isId text) (hhex : Hex.isHex text) :
    Text.isId text.toLower := by
  simp only [Text.isId, Bool.and_eq_true, decide_eq_true_eq, List.all_eq_true] at h ⊢
  refine ⟨(Hex.isHex_toLower hhex).2.trans h.1, ?_⟩
  intro c hc
  obtain ⟨d, hd, rfl⟩ := List.mem_map.mp hc
  exact Text.isHexDigit_toLower (h.2 d hd)

namespace Rules

theorem checkTransferFormat_ok {ms : Milestone} {a : TokenAsset} {u : Unit} :
    checkTransferFormat ms a = .ok u ↔
      ((a.transfers.getD []).isEmpty ||
        (a.transfers.getD []).length > ms.tokenTransferMaxRecipients.toNat) = false ∧
      ((a.transfers.getD []).any fun i => i.amount = 0) = false ∧
      decide (((a.transfers.getD []).map fun i => i.amount.toNat).sum > 2 ^ 64 - 1) = false ∧
      (a.memo.any fun m => m.utf8ByteSize > maxMemo) = false := by
  unfold checkTransferFormat
  simp only [bind_eq_ok, refuse_ok, exists_and_left, exists_const]

theorem metaTextOk_size {max : Nat} {text : Text} (h : metaTextOk max text) :
    1 ≤ text.utf8ByteSize := by
  simp only [metaTextOk, Bool.and_eq_true] at h
  have hempty : text.isEmpty = false := by simpa using h.1.1
  rw [utf8ByteSize_eq]
  by_contra hzero
  rw [isEmpty_iff_utf8Bytes.mpr (by omega)] at hempty
  cases hempty

/-- A manifest that passes its rules is read back as it is. -/
theorem received_of_checkTokenMeta {P : Primitives} {m : TokenMeta}
    (h : checkTokenMeta P m = .ok ()) : m.received P = m := by
  unfold checkTokenMeta at h
  simp only [bind_eq_ok, refuse_ok, exists_and_left, exists_const] at h
  obtain ⟨-, hdescription, hwebsite, hlogo⟩ := h
  have hd : Text.nonempty m.description = m.description := by
    refine Text.nonempty_eq_self fun d hd => ?_
    rw [Option.mem_def.mp hd] at hdescription
    exact metaTextOk_size (by simpa using hdescription)
  have hw : Text.nonempty m.website = m.website := by
    refine Text.nonempty_eq_self fun w hw => ?_
    rw [Option.mem_def.mp hw] at hwebsite
    simp only [Option.any_some, Bool.or_eq_false_iff, Bool.not_eq_false'] at hwebsite
    exact metaTextOk_size hwebsite.1
  obtain ⟨name, description, website, logoType, logo⟩ := m
  unfold TokenMeta.received
  simp only at hd hw hlogo ⊢
  rw [hd, hw]
  rcases logoType with _ | type
  · rcases logo with _ | text
    · rfl
    · cases hlogo
  · rcases logo with _ | text
    · cases hlogo
    · simp only at hlogo
      split_ifs at hlogo with htype
      have hbytes : ∃ bytes, P.base64Decode text = some bytes ∧ bytes.isEmpty = false := by
        unfold checkLogo at hlogo
        simp only [bind_eq_ok, need_ok, refuse_ok] at hlogo
        obtain ⟨bytes, hbytes, -, hsize, -⟩ := hlogo
        refine ⟨bytes, hbytes, ?_⟩
        rw [Bool.or_eq_false_iff] at hsize
        exact hsize.1
      obtain ⟨bytes, hbytes, hfull⟩ := hbytes
      have hkept : (some text).filter (fun l => (P.base64Decode l).any fun raw => !raw.isEmpty) =
          some text := by
        apply Option.filter_some_pos
        rw [hbytes, Option.any_some, hfull]
        rfl
      rw [hkept]
      rcases htype with rfl | rfl
      · rfl
      · rfl

theorem checkMarketFormat_ok {ms : Milestone} {a : TokenAsset} {type : TokenType} {u : Unit}
    (htype : type ≠ .sell) :
    checkMarketFormat ms a type = .ok u ↔ ms.tokenMarket.enabled ∧ a.orderId.any Text.isId ∧
      (type = .buy && a.amount.getD 0 = 0) = false := by
  unfold checkMarketFormat
  simp only [htype, if_false, bind_eq_ok, refuse_ok, exists_and_left, exists_const,
    Bool.not_eq_false']

theorem tokenFee_received {P : Primitives} {ms : Milestone} {a : TokenAsset} {type : TokenType}
    {raw : Bytes} {fee : UInt64} (hbody : tokenBody P a type = .ok raw)
    (h : tokenFee P ms a type = .ok fee) : tokenFee P ms (a.received P type) type = .ok fee := by
  have hmarket : ∀ oid, Hex.decode (a.orderId.getD "") = .ok oid → type ≠ .sell →
      checkMarketFormat ms a type = .ok () →
      a.orderId.any Text.isId ∧ Text.isId (a.orderId.getD "").toLower := by
    intro oid hoid htype hformat
    obtain ⟨-, hid, -⟩ := (checkMarketFormat_ok htype).mp hformat
    refine ⟨hid, ?_⟩
    cases hsome : a.orderId with
    | none => simp [hsome] at hid
    | some id =>
        rw [hsome] at hoid hid
        exact Text.isId_toLower hid (Hex.isHex_iff.mpr ⟨oid, hoid⟩)
  cases type with
  | transfer =>
      obtain ⟨u, hformat, h⟩ := bind_eq_ok.mp h
      refine bind_eq_ok.mpr ⟨u, ?_, h⟩
      obtain ⟨hcount, hamounts, htotal, hmemo⟩ := checkTransferFormat_ok.mp hformat
      refine checkTransferFormat_ok.mpr ⟨hcount, hamounts, htotal, ?_⟩
      rw [Option.any_eq_false] at hmemo ⊢
      intro memo hmem
      exact hmemo memo (Option.mem_def.mpr (Option.filter_eq_some_iff.mp hmem).1)
  | buy =>
      obtain ⟨oid, hoid, -, -⟩ := tokenBody_buy_ok.mp hbody
      obtain ⟨u, hformat, h⟩ := bind_eq_ok.mp h
      have htype : TokenType.buy ≠ .sell := by decide
      obtain ⟨-, hlower⟩ := hmarket oid hoid htype hformat
      obtain ⟨henabled, -, hamount⟩ := (checkMarketFormat_ok htype).mp hformat
      exact bind_eq_ok.mpr ⟨u, (checkMarketFormat_ok htype).mpr ⟨henabled, hlower, hamount⟩, h⟩
  | cancel =>
      obtain ⟨hoid, -⟩ := tokenBody_cancel_ok.mp hbody
      obtain ⟨u, hformat, h⟩ := bind_eq_ok.mp h
      have htype : TokenType.cancel ≠ .sell := by decide
      obtain ⟨-, hlower⟩ := hmarket raw hoid htype hformat
      obtain ⟨henabled, -, -⟩ := (checkMarketFormat_ok htype).mp hformat
      exact bind_eq_ok.mpr ⟨u, (checkMarketFormat_ok htype).mpr ⟨henabled, hlower, rfl⟩, h⟩
  | tokenMeta =>
      obtain ⟨m, hm, h⟩ := bind_eq_ok.mp h
      obtain ⟨u, hformat, hfee⟩ := bind_eq_ok.mp h
      have hsame : (a.received P .tokenMeta).tokenMeta = some m := by
        have hreceived := received_of_checkTokenMeta hformat
        simp [TokenAsset.received, need_ok.mp hm, hreceived]
      exact bind_eq_ok.mpr ⟨m, need_ok.mpr hsame, h⟩
  | _ => exact h

theorem checkTokenFormat_ok {P : Primitives} {tx : Transaction} {ms : Milestone}
    {a : TokenAsset} :
    checkTokenFormat P tx ms = .ok a ↔ ∃ type, tx.tokenType = some type ∧
      tx.tokenAsset = some a ∧ tx.amount = 0 ∧
      (tx.vendorField.any fun v => !v.isEmpty) = false ∧ Text.isId a.id ∧
      ∃ fee, tokenFee P ms a type = .ok fee ∧ tx.fee = fee + pqSurcharge tx ms.pq.feePerByte := by
  unfold checkTokenFormat
  simp only [bind_eq_ok, need_ok, refuse_ok, exists_and_left, exists_const, ne_eq,
    decide_eq_false_iff_not, not_not, Bool.not_eq_false', pure_eq_ok]
  constructor
  · rintro ⟨type, htype, a', ha, hamount, hvendor, hid, fee, hfee, hpaid, rfl⟩
    exact ⟨type, htype, ha, hamount, hvendor, hid, fee, hfee, hpaid⟩
  · rintro ⟨type, htype, ha, hamount, hvendor, hid, fee, hfee, hpaid⟩
    exact ⟨type, htype, a, ha, hamount, hvendor, hid, fee, hfee, hpaid, rfl⟩

end Rules

end SthCore
