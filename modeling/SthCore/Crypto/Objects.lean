import SthCore.Crypto.Reads
import SthCore.Rules.SmartObject

/-!
The asset of a smart object as it is read back from the bytes it was written to.
What is read serializes to the same bytes and passes the format rules that the
written asset passed.
-/

namespace SthCore

open SthCore.Lib

theorem parseU64_ofNat (p : UInt64) : parseU64 (Text.ofNat p.toNat) = some p := by
  have hdigits : ∀ c ∈ Nat.toDigits 10 p.toNat, c.isDigit :=
    fun c hc => Nat.isDigit_of_mem_toDigits (by decide) (by decide) hc
  have hvalue : (Nat.toDigits 10 p.toNat).foldl (fun n c => 10 * n + (c.toNat - 48)) 0 =
      p.toNat := by
    have hread := Nat.ofDigitChars_ten_toDigits (n := p.toNat)
    rwa [Nat.ofDigitChars_eq_foldl] at hread
  have hnonempty : Nat.toDigits 10 p.toNat ≠ [] := Nat.toDigits_ne_nil
  unfold parseU64
  extract_lets digits value
  have hunsigned : digits = Nat.toDigits 10 p.toNat := by
    unfold digits
    split
    · rename_i rest hplus
      have hsign := hdigits '+' (by
        rw [show Nat.toDigits 10 p.toNat = '+' :: rest from hplus]
        exact List.mem_cons_self)
      exact absurd hsign (by decide)
    · rfl
  have hparsed : value = p.toNat := by
    unfold value
    rw [hunsigned, hvalue]
  rw [hunsigned, hparsed, if_neg, if_pos p.toNat_lt, UInt64.ofNat_toNat]
  simpa [hnonempty] using hdigits

/-- A hex field that is left out when it is empty. -/
theorem nonempty_toLower {text : Option Text} {raw : Bytes}
    (h : Hex.decode (text.getD "") = .ok raw) :
    Text.nonempty (text.map Text.toLower) = if raw = [] then none else some (Hex.encode raw) := by
  cases text with
  | none =>
      have hraw : raw = [] := by
        rw [Option.getD_none] at h
        injection h with h
        exact h.symm
      rw [if_pos hraw]
      rfl
  | some t =>
      rw [Option.getD_some] at h
      rw [Hex.encode_of_decode h, Option.map_some, Text.nonempty]
      have hsize := Hex.utf8Bytes_length (Hex.decode_encode raw)
      rw [Hex.encode_of_decode h] at hsize
      split_ifs with hraw
      · apply Option.filter_some_neg
        rw [hraw, List.length_nil, Nat.mul_zero] at hsize
        rw [isEmpty_iff_utf8Bytes.mpr hsize]
        rfl
      · apply Option.filter_some_pos
        rw [Bool.not_eq_eq_eq_not, Bool.not_true, Bool.eq_false_iff]
        intro hempty
        rw [isEmpty_iff_utf8Bytes.mp hempty] at hsize
        exact hraw (List.eq_nil_of_length_eq_zero (by omega))

/-- A hex field behind its length, absent when that is zero. -/
theorem Reads.bind_optional {β : Type} {k : Option Text → Reader β} {b : β} {n : Nat}
    {raw tail : Bytes} (hn : n = raw.length)
    (h : Reads (k (if raw = [] then none else some (Hex.encode raw))) tail b) :
    Reads (if n = 0 then do
        let x ← Pure.pure none
        k x
      else do
        let x ← some <$> Reader.hex n
        k x) (raw ++ tail) b := by
  subst hn
  by_cases hraw : raw = []
  · subst hraw
    exact h
  · have hlength : ¬ raw.length = 0 := fun hzero => hraw (List.eq_nil_of_length_eq_zero hzero)
    rw [if_neg hraw] at h
    rw [if_neg hlength]
    exact ((Reads.hex rfl).map some).bind h

namespace SmartObjectAsset

/-- The text in the last field: recipient, price or data. -/
def slot (e : SmartObjectAsset) : Option Text :=
  match SobjAction.ofCode e.action with
  | some .transfer => e.recipientId
  | some .sell => e.price.map fun (p : UInt64) => Text.ofNat p.toNat
  | _ => e.data.ntfryData

/-- The asset as it is read from its bytes. -/
def received (e : SmartObjectAsset) : SmartObjectAsset :=
  let registrationId := Text.nonempty (e.registrationId.map Text.toLower)
  let name := Text.nonempty e.data.name
  let asset : SmartObjectAsset :=
    { type := e.type, subType := e.subType, action := e.action, registrationId, data := { name } }
  match SobjAction.ofCode e.action with
  | some .transfer => { asset with recipientId := Text.nonempty e.recipientId }
  | some .sell => { asset with price := some (e.price.getD 0) }
  | _ => { asset with data := { name, ntfryData := Text.nonempty e.data.ntfryData } }

end SmartObjectAsset

/-- The bytes of an object, field by field. -/
theorem serializeSobj_ok {tx : Transaction} {e : SmartObjectAsset} {raw : Bytes}
    (he : tx.sobjAsset = some e) :
    serializeSobj tx = .ok raw ↔ ∃ reg, Hex.decode (e.registrationId.getD "") = .ok reg ∧
      reg.length ≤ 255 ∧ (utf8Bytes (e.data.name.getD "")).length ≤ 255 ∧
      (utf8Bytes (e.slot.getD "")).length ≤ 255 ∧
      raw = e.type :: e.subType :: e.action :: u8of reg.length :: (reg ++
        u8of (utf8Bytes (e.data.name.getD "")).length :: (utf8Bytes (e.data.name.getD "") ++
        u8of (utf8Bytes (e.slot.getD "")).length :: utf8Bytes (e.slot.getD ""))) := by
  have hserialize : serializeSobj tx = (do
      let reg ← Hex.decode (e.registrationId.getD "")
      if reg.length > 255 ∨ (utf8Bytes (e.data.name.getD "")).length > 255 ∨
          (utf8Bytes (e.slot.getD "")).length > 255 then
        Except.error (Error.serialization "sObject field longer than 255 bytes")
      else
        Except.ok ([e.type, e.subType, e.action] ++ (u8of reg.length :: reg) ++
          (u8of (utf8Bytes (e.data.name.getD "")).length :: utf8Bytes (e.data.name.getD "")) ++
          (u8of (utf8Bytes (e.slot.getD "")).length :: utf8Bytes (e.slot.getD "")))) := by
    unfold serializeSobj
    rw [he]
    change (Except.ok e >>= _) = _
    rw [ok_bind]
    cases e.registrationId with
    | none => rfl
    | some r => rfl
  rw [hserialize, bind_eq_ok]
  simp only [ite_error_eq_ok, not_or, not_lt, Except.ok.injEq, List.cons_append,
    List.nil_append, List.append_assoc]
  constructor
  · rintro ⟨reg, hreg, ⟨h1, h2, h3⟩, rfl⟩
    exact ⟨reg, hreg, h1, h2, h3, rfl⟩
  · rintro ⟨reg, hreg, h1, h2, h3, rfl⟩
    exact ⟨reg, hreg, ⟨h1, h2, h3⟩, rfl⟩

theorem reads_sobj {P : Primitives} (hP : P.Lawful) {tx : Transaction} {e : SmartObjectAsset}
    {raw : Bytes} (he : tx.sobjAsset = some e) (h : serializeSobj tx = .ok raw) :
    Reads (deserializeSobj P) raw e.received := by
  obtain ⟨reg, hreg, hreglen, hname, hslot, hraw⟩ := (serializeSobj_ok he).mp h
  have hoptional := nonempty_toLower hreg
  subst hraw
  unfold deserializeSobj SmartObjectAsset.received
  rw [hoptional]
  apply Reads.bind_u8
  apply Reads.bind_u8
  apply Reads.bind_u8
  apply Reads.bind_u8
  dsimp only
  apply Reads.bind_optional (u8of_toNat hreglen)
  apply Reads.bind_text8 hP hname
  apply Reads.of_append_nil
  apply Reads.bind_text8 hP hslot
  have hprice : parseU64 ((Text.nonempty (e.price.map fun (p : UInt64) =>
      Text.ofNat p.toNat)).getD "0") = some (e.price.getD 0) := by
    cases e.price with
    | none => decide
    | some p =>
        have hfull : Text.nonempty (some (Text.ofNat p.toNat)) = some (Text.ofNat p.toNat) := by
          apply Option.filter_some_pos
          simp [Text.isEmpty, Text.ofNat, Nat.toDigits_ne_nil]
        rw [Option.map_some, hfull, Option.getD_some, parseU64_ofNat]
        rfl
  unfold SmartObjectAsset.slot
  generalize SobjAction.ofCode e.action = action
  match action with
  | some .transfer => exact Reads.pure _
  | some .sell =>
      dsimp only
      rw [hprice]
      exact Reads.pure _
  | none | some .register | some .update | some .resign | some .buy => exact Reads.pure _

theorem Text.nonempty_some {t : Text} (h : 1 ≤ t.utf8ByteSize) :
    Text.nonempty (some t) = some t := by
  apply Option.filter_some_pos
  rw [Bool.not_eq_eq_eq_not, Bool.not_true, Bool.eq_false_iff]
  intro hempty
  rw [utf8ByteSize_eq, isEmpty_iff_utf8Bytes.mp hempty] at h
  omega

/-- A field that is either absent or not empty. -/
theorem Text.nonempty_eq_self {text : Option Text} (h : ∀ t ∈ text, 1 ≤ t.utf8ByteSize) :
    Text.nonempty text = text := by
  cases text with
  | none => rfl
  | some t => exact Text.nonempty_some (h t rfl)

theorem Primitives.Lawful.address_size {P : Primitives} (hP : P.Lawful) {address : Text}
    (h : (addressToBytes P address).isOk) : 1 ≤ address.utf8ByteSize := by
  by_contra hsize
  have hempty : address = "" := by
    apply utf8Bytes_eq_nil
    rw [← utf8ByteSize_eq]
    omega
  subst hempty
  cases hbytes : addressToBytes P "" with
  | error e => simp [hbytes, Except.isOk, Except.toBool] at h
  | ok raw => exact hP.base58Check_empty raw (addressToBytes_ok.mp hbytes).1

namespace Rules

@[simp] theorem refuse_ok {c : Bool} {m : String} {u : Unit} : refuse c m = .ok u ↔ c = false := by
  cases c <;> simp [refuse]

@[simp] theorem need_ok {α : Type} {v : Option α} {m : String} {a : α} :
    need v m = .ok a ↔ v = some a := by
  cases v <;> simp [need]

/-- What `check_sobj_format` asks of an asset, whatever transaction carries it. -/
structure SobjFormat (P : Primitives) (ms : Milestone) (e : SmartObjectAsset)
    (action : SobjAction) : Prop where
  code : SobjAction.ofCode e.action = some action
  active : (isMarketAction action && !ms.sobjV2) = false
  recipient : e.recipientId.isSome = decide (action = .transfer)
  price : e.price.isSome = decide (action = .sell)
  address : ∀ r ∈ e.recipientId, (addressToBytes P r).isOk
  data : ∀ d ∈ e.data.ntfryData, sobjDataOk P ms d
  register : action = .register → checkRegisterFormat ms e = .ok ()
  existing : action ≠ .register → checkExistingFormat e action = .ok ()

theorem checkSobjFormat_ok {P : Primitives} {tx : Transaction} {ms : Milestone}
    {e : SmartObjectAsset} :
    checkSobjFormat P tx ms = .ok e ↔ tx.sobjAsset = some e ∧ tx.amount = 0 ∧
      ∃ action, tx.fee = sobjStaticFee action + pqSurcharge tx ms.pq.feePerByte ∧
        SobjFormat P ms e action := by
  unfold checkSobjFormat
  simp only [bind_eq_ok, need_ok, refuse_ok, exists_and_left, exists_const, decide_eq_false_iff_not,
    ne_eq, not_not, bne_eq_false_iff_eq]
  constructor
  · rintro ⟨e', he, hamount, action, hcode, hfee, hactive, hrecipient, hprice, haddress, hdata, h⟩
    have hlast : e' = e ∧ (action = .register → checkRegisterFormat ms e' = .ok ()) ∧
        (action ≠ .register → checkExistingFormat e' action = .ok ()) := by
      cases action with
      | register =>
          obtain ⟨u, hu, h⟩ := bind_eq_ok.mp h
          exact ⟨pure_eq_ok.mp h, fun _ => hu, fun h => absurd rfl h⟩
      | _ =>
          obtain ⟨u, hu, h⟩ := bind_eq_ok.mp h
          exact ⟨pure_eq_ok.mp h, nofun, fun _ => hu⟩
    obtain ⟨rfl, hregister, hexisting⟩ := hlast
    refine ⟨he, hamount, action, hfee, hcode, hactive, hrecipient, hprice, ?_, ?_, hregister,
      hexisting⟩
    · intro r hr
      rw [Option.mem_def.mp hr] at haddress
      simpa using haddress
    · intro d hd
      rw [Option.mem_def.mp hd] at hdata
      simpa using hdata
  · rintro ⟨he, hamount, action, hfee, h⟩
    refine ⟨e, he, hamount, action, h.code, hfee, h.active, h.recipient, h.price, ?_, ?_, ?_⟩
    · rw [Option.any_eq_false]
      intro r hr
      simp [h.address r hr]
    · rw [Option.any_eq_false]
      intro d hd
      simp [h.data d hd]
    · cases action with
      | register => exact bind_eq_ok.mpr ⟨(), h.register rfl, rfl⟩
      | _ => exact bind_eq_ok.mpr ⟨(), h.existing (by simp), rfl⟩

theorem checkRegisterFormat_ok {ms : Milestone} {e : SmartObjectAsset} {u : Unit} :
    checkRegisterFormat ms e = .ok u ↔ e.registrationId = none ∧ (∃ name, e.data.name = some name ∧ sobjNameOk name) ∧
      (ms.sobjV2 && e.type = tickerSobjType && !tickerOk (e.data.name.getD "")) = false := by
  unfold checkRegisterFormat
  simp only [bind_eq_ok, refuse_ok, exists_and_left, exists_const, Option.isSome_eq_false_iff,
    Option.isNone_iff_eq_none, Bool.not_eq_false', Option.any_eq_true]

theorem checkExistingFormat_ok {e : SmartObjectAsset} {action : SobjAction} {u : Unit} :
    checkExistingFormat e action = .ok u ↔
      (∃ id, e.registrationId = some id ∧ id.utf8ByteSize = 64 ∧ Hex.isHex id) ∧
      e.data.name = none ∧
      (action = .resign ∨ isMarketAction action → e.data.ntfryData = none) := by
  unfold checkExistingFormat
  simp only [bind_eq_ok, refuse_ok, exists_and_left, exists_const, Option.isSome_eq_false_iff,
    Option.isNone_iff_eq_none, Bool.not_eq_false', Option.any_eq_true, Bool.and_eq_true,
    decide_eq_true_eq, Bool.and_eq_false_imp, Bool.or_eq_true]

theorem sobjNameOk_size {name : Text} (h : sobjNameOk name) : 1 ≤ name.utf8ByteSize := by
  simp only [sobjNameOk, Bool.and_eq_true, decide_eq_true_eq] at h
  exact h.1.1

theorem sobjDataOk_size {P : Primitives} {ms : Milestone} {data : Text}
    (h : sobjDataOk P ms data) : 1 ≤ data.utf8ByteSize := by
  unfold sobjDataOk at h
  split_ifs at h
  · simp only [Bool.and_eq_true, decide_eq_true_eq] at h
    exact h.1.1
  · simp only [Bool.and_eq_true, decide_eq_true_eq] at h
    exact h.1.1

/-- A well-formed asset is read back with its registration id in lower case. -/
theorem SobjFormat.received_eq {P : Primitives} (hP : P.Lawful) {ms : Milestone}
    {e : SmartObjectAsset} {action : SobjAction} (h : SobjFormat P ms e action) :
    e.received = { e with registrationId := e.registrationId.map Text.toLower } := by
  obtain ⟨type, subType, code, registrationId, recipientId, price, name, ntfryData⟩ := e
  have hdata : Text.nonempty ntfryData = ntfryData :=
    Text.nonempty_eq_self fun d hd => sobjDataOk_size (h.data d hd)
  have haddress : Text.nonempty recipientId = recipientId :=
    Text.nonempty_eq_self fun r hr => hP.address_size (h.address r hr)
  have hrest : Text.nonempty name = name ∧
      Text.nonempty (registrationId.map Text.toLower) = registrationId.map Text.toLower ∧
      (action = .transfer ∨ action = .sell → ntfryData = none) := by
    by_cases hregister : action = .register
    · obtain ⟨rfl, ⟨valid, rfl, hvalid⟩, -⟩ := checkRegisterFormat_ok.mp (h.register hregister)
      refine ⟨Text.nonempty_some (sobjNameOk_size hvalid), rfl, ?_⟩
      rw [hregister]
      rintro (hother | hother)
      · cases hother
      · cases hother
    · obtain ⟨⟨id, rfl, hsize, hhex⟩, rfl, hmarket⟩ :=
        checkExistingFormat_ok.mp (h.existing hregister)
      have hlower : 1 ≤ id.toLower.utf8ByteSize := by
        rw [(Hex.isHex_toLower hhex).2, hsize]
        decide
      refine ⟨rfl, Text.nonempty_some hlower, ?_⟩
      rintro (rfl | rfl)
      · exact hmarket (.inr rfl)
      · exact hmarket (.inr rfl)
  obtain ⟨hname, hid, hmoved⟩ := hrest
  have hcode : SobjAction.ofCode code = some action := h.code
  have hrecipient : recipientId.isSome = decide (action = .transfer) := h.recipient
  have hprice : price.isSome = decide (action = .sell) := h.price
  unfold SmartObjectAsset.received
  simp only [hcode, hid, hname, haddress, hdata]
  cases action with
  | transfer =>
      have hnone : price = none := by simpa using hprice
      rw [hmoved (.inl rfl), hnone]
  | sell =>
      have hnone : recipientId = none := by simpa using hrecipient
      obtain ⟨p, rfl⟩ := Option.isSome_iff_exists.mp (by simpa using hprice)
      rw [hmoved (.inr rfl), hnone]
      rfl
  | _ =>
      have hnobody : recipientId = none := by simpa using hrecipient
      have hfree : price = none := by simpa using hprice
      rw [hnobody, hfree]

/-- What is read back is well formed again. -/
theorem SobjFormat.received {P : Primitives} (hP : P.Lawful) {ms : Milestone}
    {e : SmartObjectAsset} {action : SobjAction} (h : SobjFormat P ms e action) :
    SobjFormat P ms e.received action := by
  rw [h.received_eq hP]
  refine ⟨h.code, h.active, h.recipient, h.price, h.address, h.data, ?_, ?_⟩
  · intro hregister
    obtain ⟨hid, hname, hticker⟩ := checkRegisterFormat_ok.mp (h.register hregister)
    exact checkRegisterFormat_ok.mpr ⟨by rw [hid]; rfl, hname, hticker⟩
  · intro hregister
    obtain ⟨⟨id, hid, hsize, hhex⟩, hname, hmarket⟩ :=
      checkExistingFormat_ok.mp (h.existing hregister)
    obtain ⟨hlower, hsame⟩ := Hex.isHex_toLower hhex
    exact checkExistingFormat_ok.mpr
      ⟨⟨id.toLower, by rw [hid]; rfl, hsame.trans hsize, hlower⟩, hname, hmarket⟩

end Rules

/-- What is read back has the bytes it was read from. -/
theorem serializeSobj_received {P : Primitives} (hP : P.Lawful) {ms : Milestone}
    {tx d : Transaction} {e : SmartObjectAsset} {action : SobjAction} {raw : Bytes}
    (h : Rules.SobjFormat P ms e action) (he : tx.sobjAsset = some e)
    (hd : d.sobjAsset = some e.received) (hraw : serializeSobj tx = .ok raw) :
    serializeSobj d = .ok raw := by
  obtain ⟨reg, hreg, hreglen, hname, hslot, rfl⟩ := (serializeSobj_ok he).mp hraw
  have hreceived := h.received_eq hP
  refine (serializeSobj_ok hd).mpr ?_
  rw [hreceived]
  refine ⟨reg, ?_, hreglen, hname, hslot, rfl⟩
  cases hid : e.registrationId with
  | none => rwa [hid] at hreg
  | some id =>
      rw [hid] at hreg
      exact Hex.decode_toLower hreg

end SthCore
