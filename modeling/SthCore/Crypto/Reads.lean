import SthCore.Crypto.Reading

/-!
Readers that take a given run of bytes off the front of any input: how they
compose, and the readers of the fields that transactions are made of.
-/

namespace SthCore

open SthCore.Lib

namespace Hex

variable {text : Text} {bytes : Bytes}

theorem decode_toLower (h : decode text = .ok bytes) : decode text.toLower = .ok bytes := by
  rw [← encode_of_decode h, decode_encode]

theorem utf8ByteSize_of_decode (h : decode text = .ok bytes) :
    text.utf8ByteSize = 2 * bytes.length := by
  rw [utf8ByteSize_eq, Hex.utf8Bytes_length h]

theorem isHex_toLower (h : isHex text) :
    isHex text.toLower ∧ text.toLower.utf8ByteSize = text.utf8ByteSize := by
  obtain ⟨bytes, hbytes⟩ := isHex_iff.mp h
  have hlower := decode_toLower hbytes
  refine ⟨isHex_iff.mpr ⟨bytes, hlower⟩, ?_⟩
  rw [utf8ByteSize_of_decode hlower, utf8ByteSize_of_decode hbytes]

end Hex

/-- A reader that turns the given bytes into a value, whatever follows them. -/
def Reads {α : Type} (r : Reader α) (raw : Bytes) (a : α) : Prop :=
  ∀ rest, r (raw ++ rest) = .ok (a, rest)

namespace Reads

variable {α β : Type} {r : Reader α} {f : α → Reader β} {a : α} {b : β} {raw tail : Bytes}

theorem run (h : Reads r raw a) : r raw = .ok (a, []) := by
  simpa using h []

theorem unique {a' : α} (h : Reads r raw a) (h' : Reads r raw a') : a = a' := by
  have heq := h.run.symm.trans h'.run
  injection heq with heq
  exact congrArg Prod.fst heq

theorem pure (a : α) : Reads (pure a) [] a := fun _ => rfl

theorem bind (hr : Reads r raw a) (hf : Reads (f a) tail b) :
    Reads (r >>= f) (raw ++ tail) b := by
  intro rest
  rw [List.append_assoc]
  exact Reader.bind_ok.mpr ⟨a, tail ++ rest, hr (tail ++ rest), hf rest⟩

theorem map (g : α → β) (h : Reads r raw a) : Reads (g <$> r) raw (g a) := by
  intro rest
  exact Reader.map_ok.mpr ⟨a, h rest, rfl⟩

theorem of_append_nil (h : Reads r (raw ++ []) a) : Reads r raw a := by
  rwa [List.append_nil] at h

theorem bind_pure (g : α → β) (h : Reads r raw a) :
    Reads (r >>= fun x => Pure.pure (g x)) raw (g a) :=
  (h.bind (f := fun x => Pure.pure (g x)) (pure (g a))).of_append_nil

theorem bytes {n : Nat} (h : raw.length = n) : Reads (Reader.bytes n) raw raw :=
  fun _ => Reader.bytes_ok.mpr ⟨rfl, h⟩

theorem hex {n : Nat} (h : raw.length = n) : Reads (Reader.hex n) raw (Hex.encode raw) :=
  fun _ => Reader.hex_ok.mpr ⟨raw, rfl, rfl, h⟩

theorem u8 (v : UInt8) : Reads Reader.u8 [v] v := fun _ => Reader.u8_ok.mpr rfl

theorem u16 (v : UInt16) : Reads Reader.u16 (u16le v) v := fun _ => Reader.u16_ok.mpr rfl

theorem u32 (v : UInt32) : Reads Reader.u32 (u32le v) v := fun _ => Reader.u32_ok.mpr rfl

theorem u64 (v : UInt64) : Reads Reader.u64 (u64le v) v := fun _ => Reader.u64_ok.mpr rfl

theorem bind_u8 {f : UInt8 → Reader β} {v : UInt8} (h : Reads (f v) tail b) :
    Reads (Reader.u8 >>= f) (v :: tail) b := (u8 v).bind h

/-- A list of items, each written by a function that may fail. -/
theorem mapM {ι : Type} {items : List ι} {write : ι → Except Error Bytes} {value : ι → α}
    {bodies : List Bytes} (h : items.mapM write = .ok bodies)
    (hr : ∀ i ∈ items, ∀ body, write i = .ok body → Reads r body (value i)) :
    Reads (Reader.times items.length r) bodies.flatten (items.map value) := by
  induction items generalizing bodies with
  | nil =>
      rw [List.mapM_nil, pure_eq_ok] at h
      rw [← h]
      exact pure []
  | cons i items ih =>
      obtain ⟨body, rest, hbody, hrest, rfl⟩ := mapM_ok_cons.mp h
      have htail := ih hrest fun j hj => hr j (List.mem_cons_of_mem i hj)
      rw [List.flatten_cons, List.map_cons, List.length_cons, Reader.times]
      exact (hr i List.mem_cons_self body hbody).bind (htail.bind_pure _)

/-- The same for a function that does not fail. -/
theorem map_flatten {ι : Type} {items : List ι} {write : ι → Bytes} {value : ι → α}
    (hr : ∀ i ∈ items, Reads r (write i) (value i)) :
    Reads (Reader.times items.length r) (items.map write).flatten (items.map value) := by
  have hwrite : items.mapM (fun i => (Except.ok (write i) : Except Error Bytes)) =
      .ok (items.map write) := List.mapM_pure
  refine mapM hwrite fun i hi body hbody => ?_
  injection hbody with hbody
  rw [← hbody]
  exact hr i hi

end Reads

/-- Bytes that are cut into pieces of one width. -/
theorem exists_pieces {width : Nat} (n : Nat) {raw : Bytes} (h : raw.length = width * n) :
    ∃ pieces : List Bytes, pieces.length = n ∧ (∀ p ∈ pieces, p.length = width) ∧
      pieces.flatten = raw := by
  induction n generalizing raw with
  | zero => exact ⟨[], rfl, by simp, (List.eq_nil_of_length_eq_zero (by simpa using h)).symm⟩
  | succ n ih =>
      rw [Nat.mul_succ] at h
      have hdrop : (raw.drop width).length = width * n := by
        rw [List.length_drop]
        omega
      obtain ⟨pieces, hcount, hwidth, hflat⟩ := ih hdrop
      refine ⟨raw.take width :: pieces, by simp [hcount], ?_, ?_⟩
      · intro p hp
        rcases List.mem_cons.mp hp with rfl | hp
        · rw [List.length_take]
          omega
        · exact hwidth p hp
      · rw [List.flatten_cons, hflat, List.take_append_drop]

/-- A list of hex texts of one width, read from any bytes of the right total length. -/
theorem Reads.pieces {width : Nat} {pieces : List Bytes} (h : ∀ p ∈ pieces, p.length = width) :
    Reads (Reader.times pieces.length (Reader.hex width)) pieces.flatten
      (pieces.map Hex.encode) := by
  have hall := Reads.map_flatten (fun p hp => Reads.hex (h p hp))
  rwa [List.map_id'] at hall

theorem mapM_decode_encode (pieces : List Bytes) :
    (pieces.map Hex.encode).mapM Hex.decode = .ok pieces := by
  have hall := mapM_map_ok fun p (_ : p ∈ pieces) => Hex.decode_encode p
  rwa [List.map_id'] at hall

theorem u8of_toNat {n : Nat} (h : n ≤ 255) : (u8of n).toNat = n :=
  UInt8.toNat_ofNat_of_lt' (Nat.lt_succ_of_le h)

theorem toNat_ofNat_u16 {n : Nat} (h : n ≤ 65535) : (UInt16.ofNat n).toNat = n :=
  UInt16.toNat_ofNat_of_lt' (Nat.lt_succ_of_le h)

/-- The second byte counts the ones after it: DER signatures and multihashes. -/
def counted (sig : Bytes) : Bool :=
  match sig with
  | _ :: l :: rest => rest.length = l.toNat
  | _ => false

theorem Reads.der {sig : Bytes} (h : counted sig) : Reads readDer sig (Hex.encode sig) := by
  intro rest
  match sig, h with
  | tag :: l :: body, h =>
      refine Reader.bind_ok.mpr ⟨some l, _, Reader.peek_ok.mpr ⟨rfl, rfl⟩, ?_⟩
      apply Reads.hex
      simpa [counted] using h

/-- What the node relies on in the libraries it is linked against. -/
structure Primitives.Lawful (P : Primitives) : Prop where
  sha256_length : ∀ message, (P.sha256 message).length = 32
  base58Check_encode : ∀ text raw, P.base58CheckDecode text = .ok raw →
    P.base58CheckEncode raw = text
  base58Check_decode : ∀ raw, P.base58CheckDecode (P.base58CheckEncode raw) = .ok raw
  /-- an address has at least its checksum -/
  base58Check_empty : ∀ raw, P.base58CheckDecode "" ≠ .ok raw
  base58_encode : ∀ text raw, P.base58Decode text = .ok raw → P.base58Encode raw = text
  base64_encode : ∀ text raw, P.base64Decode text = some raw → P.base64Encode raw = text
  utf8Lossy : ∀ text, P.utf8Lossy (utf8Bytes text) = text
  /-- keys are decoded from hex before they are used -/
  schnorr_key : ∀ hash sig key key', Hex.decode key = Hex.decode key' →
    P.verifySchnorrLegacy hash sig key = P.verifySchnorrLegacy hash sig key'
  ecdsa_key : ∀ hash sig key key', Hex.decode key = Hex.decode key' →
    P.verifyEcdsa hash sig key = P.verifyEcdsa hash sig key'
  /-- `der_is_strict` -/
  ecdsa_der : ∀ hash sig key, P.verifyEcdsa hash sig key = .ok true → counted sig

theorem utf8Bytes_eq_nil {text : Text} (h : (utf8Bytes text).length = 0) : text = "" := by
  apply Text.utf8Bytes_injective
  exact List.eq_nil_of_length_eq_zero h

theorem isEmpty_iff_utf8Bytes {text : Text} :
    text.isEmpty = true ↔ (utf8Bytes text).length = 0 := by
  constructor
  · intro h
    have hnil : text.toList = [] := List.isEmpty_iff.mp h
    simp [utf8Bytes, Text.utf8Bytes, hnil]
  · intro h
    rw [utf8Bytes_eq_nil h]
    rfl

/-- A text that is left out when it is empty. -/
def Text.nonempty (text : Option Text) : Option Text := text.filter fun t => !t.isEmpty

theorem Text.nonempty_getD (text : Option Text) : (Text.nonempty text).getD "" = text.getD "" := by
  cases text with
  | none => rfl
  | some t =>
      unfold Text.nonempty
      cases ht : t.isEmpty with
      | true =>
          rw [Option.filter_some_neg (by simp [ht]), utf8Bytes_eq_nil (isEmpty_iff_utf8Bytes.mp ht)]
          rfl
      | false => rw [Option.filter_some_pos (by simp [ht])]

section Texts

variable {P : Primitives}

theorem Reads.text (hP : P.Lawful) {text : Option Text} {n : Nat}
    (h : n = (utf8Bytes (text.getD "")).length) :
    Reads (readText P n) (utf8Bytes (text.getD "")) (Text.nonempty text) := by
  subst h
  unfold readText
  split_ifs with hzero
  · have hempty := utf8Bytes_eq_nil hzero
    have hnone : Text.nonempty text = none := by
      cases text with
      | none => rfl
      | some t =>
          have ht : t = "" := hempty
          rw [ht]
          rfl
    rw [hnone, hempty]
    exact Reads.pure none
  · have hsome : Text.nonempty text = some (P.utf8Lossy (utf8Bytes (text.getD ""))) := by
      rw [hP.utf8Lossy]
      cases text with
      | none => exact absurd rfl hzero
      | some t =>
          have ht : t.isEmpty = false := by
            rw [Bool.eq_false_iff]
            exact fun h => hzero (isEmpty_iff_utf8Bytes.mp h)
          simp [Text.nonempty, ht]
    rw [hsome]
    exact (Reads.bytes rfl).bind_pure fun x => some (P.utf8Lossy x)

/-- A text behind one byte that says how long it is. -/
theorem Reads.bind_text8 {β : Type} {f : Option Text → Reader β} {b : β} {tail : Bytes}
    (hP : P.Lawful) {text : Option Text} (hlen : (utf8Bytes (text.getD "")).length ≤ 255)
    (h : Reads (f (Text.nonempty text)) tail b) :
    Reads (Reader.u8 >>= fun n => readText P n.toNat >>= f)
      (u8of (utf8Bytes (text.getD "")).length :: (utf8Bytes (text.getD "") ++ tail)) b :=
  Reads.bind_u8 ((Reads.text hP (u8of_toNat hlen)).bind h)

/-- The same behind two bytes. -/
theorem Reads.bind_text16 {β : Type} {f : Option Text → Reader β} {b : β} {tail : Bytes}
    (hP : P.Lawful) {text : Option Text} (hlen : (utf8Bytes (text.getD "")).length ≤ 65535)
    (h : Reads (f (Text.nonempty text)) tail b) :
    Reads (Reader.u16 >>= fun n => readText P n.toNat >>= f)
      (u16le (UInt16.ofNat (utf8Bytes (text.getD "")).length) ++
        (utf8Bytes (text.getD "") ++ tail)) b :=
  (Reads.u16 _).bind ((Reads.text hP (toNat_ofNat_u16 hlen)).bind h)

theorem addressToBytes_ok {address : Text} {raw : Bytes} :
    addressToBytes P address = .ok raw ↔
      P.base58CheckDecode address = .ok raw ∧ raw.length = 21 := by
  unfold addressToBytes
  cases hdecode : P.base58CheckDecode address with
  | error e => simp
  | ok bytes =>
      by_cases hlength : bytes.length = 21
      · simp only [hlength, if_true, pure_eq_ok, Except.ok.injEq]
        constructor
        · rintro rfl
          exact ⟨rfl, hlength⟩
        · exact fun h => h.1
      · simp only [hlength, if_false, throw_ne_ok, Except.ok.injEq, false_iff, not_and]
        rintro rfl
        exact hlength

/-- An address is read back as it was written. -/
theorem Reads.address (hP : P.Lawful) {address : Text} {raw : Bytes}
    (h : addressToBytes P address = .ok raw) : Reads (readAddress P) raw address := by
  obtain ⟨hdecode, hlength⟩ := addressToBytes_ok.mp h
  have haddress : addressFromBytes P raw = address := hP.base58Check_encode address raw hdecode
  rw [← haddress]
  exact (Reads.bytes hlength).bind_pure (addressFromBytes P)

end Texts

end SthCore
