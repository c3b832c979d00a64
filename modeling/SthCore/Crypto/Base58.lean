import SthCore.Crypto.Reference
import SthCore.Crypto.Reads
import SthCore.Lib.Positional

/-!
The reference primitives keep the laws that the readers rely on.
-/

namespace SthCore

open SthCore.Lib

namespace Reference

theorem beBytes_length (width n : Nat) : (beBytes width n).length = width := by
  induction width with
  | zero => rfl
  | succ width ih => rw [beBytes, List.length_cons, ih]

theorem sha256_length (message : Bytes) : (sha256 message).length = 32 := by
  unfold sha256
  simp only [List.length_append, beBytes_length]

namespace Base58

/-- The character of a digit. -/
def character (d : Nat) : Char := alphabet.getD d '1'

/-- The alphabet, read in both directions. -/
theorem value_table : (∀ i : Fin 58, value (character i) = some i.val) ∧
    ∀ i : Fin 128, ∀ d ∈ value (Char.ofNat i), d < 58 ∧ character d = Char.ofNat i := by
  decide +kernel

theorem value_character {d : Nat} (h : d < 58) : value (character d) = some d :=
  value_table.1 ⟨d, h⟩

theorem character_value {c : Char} {d : Nat} (h : value c = some d) : d < 58 ∧ character d = c := by
  have hascii : c.toNat < 128 := by
    unfold value at h
    obtain ⟨r, hr, -⟩ := Option.map_eq_some_iff.mp h
    have hmem := List.mem_of_find?_eq_some hr
    have hinside := List.find?_some hr
    simp only [List.mem_cons, List.not_mem_nil, or_false] at hmem
    rcases hmem with rfl | rfl | rfl | rfl | rfl | rfl <;>
      simp only [Bool.and_eq_true, Nat.ble_eq] at hinside <;> omega
  have hc := value_table.2 ⟨c.toNat, hascii⟩ d
  rw [Char.ofNat_toNat] at hc
  exact hc h

theorem minimalBytes_eq {fuel n : Nat} (h : (Nat.digits 256 n).length ≤ fuel) (found : Bytes) :
    minimalBytes fuel n found = (Nat.digits 256 n).reverse.map UInt8.ofNat ++ found := by
  induction fuel generalizing n found with
  | zero =>
      have hnil : Nat.digits 256 n = [] := List.eq_nil_of_length_eq_zero (by omega)
      rw [minimalBytes, hnil]
      rfl
  | succ fuel ih =>
      rw [minimalBytes]
      by_cases hn : n = 0
      · subst hn
        rw [Nat.digits_zero]
        rfl
      · have hdigits := Nat.digits_eq_cons_digits_div (b := 256) (by decide) hn
        rw [hdigits, List.length_cons] at h
        have hbyte : UInt8.ofNat (n % 256) = UInt8.ofNat n := by
          apply UInt8.toNat_inj.mp
          simp
        have hfalse : Nat.beq n 0 = false := by
          rw [Bool.eq_false_iff, ne_eq, Nat.beq_eq]
          exact hn
        rw [hfalse, cond_false]
        change minimalBytes fuel (n / 256) _ = _
        rw [ih (by omega), hdigits, List.reverse_cons, List.map_append, List.append_assoc,
          List.map_singleton, hbyte, List.singleton_append]

theorem digits_eq {fuel n : Nat} (h : (Nat.digits 58 n).length ≤ fuel) (found : List Char) :
    digits fuel n found = (Nat.digits 58 n).reverse.map character ++ found := by
  induction fuel generalizing n found with
  | zero =>
      have hnil : Nat.digits 58 n = [] := List.eq_nil_of_length_eq_zero (by omega)
      rw [digits, hnil]
      rfl
  | succ fuel ih =>
      rw [digits]
      by_cases hn : n = 0
      · subst hn
        rw [Nat.digits_zero]
        rfl
      · have hdigits := Nat.digits_eq_cons_digits_div (b := 58) (by decide) hn
        rw [hdigits, List.length_cons] at h
        have hfalse : Nat.beq n 0 = false := by
          rw [Bool.eq_false_iff, ne_eq, Nat.beq_eq]
          exact hn
        rw [hfalse, cond_false]
        change digits fuel (n / 58) (character (n % 58) :: found) = _
        rw [ih (by omega), hdigits, List.reverse_cons, List.map_append, List.append_assoc,
          List.map_singleton, List.singleton_append]

/-- The digits of bytes in base 256. -/
def byteDigits (bytes : Bytes) : List Nat := bytes.map UInt8.toNat

theorem ofBytes_eq (bytes : Bytes) : ofBytes bytes = digitsValue 256 (byteDigits bytes) := by
  rw [← foldl_digitsValue, byteDigits, List.foldl_map]
  rfl

theorem byteDigits_lt (bytes : Bytes) : ∀ d ∈ byteDigits bytes, d < 256 := by
  intro d hd
  obtain ⟨b, -, rfl⟩ := List.mem_map.mp hd
  exact b.toNat_lt

theorem map_ofNat_byteDigits (bytes : Bytes) : (byteDigits bytes).map UInt8.ofNat = bytes := by
  rw [byteDigits, List.map_map]
  conv_rhs => rw [← List.map_id bytes]
  exact List.map_congr_left fun b _ => UInt8.ofNat_toNat

theorem leadingZeros_byteDigits (bytes : Bytes) :
    (bytes.takeWhile (· = 0)).length = leadingZeros (byteDigits bytes) := by
  unfold leadingZeros byteDigits
  rw [List.takeWhile_map, List.length_map]
  congr 2
  funext b
  exact decide_eq_decide.mpr UInt8.toNat_inj.symm

/-- The text of bytes is the same number with the same leading zeros in base 58. -/
theorem encode_eq (bytes : Bytes) :
    encode bytes = ⟨(paddedDigits 58 (leadingZeros (byteDigits bytes))
      (digitsValue 256 (byteDigits bytes))).map character⟩ := by
  have hsize : (Nat.digits 58 (digitsValue 256 (byteDigits bytes))).length ≤
      Nat.mul 2 bytes.length := by
    have hvalue := digitsValue_lt (by decide : 1 < 256) (byteDigits_lt bytes)
    rw [byteDigits, List.length_map] at hvalue
    rw [Nat.digits_length_le_iff (by decide)]
    calc digitsValue 256 (byteDigits bytes)
        < 256 ^ bytes.length := hvalue
      _ ≤ (58 ^ 2) ^ bytes.length := Nat.pow_le_pow_left (by decide) _
      _ = 58 ^ Nat.mul 2 bytes.length := (pow_mul 58 2 bytes.length).symm
  unfold encode
  rw [ofBytes_eq, digits_eq hsize, List.append_nil, List.map_const', leadingZeros_byteDigits]
  unfold paddedDigits
  rw [List.map_append, List.map_replicate]
  rfl

theorem mapM_value {chars : List Char} {values : List Nat} :
    chars.mapM value = some values ↔ (∀ d ∈ values, d < 58) ∧ values.map character = chars := by
  induction chars generalizing values with
  | nil =>
      constructor
      · intro h
        injection h with h
        subst h
        simp
      · rintro ⟨-, h⟩
        rw [List.map_eq_nil_iff.mp h]
        rfl
  | cons c rest ih =>
      rw [List.mapM_cons]
      constructor
      · intro h
        obtain ⟨d, hd, h⟩ := Option.bind_eq_some_iff.mp h
        obtain ⟨ds, hds, h⟩ := Option.bind_eq_some_iff.mp h
        injection h with h
        subst h
        obtain ⟨hsmall, hc⟩ := character_value hd
        obtain ⟨hall, hrest⟩ := ih.mp hds
        exact ⟨List.forall_mem_cons.mpr ⟨hsmall, hall⟩, by rw [List.map_cons, hc, hrest]⟩
      · rintro ⟨hall, hchars⟩
        cases values with
        | nil => cases hchars
        | cons d ds =>
            rw [List.map_cons, List.cons.injEq] at hchars
            obtain ⟨hsmall, hall⟩ := List.forall_mem_cons.mp hall
            rw [← hchars.1, value_character hsmall, ih.mpr ⟨hall, hchars.2⟩]
            rfl

theorem decode_eq {text : Text} {values : List Nat} (h : text.toList.mapM value = some values) :
    decode text = .ok ((paddedDigits 256 (leadingZeros values) (digitsValue 58 values)).map
      UInt8.ofNat) := by
  have hsize : (Nat.digits 256 (digitsValue 58 values)).length ≤ values.length := by
    rw [Nat.digits_length_le_iff (by decide)]
    exact (digitsValue_lt (by decide) (mapM_value.mp h).1).trans_le
      (Nat.pow_le_pow_left (by decide) _)
  unfold decode
  rw [h]
  simp only [foldl_digitsValue]
  rw [minimalBytes_eq hsize, List.append_nil, List.map_const']
  unfold paddedDigits leadingZeros
  rw [List.map_append, List.map_replicate]
  rfl

theorem decode_encode (bytes : Bytes) : decode (encode bytes) = .ok bytes := by
  have hdigits : ∀ d ∈ paddedDigits 58 (leadingZeros (byteDigits bytes))
      (digitsValue 256 (byteDigits bytes)), d < 58 := paddedDigits_lt (by decide)
  rw [encode_eq, decode_eq (mapM_value.mpr ⟨hdigits, rfl⟩), leadingZeros_paddedDigits,
    digitsValue_paddedDigits, paddedDigits_value (by decide) (byteDigits_lt bytes),
    map_ofNat_byteDigits]

theorem encode_decode {text : Text} {bytes : Bytes} (h : decode text = .ok bytes) :
    encode bytes = text := by
  cases hvalues : text.toList.mapM value with
  | none =>
      unfold decode at h
      rw [hvalues] at h
      cases h
  | some values =>
      obtain ⟨hsmall, hchars⟩ := mapM_value.mp hvalues
      have hdigits : ∀ d ∈ paddedDigits 256 (leadingZeros values) (digitsValue 58 values), d < 256 :=
        paddedDigits_lt (by decide)
      have hbytes : byteDigits bytes =
          paddedDigits 256 (leadingZeros values) (digitsValue 58 values) := by
        rw [decode_eq hvalues] at h
        injection h with h
        rw [← h, byteDigits, List.map_map]
        conv_rhs => rw [← List.map_id (paddedDigits _ _ _)]
        apply List.map_congr_left
        intro d hd
        exact UInt8.toNat_ofNat_of_lt' (hdigits d hd)
      rw [encode_eq, hbytes, leadingZeros_paddedDigits, digitsValue_paddedDigits,
        paddedDigits_value (by decide) hsmall, hchars]

theorem checksum_length (bytes : Bytes) : (checksum bytes).length = 4 := by
  unfold checksum
  rw [List.length_take, sha256_length]
  rfl

theorem checkDecode_ok {text : Text} {payload : Bytes} :
    checkDecode text = .ok payload ↔ decode text = .ok (payload ++ checksum payload) := by
  have hfour := checksum_length payload
  unfold checkDecode
  rw [bind_eq_ok]
  constructor
  · rintro ⟨bytes, hbytes, h⟩
    simp only at h
    split_ifs at h with hshort hsum
    rw [pure_eq_ok] at h
    rw [hbytes, ← h, ← hsum, List.take_append_drop]
  · intro h
    refine ⟨_, h, ?_⟩
    have hsize : (payload ++ checksum payload).length - 4 = payload.length := by
      rw [List.length_append, hfour]
      omega
    simp only [hsize, List.take_left, List.drop_left, if_true]
    rw [if_neg (by rw [List.length_append]; omega)]
    rfl

end Base58

theorem parseDer_counted {sig : Bytes} {p : Nat × Nat} (h : Secp256k1.parseDer sig = some p) :
    counted sig := by
  unfold Secp256k1.parseDer at h
  split at h
  · split at h
    · simp only at h
      split_ifs at h with hshape
      have hlength := hshape.1
      simp only [List.length_cons] at hlength
      simp only [counted, List.length_cons, decide_eq_true_eq]
      omega
    · cases h
  · cases h

/-- The reference primitives are lawful. -/
theorem primitives_lawful : primitives.Lawful where
  sha256_length := sha256_length
  base58Check_encode := fun text raw h => Base58.encode_decode (Base58.checkDecode_ok.mp h)
  base58Check_decode := fun raw => Base58.checkDecode_ok.mpr (Base58.decode_encode _)
  base58Check_empty := by
    intro raw h
    have hbytes : Base58.decode "" = .ok [] := by decide
    have hlong := Base58.checkDecode_ok.mp h
    rw [hbytes] at hlong
    injection hlong with hlong
    have hfour := congrArg List.length hlong
    rw [List.length_append, Base58.checksum_length, List.length_nil] at hfour
    omega
  base58_encode := fun text raw h => Base58.encode_decode h
  base64_encode := nofun
  utf8Lossy := fun text => by
    change (Text.ofUtf8 text.utf8Bytes).getD _ = text
    rw [Text.ofUtf8_utf8Bytes]
    rfl
  schnorr_key := fun hash sig key key' h => by
    change Secp256k1.verifySchnorrLegacy hash sig key = Secp256k1.verifySchnorrLegacy hash sig key'
    unfold Secp256k1.verifySchnorrLegacy
    rw [h]
  ecdsa_key := fun hash sig key key' h => by
    change Secp256k1.verifyEcdsa hash sig key = Secp256k1.verifyEcdsa hash sig key'
    unfold Secp256k1.verifyEcdsa
    rw [h]
  ecdsa_der := fun hash sig key h => by
    change Secp256k1.verifyEcdsa hash sig key = .ok true at h
    unfold Secp256k1.verifyEcdsa at h
    cases hparse : Secp256k1.parseDer sig with
    | none => simp [hparse] at h
    | some p => exact parseDer_counted hparse

end Reference

end SthCore
