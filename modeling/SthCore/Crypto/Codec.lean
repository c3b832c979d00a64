import SthCore.Lib.Result
import SthCore.Crypto.TxSerializer

/-!
The parts of the wire format that identify a transaction: hexadecimal text and
little-endian numbers can be read back, and nonce and sender sit at fixed
offsets.
-/

namespace SthCore

open SthCore.Lib

namespace Hex

theorem digit_encodeDigit (b : UInt8) :
    digit (encodeDigit (b / 16)) = some (b / 16) ∧
    digit (encodeDigit (b % 16)) = some (b % 16) ∧
    16 * (b / 16) + b % 16 = b := by
  have hdigit : ∀ i : Fin 16, digit (encodeDigit (UInt8.ofNat i)) = some (UInt8.ofNat i) := by decide
  have hdiv : (b / 16).toNat < 16 := by
    have hb := b.toNat_lt
    rw [UInt8.toNat_div]
    exact Nat.div_lt_of_lt_mul hb
  have hmod : (b % 16).toNat < 16 := by
    rw [UInt8.toNat_mod]
    exact Nat.mod_lt _ (by decide)
  have h1 := hdigit ⟨_, hdiv⟩
  have h2 := hdigit ⟨_, hmod⟩
  simp only [UInt8.ofNat_toNat] at h1 h2
  refine ⟨h1, h2, ?_⟩
  apply UInt8.toNat_inj.mp
  have hb := b.toNat_lt
  rw [UInt8.toNat_add, UInt8.toNat_mul, UInt8.toNat_div, UInt8.toNat_mod]
  change (16 * (b.toNat / 16) % 256 + b.toNat % 16) % 256 = b.toNat
  omega

theorem decodeChars_encode (bytes : Bytes) :
    decodeChars (bytes.flatMap fun b => [encodeDigit (b / 16), encodeDigit (b % 16)]) =
      some bytes := by
  induction bytes with
  | nil => rfl
  | cons b rest ih =>
      have h := digit_encodeDigit b
      rw [List.flatMap_cons]
      simp only [List.cons_append, List.nil_append, decodeChars, h.1, h.2.1, ih]
      simp [h.2.2]

theorem decode_encode (bytes : Bytes) : decode (encode bytes) = .ok bytes := by
  simp [decode, encode, decodeChars_encode]

theorem encode_injective : Function.Injective encode := by
  intro x y h
  have hx := decode_encode x
  rw [h, decode_encode y] at hx
  injection hx with hx
  exact hx.symm

theorem digit_ascii {c : Char} {v : UInt8} (h : digit c = some v) : c.toNat < 128 := by
  have hbound : ∀ {lo hi : Char}, lo ≤ c ∧ c ≤ hi → c.toNat ≤ hi.toNat := fun hc => hc.2
  unfold digit at h
  split at h
  · exact Nat.lt_of_le_of_lt (hbound ‹_›) (by decide)
  · split at h
    · exact Nat.lt_of_le_of_lt (hbound ‹_›) (by decide)
    · split at h
      · exact Nat.lt_of_le_of_lt (hbound ‹_›) (by decide)
      · cases h

/-- The characters of one run of digits. -/
theorem exists_fin_of_le {lo hi c : Char} {n : Nat} (hn : hi.toNat < lo.toNat + n)
    (h : lo ≤ c ∧ c ≤ hi) : ∃ i : Fin n, c.toNat = lo.toNat + i := by
  have hlo : lo.toNat ≤ c.toNat := h.1
  have hhi : c.toNat ≤ hi.toNat := h.2
  exact ⟨⟨c.toNat - lo.toNat, by omega⟩, by simp only; omega⟩

/-- A digit is written back in lower case. -/
theorem encodeDigit_of_digit {c : Char} {v : UInt8} (h : digit c = some v) :
    v < 16 ∧ encodeDigit v = c.toLower := by
  have hdecimal : ∀ i : Fin 10, UInt8.ofNat (48 + i - 48) < 16 ∧
      encodeDigit (UInt8.ofNat (48 + i - 48)) = (Char.ofNat (48 + i)).toLower := by decide
  have hlower : ∀ i : Fin 6, UInt8.ofNat (97 + i - 87) < 16 ∧
      encodeDigit (UInt8.ofNat (97 + i - 87)) = (Char.ofNat (97 + i)).toLower := by decide
  have hupper : ∀ i : Fin 6, UInt8.ofNat (65 + i - 55) < 16 ∧
      encodeDigit (UInt8.ofNat (65 + i - 55)) = (Char.ofNat (65 + i)).toLower := by decide
  unfold digit at h
  split_ifs at h with hc hc hc
  · obtain ⟨i, hi⟩ := exists_fin_of_le (n := 10) (by decide) hc
    rw [← Char.ofNat_toNat c, ← Option.some.inj h, hi]
    exact hdecimal i
  · obtain ⟨i, hi⟩ := exists_fin_of_le (n := 6) (by decide) hc
    rw [← Char.ofNat_toNat c, ← Option.some.inj h, hi]
    exact hlower i
  · obtain ⟨i, hi⟩ := exists_fin_of_le (n := 6) (by decide) hc
    rw [← Char.ofNat_toNat c, ← Option.some.inj h, hi]
    exact hupper i

theorem nibbles_of_lt (x y : UInt8) (hx : x < 16) (hy : y < 16) :
    (16 * x + y) / 16 = x ∧ (16 * x + y) % 16 = y := by
  have hx : x.toNat < 16 := hx
  have hy : y.toNat < 16 := hy
  have hsum : (16 * x + y).toNat = 16 * x.toNat + y.toNat := by
    rw [UInt8.toNat_add, UInt8.toNat_mul]
    change (16 * x.toNat % 256 + y.toNat) % 256 = _
    omega
  constructor
  · apply UInt8.toNat_inj.mp
    rw [UInt8.toNat_div, hsum]
    change (16 * x.toNat + y.toNat) / 16 = _
    omega
  · apply UInt8.toNat_inj.mp
    rw [UInt8.toNat_mod, hsum]
    change (16 * x.toNat + y.toNat) % 16 = _
    omega

theorem decodeChars_eq_some {chars : List Char} {bytes : Bytes}
    (h : decodeChars chars = some bytes) :
    (bytes.flatMap fun b => [encodeDigit (b / 16), encodeDigit (b % 16)]) =
      chars.map Char.toLower := by
  induction chars using decodeChars.induct generalizing bytes with
  | case1 =>
      cases h
      rfl
  | case2 c => cases h
  | case3 high low rest ih =>
      simp only [decodeChars, Option.bind_eq_bind, Option.bind_eq_some_iff, Option.pure_def,
        Option.some.injEq] at h
      obtain ⟨x, hx, y, hy, tail, htail, rfl⟩ := h
      obtain ⟨hx, hhigh⟩ := encodeDigit_of_digit hx
      obtain ⟨hy, hlow⟩ := encodeDigit_of_digit hy
      obtain ⟨hdiv, hmod⟩ := nibbles_of_lt x y hx hy
      rw [List.flatMap_cons, hdiv, hmod, hhigh, hlow, ih htail]
      rfl

/-- Decoding forgets nothing but the letter case. -/
theorem encode_of_decode {text : Text} {bytes : Bytes} (h : decode text = .ok bytes) :
    encode bytes = text.toLower := by
  unfold decode at h
  split at h
  · rename_i found hfound
    injection h with h
    subst h
    rw [encode, decodeChars_eq_some hfound, Text.toLower]
  · cases h

theorem isHex_iff {text : Text} : isHex text = true ↔ ∃ bytes, decode text = .ok bytes := by
  unfold isHex decode
  cases decodeChars text.toList <;> simp

/-- Two hex texts decode to the same bytes if and only if they differ in letter case at most. -/
theorem decode_eq_decode_iff {s t : Text} {x y : Bytes} (hs : decode s = .ok x)
    (ht : decode t = .ok y) : x = y ↔ s.toLower = t.toLower := by
  rw [← encode_of_decode hs, ← encode_of_decode ht]
  exact encode_injective.eq_iff.symm

theorem decodeChars_ascii {chars : List Char} {bytes : Bytes}
    (h : decodeChars chars = some bytes) : ∀ c ∈ chars, c.toNat < 128 := by
  induction chars using decodeChars.induct generalizing bytes with
  | case1 => simp
  | case2 c => cases h
  | case3 high low rest ih =>
      simp only [decodeChars, Option.bind_eq_bind, Option.bind_eq_some_iff] at h
      obtain ⟨x, hx, y, hy, tail, htail, -⟩ := h
      simp only [List.mem_cons]
      rintro c (rfl | rfl | hc)
      · exact digit_ascii hx
      · exact digit_ascii hy
      · exact ih htail c hc

theorem decodeChars_length {chars : List Char} {bytes : Bytes}
    (h : decodeChars chars = some bytes) : 2 * bytes.length = chars.length := by
  have hlength := congrArg List.length (decodeChars_eq_some h)
  simp only [List.length_flatMap, List.length_map, List.length_cons, List.length_nil] at hlength
  simp only [List.map_const', List.sum_replicate, smul_eq_mul] at hlength
  omega

/-- Two bytes of text for each byte decoded. -/
theorem utf8Bytes_length {text : Text} {bytes : Bytes} (h : decode text = .ok bytes) :
    (SthCore.utf8Bytes text).length = 2 * bytes.length := by
  unfold decode at h
  split at h
  · rename_i found hfound
    injection h with h
    subst h
    have hone : ∀ c ∈ text.toList, (String.utf8EncodeChar c).length = 1 := by
      intro c hc
      have hascii : c.toNat < 128 := decodeChars_ascii hfound c hc
      rw [String.length_utf8EncodeChar, Char.utf8Size_eq_one_iff]
      exact UInt32.le_iff_toNat_le.mpr (Nat.le_of_lt_succ hascii)
    rw [decodeChars_length hfound, SthCore.utf8Bytes, Text.utf8Bytes, List.length_flatMap,
      List.map_congr_left hone]
    simp
  · cases h

end Hex

theorem leBytes_length (width n : Nat) : (leBytes width n).length = width := by
  induction width generalizing n with
  | zero => rfl
  | succ width ih => simp [leBytes, ih]

theorem ofLeBytes_leBytes (width n : Nat) : ofLeBytes (leBytes width n) = n % 256 ^ width := by
  induction width generalizing n with
  | zero => simp [leBytes, ofLeBytes, Nat.mod_one]
  | succ width ih =>
      rw [leBytes, ofLeBytes, ih, pow_succ, mul_comm (256 ^ width), Nat.mod_mul]
      simp

theorem u64le_injective : Function.Injective u64le := by
  intro x y h
  have hx := ofLeBytes_leBytes 8 x.toNat
  have hy := ofLeBytes_leBytes 8 y.toNat
  unfold u64le at h
  rw [h, hy] at hx
  have hx' : x.toNat < 256 ^ 8 := x.toNat_lt
  have hy' : y.toNat < 256 ^ 8 := y.toNat_lt
  rw [Nat.mod_eq_of_lt hx', Nat.mod_eq_of_lt hy'] at hx
  exact UInt64.toNat_inj.mp hx.symm

/-- A transaction with a nonce and a full sender key, in bytes. -/
theorem serializeTransaction_layout {P : Primitives} {tx : Transaction} {opts : SerializeOptions}
    {net : UInt8} {bytes : Bytes} {n : UInt64} {sender : Bytes} (hn : tx.nonce = some n)
    (hs : Hex.decode tx.senderPublicKey = .ok sender)
    (h : serializeTransaction P tx opts net = .ok bytes) :
    ∃ rest, bytes = ([0xff, tx.version, tx.network.getD net] ++ u32le tx.typeGroup ++
      u16le tx.type) ++ (u64le n ++ (sender ++ rest)) := by
  simp only [serializeTransaction, throw_bind, ite_error_eq_ok] at h
  obtain ⟨-, h⟩ := h
  obtain ⟨common, hcommon, h⟩ := bind_eq_ok.mp h
  obtain ⟨vendor, -, h⟩ := bind_eq_ok.mp h
  obtain ⟨payload, -, h⟩ := bind_eq_ok.mp h
  obtain ⟨sigs, -, h⟩ := bind_eq_ok.mp h
  obtain ⟨sender', hs', hcommon⟩ := bind_eq_ok.mp hcommon
  rw [hs] at hs'
  injection hs' with hs'
  simp only [hn, pure_eq_ok] at h hcommon
  refine ⟨u64le tx.fee ++ (vendor ++ payload ++ sigs), ?_⟩
  rw [← h, ← hcommon, ← hs']
  simp only [List.append_assoc]

/-- Transactions with the same bytes have the same nonce and the same sender. -/
theorem nonce_sender_of_bytes_eq {P : Primitives} {t u : Transaction} {opts : SerializeOptions}
    {net : UInt8} {bytes : Bytes} {n m : UInt64} {x y : Bytes} (hn : t.nonce = some n)
    (hm : u.nonce = some m) (hx : Hex.decode t.senderPublicKey = .ok x)
    (hy : Hex.decode u.senderPublicKey = .ok y) (hlen : x.length = y.length)
    (ht : serializeTransaction P t opts net = .ok bytes)
    (hu : serializeTransaction P u opts net = .ok bytes) : n = m ∧ x = y := by
  obtain ⟨rest, hrest⟩ := serializeTransaction_layout hn hx ht
  obtain ⟨rest', hrest'⟩ := serializeTransaction_layout hm hy hu
  rw [hrest] at hrest'
  have hhead := List.append_inj hrest' (by simp [u32le, u16le, leBytes_length])
  have hnonce := List.append_inj hhead.2 (by simp [u64le, leBytes_length])
  have hsender := List.append_inj hnonce.2 hlen
  exact ⟨u64le_injective hnonce.1, hsender.1⟩

end SthCore
