import Mathlib

/-!
Text as the list of its characters.  The order is that of the code points, which
is also the byte order of the encodings.
-/

namespace SthCore

structure Text where
  toList : List Char
  deriving DecidableEq, Inhabited

namespace Text

def ofString (s : String) : Text := ⟨s.toList⟩

instance : Coe String Text := ⟨ofString⟩

instance : ToString Text := ⟨fun t => String.ofList t.toList⟩

instance : Append Text := ⟨fun s t => ⟨s.toList ++ t.toList⟩⟩

instance : Ord Text := ⟨fun s t => compare s.toList t.toList⟩

instance : LE Text := leOfOrd

instance (s t : Text) : Decidable (s ≤ t) :=
  inferInstanceAs (Decidable ((compare s t).isLE = true))

instance : Std.TransOrd Text where
  eq_swap := Std.OrientedOrd.eq_swap (α := List Char)
  isLE_trans := Std.TransOrd.isLE_trans (α := List Char)

instance : Std.LawfulEqOrd Text where
  compare_self := Std.ReflOrd.compare_self (α := List Char)
  eq_of_compare h := congrArg Text.mk (Std.LawfulEqOrd.eq_of_compare (α := List Char) h)

theorem compare_swap (s t : Text) : compare t s = (compare s t).swap :=
  Std.OrientedCmp.eq_swap

instance : Std.Total fun s t : Text => s ≤ t where
  total s t := by
    change (compare s t).isLE = true ∨ (compare t s).isLE = true
    rw [compare_swap s t]
    cases compare s t <;> simp

instance : IsTrans Text fun s t => s ≤ t where
  trans _ _ _ h h' := Std.TransOrd.isLE_trans h h'

instance : Std.Antisymm fun s t : Text => s ≤ t where
  antisymm s t h h' := by
    change (compare s t).isLE = true at h
    change (compare t s).isLE = true at h'
    rw [compare_swap s t] at h'
    apply Std.LawfulEqOrd.eq_of_compare
    cases hc : compare s t <;> simp_all

def isEmpty (t : Text) : Bool := t.toList.isEmpty

/-- Length of the encoding in bytes. -/
def utf8ByteSize (t : Text) : Nat := (t.toList.map Char.utf8Size).sum

def toLower (t : Text) : Text := ⟨t.toList.map Char.toLower⟩

/-- The decimal digits of a number. -/
def ofNat (n : Nat) : Text := ⟨Nat.toDigits 10 n⟩

/-- The bytes of the encoding. -/
def utf8Bytes (t : Text) : List UInt8 := t.toList.flatMap String.utf8EncodeChar

theorem utf8Bytes_injective : Function.Injective utf8Bytes := by
  rintro ⟨s⟩ ⟨t⟩ h
  have hencode : s.utf8Encode = t.utf8Encode := congrArg List.toByteArray h
  have hstring : String.ofList s = String.ofList t := by
    simp only [String.ofList]
    congr
  rw [String.ofList_injective hstring]

/-- A continuation byte and its six bits. -/
def continuation (b : UInt8) : Option Nat :=
  if b.toNat / 64 = 2 then some (b.toNat % 64) else none

/-- A character of the given code point, in the shortest form only. -/
def scalar (least n : Nat) : Option Char :=
  if least ≤ n ∧ n.isValidChar then some (Char.ofNat n) else none

/-- Decoding of UTF-8, nothing for malformed bytes. -/
def decodeUtf8 : List UInt8 → Option (List Char)
  | [] => some []
  | a :: rest =>
      if a.toNat < 0x80 then do
        return Char.ofNat a.toNat :: (← decodeUtf8 rest)
      else
        match rest with
        | [] => none
        | b :: rest =>
            if a.toNat < 0xe0 then do
              let c ← scalar 0x80 ((a.toNat - 0xc0) * 64 + (← continuation b))
              if a.toNat < 0xc0 then none
              return c :: (← decodeUtf8 rest)
            else
              match rest with
              | [] => none
              | c :: rest =>
                  if a.toNat < 0xf0 then do
                    let x ← scalar 0x800
                      ((a.toNat - 0xe0) * 4096 + (← continuation b) * 64 + (← continuation c))
                    return x :: (← decodeUtf8 rest)
                  else
                    match rest with
                    | [] => none
                    | d :: rest => do
                        let x ← scalar 0x10000 ((a.toNat - 0xf0) * 262144 +
                          (← continuation b) * 4096 + (← continuation c) * 64 + (← continuation d))
                        return x :: (← decodeUtf8 rest)

def ofUtf8 (bytes : List UInt8) : Option Text := (decodeUtf8 bytes).map Text.mk

theorem continuation_ofNat {n : Nat} (h : n < 64) :
    continuation (UInt8.ofNat (n + 0x80)) = some n := by
  have hbyte : (UInt8.ofNat (n + 0x80)).toNat = n + 0x80 := UInt8.toNat_ofNat_of_lt' (by
    change n + 0x80 < 256
    omega)
  unfold continuation
  rw [hbyte, if_pos (by omega)]
  congr 1
  omega

theorem scalar_toNat (c : Char) {least : Nat} (h : least ≤ c.val.toNat) :
    scalar least c.val.toNat = some c := by
  unfold scalar
  rw [if_pos ⟨h, c.valid⟩]
  exact congrArg some c.ofNat_toNat

section Lengths

variable {a b c d : UInt8} {x y z : Nat} {char : Char} (rest : List UInt8)

theorem decodeUtf8_one (ha : a.toNat < 0x80) (hchar : Char.ofNat a.toNat = char) :
    decodeUtf8 (a :: rest) = (decodeUtf8 rest).map (char :: ·) := by
  rw [decodeUtf8.eq_def]
  dsimp only
  rw [if_pos ha, hchar]
  cases decodeUtf8 rest with
  | none => rfl
  | some chars => rfl

theorem decodeUtf8_two (ha : 0xc0 ≤ a.toNat) (ha' : a.toNat < 0xe0)
    (hb : continuation b = some x)
    (hchar : scalar 0x80 ((a.toNat - 0xc0) * 64 + x) = some char) :
    decodeUtf8 (a :: b :: rest) = (decodeUtf8 rest).map (char :: ·) := by
  rw [decodeUtf8.eq_def]
  dsimp only
  rw [if_neg (by omega), if_pos ha', hb, Option.bind_eq_bind, Option.bind_some, hchar,
    Option.bind_eq_bind, Option.bind_some, if_neg (by omega)]
  cases decodeUtf8 rest with
  | none => rfl
  | some chars => rfl

theorem decodeUtf8_three (ha : 0xe0 ≤ a.toNat) (ha' : a.toNat < 0xf0)
    (hb : continuation b = some x) (hc : continuation c = some y)
    (hchar : scalar 0x800 ((a.toNat - 0xe0) * 4096 + x * 64 + y) = some char) :
    decodeUtf8 (a :: b :: c :: rest) = (decodeUtf8 rest).map (char :: ·) := by
  rw [decodeUtf8.eq_def]
  dsimp only
  rw [if_neg (by omega), if_neg (by omega), if_pos ha', hb, Option.bind_eq_bind, Option.bind_some,
    hc, Option.bind_eq_bind, Option.bind_some, hchar, Option.bind_some]
  cases decodeUtf8 rest with
  | none => rfl
  | some chars => rfl

theorem decodeUtf8_four (ha : 0xf0 ≤ a.toNat) (hb : continuation b = some x)
    (hc : continuation c = some y) (hd : continuation d = some z)
    (hchar : scalar 0x10000 ((a.toNat - 0xf0) * 262144 + x * 4096 + y * 64 + z) = some char) :
    decodeUtf8 (a :: b :: c :: d :: rest) = (decodeUtf8 rest).map (char :: ·) := by
  rw [decodeUtf8.eq_def]
  dsimp only
  rw [if_neg (by omega), if_neg (by omega), if_neg (by omega), hb, Option.bind_eq_bind,
    Option.bind_some, hc, Option.bind_eq_bind, Option.bind_some, hd, Option.bind_eq_bind,
    Option.bind_some, hchar, Option.bind_some]
  cases decodeUtf8 rest with
  | none => rfl
  | some chars => rfl

end Lengths

/-- The encoding of one character is read as that character. -/
theorem decodeUtf8_encodeChar (c : Char) (rest : List UInt8) :
    decodeUtf8 (String.utf8EncodeChar c ++ rest) = (decodeUtf8 rest).map (c :: ·) := by
  have hmax : c.val.toNat < 0x110000 := by
    have hvalid := c.valid
    simp only [UInt32.isValidChar, Nat.isValidChar] at hvalid
    omega
  have hself : Char.ofNat c.val.toNat = c := c.ofNat_toNat
  have hscalar {least n : Nat} (hn : n = c.val.toNat) (h : least ≤ n) :
      scalar least n = some c := by
    rw [hn] at h ⊢
    exact scalar_toNat c h
  have hbyte {n : Nat} (h : n < 256) : (UInt8.ofNat n).toNat = n := UInt8.toNat_ofNat_of_lt' h
  unfold String.utf8EncodeChar
  dsimp only
  generalize c.val.toNat = v at hmax hself hscalar
  split_ifs with h1 h2 h3
  · have ha := hbyte (n := v) (by omega)
    exact decodeUtf8_one rest (by omega) (by rw [ha, hself])
  · have ha := hbyte (n := v / 64 % 0x20 + 0xc0) (by omega)
    exact decodeUtf8_two rest (by omega) (by omega) (continuation_ofNat (by omega))
      (hscalar (by omega) (by omega))
  · have ha := hbyte (n := v / 4096 % 0x10 + 0xe0) (by omega)
    exact decodeUtf8_three rest (by omega) (by omega) (continuation_ofNat (by omega))
      (continuation_ofNat (by omega)) (hscalar (by omega) (by omega))
  · have ha := hbyte (n := v / 262144 % 0x08 + 0xf0) (by omega)
    exact decodeUtf8_four rest (by omega) (continuation_ofNat (by omega))
      (continuation_ofNat (by omega)) (continuation_ofNat (by omega))
      (hscalar (by omega) (by omega))

theorem ofUtf8_utf8Bytes (t : Text) : ofUtf8 t.utf8Bytes = some t := by
  have hchars : ∀ chars : List Char,
      decodeUtf8 (chars.flatMap String.utf8EncodeChar) = some chars := by
    intro chars
    induction chars with
    | nil => rfl
    | cons c rest ih => rw [List.flatMap_cons, decodeUtf8_encodeChar, ih, Option.map_some]
  rw [ofUtf8, utf8Bytes, hchars, Option.map_some]

end Text

end SthCore
