import SthCore.Crypto.Base58

/-!
The shape of a signature of a block.  There is one strict encoding of a pair of
numbers, up to the two bytes that mark them as numbers.
-/

namespace SthCore

open SthCore.Lib
open Reference.Base58 (byteDigits map_ofNat_byteDigits byteDigits_lt)

/-- `first == 0 && (len < 2 || sig[place] >= 0)`: a zero in front that is not needed. -/
def needlessZero (sig : Bytes) (first : UInt8) (len place : Nat) : Option Bool :=
  if first ≠ 0 then some false
  else if len < 2 then some true
  else sig[place]?.map fun second => decide (second < 128)

/-- `der_is_strict`; nothing when a byte behind the end is read. -/
def derIsStrict (sig : Bytes) : Option Bool :=
  if sig.length < 8 then some false
  else do
    let tag ← sig[0]?
    if tag ≠ 0x30 then return false
    let sigLen := (← sig[1]?).toNat
    let rLen := (← sig[3]?).toNat
    let sLenIdx := 4 + rLen + 1
    if sig.length ≤ sLenIdx then return false
    let sLen := (← sig[sLenIdx]?).toNat
    if sig.length ≠ 4 + rLen + 2 + sLen ∨ sigLen ≠ 2 + rLen + 2 + sLen ∨ 127 < sigLen then
      return false
    if rLen = 0 ∨ sLen = 0 then return false
    let rFirst ← sig[4]?
    let sFirst ← sig[4 + rLen + 2]?
    if 128 ≤ rFirst ∨ 128 ≤ sFirst then return false
    if ← needlessZero sig rFirst rLen 5 then return false
    if ← needlessZero sig sFirst sLen (4 + rLen + 3) then return false
    return true

/-- A positive number, most significant byte first, with a zero in front where the number would
look negative. -/
def derInteger (n : Nat) : Bytes :=
  let bytes := (Nat.digits 256 n).reverse.map UInt8.ofNat
  if 128 ≤ bytes.headD 0 then 0 :: bytes else bytes

/-- Two parts as a signature, each behind its mark and its length. -/
def derSequence (tag tag' : UInt8) (r s : Bytes) : Bytes :=
  0x30 :: UInt8.ofNat (2 + r.length + 2 + s.length) :: tag :: UInt8.ofNat r.length ::
    (r ++ tag' :: UInt8.ofNat s.length :: s)

/-- Bytes that look positive and have no zero in front that is not needed. -/
def IsMinimal (bytes : Bytes) : Prop :=
  ∃ first rest, bytes = first :: rest ∧ first < 128 ∧
    (first = 0 → ∃ second more, rest = second :: more ∧ 128 ≤ second)

theorem derSequence_length (tag tag' : UInt8) (r s : Bytes) :
    (derSequence tag tag' r s).length = 6 + r.length + s.length := by
  simp only [derSequence, List.length_cons, List.length_append]
  omega

/-- The first digit of a positive number. -/
theorem exists_digits_eq_cons {n : Nat} (h : 0 < n) :
    ∃ d more, (Nat.digits 256 n).reverse = d :: more ∧ d ≠ 0 ∧ d < 256 := by
  have hne : Nat.digits 256 n ≠ [] := Nat.digits_ne_nil_iff_ne_zero.mpr h.ne'
  obtain ⟨d, more, hdigits⟩ := List.exists_cons_of_ne_nil (List.reverse_ne_nil_iff.mpr hne)
  have hlast : (Nat.digits 256 n).getLast? = some d := by
    rw [← List.head?_reverse, hdigits]
    rfl
  rw [List.getLast?_eq_some_getLast hne] at hlast
  injection hlast with hlast
  refine ⟨d, more, hdigits, hlast ▸ Nat.getLast_digit_ne_zero 256 h.ne', ?_⟩
  exact Nat.digits_lt_base (by decide) (hlast ▸ List.getLast_mem hne)

/-- The bytes of positive numbers are the minimal ones. -/
theorem isMinimal_iff {bytes : Bytes} : IsMinimal bytes ↔ ∃ n, 0 < n ∧ bytes = derInteger n := by
  constructor
  · rintro ⟨first, rest, rfl, hsmall, hzero⟩
    have hvalue := paddedDigits_value (by decide) (byteDigits_lt (first :: rest))
    by_cases hfirst : first = 0
    · obtain ⟨second, more, rfl, hlarge⟩ := hzero hfirst
      subst hfirst
      have hsecond : second.toNat ≠ 0 := by
        rintro hnone
        obtain rfl : second = 0 := UInt8.toNat_inj.mp hnone
        exact absurd hlarge (by decide)
      have hleading : leadingZeros (byteDigits (0 :: second :: more)) = 1 := by
        simp [leadingZeros, byteDigits, hsecond]
      rw [hleading] at hvalue
      have hdigits : (Nat.digits 256 (digitsValue 256 (byteDigits (0 :: second :: more)))).reverse =
          byteDigits (second :: more) := (List.cons.inj hvalue).2
      refine ⟨digitsValue 256 (byteDigits (0 :: second :: more)), ?_, ?_⟩
      · rw [Nat.pos_iff_ne_zero]
        intro hnone
        rw [hnone] at hdigits
        cases hdigits
      · unfold derInteger
        dsimp only
        rw [hdigits, map_ofNat_byteDigits, List.headD_cons, if_pos hlarge]
    · have hleading : leadingZeros (byteDigits (first :: rest)) = 0 := by
        have hne : first.toNat ≠ 0 := fun hnone => hfirst (UInt8.toNat_inj.mp hnone)
        simp [leadingZeros, byteDigits, hne]
      rw [hleading] at hvalue
      have hdigits : (Nat.digits 256 (digitsValue 256 (byteDigits (first :: rest)))).reverse =
          byteDigits (first :: rest) := hvalue
      refine ⟨digitsValue 256 (byteDigits (first :: rest)), ?_, ?_⟩
      · rw [Nat.pos_iff_ne_zero]
        intro hnone
        rw [hnone] at hdigits
        cases hdigits
      · unfold derInteger
        dsimp only
        rw [hdigits, map_ofNat_byteDigits, List.headD_cons, if_neg (UInt8.not_le.mpr hsmall)]
  · rintro ⟨n, hn, rfl⟩
    obtain ⟨d, more, hdigits, hne, hlt⟩ := exists_digits_eq_cons hn
    have hbyte : (UInt8.ofNat d).toNat = d := UInt8.toNat_ofNat_of_lt' hlt
    unfold derInteger
    dsimp only
    rw [hdigits, List.map_cons, List.headD_cons]
    split_ifs with hlarge
    · exact ⟨0, _, rfl, by decide, fun _ => ⟨_, _, rfl, hlarge⟩⟩
    · refine ⟨_, _, rfl, UInt8.not_le.mp hlarge, fun hnone => absurd ?_ hne⟩
      rw [← hbyte, hnone]
      rfl

theorem IsMinimal.length_pos {bytes : Bytes} (h : IsMinimal bytes) : 0 < bytes.length := by
  obtain ⟨first, rest, rfl, -⟩ := h
  exact Nat.succ_pos _

theorem isMinimal_cons {first : UInt8} {rest : Bytes} : IsMinimal (first :: rest) ↔
    first < 128 ∧ (first = 0 → ∃ second more, rest = second :: more ∧ 128 ≤ second) := by
  constructor
  · rintro ⟨first', rest', h, hsmall, hzero⟩
    obtain ⟨rfl, rfl⟩ := List.cons.inj h
    exact ⟨hsmall, hzero⟩
  · rintro ⟨hsmall, hzero⟩
    exact ⟨first, rest, rfl, hsmall, hzero⟩

/-- The lengths in front of two parts say where they end. -/
theorem derSequence_iff {b0 b1 b2 b3 mark len : UInt8} {r s : Bytes} (hr : r.length = b3.toNat) :
    (∃ tag tag' r' s', b0 :: b1 :: b2 :: b3 :: (r ++ mark :: len :: s) =
      derSequence tag tag' r' s' ∧ 4 + r'.length + s'.length ≤ 127 ∧
      IsMinimal r' ∧ IsMinimal s') ↔
    b0 = 0x30 ∧ b1.toNat = 4 + r.length + s.length ∧ len.toNat = s.length ∧
      4 + r.length + s.length ≤ 127 ∧ IsMinimal r ∧ IsMinimal s := by
  have hbyte : ∀ n, n ≤ 127 → (UInt8.ofNat n).toNat = n := fun n hn =>
    UInt8.toNat_ofNat_of_lt' (lt_of_le_of_lt hn (by decide))
  constructor
  · rintro ⟨tag, tag', r', s', h, hshort, hr', hs'⟩
    simp only [derSequence, List.cons.injEq] at h
    obtain ⟨h0, h1, -, h3, hrest⟩ := h
    have hlength : r.length = r'.length := by
      rw [hr, h3, hbyte _ (by omega)]
    obtain ⟨rfl, htail⟩ := List.append_inj hrest hlength
    simp only [List.cons.injEq] at htail
    obtain ⟨-, hlen, rfl⟩ := htail
    refine ⟨h0, ?_, ?_, hshort, hr', hs'⟩
    · rw [h1, hbyte _ (by omega)]
      omega
    · rw [hlen, hbyte _ (by omega)]
  · rintro ⟨rfl, h1, hlen, hshort, hr', hs'⟩
    refine ⟨b2, mark, r, s, ?_, hshort, hr', hs'⟩
    have hfirst : b1 = UInt8.ofNat (2 + r.length + 2 + s.length) := by
      rw [← UInt8.toNat_inj, hbyte _ (by omega), h1]
      omega
    have hsecond : b3 = UInt8.ofNat r.length := by rw [hr, UInt8.ofNat_toNat]
    have hthird : len = UInt8.ofNat s.length := by rw [← hlen, UInt8.ofNat_toNat]
    rw [derSequence, ← hfirst, ← hsecond, ← hthird]

/-- A zero in front that is needed is the only one allowed. -/
theorem needlessZero_spec {sig : Bytes} {first : UInt8} {rest : Bytes} {place : Nat}
    (hplace : 0 < rest.length → sig[place]? = rest.head?) :
    ∃ needless, needlessZero sig first (rest.length + 1) place = some needless ∧
      (needless = false ↔
        (first = 0 → ∃ second more, rest = second :: more ∧ 128 ≤ second)) := by
  unfold needlessZero
  by_cases hfirst : first = 0
  · rw [if_neg (not_not.mpr hfirst)]
    cases rest with
    | nil =>
        rw [if_pos (by decide)]
        refine ⟨true, rfl, fun h => absurd h.symm Bool.false_ne_true, ?_⟩
        intro h
        obtain ⟨second, more, hnone, -⟩ := h hfirst
        cases hnone
    | cons second more =>
        rw [if_neg (by simp), hplace (Nat.succ_pos _)]
        refine ⟨decide (second < 128), rfl, ?_⟩
        rw [decide_eq_false_iff_not, UInt8.not_lt]
        constructor
        · exact fun h _ => ⟨second, more, rfl, h⟩
        · intro h
          obtain ⟨second', more', hrest, hlarge⟩ := h hfirst
          obtain ⟨rfl, -⟩ := List.cons.inj hrest
          exact hlarge
  · rw [if_pos hfirst]
    exact ⟨false, rfl, fun _ hzero => absurd hzero hfirst, fun _ => rfl⟩

/-- The check answers, and it answers yes for the sequences of two minimal parts that are short
enough. -/
theorem derIsStrict_spec (sig : Bytes) : ∃ strict, derIsStrict sig = some strict ∧
    (strict = true ↔ ∃ tag tag' r s, sig = derSequence tag tag' r s ∧
      4 + r.length + s.length ≤ 127 ∧ IsMinimal r ∧ IsMinimal s) := by
  unfold derIsStrict
  by_cases hshort : sig.length < 8
  · rw [if_pos hshort]
    refine ⟨false, rfl, fun h => absurd h Bool.false_ne_true, ?_⟩
    rintro ⟨tag, tag', r, s, rfl, -, hr, hs⟩
    have hr' := hr.length_pos
    have hs' := hs.length_pos
    rw [derSequence_length] at hshort
    omega
  rw [if_neg hshort]
  rcases sig with _ | ⟨b0, _ | ⟨b1, _ | ⟨b2, _ | ⟨b3, rest⟩⟩⟩⟩
  · exact (hshort (by simp)).elim
  · exact (hshort (by simp)).elim
  · exact (hshort (by simp)).elim
  · exact (hshort (by simp)).elim
  simp only [List.getElem?_cons_zero, List.getElem?_cons_succ, Option.bind_eq_bind,
    Option.bind_some, List.length_cons]
  by_cases hinside : rest.length ≤ b3.toNat + 1
  · refine ⟨false, ?_, fun h => absurd h Bool.false_ne_true, ?_⟩
    · by_cases htag : b0 = 48
      · rw [if_neg (not_not.mpr htag), if_pos (by omega)]
        rfl
      · rw [if_pos htag]
        rfl
    · rintro ⟨tag, tag', r, s, h, hlength, -, -⟩
      simp only [derSequence, List.cons.injEq] at h
      obtain ⟨-, -, -, h3, rfl⟩ := h
      rw [h3, UInt8.toNat_ofNat_of_lt' (lt_of_le_of_lt (by omega : r.length ≤ 127) (by decide))]
        at hinside
      simp at hinside
  · obtain ⟨r, mark, len, s, rfl, hr⟩ : ∃ r mark len s, rest = r ++ mark :: len :: s ∧
        r.length = b3.toNat := by
      have hdrop : (rest.drop b3.toNat).length = rest.length - b3.toNat := List.length_drop
      rcases hrest : rest.drop b3.toNat with _ | ⟨mark, _ | ⟨len, s⟩⟩
      · rw [hrest, List.length_nil] at hdrop
        omega
      · rw [hrest, List.length_singleton] at hdrop
        omega
      · refine ⟨rest.take b3.toNat, mark, len, s, ?_, ?_⟩
        · rw [← hrest, List.take_append_drop]
        · rw [List.length_take]
          omega
    have hlen : (b1 :: b2 :: b3 :: (r ++ mark :: len :: s))[4 + r.length]? = some len := by
      rw [show 4 + r.length = r.length + 1 + 1 + 1 + 1 by omega]
      simp
    have hsecond : (b2 :: b3 :: (r ++ mark :: len :: s))[4 + r.length]? = s[0]? := by
      rw [show 4 + r.length = r.length + 2 + 1 + 1 by omega, List.getElem?_cons_succ,
        List.getElem?_cons_succ, List.getElem?_append_right (by omega), Nat.add_sub_cancel_left]
      rfl
    rw [derSequence_iff hr, ← hr, hlen, hsecond]
    have hsize : (r ++ mark :: len :: s).length = r.length + (s.length + 2) := List.length_append
    by_cases htag : b0 = 48
    swap
    · exact ⟨false, by rw [if_pos htag]; rfl, fun h => absurd h Bool.false_ne_true,
        fun h => absurd h.1 htag⟩
    rw [if_neg (not_not.mpr htag), if_neg (by omega), Option.bind_some, hsize]
    split_ifs with hlengths hnone
    · refine ⟨false, rfl, fun h => absurd h Bool.false_ne_true, ?_⟩
      rintro ⟨-, h1, h2, h3, -, -⟩
      omega
    · refine ⟨false, rfl, fun h => absurd h Bool.false_ne_true, ?_⟩
      rintro ⟨-, -, h2, -, hr', hs'⟩
      have hrpos := hr'.length_pos
      have hspos := hs'.length_pos
      omega
    cases r with
    | nil => simp at hnone
    | cons first rmore =>
        cases s with
        | nil =>
            simp at hnone hlengths
            omega
        | cons sfirst smore =>
            have hrest : ∀ (front : Bytes) {more : Bytes}, 0 < more.length →
                (front ++ more)[front.length]? = more.head? := by
              intro front more _
              rw [List.getElem?_append_right le_rfl, Nat.sub_self, List.head?_eq_getElem?]
            obtain ⟨rneedless, hrneedless, hriff⟩ := @needlessZero_spec
              (b0 :: b1 :: b2 :: b3 :: (first :: rmore ++ mark :: len :: sfirst :: smore))
              first rmore 5 (by
                intro hpos
                cases rmore with
                | nil => cases hpos
                | cons second more => rfl)
            obtain ⟨sneedless, hsneedless, hsiff⟩ := @needlessZero_spec
              (b0 :: b1 :: b2 :: b3 :: (first :: rmore ++ mark :: len :: sfirst :: smore))
              sfirst smore (4 + (rmore.length + 1) + 3) (by
                intro hpos
                rw [← hrest (b0 :: b1 :: b2 :: b3 :: (first :: rmore ++ mark :: len :: [sfirst])) hpos]
                simp [Nat.add_comm, Nat.add_left_comm])
            rw [isMinimal_cons, isMinimal_cons, ← hriff, ← hsiff]
            have hcount : len.toNat = smore.length + 1 := by
              simp only [List.length_cons] at hlengths
              omega
            have hfirst : (first :: rmore ++ mark :: len :: sfirst :: smore)[0]? = some first := rfl
            rw [hfirst, Option.bind_some, List.getElem?_cons_zero, Option.bind_some, hcount]
            simp only [List.length_cons] at hlengths hnone ⊢
            rw [hrneedless, hsneedless, Option.bind_some, Option.bind_some]
            refine ⟨!decide (128 ≤ first ∨ 128 ≤ sfirst) && !rneedless && !sneedless, ?_, ?_⟩
            · by_cases hsign : 128 ≤ first ∨ 128 ≤ sfirst
              · rw [if_pos hsign, decide_eq_true hsign]
                rfl
              · rw [if_neg hsign, decide_eq_false hsign]
                cases rneedless <;> cases sneedless <;> rfl
            · rw [Bool.and_eq_true, Bool.and_eq_true, Bool.not_eq_true', Bool.not_eq_true',
                Bool.not_eq_true', decide_eq_false_iff_not, not_or, UInt8.not_le, UInt8.not_le]
              constructor
              · rintro ⟨⟨⟨hrsign, hssign⟩, hrzero⟩, hszero⟩
                exact ⟨htag, by omega, trivial, by omega, ⟨hrsign, hrzero⟩, hssign, hszero⟩
              · rintro ⟨-, -, -, -, ⟨hrsign, hrzero⟩, hssign, hszero⟩
                exact ⟨⟨⟨hrsign, hssign⟩, hrzero⟩, hszero⟩

/-- The strict signatures are the short enough sequences of two positive numbers; no byte behind
the end is read. -/
theorem derIsStrict_iff (sig : Bytes) : (derIsStrict sig).isSome ∧
    (derIsStrict sig = some true ↔ ∃ tag tag' r s, 0 < r ∧ 0 < s ∧
      sig = derSequence tag tag' (derInteger r) (derInteger s) ∧ sig.length ≤ 129) := by
  obtain ⟨strict, hstrict, hiff⟩ := derIsStrict_spec sig
  refine ⟨hstrict ▸ rfl, ?_⟩
  rw [hstrict, Option.some.injEq, hiff]
  constructor
  · rintro ⟨tag, tag', r, s, rfl, hshort, hr, hs⟩
    obtain ⟨n, hn, rfl⟩ := isMinimal_iff.mp hr
    obtain ⟨m, hm, rfl⟩ := isMinimal_iff.mp hs
    refine ⟨tag, tag', n, m, hn, hm, rfl, ?_⟩
    rw [derSequence_length]
    omega
  · rintro ⟨tag, tag', n, m, hn, hm, rfl, hshort⟩
    rw [derSequence_length] at hshort
    exact ⟨tag, tag', _, _, rfl, by omega, isMinimal_iff.mpr ⟨n, hn, rfl⟩,
      isMinimal_iff.mpr ⟨m, hm, rfl⟩⟩

end SthCore
