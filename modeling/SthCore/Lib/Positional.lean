import Mathlib

/-!
Numbers in two bases: digits with leading zeros, most significant first, and the
leading zeros and the value they have.
-/

namespace SthCore.Lib

/-- The leading zeros of a list of digits. -/
def leadingZeros (l : List Nat) : Nat := (l.takeWhile (· = 0)).length

/-- The value of a list of digits, most significant first. -/
def digitsValue (b : Nat) (l : List Nat) : Nat := Nat.ofDigits b l.reverse

/-- The digits of a number after some zeros. -/
def paddedDigits (b zeros n : Nat) : List Nat := List.replicate zeros 0 ++ (Nat.digits b n).reverse

variable {b : Nat}

theorem takeWhile_zero (l : List Nat) :
    l.takeWhile (· = 0) = List.replicate (leadingZeros l) 0 := by
  rw [List.eq_replicate_iff]
  refine ⟨rfl, ?_⟩
  intro d hd
  simpa using List.mem_takeWhile_imp hd

/-- The leading zeros and the value determine the digits. -/
theorem paddedDigits_value (hb : 1 < b) {l : List Nat} (h : ∀ d ∈ l, d < b) :
    paddedDigits b (leadingZeros l) (digitsValue b l) = l := by
  have hsplit := List.takeWhile_append_dropWhile (p := fun d => decide (d = 0)) (l := l)
  have hvalue : digitsValue b l = Nat.ofDigits b (l.dropWhile (· = 0)).reverse := by
    unfold digitsValue
    conv_lhs => rw [← hsplit, List.reverse_append, takeWhile_zero, List.reverse_replicate,
      Nat.ofDigits_append_replicate_zero]
  have hlast : ∀ hne : (l.dropWhile (· = 0)).reverse ≠ [],
      (l.dropWhile (· = 0)).reverse.getLast hne ≠ 0 := by
    intro hne
    rw [List.getLast_reverse]
    have hhead := List.head_dropWhile_not (p := fun d => decide (d = 0)) (by simpa using hne)
    simpa using hhead
  have hsmall : ∀ d ∈ (l.dropWhile (· = 0)).reverse, d < b := by
    intro d hd
    exact h d ((List.dropWhile_sublist _).subset (List.mem_reverse.mp hd))
  unfold paddedDigits
  rw [hvalue, Nat.digits_ofDigits b hb _ hsmall hlast, List.reverse_reverse, ← takeWhile_zero, hsplit]

theorem leadingZeros_paddedDigits (zeros n : Nat) :
    leadingZeros (paddedDigits b zeros n) = zeros := by
  have hnone : (Nat.digits b n).reverse.takeWhile (· = 0) = [] := by
    cases hdigits : (Nat.digits b n).reverse with
    | nil => rfl
    | cons d rest =>
        have hzero : n ≠ 0 := by
          rintro rfl
          simp at hdigits
        have hlast := Nat.getLast_digit_ne_zero b hzero
        have hhead : d ≠ 0 := by
          have hd : (Nat.digits b n).reverse.head? = some d := by rw [hdigits]; rfl
          rw [List.head?_reverse, 
            List.getLast?_eq_some_getLast (Nat.digits_ne_nil_iff_ne_zero.mpr hzero)] at hd
          injection hd with hd
          rw [← hd]
          exact hlast
        rw [List.takeWhile_cons_of_neg (by simpa using hhead)]
  unfold leadingZeros paddedDigits
  rw [List.takeWhile_append_of_pos (by simp), List.length_append, hnone]
  simp

theorem digitsValue_paddedDigits (zeros n : Nat) : digitsValue b (paddedDigits b zeros n) = n := by
  unfold digitsValue paddedDigits
  rw [List.reverse_append, List.reverse_reverse, List.reverse_replicate,
    Nat.ofDigits_append_replicate_zero, Nat.ofDigits_digits]

theorem paddedDigits_lt (hb : 1 < b) {zeros n : Nat} : ∀ d ∈ paddedDigits b zeros n, d < b := by
  intro d hd
  rcases List.mem_append.mp hd with hzero | hdigit
  · rw [(List.mem_replicate.mp hzero).2]
    omega
  · exact Nat.digits_lt_base hb (List.mem_reverse.mp hdigit)

theorem digitsValue_lt (hb : 1 < b) {l : List Nat} (h : ∀ d ∈ l, d < b) :
    digitsValue b l < b ^ l.length := by
  have hvalue := Nat.ofDigits_lt_base_pow_length hb fun d hd => h d (List.mem_reverse.mp hd)
  rwa [List.length_reverse] at hvalue

theorem foldl_digitsValue (l : List Nat) :
    l.foldl (fun n d => Nat.add (Nat.mul n b) d) 0 = digitsValue b l := by
  induction l using List.reverseRecOn with
  | nil => rfl
  | append_singleton l d ih =>
      rw [List.foldl_append, ih]
      unfold digitsValue
      rw [List.reverse_append, List.reverse_singleton, List.singleton_append, Nat.ofDigits_cons]
      change Nat.ofDigits b l.reverse * b + d = _
      ring

end SthCore.Lib
