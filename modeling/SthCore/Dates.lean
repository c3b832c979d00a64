import SthCore.Lib.Calendar
import SthCore.Rules.Text

/-!
Dates as the configuration writes them and as the interface shows them, both in
seconds since 1970.
-/

namespace SthCore

open SthCore.Lib

/-- `{:0width}` of a number; a sign counts as one place. -/
def zeroPadded (width : Nat) (n : Int) : List Char :=
  let digits := Nat.toDigits 10 n.natAbs
  if n < 0 then '-' :: (List.replicate (width - 1 - digits.length) '0' ++ digits)
  else List.replicate (width - digits.length) '0' ++ digits

/-- A date and a time of the day as text. -/
def isoText (y m d secs : Int) : Text :=
  ⟨zeroPadded 4 y ++ '-' :: zeroPadded 2 m ++ '-' :: zeroPadded 2 d ++ 'T' ::
    zeroPadded 2 (secs / 3600) ++ ':' :: zeroPadded 2 (secs % 3600 / 60) ++ ':' ::
    zeroPadded 2 (secs % 60) ++ ".000Z".toList⟩

/-- `human_time`: a second since 1970 as text. -/
def humanTime (unix : Int) : Text :=
  let days := unix / 86400
  let secs := unix % 86400
  let z := days + 719468
  let era := z / 146097
  let doe := z % 146097
  let yoe := (doe - doe / 1460 + doe / 36524 - doe / 146096) / 365
  let y := yoe + era * 400
  let doy := doe - (365 * yoe + yoe / 4 - yoe / 100)
  let mp := (5 * doy + 2) / 153
  let d := doy - (153 * mp + 2) / 5 + 1
  let m := if mp < 10 then mp + 3 else mp - 9
  let y := if m ≤ 2 then y + 1 else y
  isoText y m d secs

/-- `str::parse::<i64>`. -/
def parseI64 (text : List Char) : Option Int :=
  let (negative, digits) := match text with
    | '-' :: rest => (true, rest)
    | '+' :: rest => (false, rest)
    | chars => (false, chars)
  if digits.isEmpty || !digits.all Char.isDigit then none
  else
    let size : Nat := digits.foldl (fun n c => 10 * n + (c.toNat - 48)) 0
    let value : Int := if negative then -size else size
    if -2 ^ 63 ≤ value ∧ value < 2 ^ 63 then some value else none

/-- The first three parts of a text, as numbers. -/
def threeNumbers (sep : Char) (text : List Char) : Option (Int × Int × Int) :=
  match (text.splitOn sep).map parseI64 with
  | some a :: some b :: some c :: _ => some (a, b, c)
  | _ => none

/-- `parse_epoch`: a date and a time as seconds since 1970. -/
def parseEpoch (iso : Text) : Except String Int :=
  let bad := s!"invalid epoch {iso}"
  match Text.splitOnce 'T' iso.toList with
  | none => .error bad
  | some (date, time) =>
      match threeNumbers '-' date with
      | none => .error bad
      | some (y, m, day) =>
          let time := time.rdropWhile (· == 'Z')
          let time := (time.splitOn '.').headD time
          match threeNumbers ':' time with
          | none => .error bad
          | some (hh, mm, ss) =>
              let y := if m ≤ 2 then y - 1 else y
              let era := y / 400
              let yoe := y - era * 400
              let doy := (153 * (if m > 2 then m - 3 else m + 9) + 2).tdiv 5 + day - 1
              let doe := yoe * 365 + yoe / 4 - yoe / 100 + doy
              let days := era * 146097 + doe - 719468
              .ok (days * 86400 + hh * 3600 + mm * 60 + ss)

theorem zeroPadded_digits {width : Nat} {n : Int} (h : 0 ≤ n) :
    ∀ c ∈ zeroPadded width n, c.isDigit := by
  unfold zeroPadded
  dsimp only
  rw [if_neg (not_lt.mpr h)]
  intro c hc
  rcases List.mem_append.mp hc with hzero | hdigit
  · rw [(List.mem_replicate.mp hzero).2]
    rfl
  · exact Nat.isDigit_of_mem_toDigits (by decide) (by decide) hdigit

theorem parseI64_zeroPadded {width : Nat} {n : Int} (h : 0 ≤ n) (hmax : n < 2 ^ 63) :
    parseI64 (zeroPadded width n) = some n := by
  have hdigits := @zeroPadded_digits width n h
  have hvalue : (zeroPadded width n).foldl (fun n c => 10 * n + (c.toNat - 48)) 0 = n.natAbs := by
    have hread := Nat.ofDigitChars_ten_toDigits (n := n.natAbs)
    rw [Nat.ofDigitChars_eq_foldl] at hread
    change (Nat.toDigits 10 n.natAbs).foldl (fun n c => 10 * n + (c.toNat - 48)) 0 = _ at hread
    unfold zeroPadded
    dsimp only
    rw [if_neg (not_lt.mpr h), List.foldl_append]
    have hzeros : ∀ k, (List.replicate k '0').foldl (fun n c => 10 * n + (c.toNat - 48)) 0 = 0 := by
      intro k
      induction k with
      | zero => rfl
      | succ k ih => exact ih
    rw [hzeros, hread]
  have hne : zeroPadded width n ≠ [] := by
    unfold zeroPadded
    dsimp only
    rw [if_neg (not_lt.mpr h)]
    exact List.append_ne_nil_of_right_ne_nil _ Nat.toDigits_ne_nil
  unfold parseI64
  split
  rename_i negative digits hsign
  have hplain : (negative, digits) = (false, zeroPadded width n) := by
    rw [← hsign]
    split
    · rename_i rest hminus
      exact absurd (hdigits '-' (hminus ▸ List.mem_cons_self)) (by decide)
    · rename_i rest hplus
      exact absurd (hdigits '+' (hplus ▸ List.mem_cons_self)) (by decide)
    · rfl
  obtain ⟨rfl, rfl⟩ := Prod.mk.inj hplain
  have hguard : ((zeroPadded width n).isEmpty ||
      !(zeroPadded width n).all Char.isDigit) = false := by
    rw [Bool.or_eq_false_iff, Bool.not_eq_false', List.all_eq_true]
    exact ⟨List.isEmpty_eq_false_iff.mpr hne, hdigits⟩
  rw [hguard]
  simp only [Bool.false_eq_true, if_false]
  rw [hvalue, Int.natAbs_of_nonneg h, if_pos ⟨by omega, hmax⟩]

/-- No separator stands inside a number. -/
theorem notMem_zeroPadded {width : Nat} {n : Int} {sep : Char} (h : 0 ≤ n)
    (hsep : sep.isDigit = false) : sep ∉ zeroPadded width n := by
  intro hmem
  rw [zeroPadded_digits h sep hmem] at hsep
  cases hsep

theorem threeNumbers_zeroPadded {sep : Char} {u v w : Nat} {a b c : Int}
    (hsep : sep.isDigit = false) (ha : 0 ≤ a ∧ a < 2 ^ 63) (hb : 0 ≤ b ∧ b < 2 ^ 63)
    (hc : 0 ≤ c ∧ c < 2 ^ 63) :
    threeNumbers sep (zeroPadded u a ++ sep :: zeroPadded v b ++ sep :: zeroPadded w c) =
      some (a, b, c) := by
  unfold threeNumbers
  rw [List.append_assoc, List.cons_append,
    List.splitOn_append_cons_self_of_not_mem (notMem_zeroPadded ha.1 hsep),
    List.splitOn_append_cons_self_of_not_mem (notMem_zeroPadded hb.1 hsep),
    List.splitOn_eq_singleton (notMem_zeroPadded hc.1 hsep)]
  rw [List.map_cons, List.map_cons, List.map_singleton, parseI64_zeroPadded ha.1 ha.2,
    parseI64_zeroPadded hb.1 hb.2, parseI64_zeroPadded hc.1 hc.2]

theorem splitOnce_append {sep : Char} {front rest : List Char} (h : sep ∉ front) :
    Text.splitOnce sep (front ++ sep :: rest) = some (front, rest) := by
  have hfront : (front ++ sep :: rest).takeWhile (· ≠ sep) = front := by
    rw [List.takeWhile_append_of_pos, List.takeWhile_cons_of_neg (by simp), List.append_nil]
    intro c hc
    simp only [ne_eq, decide_not, Bool.not_eq_true', decide_eq_false_iff_not]
    rintro rfl
    exact h hc
  unfold Text.splitOnce
  dsimp only
  rw [hfront, if_pos (by simp)]
  simp

/-- A date of the calendar and a time of the day are read as the seconds since 1970. -/
theorem parseEpoch_isoText {date : Date} {secs : Int} (hyear : 0 ≤ date.year ∧ date.year < 2 ^ 63)
    (hsecs : 0 ≤ secs ∧ secs < 86400) :
    parseEpoch (isoText date.year date.month date.day secs) =
      .ok (date.number * 86400 + secs) := by
  have hmonth := date.month_mem
  have hday := date.day_mem
  have hlength := monthLength_bounds date.year date.month
  have hm : 0 ≤ date.month ∧ date.month < 2 ^ 63 := by omega
  have hd : 0 ≤ date.day ∧ date.day < 2 ^ 63 := by omega
  have hhour : 0 ≤ secs / 3600 ∧ secs / 3600 < 2 ^ 63 := by omega
  have hminute : 0 ≤ secs % 3600 / 60 ∧ secs % 3600 / 60 < 2 ^ 63 := by omega
  have hsecond : 0 ≤ secs % 60 ∧ secs % 60 < 2 ^ 63 := by omega
  have htext : (isoText date.year date.month date.day secs).toList =
      (zeroPadded 4 date.year ++ '-' :: zeroPadded 2 date.month ++ '-' :: zeroPadded 2 date.day) ++
        'T' :: ((zeroPadded 2 (secs / 3600) ++ ':' :: zeroPadded 2 (secs % 3600 / 60) ++
          ':' :: zeroPadded 2 (secs % 60)) ++ '.' :: "000Z".toList) := by
    unfold isoText
    simp only [List.append_assoc, List.cons_append]
    rfl
  have hdate : 'T' ∉ zeroPadded 4 date.year ++ '-' :: zeroPadded 2 date.month ++
      '-' :: zeroPadded 2 date.day := by
    simp only [List.mem_append, List.mem_cons, not_or]
    exact ⟨⟨notMem_zeroPadded hyear.1 rfl, by decide, notMem_zeroPadded hm.1 rfl⟩, by decide,
      notMem_zeroPadded hd.1 rfl⟩
  have htime : '.' ∉ zeroPadded 2 (secs / 3600) ++ ':' :: zeroPadded 2 (secs % 3600 / 60) ++
      ':' :: zeroPadded 2 (secs % 60) := by
    simp only [List.mem_append, List.mem_cons, not_or]
    exact ⟨⟨notMem_zeroPadded hhour.1 rfl, by decide, notMem_zeroPadded hminute.1 rfl⟩, by decide,
      notMem_zeroPadded hsecond.1 rfl⟩
  have htrim : ∀ front : List Char, (front ++ '.' :: "000Z".toList).rdropWhile (· == 'Z') =
      front ++ '.' :: "000".toList := by
    intro front
    rw [show front ++ '.' :: "000Z".toList = (front ++ '.' :: "00".toList ++ ['0']) ++ ['Z'] by simp,
      List.rdropWhile_concat_pos (p := (· == 'Z')) _ 'Z' rfl,
      List.rdropWhile_concat_neg (p := (· == 'Z')) _ '0' (by decide)]
    simp
  unfold parseEpoch
  dsimp only
  rw [htext, splitOnce_append hdate]
  dsimp only
  rw [threeNumbers_zeroPadded rfl hyear hm hd]
  dsimp only
  rw [htrim, List.splitOn_append_cons_self_of_not_mem htime, List.headD_cons,
    threeNumbers_zeroPadded rfl hhour hminute hsecond]
  dsimp only
  have hmarch : (153 * marchMonth date.month + 2).tdiv 5 = (153 * marchMonth date.month + 2) / 5 := by
    apply Int.tdiv_eq_ediv_of_nonneg
    unfold marchMonth
    split_ifs <;> omega
  change Except.ok ((marchYear date.year date.month / 400 * 146097 +
    ((marchYear date.year date.month - marchYear date.year date.month / 400 * 400) * 365 +
      (marchYear date.year date.month - marchYear date.year date.month / 400 * 400) / 4 -
      (marchYear date.year date.month - marchYear date.year date.month / 400 * 400) / 100 +
      ((153 * marchMonth date.month + 2).tdiv 5 + date.day - 1)) - 719468) * 86400 +
    secs / 3600 * 3600 + secs % 3600 / 60 * 60 + secs % 60) = _
  rw [hmarch]
  congr 1
  unfold Date.number dayNumber dayOfEra dayOfYear
  omega

/-- The date of a day number, as it is shown. -/
theorem humanTime_eq {unix : Int} {date : Date} (h : date.number = unix / 86400) :
    humanTime unix = isoText date.year date.month date.day (unix % 86400) := by
  have hmonth := date.month_mem
  have hmarch := Date.marchDate_number date
  rw [h] at hmarch
  unfold marchDate at hmarch
  dsimp only at hmarch
  rw [Prod.mk.injEq, Prod.mk.injEq] at hmarch
  obtain ⟨hyear, hplace, hday⟩ := hmarch
  unfold yearOfEra at hyear hplace hday
  unfold humanTime
  dsimp only
  rw [hday, hplace, hyear]
  have hm : (if marchMonth date.month < 10 then marchMonth date.month + 3
      else marchMonth date.month - 9) = date.month := by
    unfold marchMonth
    split_ifs <;> omega
  rw [hm]
  congr 1
  unfold marchYear
  split_ifs <;> omega

/-- The years from zero on start with this day. -/
theorem year_nonneg_iff (date : Date) : 0 ≤ date.year ↔ -719528 ≤ date.number := by
  obtain ⟨hm1, hm12⟩ := date.month_mem
  obtain ⟨hfirst, hlast, -⟩ := dayOfYear_bounds date.month_mem date.day_mem
  have hmarch : date.month ≤ 2 → 306 ≤ dayOfYear (marchMonth date.month) date.day := by
    intro hwinter
    have hday := date.day_mem.1
    unfold dayOfYear marchMonth
    omega
  have hsummer : 2 < date.month → dayOfYear (marchMonth date.month) date.day < 306 := by
    intro hlate
    have hday := date.day_mem.2
    have hlength := (monthLength_bounds date.year date.month).2
    unfold dayOfYear marchMonth
    omega
  have hend : dayOfYear (marchMonth date.month) date.day ≤ 365 := by
    unfold lastDay at hlast
    split_ifs at hlast <;> omega
  unfold Date.number dayNumber dayOfEra
  generalize dayOfYear (marchMonth date.month) date.day = doy at *
  unfold marchYear
  split_ifs <;> omega

theorem year_lt {date : Date} (h : date.number < 2 ^ 62) : date.year < 2 ^ 63 := by
  obtain ⟨hfirst, -, -⟩ := dayOfYear_bounds date.month_mem date.day_mem
  unfold Date.number dayNumber dayOfEra at h
  generalize dayOfYear (marchMonth date.month) date.day = doy at *
  unfold marchYear at h
  split_ifs at h <;> omega

/-- No date with a sign is read. -/
theorem threeNumbers_minus (text : List Char) : threeNumbers '-' ('-' :: text) = none := by
  have hsplit := List.splitOn_append_cons_self_of_not_mem (a := '-') List.not_mem_nil text
  rw [List.nil_append] at hsplit
  unfold threeNumbers
  rw [hsplit]
  rfl

theorem parseEpoch_minus (text : List Char) : ∃ e, parseEpoch ⟨'-' :: text⟩ = .error e := by
  unfold parseEpoch
  dsimp only
  cases hsplit : Text.splitOnce 'T' ('-' :: text) with
  | none => exact ⟨_, rfl⟩
  | some parts =>
      obtain ⟨date, time⟩ := parts
      unfold Text.splitOnce at hsplit
      dsimp only at hsplit
      rw [List.takeWhile_cons_of_pos (by decide)] at hsplit
      split_ifs at hsplit
      obtain ⟨rfl, rfl⟩ := Prod.mk.inj (Option.some.inj hsplit)
      dsimp only
      rw [threeNumbers_minus]
      exact ⟨_, rfl⟩

/-- What is shown of a second is its date in the Gregorian calendar and its time of the day. -/
theorem humanTime_gregorian : ∃ date : Int → Date, date 0 = .epoch ∧
    (∀ n, date (n + 1) = (date n).next) ∧
    ∀ unix, humanTime unix = isoText (date (unix / 86400)).year (date (unix / 86400)).month
      (date (unix / 86400)).day (unix % 86400) := by
  choose date hdate using Date.number_surjective
  refine ⟨date, ?_, ?_, fun unix => humanTime_eq (hdate _)⟩
  · exact Date.number_injective (by rw [hdate, Date.number_epoch])
  · intro n
    exact Date.number_injective (by rw [hdate, Date.number_next, hdate])

/-- What is shown of a second is read as that second again, from the year zero on. -/
theorem parseEpoch_humanTime_iff (unix : Int64) :
    parseEpoch (humanTime unix.toInt) = .ok unix.toInt ↔ -62167219200 ≤ unix.toInt := by
  have hmin := unix.le_toInt
  have hmax := unix.toInt_lt
  obtain ⟨date, hdate⟩ := Date.number_surjective (unix.toInt / 86400)
  have hyear := year_nonneg_iff date
  rw [humanTime_eq hdate]
  constructor
  · intro h
    by_contra hearly
    have hsign : ¬ 0 ≤ date.year := by omega
    have hminus : ∃ rest, (isoText date.year date.month date.day (unix.toInt % 86400)) =
        ⟨'-' :: rest⟩ := by
      unfold isoText
      rw [zeroPadded, if_pos (not_le.mp hsign)]
      exact ⟨_, rfl⟩
    obtain ⟨rest, hrest⟩ := hminus
    obtain ⟨e, he⟩ := parseEpoch_minus rest
    rw [hrest, he] at h
    cases h
  · intro hlate
    rw [parseEpoch_isoText ⟨hyear.mpr (by omega), year_lt (by omega)⟩ (by omega)]
    congr 1
    omega

end SthCore
