import SthCore.Storage.Record

/-!
The record streams of a snapshot dump: what the reader makes of one, also when
its end is missing.
-/

namespace SthCore

open SthCore.Lib

namespace Snapshot

def truncated (count : Nat) : Error :=
  .sync s!"snapshot record truncated (record {count}): failed to fill whole buffer"

/-- `next_record`: the record in front and what follows it.  A stream is over when not even a
length is left of it. -/
def nextRecord (count : Nat) (bytes : Bytes) : Except Error (Option (Bytes × Bytes)) :=
  if bytes.length < 4 then .ok none
  else
    let len := ofLeBytes (bytes.take 4)
    let data := bytes.drop 4
    if data.length < len then .error (truncated count)
    else .ok (some (data.take len, data.drop len))

/-- The records of a stream after the first `count`, and the error that ends them. -/
def readFrom : Nat → Nat → Bytes → List Bytes × Option Error
  | _, 0, _ => ([], none)
  | count, fuel + 1, bytes =>
      match nextRecord count bytes with
      | .error e => ([], some e)
      | .ok none => ([], none)
      | .ok (some (record, rest)) =>
          let (records, e) := readFrom (count + 1) fuel rest
          (record :: records, e)

/-- A stream as it is read to its end.  A record has four bytes at least, so that the length of
the stream is fuel enough. -/
def readRecords (bytes : Bytes) : List Bytes × Option Error :=
  readFrom 0 bytes.length bytes

/-- Where a record of a stream begins. -/
def offset (records : List Bytes) (i : Nat) : Nat :=
  ((records.take i).flatMap frame).length

/-- The records that lie in a stream that was cut, and how reading it ends. -/
structure Cut (records : List Bytes) (cut count whole : Nat)
    (read : List Bytes × Option Error) : Prop where
  le : whole ≤ records.length
  inside : offset records whole ≤ cut
  next : whole < records.length → cut < offset records (whole + 1)
  found : read.1 = records.take whole
  error : read.2 = if whole < records.length ∧ offset records whole + 4 ≤ cut then
    some (truncated (count + whole)) else none

variable {records : List Bytes} {cut count fuel : Nat}

theorem offset_zero : offset records 0 = 0 := rfl

theorem offset_succ (raw : Bytes) (i : Nat) :
    offset (raw :: records) (i + 1) = 4 + raw.length + offset records i := by
  unfold offset
  rw [List.take_succ_cons, List.flatMap_cons, List.length_append, frame_length]

theorem nextRecord_short {bytes : Bytes} (h : bytes.length < 4) :
    nextRecord count bytes = .ok none := if_pos h

theorem nextRecord_cut {raw bytes : Bytes} (hsize : raw.length < 2 ^ 32) (hlen : 4 ≤ cut)
    (hcut : cut < 4 + raw.length) :
    nextRecord count ((frame raw ++ bytes).take cut) = .error (truncated count) := by
  have hwidth : (u32le (UInt32.ofNat raw.length)).length = 4 := by
    rw [u32le, leBytes_length]
  have htake : ((frame raw ++ bytes).take cut).take 4 = u32le (UInt32.ofNat raw.length) := by
    rw [List.take_take, Nat.min_eq_left hlen, frame, List.append_assoc, List.take_left' hwidth]
  have htotal : ((frame raw ++ bytes).take cut).length = cut := by
    rw [List.length_take, List.length_append, frame_length]
    omega
  unfold nextRecord
  rw [if_neg (by omega)]
  dsimp only
  rw [htake, ofLeBytes_u32le, UInt32.toNat_ofNat_of_lt' hsize, List.length_drop, htotal,
    if_pos (by omega)]

theorem nextRecord_frame {raw : Bytes} (hsize : raw.length < 2 ^ 32) (rest : Bytes) :
    nextRecord count (frame raw ++ rest) = .ok (some (raw, rest)) := by
  have hwidth : (u32le (UInt32.ofNat raw.length)).length = 4 := by
    rw [u32le, leBytes_length]
  have htake : (frame raw ++ rest).take 4 = u32le (UInt32.ofNat raw.length) := by
    rw [frame, List.append_assoc, List.take_left' hwidth]
  have hdrop : (frame raw ++ rest).drop 4 = raw ++ rest := by
    rw [frame, List.append_assoc, List.drop_left' hwidth]
  unfold nextRecord
  rw [if_neg (by rw [List.length_append, frame_length]; omega)]
  dsimp only
  rw [htake, hdrop, ofLeBytes_u32le, UInt32.toNat_ofNat_of_lt' hsize,
    if_neg (by rw [List.length_append]; omega), List.take_left, List.drop_left]

theorem readFrom_cut (hsize : ∀ raw ∈ records, raw.length < 2 ^ 32)
    (hfuel : ((records.flatMap frame).take cut).length ≤ fuel) :
    ∃ whole, Cut records cut count whole (readFrom count fuel ((records.flatMap frame).take cut)) := by
  induction records generalizing cut count fuel with
  | nil =>
      have hread : readFrom count fuel ((List.flatMap frame []).take cut) = ([], none) := by
        rw [List.flatMap_nil, List.take_nil]
        cases fuel <;> rfl
      rw [hread]
      refine ⟨0, Nat.le_refl _, Nat.zero_le _, fun h => absurd h (Nat.lt_irrefl _), rfl, ?_⟩
      rw [if_neg (fun h => Nat.lt_irrefl _ h.1)]
  | cons raw rest ih =>
      have hraw := hsize raw List.mem_cons_self
      have hpos : 0 < (raw :: rest).length := Nat.succ_pos _
      have hfirst : offset (raw :: rest) 1 = 4 + raw.length := offset_succ raw 0
      have htotal : ((frame raw ++ rest.flatMap frame).take cut).length ≤ fuel := hfuel
      rw [List.flatMap_cons]
      by_cases hshort : cut < 4 + raw.length
      · -- the first record is not there as a whole
        refine ⟨0, hpos.le, Nat.zero_le _, fun _ => hfirst ▸ hshort, ?_, ?_⟩
        · cases fuel with
          | zero => rfl
          | succ fuel =>
              rw [readFrom]
              by_cases hlen : 4 ≤ cut
              · rw [nextRecord_cut hraw hlen hshort]
                rfl
              · rw [nextRecord_short (by rw [List.length_take]; omega)]
                rfl
        · rw [offset_zero]
          by_cases hlen : 4 ≤ cut
          · rw [if_pos ⟨hpos, by omega⟩]
            obtain ⟨fuel, rfl⟩ : ∃ n, fuel = n + 1 := by
              refine ⟨fuel - 1, ?_⟩
              rw [List.length_take, List.length_append, frame_length] at htotal
              omega
            rw [readFrom, nextRecord_cut hraw hlen hshort]
            rfl
          · rw [if_neg (by omega)]
            cases fuel with
            | zero => rfl
            | succ fuel =>
                rw [readFrom, nextRecord_short (by rw [List.length_take]; omega)]
      · have hlong : (frame raw).length ≤ cut := by
          rw [frame_length]
          omega
        have htake : (frame raw ++ rest.flatMap frame).take cut =
            frame raw ++ (rest.flatMap frame).take (cut - (4 + raw.length)) := by
          rw [List.take_append, List.take_of_length_le hlong, frame_length]
        rw [htake, List.length_append, frame_length] at htotal
        obtain ⟨fuel, rfl⟩ : ∃ n, fuel = n + 1 := ⟨fuel - 1, by omega⟩
        obtain ⟨whole, hle, hinside, hnext, hrecords, herror⟩ :=
          @ih (cut - (4 + raw.length)) (count + 1) fuel
            (fun r hr => hsize r (List.mem_cons_of_mem _ hr)) (by omega)
        rw [htake, readFrom, nextRecord_frame hraw]
        refine ⟨whole + 1, Nat.succ_le_succ hle, ?_, fun h => ?_, ?_, ?_⟩
        · rw [offset_succ]
          omega
        · have hlater := hnext (Nat.lt_of_succ_lt_succ h)
          rw [offset_succ]
          omega
        · show raw :: _ = _
          rw [hrecords, List.take_succ_cons]
        · show Prod.snd (readFrom (count + 1) fuel _) = _
          rw [herror, offset_succ, List.length_cons]
          have hsame : (whole < rest.length ∧ offset rest whole + 4 ≤ cut - (4 + raw.length)) ↔
              (whole + 1 < rest.length + 1 ∧
                4 + raw.length + offset rest whole + 4 ≤ cut) := by
            omega
          rw [if_congr hsame rfl rfl, show count + 1 + whole = count + (whole + 1) by omega]

/-- A stream that lost its end gives the records that are there as a whole.  Reading it fails
when the length of one more record is there, and ends as if nothing were missing when it is
not. -/
theorem readRecords_cut (hsize : ∀ raw ∈ records, raw.length < 2 ^ 32) (cut : Nat) :
    ∃ whole ≤ records.length, offset records whole ≤ cut ∧
      (whole < records.length → cut < offset records (whole + 1)) ∧
      readRecords ((records.flatMap frame).take cut) = (records.take whole,
        if whole < records.length ∧ offset records whole + 4 ≤ cut then some (truncated whole)
        else none) := by
  obtain ⟨whole, hle, hinside, hnext, hrecords, herror⟩ :=
    @readFrom_cut records cut 0 _ hsize (Nat.le_refl _)
  rw [Nat.zero_add] at herror
  exact ⟨whole, hle, hinside, hnext, Prod.ext hrecords herror⟩

theorem readRecords_cut_eight :
    ∃ whole ≤ 2, offset [[1, 2], [3]] whole ≤ 8 ∧
      (whole < 2 → 8 < offset [[1, 2], [3]] (whole + 1)) ∧
      readRecords (([[1, 2], [3]] : List Bytes).flatMap frame |>.take 8) =
        (([[1, 2], [3]] : List Bytes).take whole,
          if whole < 2 ∧ offset [[1, 2], [3]] whole + 4 ≤ 8 then some (truncated whole) else none) :=
  @readRecords_cut [[1, 2], [3]] (by decide) 8

/-- A stream is read as it was written. -/
theorem readRecords_frames (hsize : ∀ raw ∈ records, raw.length < 2 ^ 32) :
    readRecords (records.flatMap frame) = (records, none) := by
  obtain ⟨whole, hle, -, hnext, hfound, herror⟩ :=
    @readFrom_cut records (records.flatMap frame).length 0 _ hsize (Nat.le_refl _)
  have hall : whole = records.length := by
    by_contra hne
    have hlater := hnext (by omega)
    have hmono : offset records (whole + 1) ≤ (records.flatMap frame).length := by
      unfold offset
      exact ((List.take_sublist _ _).flatMap frame).length_le
    omega
  rw [List.take_length, hall, List.take_length] at hfound
  rw [List.take_length, hall, if_neg (by omega)] at herror
  exact Prod.ext hfound herror

end Snapshot

end SthCore
