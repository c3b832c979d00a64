import SthCore.Crypto.Reads

/-!
The record of a stored block in bytes: every frame behind its length.
-/

namespace SthCore

open SthCore.Lib

/-- A frame behind its length, which is cut to 32 bits. -/
def frame (raw : Bytes) : Bytes := u32le (UInt32.ofNat raw.length) ++ raw

/-- What `encode_block` writes. -/
def writeRecord (E : Env) (block : Block) : Except Error Bytes := do
  let frames ← encodeBlock E block
  return frames.flatMap frame

/-- `next_frame`: the frame in front and what follows it. -/
def nextFrame (bytes : Bytes) : Except Error (Option (Bytes × Bytes)) :=
  if bytes.isEmpty then .ok none
  else if bytes.length < 4 then .error (.storage "corrupt block record")
  else
    let len := ofLeBytes (bytes.take 4)
    let tail := bytes.drop 4
    if tail.length < len then .error (.storage "truncated block record")
    else .ok (some (tail.take len, tail.drop len))

/-- The loop of `decode_block`.  A frame has four bytes at least, so that the length of
the input is fuel enough. -/
def readTransactions (P : Primitives) : Nat → Bytes → Except Error (List Transaction)
  | 0, _ => .ok []
  | fuel + 1, bytes => do
      match ← nextFrame bytes with
      | none => return []
      | some (raw, rest) => do
          let tx ← deserializeTransaction P raw
          let txs ← readTransactions P fuel rest
          return tx :: txs

/-- What `decode_block` reads. -/
def readRecord (E : Env) (bytes : Bytes) : Except Error Block := do
  match ← nextFrame bytes with
  | none => .error (.storage "empty block record")
  | some (header, rest) => do
      let block ← deserializeBlockHeader E.prim E.network header
      let txs ← readTransactions E.prim rest.length rest
      return { block with transactions := txs.mapIdx fun i tx => placeTransaction block tx i }

theorem frame_length (raw : Bytes) : (frame raw).length = 4 + raw.length := by
  rw [frame, List.length_append, u32le, leBytes_length]

theorem ofLeBytes_u32le (n : UInt32) : ofLeBytes (u32le n) = n.toNat := by
  rw [u32le, ofLeBytes_leBytes]
  exact Nat.mod_eq_of_lt n.toNat_lt

theorem nextFrame_frame {raw : Bytes} (h : raw.length < 2 ^ 32) (rest : Bytes) :
    nextFrame (frame raw ++ rest) = .ok (some (raw, rest)) := by
  have hwidth : (u32le (UInt32.ofNat raw.length)).length = 4 := by
    rw [u32le, leBytes_length]
  have hsize : (frame raw ++ rest).length = 4 + raw.length + rest.length := by
    rw [List.length_append, frame_length]
  have hnonempty : (frame raw ++ rest).isEmpty = false := by
    rw [List.isEmpty_eq_false_iff, ← List.length_pos_iff, hsize]
    omega
  have htake : (frame raw ++ rest).take 4 = u32le (UInt32.ofNat raw.length) := by
    rw [frame, List.append_assoc, List.take_left' hwidth]
  have hdrop : (frame raw ++ rest).drop 4 = raw ++ rest := by
    rw [frame, List.append_assoc, List.drop_left' hwidth]
  have hlen : ofLeBytes ((frame raw ++ rest).take 4) = raw.length := by
    rw [htake, ofLeBytes_u32le]
    exact UInt32.toNat_ofNat_of_lt' h
  unfold nextFrame
  simp only [hnonempty, hlen, hdrop, Bool.false_eq_true, if_false]
  rw [if_neg (by omega), if_neg (by rw [List.length_append]; omega), List.take_left, List.drop_left]

theorem length_le_flatMap_frame (raws : List Bytes) : raws.length ≤ (raws.flatMap frame).length := by
  induction raws with
  | nil => exact Nat.le_refl 0
  | cons raw rest ih =>
      rw [List.flatMap_cons, List.length_append, frame_length, List.length_cons]
      omega

theorem readTransactions_frames {P : Primitives} {raws : List Bytes}
    (h : ∀ raw ∈ raws, raw.length < 2 ^ 32) {fuel : Nat} (hfuel : raws.length ≤ fuel) :
    readTransactions P fuel (raws.flatMap frame) = raws.mapM (deserializeTransaction P) := by
  induction raws generalizing fuel with
  | nil => cases fuel <;> rfl
  | cons raw rest ih =>
      obtain ⟨fuel, rfl⟩ : ∃ n, fuel = n + 1 :=
        ⟨fuel - 1, (Nat.sub_add_cancel (Nat.le_trans (Nat.succ_pos _) hfuel)).symm⟩
      have hrest := ih (fun r hr => h r (List.mem_cons_of_mem raw hr)) (Nat.le_of_succ_le_succ hfuel)
      rw [List.flatMap_cons, readTransactions, nextFrame_frame (h raw List.mem_cons_self),
        List.mapM_cons]
      change (do
        let tx ← deserializeTransaction P raw
        let txs ← readTransactions P fuel (rest.flatMap frame)
        return tx :: txs) = _
      rw [hrest]

/-- Frames whose length is not cut are read as they were written. -/
theorem readRecord_frames (E : Env) {frames : List Bytes}
    (h : ∀ raw ∈ frames, raw.length < 2 ^ 32) :
    readRecord E (frames.flatMap frame) = decodeBlock E frames := by
  cases frames with
  | nil => rfl
  | cons header raws =>
      unfold readRecord
      rw [List.flatMap_cons, nextFrame_frame (h header List.mem_cons_self)]
      change (do
        let block ← deserializeBlockHeader E.prim E.network header
        let txs ← readTransactions E.prim (raws.flatMap frame).length (raws.flatMap frame)
        return { block with transactions := txs.mapIdx fun i tx => placeTransaction block tx i }) = _
      rw [readTransactions_frames (fun r hr => h r (List.mem_cons_of_mem header hr))
        (length_le_flatMap_frame raws)]
      rfl

end SthCore
