import SthCore.Snapshot.Dump

/-!
The values of a transaction record in MessagePack, each in its shortest form.
-/

namespace SthCore

open SthCore.Lib

namespace Snapshot

namespace MessagePack

/-- A number takes one, two, four or eight bytes. -/
def sizeClass (n : Nat) : Nat :=
  if n < 2 ^ 8 then 0 else if n < 2 ^ 16 then 1 else if n < 2 ^ 32 then 2 else 3

def number (width n : Nat) : Bytes := (leBytes width n).reverse

/-- A number after the tag that tells its size. -/
def sized (tag n : Nat) : Bytes :=
  UInt8.ofNat (tag + sizeClass n) :: number (2 ^ sizeClass n) n

def packItem : Value → Bytes
  | .text (some s) =>
      let bytes := s.utf8Bytes
      (if bytes.length < 32 then [UInt8.ofNat (0xa0 + bytes.length)] else sized 0xd9 bytes.length) ++
        bytes
  | .integer n => if n.toNat < 128 then [n.toUInt8] else sized 0xcc n.toNat
  | .binary bytes => sized 0xc4 bytes.length ++ bytes
  | _ => [0xc0]

/-- An array of a few items. -/
def pack : Value → Bytes
  | .array items => UInt8.ofNat (0x90 + items.length) :: items.flatMap packItem
  | v => packItem v

def takeNumber (width : Nat) (bytes : Bytes) : Option (Nat × Bytes) :=
  if bytes.length < width then none
  else some (ofLeBytes (bytes.take width).reverse, bytes.drop width)

def takeBytes (n : Nat) (bytes : Bytes) : Option (Bytes × Bytes) :=
  if bytes.length < n then none else some (bytes.take n, bytes.drop n)

def takeItem : Bytes → Option (Value × Bytes)
  | [] => none
  | tag :: rest =>
      let t := tag.toNat
      if t < 0x80 then some (.integer tag.toUInt64, rest)
      else if 0xa0 ≤ t ∧ t < 0xc0 then do
        let (text, rest) ← takeBytes (t - 0xa0) rest
        return (.text (Text.ofUtf8 text), rest)
      else if 0xc4 ≤ t ∧ t ≤ 0xc6 then do
        let (n, rest) ← takeNumber (2 ^ (t - 0xc4)) rest
        let (bytes, rest) ← takeBytes n rest
        return (.binary bytes, rest)
      else if 0xcc ≤ t ∧ t ≤ 0xcf then do
        let (n, rest) ← takeNumber (2 ^ (t - 0xcc)) rest
        return (.integer (UInt64.ofNat n), rest)
      else if 0xd9 ≤ t ∧ t ≤ 0xdb then do
        let (n, rest) ← takeNumber (2 ^ (t - 0xd9)) rest
        let (text, rest) ← takeBytes n rest
        return (.text (Text.ofUtf8 text), rest)
      else none

def takeItems : Nat → Bytes → Option (List Value)
  | 0, _ => some []
  | n + 1, bytes => do
      let (item, rest) ← takeItem bytes
      let items ← takeItems n rest
      return item :: items

def unpack : Bytes → Option Value
  | [] => none
  | tag :: rest =>
      if 0x90 ≤ tag.toNat ∧ tag.toNat < 0xa0 then
        (takeItems (tag.toNat - 0x90) rest).map .array
      else (takeItem (tag :: rest)).map (·.1)

variable {n width : Nat} {rest : Bytes}

theorem takeNumber_number (hn : n < 256 ^ width) :
    takeNumber width (number width n ++ rest) = some (n, rest) := by
  have hlength : (number width n).length = width := by
    rw [number, List.length_reverse, leBytes_length]
  unfold takeNumber
  rw [if_neg (by rw [List.length_append]; omega), List.take_left' hlength, List.drop_left' hlength,
    number, List.reverse_reverse, ofLeBytes_leBytes, Nat.mod_eq_of_lt hn]

theorem takeBytes_append (bytes : Bytes) :
    takeBytes bytes.length (bytes ++ rest) = some (bytes, rest) := by
  unfold takeBytes
  rw [if_neg (by rw [List.length_append]; omega), List.take_left, List.drop_left]

theorem sizeClass_le (hn : n < 2 ^ 32) : sizeClass n ≤ 2 := by
  unfold sizeClass
  split_ifs <;> omega

theorem lt_of_sizeClass (hn : n < 2 ^ 64) : sizeClass n ≤ 3 ∧ n < 256 ^ 2 ^ sizeClass n := by
  unfold sizeClass
  split_ifs with h8 h16 h32
  · exact ⟨by omega, h8⟩
  · exact ⟨by omega, h16⟩
  · exact ⟨by omega, h32⟩
  · exact ⟨by omega, hn⟩

/-- A text, a number or bytes whose length can be written. -/
def Plain : Value → Prop
  | .text (some s) => s.utf8Bytes.length < 2 ^ 32
  | .integer _ => True
  | .binary bytes => bytes.length < 2 ^ 32
  | _ => False

theorem takeItem_packItem {v : Value} (hv : Plain v) :
    takeItem (packItem v ++ rest) = some (v, rest) := by
  cases v with
  | array items => cases hv
  | other => cases hv
  | text s =>
      cases s with
      | none => cases hv
      | some s =>
          have hv : s.utf8Bytes.length < 2 ^ 32 := hv
          unfold packItem
          dsimp only
          split_ifs with hshort
          · have htag : (UInt8.ofNat (0xa0 + s.utf8Bytes.length)).toNat =
                0xa0 + s.utf8Bytes.length := UInt8.toNat_ofNat_of_lt' (by
              show _ < 256
              omega)
            rw [List.append_assoc, List.singleton_append, takeItem]
            dsimp only
            rw [htag, if_neg (by omega), if_pos (by omega), Nat.add_sub_cancel_left,
              takeBytes_append]
            simp [Text.ofUtf8_utf8Bytes]
          · obtain ⟨-, hfits⟩ := lt_of_sizeClass (hv.trans (by decide))
            have hclass := sizeClass_le hv
            have htag : (UInt8.ofNat (0xd9 + sizeClass s.utf8Bytes.length)).toNat =
                0xd9 + sizeClass s.utf8Bytes.length := UInt8.toNat_ofNat_of_lt' (by
              show _ < 256
              omega)
            rw [sized, List.append_assoc, List.cons_append, takeItem]
            dsimp only
            rw [htag, if_neg (by omega), if_neg (by omega), if_neg (by omega), if_neg (by omega),
              if_pos (by omega), Nat.add_sub_cancel_left, takeNumber_number hfits]
            simp [takeBytes_append, Text.ofUtf8_utf8Bytes]
  | integer n =>
      unfold packItem
      dsimp only
      split_ifs with hshort
      · have htag : n.toUInt8.toNat = n.toNat := by
          rw [UInt64.toNat_toUInt8]
          omega
        rw [List.singleton_append, takeItem]
        dsimp only
        rw [htag, if_pos hshort]
        refine congrArg some (Prod.ext (congrArg Value.integer ?_) rfl)
        rw [← UInt64.toNat_inj, UInt8.toNat_toUInt64, htag]
      · obtain ⟨hclass, hfits⟩ := lt_of_sizeClass n.toNat_lt
        have htag : (UInt8.ofNat (0xcc + sizeClass n.toNat)).toNat = 0xcc + sizeClass n.toNat :=
          UInt8.toNat_ofNat_of_lt' (by
            show _ < 256
            omega)
        rw [sized, List.cons_append, takeItem]
        dsimp only
        rw [htag, if_neg (by omega), if_neg (by omega), if_neg (by omega), if_pos (by omega),
          Nat.add_sub_cancel_left, takeNumber_number hfits]
        simp
  | binary bytes =>
      have hv : bytes.length < 2 ^ 32 := hv
      obtain ⟨-, hfits⟩ := lt_of_sizeClass (hv.trans (by decide))
      have hclass := sizeClass_le hv
      have htag : (UInt8.ofNat (0xc4 + sizeClass bytes.length)).toNat =
          0xc4 + sizeClass bytes.length := UInt8.toNat_ofNat_of_lt' (by
        show _ < 256
        omega)
      rw [packItem, sized, List.append_assoc, List.cons_append, takeItem]
      dsimp only
      rw [htag, if_neg (by omega), if_neg (by omega), if_pos (by omega), Nat.add_sub_cancel_left,
        takeNumber_number hfits]
      simp [takeBytes_append]

theorem takeItems_flatMap {items : List Value} (hitems : ∀ v ∈ items, Plain v) :
    takeItems items.length (items.flatMap packItem) = some items := by
  induction items with
  | nil => rfl
  | cons v items ih =>
      rw [List.flatMap_cons, List.length_cons, takeItems,
        takeItem_packItem (hitems v List.mem_cons_self)]
      simp [ih fun w hw => hitems w (List.mem_cons_of_mem v hw)]

/-- A short array of plain values is read as it was written. -/
theorem unpack_pack {items : List Value} (hfew : items.length < 16)
    (hitems : ∀ v ∈ items, Plain v) : unpack (pack (.array items)) = some (.array items) := by
  have htag : (UInt8.ofNat (0x90 + items.length)).toNat = 0x90 + items.length :=
    UInt8.toNat_ofNat_of_lt' (by
      show _ < 256
      omega)
  rw [pack, unpack, htag, if_pos (by omega), Nat.add_sub_cancel_left, takeItems_flatMap hitems]
  rfl

theorem length_sized (tag n : Nat) : (sized tag n).length ≤ 9 := by
  have hwidth : 2 ^ sizeClass n ≤ 8 := by
    unfold sizeClass
    split_ifs <;> decide
  rw [sized, List.length_cons, number, List.length_reverse, leBytes_length]
  omega

theorem length_packText (s : Text) :
    (packItem (.text (some s))).length ≤ 9 + s.utf8Bytes.length := by
  unfold packItem
  dsimp only
  have hsized := length_sized 0xd9 s.utf8Bytes.length
  rw [List.length_append]
  split_ifs
  · rw [List.length_singleton]
    omega
  · omega

theorem length_packInteger (n : UInt64) : (packItem (.integer n)).length ≤ 9 := by
  unfold packItem
  dsimp only
  split_ifs
  · rw [List.length_singleton]
    omega
  · exact length_sized 0xcc n.toNat

theorem length_packBinary (bytes : Bytes) :
    (packItem (.binary bytes)).length ≤ 9 + bytes.length := by
  have hsized := length_sized 0xc4 bytes.length
  rw [packItem, List.length_append]
  omega

/-- The records of a chain are read as they were written, when they are not too long. -/
theorem recordsFit {I : Importer} (hread : I.readValue = unpack) {s : Store}
    (hsmall : ∀ height block seq tx raw, s.getBlockByHeight I.env height = .ok (some block) →
      (tx, seq) ∈ block.transactions.zipIdx →
      serializeTransaction I.env.prim tx {} I.env.network.pubkeyHash = .ok raw →
      (tx.id.getD "").utf8Bytes.length + (block.id.getD "").utf8Bytes.length + raw.length + 64 <
        2 ^ 32) : I.RecordsFit pack s := by
  intro height block seq tx raw hblock hmem hraw
  have hsize := hsmall height block seq tx raw hblock hmem hraw
  constructor
  · have hid := length_packText (tx.id.getD "")
    have hblockId := length_packText (block.id.getD "")
    have hheight := length_packInteger (UInt64.ofNat height)
    have hsequence := length_packInteger
      ((tx.sequence.map UInt32.toUInt64).getD (UInt64.ofNat seq))
    have htime := length_packInteger block.timestamp.toUInt64
    have hbytes := length_packBinary raw
    unfold Importer.recordOf pack
    simp only [List.flatMap_cons, List.flatMap_nil, List.append_nil, List.length_cons,
      List.length_append]
    omega
  · rw [hread]
    apply unpack_pack
    · show 6 < 16
      decide
    · intro v hv
      simp only [List.mem_cons, List.not_mem_nil, or_false] at hv
      rcases hv with rfl | rfl | rfl | rfl | rfl | rfl
      · show _ < 2 ^ 32
        omega
      · show _ < 2 ^ 32
        omega
      · trivial
      · trivial
      · trivial
      · show _ < 2 ^ 32
        omega

end MessagePack

end Snapshot

end SthCore
