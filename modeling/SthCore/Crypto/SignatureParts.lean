import SthCore.Crypto.Payloads

/-!
The parts that the signatures of a transaction consist of, and which of them
the untagged layouts tell apart.
-/

namespace SthCore

open SthCore.Lib

/-- The signatures of a transaction, as the reader sets them. -/
structure SignatureFields where
  signature : Option Text := none
  secondSignature : Option Text := none
  signatures : Option (List Text) := none
  secondSignatures : Option (List PqSignatureBlock) := none

/-- The transaction with other signatures. -/
def Transaction.withSignatures (tx : Transaction) (g : SignatureFields) : Transaction :=
  { tx with signature := g.signature, secondSignature := g.secondSignature, signSignature := none
            signatures := g.signatures, secondSignatures := g.secondSignatures }

/-- The same as bytes: signatures, blocks with their algorithm, and multisignature parts. -/
structure SignatureParts where
  first : Option Bytes := none
  second : Option Bytes := none
  blocks : List (UInt8 × Bytes) := []
  multi : List Bytes := []

namespace SignatureParts

/-- The fields a reader fills with these parts. -/
def fields (p : SignatureParts) : SignatureFields where
  signature := p.first.map Hex.encode
  secondSignature := p.second.map Hex.encode
  signatures := if p.multi.isEmpty then none else some (p.multi.map Hex.encode)
  secondSignatures := if p.blocks.isEmpty then none
    else some (p.blocks.map fun b => { algorithm := b.1, signature := Hex.encode b.2 })

/-- Two signatures and the multisignature parts, one after the other. -/
def classic (p : SignatureParts) : Bytes :=
  p.first.getD [] ++ (p.second.getD [] ++ p.multi.flatten)

end SignatureParts

theorem eq_of_listField {α β : Type} {f : α → β} (hf : Function.Injective f) {x y : List α}
    (h : (if x.isEmpty then none else some (x.map f)) =
      if y.isEmpty then none else some (y.map f)) : x = y := by
  cases x with
  | nil =>
      cases y with
      | nil => rfl
      | cons b y => cases h
  | cons a x =>
      cases y with
      | nil => cases h
      | cons b y =>
          injection h with h
          exact List.map_injective_iff.mpr hf h

theorem SignatureParts.fields_injective : Function.Injective SignatureParts.fields := by
  rintro ⟨first, second, blocks, multi⟩ ⟨first', second', blocks', multi'⟩ h
  unfold fields at h
  injection h with hfirst hsecond hmulti hblocks
  have hblock : Function.Injective fun b : UInt8 × Bytes =>
      ({ algorithm := b.1, signature := Hex.encode b.2 } : PqSignatureBlock) := by
    rintro ⟨a, x⟩ ⟨b, y⟩ heq
    injection heq with halgorithm hsig
    exact Prod.ext halgorithm (Hex.encode_injective hsig)
  obtain rfl := Option.map_injective Hex.encode_injective hfirst
  obtain rfl := Option.map_injective Hex.encode_injective hsecond
  obtain rfl := eq_of_listField Hex.encode_injective hmulti
  obtain rfl := eq_of_listField hblock hblocks
  rfl

theorem Transaction.withSignatures_inj {u : Transaction} {g g' : SignatureFields} :
    u.withSignatures g = u.withSignatures g' ↔ g = g' := by
  constructor
  · rcases g with ⟨a, b, c, d⟩
    rcases g' with ⟨a', b', c', d'⟩
    intro h
    injection h
    simp_all
  · rintro rfl
    rfl

namespace Reader

theorem bind_run {α β : Type} {r : Reader α} {f : α → Reader β} {a : α} {input mid : Bytes}
    (h : r input = .ok (a, mid)) : (r >>= f) input = f a mid := by
  change (r input >>= fun p => f p.1 p.2) = _
  rw [h]
  rfl

theorem bind_remaining {β : Type} {f : Nat → Reader β} {input : Bytes} :
    (remaining >>= f) input = f input.length input := bind_run rfl

theorem ite_bind {α β : Type} {c : Prop} [Decidable c] {r s : Reader α} {f : α → Reader β}
    {input : Bytes} : (if c then r >>= f else s >>= f) input =
      ((if c then r else s) >>= f) input := by
  split_ifs <;> rfl

theorem bind_peek {β : Type} {ahead : Nat} {f : Option UInt8 → Reader β} {input : Bytes} :
    (peek ahead >>= f) input = f input[ahead]? input := bind_run rfl

end Reader

theorem nodup_map_of_imp {α β γ : Type} {f : α → β} {g : α → γ} {list : List α}
    (himp : ∀ x ∈ list, ∀ y ∈ list, g x = g y → f x = f y) (h : (list.map f).Nodup) :
    (list.map g).Nodup := by
  refine List.Nodup.map_on ?_ (List.Nodup.of_map _ h)
  intro x hx y hy hxy
  exact List.inj_on_of_nodup_map h hx hy (himp x hx y hy hxy)

/-- The hex digits of a participant tell as much as its byte. -/
theorem participant_eq_iff {x y : UInt8} {p q : Bytes} :
    (Hex.encode (x :: p)).toList.take 2 = (Hex.encode (y :: q)).toList.take 2 ↔ x = y := by
  constructor
  · intro h
    have hdigits : Hex.encode [x] = Hex.encode [y] := by
      have hchars : [Hex.encodeDigit (x / 16), Hex.encodeDigit (x % 16)] =
          [Hex.encodeDigit (y / 16), Hex.encodeDigit (y % 16)] := h
      unfold Hex.encode
      simpa using hchars
    have hsame := Hex.encode_injective hdigits
    injection hsame
  · rintro rfl
    rfl

/-- Participants have distinct bytes when they have distinct hex digits. -/
theorem nodup_participants_iff {parts : List Bytes} (hwidth : ∀ p ∈ parts, p.length = 65) :
    ((parts.map Hex.encode).map fun s => s.toList.take 2).Nodup ↔
      (parts.map fun p => p.head?).Nodup := by
  have hsame : ∀ p ∈ parts, ∀ q ∈ parts, (Hex.encode p).toList.take 2 =
      (Hex.encode q).toList.take 2 ↔ p.head? = q.head? := by
    intro p hp q hq
    obtain ⟨x, p, rfl⟩ := List.exists_cons_of_length_eq_add_one (hwidth p hp)
    obtain ⟨y, q, rfl⟩ := List.exists_cons_of_length_eq_add_one (hwidth q hq)
    rw [participant_eq_iff, List.head?_cons, List.head?_cons, Option.some_inj]
  rw [List.map_map]
  constructor
  · exact nodup_map_of_imp fun p hp q hq h => (hsame p hp q hq).mpr h
  · exact nodup_map_of_imp fun p hp q hq h => (hsame p hp q hq).mp h

/-- When `readSingle` takes 64 of the bytes that are left. -/
abbrev takesSingle (left : Nat) : Prop := left > 0 ∧ (left % 64 = 0 ∨ left % 65 ≠ 0)

theorem readSingle_ok {o : Option Text} {input rest : Bytes} :
    readSingle input = .ok (o, rest) ↔ ∃ raw : Option Bytes, o = raw.map Hex.encode ∧
      input = raw.getD [] ++ rest ∧ (∀ s ∈ raw, s.length = 64) ∧
      (raw.isSome ↔ takesSingle input.length) := by
  unfold readSingle
  rw [Reader.bind_remaining]
  by_cases htakes : takesSingle input.length
  · rw [if_pos htakes, Reader.map_ok]
    constructor
    · rintro ⟨t, ht, rfl⟩
      obtain ⟨x, rfl, rfl, hx⟩ := Reader.hex_ok.mp ht
      refine ⟨some x, rfl, rfl, ?_, iff_of_true rfl htakes⟩
      rintro s ⟨⟩
      exact hx
    · rintro ⟨raw, rfl, hinput, hwidth, hsome⟩
      obtain ⟨x, rfl⟩ := Option.isSome_iff_exists.mp (hsome.mpr htakes)
      exact ⟨_, Reader.hex_ok.mpr ⟨x, rfl, hinput, hwidth x rfl⟩, rfl⟩
  · rw [if_neg htakes, Reader.pure_ok]
    constructor
    · rintro ⟨rfl, rfl⟩
      refine ⟨none, rfl, rfl, ?_, iff_of_false Bool.false_ne_true htakes⟩
      rintro s ⟨⟩
    · rintro ⟨raw, rfl, rfl, -, hsome⟩
      cases raw with
      | none => exact ⟨rfl, rfl⟩
      | some x => exact absurd (hsome.mp rfl) htakes

theorem flatten_length_of_width {parts : List Bytes} (h : ∀ p ∈ parts, p.length = 65) :
    parts.flatten.length = 65 * parts.length := by
  rw [List.length_flatten, List.map_congr_left h]
  simp [mul_comm]

/-- The widths of the untagged layout with signatures of 64 bytes. -/
structure SignatureParts.Fixed (p : SignatureParts) : Prop where
  first : ∀ s ∈ p.first, s.length = 64
  second : ∀ s ∈ p.second, s.length = 64
  multi : ∀ s ∈ p.multi, s.length = 65
  blocks : p.blocks = []

theorem detectSchnorr_of_fixed {p : SignatureParts} (h : p.Fixed) :
    detectSchnorr p.classic.length = true := by
  obtain ⟨hfirst, hsecond, hmulti, -⟩ := h
  have hlast := flatten_length_of_width hmulti
  have hwidth : ∀ o : Option Bytes, (∀ s ∈ o, s.length = 64) →
      (o.getD []).length = 0 ∨ (o.getD []).length = 64 := by
    rintro (_ | s) h
    · exact .inl rfl
    · exact .inr (h s rfl)
  unfold detectSchnorr SignatureParts.classic
  simp only [Bool.or_eq_true, Bool.and_eq_true, decide_eq_true_eq, List.length_append, hlast]
  rcases hwidth p.first hfirst with hone | hone <;> rcases hwidth p.second hsecond with htwo | htwo
  all_goals
    rw [hone, htwo]
    omega

/-- What the reader of that layout makes of its bytes. -/
theorem deserializeSchnorr_ok {u v : Transaction} {input : Bytes} :
    deserializeSchnorrSignatures (u.withSignatures {}) input = .ok (v, []) ↔
      ∃ p : SignatureParts, v = u.withSignatures p.fields ∧ input = p.classic ∧ p.Fixed ∧
        (p.multi.map fun s => s.head?).Nodup ∧
        (p.first.isSome ↔ takesSingle input.length) ∧
        (p.second.isSome ↔ takesSingle (p.second.getD [] ++ p.multi.flatten).length) := by
  unfold deserializeSchnorrSignatures
  rw [Reader.bind_ok]
  constructor
  · rintro ⟨_, rest, hfirst, hmore⟩
    obtain ⟨first, rfl, rfl, hfirstWidth, hfirstSome⟩ := readSingle_ok.mp hfirst
    obtain ⟨_, tail, hsecond, h⟩ := Reader.bind_ok.mp hmore
    clear hmore
    obtain ⟨second, rfl, rfl, hsecondWidth, hsecondSome⟩ := readSingle_ok.mp hsecond
    dsimp only at h
    rw [Reader.bind_remaining] at h
    split_ifs at h with hzero hmod
    · obtain ⟨rfl, -⟩ := Reader.pure_ok.mp h
      obtain rfl := List.eq_nil_of_length_eq_zero hzero
      refine ⟨{ first, second }, rfl, rfl, ⟨hfirstWidth, hsecondWidth, ?_, rfl⟩, List.nodup_nil,
        hfirstSome, hsecondSome⟩
      rintro s ⟨⟩
    · exact absurd h Reader.fail_ok
    · have htotal : tail.length = 65 * (tail.length / 65) := by omega
      obtain ⟨multi, hcount, hwidth, rfl⟩ := exists_pieces _ htotal
      rw [← hcount, Reader.bind_run (Reads.pieces hwidth).run] at h
      split_ifs at h with hnodup
      · obtain ⟨rfl, -⟩ := Reader.pure_ok.mp h
        refine ⟨{ first, second, multi }, ?_, rfl, ⟨hfirstWidth, hsecondWidth, hwidth, rfl⟩,
          (nodup_participants_iff hwidth).mp hnodup, hfirstSome, hsecondSome⟩
        have hsome : multi.isEmpty = false := by
          cases multi with
          | nil => exact absurd rfl hzero
          | cons => rfl
        unfold SignatureParts.fields
        dsimp only
        rw [hsome]
        rfl
      · exact absurd h Reader.fail_ok
  · rintro ⟨⟨first, second, blocks, multi⟩, rfl, rfl, hfixed, hnodup, hfirstSome, hsecondSome⟩
    obtain ⟨hfirst, hsecond, hwidth, hblocks⟩ := hfixed
    dsimp only at hfirst hsecond hwidth hblocks hnodup hfirstSome hsecondSome
    subst hblocks
    have hlast := flatten_length_of_width hwidth
    refine ⟨first.map Hex.encode, second.getD [] ++ multi.flatten,
      readSingle_ok.mpr ⟨first, rfl, rfl, hfirst, hfirstSome⟩, ?_⟩
    rw [Reader.bind_run (readSingle_ok.mpr ⟨second, rfl, rfl, hsecond, hsecondSome⟩)]
    dsimp only
    rw [Reader.bind_remaining]
    cases multi with
    | nil => rfl
    | cons s rest =>
        have hpos : ¬ (s :: rest).flatten.length = 0 := by
          rw [hlast, List.length_cons]
          omega
        have hmod : ¬ (s :: rest).flatten.length % 65 ≠ 0 := by
          rw [hlast]
          omega
        have hdiv : (s :: rest).flatten.length / 65 = (s :: rest).length := by
          rw [hlast]
          omega
        rw [if_neg hpos, if_neg hmod, hdiv, Reader.bind_run (Reads.pieces hwidth).run,
          if_pos ((nodup_participants_iff hwidth).mpr hnodup)]
        rfl

/-- A second signature only after a first one, distinct participants, and without a second
signature no number of parts that looks like one. -/
structure SignatureParts.Telling (p : SignatureParts) : Prop where
  order : p.first = none → p.second = none
  count : p.second = none → p.multi.length % 64 = 0 → p.multi = []
  participants : (p.multi.map fun s => s.head?).Nodup

/-- The parts of the fixed layout that are read back. -/
theorem deserializeSchnorr_iff {u : Transaction} {p : SignatureParts} (h : p.Fixed) :
    deserializeSchnorrSignatures (u.withSignatures {}) p.classic =
      .ok (u.withSignatures p.fields, []) ↔ p.Telling := by
  have hlast := flatten_length_of_width h.multi
  have htakes : ((p.first.isSome ↔ takesSingle p.classic.length) ∧
      (p.second.isSome ↔ takesSingle (p.second.getD [] ++ p.multi.flatten).length)) ↔
      (p.first = none → p.second = none) ∧
        (p.second = none → p.multi.length % 64 = 0 → p.multi = []) := by
    obtain ⟨hfirst, hsecond, -, -⟩ := h
    unfold SignatureParts.classic
    simp only [List.length_append, hlast]
    rw [← List.length_eq_zero_iff (l := p.multi)]
    generalize p.multi.length = count
    cases hone : p.first with
    | none =>
        cases htwo : p.second with
        | none => simp; omega
        | some t => simp [hsecond t htwo]
    | some s =>
        cases htwo : p.second with
        | none => simp [hfirst s hone]; omega
        | some t => simp [hfirst s hone, hsecond t htwo]; omega
  rw [deserializeSchnorr_ok]
  constructor
  · rintro ⟨q, hfields, -, -, hnodup, hfirst, hsecond⟩
    obtain rfl := SignatureParts.fields_injective (Transaction.withSignatures_inj.mp hfields)
    obtain ⟨horder, hcount⟩ := htakes.mp ⟨hfirst, hsecond⟩
    exact ⟨horder, hcount, hnodup⟩
  · rintro ⟨horder, hcount, hnodup⟩
    obtain ⟨hfirst, hsecond⟩ := htakes.mpr ⟨horder, hcount⟩
    exact ⟨p, rfl, rfl, h, hnodup, hfirst, hsecond⟩

theorem counted_ne_nil {raw : Bytes} (h : counted raw) : raw ≠ [] := by
  rintro rfl
  cases h

/-- One or two DER signatures and nothing else. -/
theorem deserializeDer_run {u : Transaction} {first : Bytes} {second : Option Bytes}
    (hfirst : counted first) (hsecond : ∀ s ∈ second, counted s ∧ s.head? ≠ some 0xff) :
    deserializeDerSignatures (u.withSignatures {}) (first ++ second.getD []) =
      .ok (u.withSignatures (SignatureParts.fields { first := some first, second }), []) := by
  have hpos : (first ++ second.getD []).length > 0 := by
    have hne := List.length_pos_iff.mpr (counted_ne_nil hfirst)
    rw [List.length_append]
    omega
  have hone : (some <$> readDer) (first ++ second.getD []) =
      .ok (some (Hex.encode first), second.getD []) :=
    ((Reads.der hfirst).map some) (second.getD [])
  unfold deserializeDerSignatures
  rw [Reader.bind_remaining, if_pos hpos, Reader.bind_run hone]
  dsimp only
  rw [Reader.bind_remaining]
  cases second with
  | none => rfl
  | some s =>
      obtain ⟨hcounted, hmark⟩ := hsecond s rfl
      have htwo : (some <$> readDer) s = .ok (some (Hex.encode s), []) :=
        ((Reads.der hcounted).map some).run
      have hmore : s.length > 0 := List.length_pos_iff.mpr (counted_ne_nil hcounted)
      have hpeek : s[0]? ≠ some 0xff := by rwa [← List.head?_eq_getElem?]
      rw [Option.getD_some, Reader.bind_peek, if_pos ⟨hmore, hpeek⟩, Reader.bind_run htwo]
      rfl

/-- A reader that reads DER when there is something to read. -/
theorem readDer_if_ok {c : Prop} [Decidable c] {o : Option Text} {input rest : Bytes}
    (h : (if c then some <$> readDer else pure none) input = .ok (o, rest)) :
    ∃ raw : Option Bytes, o = raw.map Hex.encode ∧ input = raw.getD [] ++ rest ∧
      (raw.isSome ↔ c) := by
  split_ifs at h with hc
  · obtain ⟨t, ht, rfl⟩ := Reader.map_ok.mp h
    obtain ⟨x, rfl, rfl⟩ := Reader.readDer_ok ht
    exact ⟨some x, rfl, rfl, iff_of_true rfl hc⟩
  · obtain ⟨rfl, rfl⟩ := Reader.pure_ok.mp h
    exact ⟨none, rfl, rfl, iff_of_false Bool.false_ne_true hc⟩

/-- What the DER reader accepts starts with a signature, and a multisignature is behind a mark. -/
theorem deserializeDer_ok {u v : Transaction} {input : Bytes} (hpos : 0 < input.length)
    (h : deserializeDerSignatures (u.withSignatures {}) input = .ok (v, [])) :
    ∃ p : SignatureParts, v = u.withSignatures p.fields ∧ p.first.isSome ∧
      (p.multi = [] ∨ ∃ rest, p.multi = [rest] ∧
        input.length = (p.first.getD []).length + (p.second.getD []).length + (rest.length + 1)) := by
  unfold deserializeDerSignatures at h
  rw [Reader.bind_remaining] at h
  dsimp only at h
  rw [Reader.ite_bind] at h
  obtain ⟨_, rest, hfirst, hmore⟩ := Reader.bind_ok.mp h
  clear h
  obtain ⟨first, rfl, rfl, hsome⟩ := readDer_if_ok hfirst
  rw [Reader.bind_remaining, Reader.bind_peek, Reader.ite_bind] at hmore
  obtain ⟨_, tail, hsecond, h⟩ := Reader.bind_ok.mp hmore
  clear hmore
  obtain ⟨second, rfl, rfl, -⟩ := readDer_if_ok hsecond
  rw [Reader.bind_remaining, Reader.bind_peek] at h
  split_ifs at h with hmark
  · obtain ⟨_, multi, hu8, h⟩ := Reader.bind_ok.mp h
    obtain rfl := Reader.u8_ok.mp hu8
    obtain ⟨rfl, -⟩ := Reader.pure_ok.mp h
    refine ⟨{ first, second, multi := [multi] }, rfl, hsome.mpr hpos, .inr ⟨multi, rfl, ?_⟩⟩
    simp only [List.length_append, List.length_cons]
    omega
  · rw [Reader.bind_remaining] at h
    split_ifs at h with hleft
    · exact absurd h Reader.fail_ok
    · obtain ⟨rfl, -⟩ := Reader.pure_ok.mp h
      exact ⟨{ first, second }, rfl, hsome.mpr hpos, .inl rfl⟩

end SthCore
