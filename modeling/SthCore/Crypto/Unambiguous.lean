import SthCore.Crypto.Sections

/-!
When the reader of the signatures recovers the parts that were written.  Only
the tagged layout tells all of its parts apart.
-/

namespace SthCore

open SthCore.Lib

/-- The bytes of an optional hex text. -/
def optionalHex (text : Option Text) : Except Error (Option Bytes) :=
  match text with
  | some t => some <$> Hex.decode t
  | none => .ok none

/-- The parts that `serialize_transaction` writes behind the payload. -/
def Transaction.signatureParts (tx : Transaction) : Except Error SignatureParts := do
  let first ← optionalHex tx.signature
  let second ← if tx.isPq then .ok none else optionalHex tx.secondSignatureAny
  let blocks ← if tx.isPq then tx.pqBlocks.mapM PqSignatureBlock.part else .ok []
  let multi ← (tx.signatures.getD []).mapM Hex.decode
  return { first, second, blocks, multi }

theorem hexField_of_optionalHex {text : Option Text} {raw : Option Bytes}
    (h : optionalHex text = .ok raw) : hexField text = .ok (raw.getD []) := by
  cases text with
  | none =>
      injection h with h
      subst h
      rfl
  | some t =>
      obtain ⟨x, hx, rfl⟩ := map_eq_ok.mp h
      exact hx

/-- The tagged layout is written for version 3. -/
theorem serializeSignatures_tagged {tx : Transaction} {p : SignatureParts} {raw : Bytes}
    (hpq : tx.isPq = true) (hparts : tx.signatureParts = .ok p)
    (hraw : serializeSignatures tx {} = .ok raw) :
    raw = p.tagged ∧ p.second = none ∧ ∀ b ∈ p.blocks, b.2.length ≤ 65535 := by
  unfold Transaction.signatureParts at hparts
  simp only [hpq, if_true, bind_eq_ok, pure_eq_ok] at hparts
  obtain ⟨first, hfirst, second, hsecond, blocks, hblocks, multi, hmulti, rfl⟩ := hparts
  rw [serializeSignatures_eq] at hraw
  simp only [included, Bool.false_eq_true, if_false, hpq, if_true, bind_eq_ok, pure_eq_ok,
    hexField_of_optionalHex hfirst, hmulti, ok_bind] at hraw
  obtain ⟨raws, hraws, rfl⟩ := hraw
  obtain ⟨parts, hdecoded, rfl, -, hlens⟩ := exists_parts_of_blocks hraws
  rw [hblocks] at hdecoded
  injection hdecoded with hdecoded
  subst hdecoded
  injection hsecond with hsecond
  exact ⟨List.append_assoc _ _ _, hsecond.symm, hlens⟩

/-- The untagged one is written for the versions before. -/
theorem serializeSignatures_classic {tx : Transaction} {p : SignatureParts} {raw : Bytes}
    (hpq : tx.isPq = false) (hparts : tx.signatureParts = .ok p)
    (hraw : serializeSignatures tx {} = .ok raw) : raw = p.classic ∧ p.blocks = [] := by
  unfold Transaction.signatureParts at hparts
  simp only [hpq, Bool.false_eq_true, if_false, bind_eq_ok, pure_eq_ok] at hparts
  obtain ⟨first, hfirst, second, hsecond, blocks, hblocks, multi, hmulti, rfl⟩ := hparts
  rw [serializeSignatures_eq] at hraw
  simp only [included, Bool.false_eq_true, if_false, hpq, pure_eq_ok,
    hexField_of_optionalHex hfirst, hexField_of_optionalHex hsecond, hmulti, ok_bind] at hraw
  injection hblocks with hblocks
  exact ⟨hraw.symm.trans (List.append_assoc _ _ _), hblocks.symm⟩

/-- A DER sequence: its tag, the number of bytes behind, and these bytes. -/
def IsDer (raw : Bytes) : Prop :=
  ∃ (l : UInt8) (body : Bytes), raw = 0x30 :: l :: body ∧ body.length = l.toNat

theorem IsDer.counted {raw : Bytes} (h : IsDer raw) : SthCore.counted raw := by
  obtain ⟨l, body, rfl, hbody⟩ := h
  exact decide_eq_true hbody

theorem IsDer.head {raw : Bytes} (h : IsDer raw) : raw.head? ≠ some 0xff := by
  obtain ⟨l, body, rfl, -⟩ := h
  rw [List.head?_cons]
  decide

namespace SignatureParts

/-- The parts a signed transaction carries: signatures of 64 bytes, or DER ones before version 3,
and parts of 65 bytes. -/
def OfKind (pq : Bool) (p : SignatureParts) : Prop :=
  if pq then
    (∀ s ∈ p.first, s.length = 64) ∧ (∀ b ∈ p.blocks, b.1 < 0xff) ∧ ∀ s ∈ p.multi, s.length = 65
  else
    ((∀ s ∈ p.first, s.length = 64) ∧ (∀ s ∈ p.second, s.length = 64) ∨
      (∀ s ∈ p.first, IsDer s) ∧ ∀ s ∈ p.second, IsDer s) ∧
    (∀ s ∈ p.multi, s.length = 65) ∧ p.multi.Nodup

/-- What is recovered.  With tags, a transaction without a signature has no other part either.
Without tags and with signatures of 64 bytes, the parts are telling.  Otherwise there is a first
signature and no multisignature, and the total length is none of the fixed layout. -/
def Separable (pq : Bool) (p : SignatureParts) : Prop :=
  if pq then p.first = none → p.blocks = [] ∧ p.multi = []
  else (p.Fixed ∧ p.Telling) ∨
    (¬ p.Fixed ∧ p.first ≠ none ∧ p.multi = [] ∧ detectSchnorr p.classic.length = false)

variable {u : Transaction} {p : SignatureParts}

/-- The tagged reader takes the first 64 bytes for the signature. -/
theorem deserializePq_iff (h : p.Writable) :
    deserializeSignaturesV3 (u.withSignatures {}) p.tagged = .ok (u.withSignatures p.fields, []) ↔
      (p.first = none → p.blocks = [] ∧ p.multi = []) := by
  constructor
  · intro hread hnone
    by_cases hempty : p.tagged.length = 0
    · obtain ⟨first, second, blocks, multi⟩ := p
      obtain rfl : first = none := hnone
      unfold tagged at hempty
      constructor
      · cases blocks with
        | nil => rfl
        | cons b rest => simp [blockBytes] at hempty
      · cases multi with
        | nil => rfl
        | cons s rest => simp at hempty
    · unfold deserializeSignaturesV3 at hread
      rw [Reader.bind_remaining, if_neg hempty] at hread
      obtain ⟨t, mid, -, hread⟩ := Reader.bind_ok.mp hread
      rw [Reader.bind_remaining] at hread
      obtain ⟨blocks, tail, -, hread⟩ := Reader.bind_ok.mp hread
      dsimp only at hread
      rw [Reader.bind_remaining] at hread
      have hsome : ∀ v : Transaction, v.signature = some t → v ≠ u.withSignatures p.fields := by
        rintro v hv rfl
        have hfield : (u.withSignatures p.fields).signature = p.first.map Hex.encode := rfl
        rw [hfield, hnone] at hv
        cases hv
      by_cases hzero : tail.length = 0
      · rw [if_pos hzero] at hread
        obtain ⟨hv, -⟩ := Reader.pure_ok.mp hread
        exact absurd hv (hsome _ rfl)
      · rw [if_neg hzero] at hread
        obtain ⟨mark, rest, -, hread⟩ := Reader.bind_ok.mp hread
        rw [Reader.bind_remaining] at hread
        by_cases hmod : rest.length % 65 ≠ 0
        · rw [if_pos hmod] at hread
          exact absurd hread Reader.fail_ok
        · rw [if_neg hmod] at hread
          obtain ⟨sigs, rest, -, hread⟩ := Reader.bind_ok.mp hread
          obtain ⟨hv, -⟩ := Reader.pure_ok.mp hread
          exact absurd hv (hsome _ rfl)
  · intro hfew
    cases hfirst : p.first with
    | some s => exact deserializePq_run h (by rw [hfirst]; rfl)
    | none =>
        obtain ⟨hblocks, hmulti⟩ := hfew hfirst
        have hsecond := h.second
        obtain ⟨first, second, blocks, multi⟩ := p
        dsimp only at hfirst hblocks hmulti hsecond
        subst hfirst hblocks hmulti hsecond
        rfl

/-- The untagged reader looks at the total length first. -/
theorem deserializeClassic_iff (hpq : u.isPq = false) (h : p.OfKind false) (hblocks : p.blocks = []) :
    deserializeSignatures (u.withSignatures {}) p.classic = .ok (u.withSignatures p.fields, []) ↔
      p.Separable false := by
  have hversion : (u.withSignatures {}).isPq = false := hpq
  obtain ⟨hkind, hmulti, -⟩ := h
  unfold deserializeSignatures
  rw [hversion, if_neg Bool.false_ne_true, Reader.bind_remaining]
  by_cases hfixed : p.Fixed
  · rw [if_pos (detectSchnorr_of_fixed hfixed), deserializeSchnorr_iff hfixed]
    constructor
    · intro htelling
      exact .inl ⟨hfixed, htelling⟩
    · rintro (⟨-, htelling⟩ | ⟨hother, -⟩)
      · exact htelling
      · exact absurd hfixed hother
  · have hder : (∀ s ∈ p.first, IsDer s) ∧ ∀ s ∈ p.second, IsDer s := by
      rcases hkind with ⟨hfirst, hsecond⟩ | hder
      · exact absurd ⟨hfirst, hsecond, hmulti, hblocks⟩ hfixed
      · exact hder
    cases hdetect : detectSchnorr p.classic.length with
    | true =>
        rw [if_pos rfl, deserializeSchnorr_ok]
        constructor
        · rintro ⟨q, hfields, -, hq, -⟩
          obtain rfl := fields_injective (Transaction.withSignatures_inj.mp hfields)
          exact absurd hq hfixed
        · rintro (⟨hq, -⟩ | ⟨-, -, -, hother⟩)
          · exact absurd hq hfixed
          · rw [hdetect] at hother
            cases hother
    | false =>
        have hpos : 0 < p.classic.length := by
          rcases Nat.eq_zero_or_pos p.classic.length with hzero | hpos
          · rw [hzero] at hdetect
            cases hdetect
          · exact hpos
        rw [if_neg Bool.false_ne_true]
        constructor
        · intro hread
          obtain ⟨q, hfields, hsome, hlast⟩ := deserializeDer_ok hpos hread
          obtain rfl := fields_injective (Transaction.withSignatures_inj.mp hfields)
          refine .inr ⟨hfixed, Option.isSome_iff_ne_none.mp hsome, ?_, hdetect⟩
          rcases hlast with hlast | ⟨rest, hrest, hlength⟩
          · exact hlast
          · -- the mark would take one of the 65 bytes of the part
            have hwidth := hmulti rest (by rw [hrest]; exact List.mem_singleton_self rest)
            unfold classic at hlength
            rw [hrest] at hlength
            simp only [List.length_append, List.flatten_cons, List.flatten_nil,
              List.length_nil] at hlength
            omega
        · rintro (⟨hq, -⟩ | ⟨-, hfirst, hnone, -⟩)
          · exact absurd hq hfixed
          · obtain ⟨hone, htwo⟩ := hder
            obtain ⟨first, second, blocks, multi⟩ := p
            obtain ⟨s, rfl⟩ := Option.ne_none_iff_exists'.mp hfirst
            dsimp only at hnone hblocks hone htwo
            subst hnone hblocks
            have hrun := @deserializeDer_run u s second (hone s rfl).counted
              fun t ht => ⟨(htwo t ht).counted, (htwo t ht).head⟩
            unfold classic
            rw [List.flatten_nil, List.append_nil]
            exact hrun

end SignatureParts

/-- The reader recovers the parts that were written exactly when they are separable. -/
theorem signatures_recovered_iff {tx u : Transaction} {p : SignatureParts} {raw : Bytes}
    (hversion : u.isPq = tx.isPq) (hparts : tx.signatureParts = .ok p)
    (hraw : serializeSignatures tx {} = .ok raw) (hkind : p.OfKind tx.isPq) :
    deserializeSignatures (u.withSignatures {}) raw = .ok (u.withSignatures p.fields, []) ↔
      p.Separable tx.isPq := by
  cases hpq : tx.isPq with
  | true =>
      rw [hpq] at hversion hkind
      obtain ⟨rfl, hsecond, hlens⟩ := serializeSignatures_tagged hpq hparts hraw
      obtain ⟨hfirst, hmark, hmulti⟩ := hkind
      have hbelow : ∀ b ∈ p.blocks, b.1 ≠ 0xff := by
        intro b hb heq
        have hlt := hmark b hb
        rw [heq] at hlt
        exact absurd hlt (by decide)
      have hwritable : p.Writable :=
        ⟨hfirst, fun b hb => ⟨hbelow b hb, hlens b hb⟩, hmulti, hsecond⟩
      have hreader : (u.withSignatures {}).isPq = true := hversion
      unfold deserializeSignatures
      rw [hreader, if_pos rfl]
      exact SignatureParts.deserializePq_iff hwritable
  | false =>
      rw [hpq] at hversion hkind
      obtain ⟨rfl, hblocks⟩ := serializeSignatures_classic hpq hparts hraw
      exact SignatureParts.deserializeClassic_iff hversion hkind hblocks

theorem optionalHex_encode (raw : Option Bytes) :
    optionalHex (raw.map Hex.encode) = .ok raw := by
  cases raw with
  | none => rfl
  | some x =>
      unfold optionalHex
      rw [Option.map_some]
      dsimp only
      rw [Hex.decode_encode]
      rfl

theorem mapM_decode_multi (p : SignatureParts) :
    (p.fields.signatures.getD []).mapM Hex.decode = .ok p.multi := by
  obtain ⟨first, second, blocks, multi⟩ := p
  cases multi with
  | nil => rfl
  | cons s rest => exact mapM_decode_encode (s :: rest)

/-- A transaction before version 3 that is signed with given parts. -/
theorem signatureParts_withSignatures {u : Transaction} {p : SignatureParts} (hpq : u.isPq = false)
    (hblocks : p.blocks = []) : (u.withSignatures p.fields).signatureParts = .ok p := by
  have hversion : (u.withSignatures p.fields).isPq = false := hpq
  have hfirst := optionalHex_encode p.first
  have hsecond : optionalHex (u.withSignatures p.fields).secondSignatureAny = .ok p.second := by
    have hany : (u.withSignatures p.fields).secondSignatureAny = p.second.map Hex.encode :=
      Option.or_none
    rw [hany, optionalHex_encode]
  unfold Transaction.signatureParts
  simp only [hversion, Bool.false_eq_true, if_false, bind_eq_ok, pure_eq_ok]
  refine ⟨_, hfirst, _, hsecond, _, rfl, _, mapM_decode_multi p, ?_⟩
  rw [← hblocks]

theorem serializeSignatures_withSignatures {u : Transaction} {p : SignatureParts}
    (hpq : u.isPq = false) :
    serializeSignatures (u.withSignatures p.fields) {} = .ok p.classic := by
  have hversion : (u.withSignatures p.fields).isPq = false := hpq
  have hfirst := hexField_of_optionalHex (optionalHex_encode p.first)
  have hsecond : hexField (u.withSignatures p.fields).secondSignatureAny =
      .ok (p.second.getD []) := by
    have hany : (u.withSignatures p.fields).secondSignatureAny = p.second.map Hex.encode :=
      Option.or_none
    rw [hany]
    exact hexField_of_optionalHex (optionalHex_encode p.second)
  rw [serializeSignatures_eq]
  simp only [included, Bool.false_eq_true, if_false, hversion, bind_eq_ok, pure_eq_ok]
  exact ⟨_, hfirst, _, mapM_decode_multi p, _, hsecond, List.append_assoc _ _ _⟩

/-- A plain transfer of version 2. -/
def plainTransfer : Transaction :=
  { version := 2, typeGroup := 1, type := 0, nonce := some 1, senderPublicKey := "", fee := 0 }

/-- One signature of 64 bytes and the parts of so many participants. -/
def signedBy (participants : Nat) : SignatureParts where
  first := some (List.replicate 64 1)
  multi := (List.range participants).map fun i => u8of i :: List.replicate 64 0

theorem signedBy_fixed (participants : Nat) : (signedBy participants).Fixed := by
  refine ⟨?_, ?_, ?_, rfl⟩
  · rintro s ⟨⟩
    rfl
  · rintro s ⟨⟩
  · intro s hs
    obtain ⟨i, -, rfl⟩ := List.mem_map.mp hs
    rfl

theorem signatures_recovered_iff_three :
    deserializeSignatures (plainTransfer.withSignatures {}) (signedBy 3).classic =
      .ok (plainTransfer.withSignatures (signedBy 3).fields, []) := by
  have hfixed := signedBy_fixed 3
  have hkind : (signedBy 3).OfKind false := by
    refine ⟨.inl ⟨hfixed.first, hfixed.second⟩, hfixed.multi, ?_⟩
    decide +kernel
  have htelling : (signedBy 3).Telling := by
    refine ⟨?_, ?_, ?_⟩
    · rintro ⟨⟩
    · intro _ hcount
      exact absurd hcount (by decide)
    · decide +kernel
  have hversion : plainTransfer.isPq = false := rfl
  have hparts := @signatureParts_withSignatures plainTransfer (signedBy 3) hversion rfl
  have hraw := @serializeSignatures_withSignatures plainTransfer (signedBy 3) hversion
  exact (signatures_recovered_iff rfl hparts hraw hkind).mpr (.inl ⟨hfixed, htelling⟩)

/-- With 64 participants the first 64 bytes of their parts are taken for a second signature. -/
theorem sixtyFour_misread :
    (plainTransfer.withSignatures (signedBy 64).fields).signatureParts = .ok (signedBy 64) ∧
    serializeSignatures (plainTransfer.withSignatures (signedBy 64).fields) {} =
      .ok (signedBy 64).classic ∧
    (signedBy 64).OfKind false ∧
    deserializeSignatures (plainTransfer.withSignatures {}) (signedBy 64).classic =
      .error (.serialization "signature buffer not exhausted") := by
  have hfixed := signedBy_fixed 64
  refine ⟨signatureParts_withSignatures rfl rfl, serializeSignatures_withSignatures rfl,
    ⟨.inl ⟨hfixed.first, hfixed.second⟩, hfixed.multi, ?_⟩, ?_⟩
  · decide +kernel
  · decide +kernel

end SthCore
