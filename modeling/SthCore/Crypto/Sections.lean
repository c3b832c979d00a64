import SthCore.Crypto.SignatureParts

/-!
The signatures of a transaction: the three sections they are written to, the
layouts in which the reader finds the same sections again, and what it reads.
-/

namespace SthCore

open SthCore.Lib

/-- The bytes of an optional hex field. -/
def hexField (text : Option Text) : Except Error Bytes :=
  match text with
  | some t => Hex.decode t
  | none => .ok []

/-- The bytes of the primary signature, of the second one, and of the multisignature. -/
structure Sections (tx : Transaction) (first middle last : Bytes) : Prop where
  first : hexField tx.signature = .ok first
  middle : if tx.isPq then ∃ blocks, tx.pqBlocks.mapM serializePqBlock = .ok blocks ∧
      middle = blocks.flatten
    else hexField tx.secondSignatureAny = .ok middle
  last : ∃ parts, (tx.signatures.getD []).mapM Hex.decode = .ok parts ∧
    last = if tx.isPq && !parts.isEmpty then 0xff :: parts.flatten else parts.flatten

/-- A list that options may leave out. -/
def included {α : Type} (exclude : Bool) (list : Except Error (List α)) : Except Error (List α) :=
  if exclude then .ok [] else list

theorem included_ok {α : Type} {list : Except Error (List α)} {found : List α}
    (h : list = .ok found) (exclude : Bool) :
    included exclude list = .ok (if exclude then [] else found) := by
  cases exclude
  · exact h
  · rfl

theorem serializeSignatures_eq (tx : Transaction) (opts : SerializeOptions) :
    serializeSignatures tx opts = (do
      let first ← included opts.excludeSignature (hexField tx.signature)
      let multi ← included opts.excludeMultiSignature ((tx.signatures.getD []).mapM Hex.decode)
      if tx.isPq then do
        let blocks ← included opts.excludeSecondSignature (tx.pqBlocks.mapM serializePqBlock)
        return first ++ blocks.flatten ++ (if multi.isEmpty then [] else 0xff :: multi.flatten)
      else do
        let second ← included opts.excludeSecondSignature (hexField tx.secondSignatureAny)
        return first ++ second ++ multi.flatten) := by
  obtain ⟨noFirst, noSecond, noMulti⟩ := opts
  unfold serializeSignatures hexField
  cases noFirst <;> cases noSecond <;> cases noMulti <;> cases tx.signature <;>
    cases tx.signatures <;> cases tx.secondSignatureAny <;> rfl

namespace Sections

variable {tx : Transaction} {first middle last : Bytes}

/-- What each choice of options writes. -/
theorem serializeSignatures (h : Sections tx first middle last) (opts : SerializeOptions) :
    SthCore.serializeSignatures tx opts = .ok ((if opts.excludeSignature then [] else first) ++
      (if opts.excludeSecondSignature then [] else middle) ++
      (if opts.excludeMultiSignature then [] else last)) := by
  obtain ⟨parts, hparts, rfl⟩ := h.last
  have hmiddle := h.middle
  rw [serializeSignatures_eq]
  simp only [included_ok h.first, included_ok hparts, ok_bind]
  cases hpq : tx.isPq with
  | true =>
      simp only [hpq, if_true] at hmiddle
      obtain ⟨blocks, hblocks, rfl⟩ := hmiddle
      simp only [included_ok hblocks, ok_bind, if_true]
      cases opts.excludeSecondSignature <;> cases opts.excludeMultiSignature <;> cases parts <;> rfl
  | false =>
      simp only [hpq, Bool.false_eq_true, if_false] at hmiddle
      simp only [included_ok hmiddle, ok_bind, Bool.false_eq_true, if_false]
      cases opts.excludeMultiSignature <;> rfl

end Sections

theorem exists_sections {tx : Transaction} {raw : Bytes}
    (h : serializeSignatures tx {} = .ok raw) :
    ∃ first middle last, Sections tx first middle last ∧ raw = first ++ middle ++ last := by
  rw [serializeSignatures_eq] at h
  simp only [included, Bool.false_eq_true, if_false] at h
  obtain ⟨first, hfirst, h⟩ := bind_eq_ok.mp h
  obtain ⟨parts, hparts, h⟩ := bind_eq_ok.mp h
  cases hpq : tx.isPq with
  | true =>
      simp only [hpq, if_true, bind_eq_ok, pure_eq_ok] at h
      obtain ⟨blocks, hblocks, rfl⟩ := h
      refine ⟨first, blocks.flatten, _, ⟨hfirst, ?_, parts, hparts, rfl⟩, ?_⟩
      · rw [hpq]
        exact ⟨blocks, hblocks, rfl⟩
      · rw [hpq]
        cases parts <;> rfl
  | false =>
      simp only [hpq, Bool.false_eq_true, if_false, bind_eq_ok, pure_eq_ok] at h
      obtain ⟨second, hsecond, rfl⟩ := h
      refine ⟨first, second, parts.flatten, ⟨hfirst, ?_, parts, hparts, ?_⟩, rfl⟩
      · rw [hpq]
        exact hsecond
      · rw [hpq]
        rfl

/-- 64-byte signatures, then parts of 65 bytes with distinct participants.  Without a second
signature the parts must not look like one. -/
def SchnorrLayout (first middle last : Bytes) : Prop :=
  first.length = 64 ∧ (middle = [] ∨ middle.length = 64) ∧ ∃ parts : List Bytes,
    last = parts.flatten ∧ (∀ p ∈ parts, p.length = 65) ∧ (parts.map fun p => p.head?).Nodup ∧
    (middle = [] → parts.length % 64 = 0 → parts = [])

/-- One or two DER signatures whose total length is not taken for the other layout. -/
def DerLayout (first middle last : Bytes) : Prop :=
  detectSchnorr (first.length + middle.length) = false ∧ last = [] ∧ counted first ∧
    (middle = [] ∨ (counted middle ∧ middle.head? ≠ some 0xff))

/-- A 64-byte signature, blocks, and either nothing or a mark and parts of 65 bytes. -/
def PqLayout (first last : Bytes) : Prop :=
  first.length = 64 ∧ (last = [] ∨ ∃ n, last.length = 65 * (n + 1) + 1)

/-- The sections are laid out so that the reader finds them again. -/
def SignaturesReadable (tx : Transaction) : Prop :=
  ∀ first middle last, Sections tx first middle last →
    if tx.isPq then PqLayout first last
    else SchnorrLayout first middle last ∨ DerLayout first middle last

/-- The fields that stand for given sections. -/
structure FieldsOf (g : SignatureFields) (first middle last : Bytes) : Prop where
  first : g.signature = some (Hex.encode first)
  middle : hexField g.secondSignature = .ok middle
  last : ∃ parts, (g.signatures.getD []).mapM Hex.decode = .ok parts ∧ last = parts.flatten
  blocks : g.secondSignatures = none

/-- The parts of a layout of 64-byte signatures. -/
theorem exists_parts_of_layout {first middle last : Bytes} (h : SchnorrLayout first middle last) :
    ∃ p : SignatureParts, p.Fixed ∧ p.Telling ∧ p.classic = first ++ (middle ++ last) ∧
      FieldsOf p.fields first middle last := by
  obtain ⟨hfirst, hmiddle, parts, rfl, hwidth, hnodup, hcount⟩ := h
  have hoption : ∃ second : Option Bytes, second.getD [] = middle ∧
      (∀ s ∈ second, s.length = 64) ∧ (second = none → middle = []) := by
    rcases hmiddle with rfl | hmiddle
    · refine ⟨none, rfl, ?_, fun _ => rfl⟩
      rintro s ⟨⟩
    · refine ⟨some middle, rfl, ?_, ?_⟩
      · rintro s ⟨⟩
        exact hmiddle
      · rintro ⟨⟩
  obtain ⟨second, rfl, hsecond, hnone⟩ := hoption
  refine ⟨{ first := some first, second, multi := parts }, ⟨?_, hsecond, hwidth, rfl⟩,
    ⟨?_, fun habsent => hcount (hnone habsent), hnodup⟩, rfl, rfl, ?_, ⟨parts, ?_, rfl⟩, rfl⟩
  · rintro s ⟨⟩
    exact hfirst
  · rintro ⟨⟩
  · cases second with
    | none => rfl
    | some s => exact Hex.decode_encode s
  · cases parts with
    | nil => rfl
    | cons s rest => exact mapM_decode_encode (s :: rest)

theorem detectSchnorr_of_layout {first middle last : Bytes}
    (h : SchnorrLayout first middle last) :
    detectSchnorr (first ++ middle ++ last).length = true := by
  obtain ⟨p, hfixed, -, hraw, -⟩ := exists_parts_of_layout h
  rw [List.append_assoc, ← hraw]
  exact detectSchnorr_of_fixed hfixed

theorem deserializeSchnorr_layout {tx : Transaction} {first middle last : Bytes}
    (h : SchnorrLayout first middle last) :
    ∃ g, deserializeSchnorrSignatures (tx.withSignatures {}) (first ++ middle ++ last) =
      .ok (tx.withSignatures g, []) ∧ FieldsOf g first middle last := by
  obtain ⟨p, hfixed, htelling, hraw, hfields⟩ := exists_parts_of_layout h
  rw [List.append_assoc, ← hraw]
  exact ⟨p.fields, (deserializeSchnorr_iff hfixed).mpr htelling, hfields⟩

theorem deserializeDer_layout {tx : Transaction} {first middle last : Bytes}
    (h : DerLayout first middle last) :
    ∃ g, deserializeDerSignatures (tx.withSignatures {}) (first ++ middle ++ last) =
      .ok (tx.withSignatures g, []) ∧ FieldsOf g first middle last := by
  obtain ⟨-, rfl, hfirst, hmiddle⟩ := h
  rw [List.append_nil]
  rcases hmiddle with rfl | hmiddle
  · have hnone : ∀ s ∈ (none : Option Bytes), counted s ∧ s.head? ≠ some 0xff := by
      rintro s ⟨⟩
    exact ⟨_, deserializeDer_run hfirst hnone, rfl, rfl, ⟨[], rfl, rfl⟩, rfl⟩
  · have hsome : ∀ s ∈ some middle, counted s ∧ s.head? ≠ some 0xff := by
      rintro s ⟨⟩
      exact hmiddle
    exact ⟨_, deserializeDer_run hfirst hsome, rfl, Hex.decode_encode middle, ⟨[], rfl, rfl⟩, rfl⟩

/-- Signature blocks as they are read: hex in lower case. -/
def PqSignatureBlock.received (b : PqSignatureBlock) : PqSignatureBlock :=
  { b with signature := b.signature.toLower }

theorem serializePqBlock_ok {b : PqSignatureBlock} {raw : Bytes} :
    serializePqBlock b = .ok raw ↔ ∃ sig, Hex.decode b.signature = .ok sig ∧ sig.length ≤ 65535 ∧
      b.algorithm :: (u16le (UInt16.ofNat sig.length) ++ sig) = raw := by
  unfold serializePqBlock
  simp only [bind_eq_ok, throw_bind, ite_error_eq_ok, pure_eq_ok, gt_iff_lt, not_lt,
    List.cons_append]

theorem serializePqBlock_received {b : PqSignatureBlock} {raw : Bytes}
    (h : serializePqBlock b = .ok raw) : serializePqBlock b.received = .ok raw := by
  obtain ⟨sig, hsig, hlen, rfl⟩ := serializePqBlock_ok.mp h
  exact serializePqBlock_ok.mpr ⟨sig, Hex.decode_toLower hsig, hlen, rfl⟩

theorem mapM_serializePqBlock_received {blocks : List PqSignatureBlock} {raws : List Bytes}
    (h : blocks.mapM serializePqBlock = .ok raws) :
    (blocks.map PqSignatureBlock.received).mapM serializePqBlock = .ok raws := by
  induction blocks generalizing raws with
  | nil => exact h
  | cons b rest ih =>
      obtain ⟨raw, raws, hraw, hraws, rfl⟩ := mapM_ok_cons.mp h
      exact mapM_ok_cons.mpr ⟨raw, raws, serializePqBlock_received hraw, ih hraws, rfl⟩

/-- The blocks up to the mark of the multisignature, or up to the end. -/
theorem readPqBlocks_run {blocks : List PqSignatureBlock} {raws : List Bytes} {last : Bytes}
    {fuel : Nat} (h : blocks.mapM serializePqBlock = .ok raws)
    (hmark : ∀ b ∈ blocks, b.algorithm ≠ 0xff) (hlast : last = [] ∨ last[0]? = some 0xff)
    (hfuel : raws.flatten.length ≤ fuel) :
    readPqBlocks fuel (raws.flatten ++ last) = .ok (blocks.map PqSignatureBlock.received, last) := by
  induction blocks generalizing raws fuel with
  | nil =>
      rw [List.mapM_nil, pure_eq_ok] at h
      subst h
      cases fuel with
      | zero => rfl
      | succ fuel =>
          unfold readPqBlocks
          rw [List.flatten_nil, List.nil_append, Reader.bind_remaining, Reader.bind_peek, if_pos]
          · rfl
          · rcases hlast with rfl | hlast
            · exact .inl rfl
            · exact .inr hlast
  | cons b rest ih =>
      obtain ⟨raw, tail, hraw, htail, rfl⟩ := mapM_ok_cons.mp h
      obtain ⟨sig, hsig, hlen, rfl⟩ := serializePqBlock_ok.mp hraw
      cases fuel with
      | zero => simp at hfuel
      | succ fuel =>
          have hless : tail.flatten.length ≤ fuel := by
            simp only [List.flatten_cons, List.length_append, List.length_cons] at hfuel
            omega
          have hmore := ih htail (fun c hc => hmark c (List.mem_cons_of_mem b hc)) hless
          have halgorithm := hmark b List.mem_cons_self
          unfold readPqBlocks
          simp only [List.flatten_cons, List.cons_append, List.append_assoc]
          rw [Reader.bind_remaining, Reader.bind_peek, if_neg (by simp [halgorithm]),
            Reader.bind_run (Reader.u8_ok.mpr rfl), Reader.bind_run (Reader.u16_ok.mpr rfl),
            toNat_ofNat_u16 hlen, Reader.bind_run ((Reads.hex rfl) _), Reader.bind_run hmore,
            Hex.encode_of_decode hsig]
          rfl

/-- The block of a part, as a reader fills it. -/
def PqSignatureBlock.ofPart (b : UInt8 × Bytes) : PqSignatureBlock where
  algorithm := b.1
  signature := Hex.encode b.2

/-- The bytes of a block. -/
def blockBytes (b : UInt8 × Bytes) : Bytes :=
  b.1 :: (u16le (UInt16.ofNat b.2.length) ++ b.2)

theorem serializePqBlock_ofPart {b : UInt8 × Bytes} (h : b.2.length ≤ 65535) :
    serializePqBlock (.ofPart b) = .ok (blockBytes b) :=
  serializePqBlock_ok.mpr ⟨b.2, Hex.decode_encode b.2, h, rfl⟩

/-- The part that is written for a block. -/
def PqSignatureBlock.part (b : PqSignatureBlock) : Except Error (UInt8 × Bytes) := do
  return (b.algorithm, ← Hex.decode b.signature)

theorem PqSignatureBlock.part_ok {b : PqSignatureBlock} {x : UInt8 × Bytes} (h : b.part = .ok x) :
    b.algorithm = x.1 ∧ Hex.decode b.signature = .ok x.2 := by
  unfold part at h
  simp only [bind_eq_ok, pure_eq_ok] at h
  obtain ⟨sig, hsig, rfl⟩ := h
  exact ⟨rfl, hsig⟩

theorem received_of_part {b : PqSignatureBlock} {x : UInt8 × Bytes} (h : b.part = .ok x) :
    b.received = .ofPart x := by
  obtain ⟨halgorithm, hsig⟩ := b.part_ok h
  unfold PqSignatureBlock.received PqSignatureBlock.ofPart
  rw [Hex.encode_of_decode hsig, ← halgorithm]

theorem received_comp_ofPart :
    PqSignatureBlock.received ∘ PqSignatureBlock.ofPart = PqSignatureBlock.ofPart := by
  funext x
  refine received_of_part ?_
  unfold PqSignatureBlock.part PqSignatureBlock.ofPart
  rw [Hex.decode_encode]
  rfl

/-- The parts of blocks that were written. -/
theorem exists_parts_of_blocks {blocks : List PqSignatureBlock} {raws : List Bytes}
    (h : blocks.mapM serializePqBlock = .ok raws) :
    ∃ parts, blocks.mapM PqSignatureBlock.part = .ok parts ∧ raws = parts.map blockBytes ∧
      blocks.map PqSignatureBlock.received = parts.map PqSignatureBlock.ofPart ∧
      ∀ x ∈ parts, x.2.length ≤ 65535 := by
  induction blocks generalizing raws with
  | nil =>
      rw [List.mapM_nil, pure_eq_ok] at h
      refine ⟨[], rfl, h.symm, rfl, ?_⟩
      rintro x ⟨⟩
  | cons b rest ih =>
      obtain ⟨raw, tail, hraw, htail, rfl⟩ := mapM_ok_cons.mp h
      obtain ⟨sig, hsig, hlen, rfl⟩ := serializePqBlock_ok.mp hraw
      obtain ⟨parts, hparts, rfl, hreceived, hlens⟩ := ih htail
      have hpart : b.part = .ok (b.algorithm, sig) := by
        unfold PqSignatureBlock.part
        rw [hsig]
        rfl
      refine ⟨(b.algorithm, sig) :: parts, mapM_ok_cons.mpr ⟨_, _, hpart, hparts, rfl⟩, rfl, ?_, ?_⟩
      · rw [List.map_cons, List.map_cons, hreceived, received_of_part hpart]
      · rintro x (_ | ⟨_, hx⟩)
        · exact hlen
        · exact hlens x hx

/-- A signature, blocks, and the multisignature behind its mark. -/
def SignatureParts.tagged (p : SignatureParts) : Bytes :=
  p.first.getD [] ++ ((p.blocks.map blockBytes).flatten ++
    if p.multi.isEmpty then [] else 0xff :: p.multi.flatten)

/-- The parts of the tagged layout that can be written. -/
structure SignatureParts.Writable (p : SignatureParts) : Prop where
  first : ∀ s ∈ p.first, s.length = 64
  blocks : ∀ b ∈ p.blocks, b.1 ≠ 0xff ∧ b.2.length ≤ 65535
  multi : ∀ s ∈ p.multi, s.length = 65
  second : p.second = none

theorem deserializePq_run {u : Transaction} {p : SignatureParts} (h : p.Writable)
    (hfirst : p.first.isSome) :
    deserializeSignaturesV3 (u.withSignatures {}) p.tagged =
      .ok (u.withSignatures p.fields, []) := by
  obtain ⟨first, second, blocks, multi⟩ := p
  obtain ⟨hwidth, hblocks, hmulti, hsecond⟩ := h
  obtain ⟨s, rfl⟩ := Option.isSome_iff_exists.mp hfirst
  dsimp only at hwidth hblocks hmulti hsecond
  subst hsecond
  let tail : Bytes := if multi.isEmpty then [] else 0xff :: multi.flatten
  have hpos : ¬ (s ++ ((blocks.map blockBytes).flatten ++ tail)).length = 0 := by
    rw [List.length_append, hwidth s rfl]
    omega
  have hwritten : (blocks.map PqSignatureBlock.ofPart).mapM serializePqBlock =
      .ok (blocks.map blockBytes) :=
    mapM_map_ok fun b hb => serializePqBlock_ofPart (hblocks b hb).2
  have hmark : ∀ b ∈ blocks.map PqSignatureBlock.ofPart, b.algorithm ≠ 0xff := by
    intro b hb
    obtain ⟨c, hc, rfl⟩ := List.mem_map.mp hb
    exact (hblocks c hc).1
  have htail : tail = [] ∨ tail[0]? = some 0xff := by
    unfold tail
    cases multi with
    | nil => exact .inl rfl
    | cons => exact .inr rfl
  have hfuel : (blocks.map blockBytes).flatten.length ≤
      ((blocks.map blockBytes).flatten ++ tail).length := by
    rw [List.length_append]
    omega
  have hread := readPqBlocks_run hwritten hmark htail hfuel
  rw [List.map_map, received_comp_ofPart] at hread
  change deserializeSignaturesV3 _ (s ++ ((blocks.map blockBytes).flatten ++ tail)) = _
  unfold deserializeSignaturesV3
  rw [Reader.bind_remaining, if_neg hpos, Reader.bind_run ((Reads.hex (hwidth s rfl)) _),
    Reader.bind_remaining, Reader.bind_run hread]
  dsimp only
  rw [Reader.bind_remaining]
  have hlast := flatten_length_of_width hmulti
  cases multi with
  | nil => cases blocks <;> rfl
  | cons m rest =>
      have hmod : ¬ (m :: rest).flatten.length % 65 ≠ 0 := by
        rw [hlast]
        omega
      have hdiv : (m :: rest).flatten.length / 65 = (m :: rest).length := by
        rw [hlast]
        omega
      have hsplit : tail = 0xff :: (m :: rest).flatten := rfl
      rw [hsplit, if_neg (by simp), Reader.bind_run (Reader.u8_ok.mpr rfl), Reader.bind_remaining,
        if_neg hmod, hdiv, Reader.bind_run (Reads.pieces hmulti).run]
      cases blocks <;> rfl

theorem deserializePq_layout {tx : Transaction} {blocks : List PqSignatureBlock}
    {raws : List Bytes} {first last : Bytes} (h : PqLayout first last)
    (hblocks : blocks.mapM serializePqBlock = .ok raws)
    (hmark : ∀ b ∈ blocks, b.algorithm ≠ 0xff) (hlast : last = [] ∨ last[0]? = some 0xff) :
    ∃ g, deserializeSignaturesV3 (tx.withSignatures {}) (first ++ raws.flatten ++ last) =
      .ok (tx.withSignatures g, []) ∧ g.signature = some (Hex.encode first) ∧
      g.secondSignature = none ∧
      g.secondSignatures.getD [] = blocks.map PqSignatureBlock.received ∧
      ∃ parts, (g.signatures.getD []).mapM Hex.decode = .ok parts ∧
        last = if parts.isEmpty then [] else 0xff :: parts.flatten := by
  obtain ⟨hfirst, hparts⟩ := h
  obtain ⟨parts, -, rfl, hreceived, hlens⟩ := exists_parts_of_blocks hblocks
  obtain ⟨multi, hmulti, hwidth⟩ : ∃ multi : List Bytes,
      last = (if multi.isEmpty then [] else 0xff :: multi.flatten) ∧ ∀ s ∈ multi, s.length = 65 := by
    rcases hparts with rfl | ⟨n, hn⟩
    · refine ⟨[], rfl, ?_⟩
      rintro s ⟨⟩
    · cases last with
      | nil => simp at hn
      | cons mark tail =>
          obtain rfl : mark = 0xff := by simpa using hlast
          have hsize : tail.length = 65 * (n + 1) := by simpa using hn
          obtain ⟨pieces, hcount, hwidth, rfl⟩ := exists_pieces _ hsize
          refine ⟨pieces, ?_, hwidth⟩
          cases pieces with
          | nil => simp at hcount
          | cons => rfl
  have hmarks : ∀ x ∈ parts, x.1 ≠ 0xff := by
    intro x hx
    have hin := List.mem_map_of_mem (f := PqSignatureBlock.ofPart) hx
    rw [← hreceived] at hin
    obtain ⟨b, hb, heq⟩ := List.mem_map.mp hin
    have halgorithm : b.algorithm = x.1 := congrArg PqSignatureBlock.algorithm heq
    rw [← halgorithm]
    exact hmark b hb
  let p : SignatureParts := { first := some first, blocks := parts, multi }
  have hwritable : p.Writable := by
    refine ⟨?_, fun x hx => ⟨hmarks x hx, hlens x hx⟩, hwidth, rfl⟩
    rintro s ⟨⟩
    exact hfirst
  refine ⟨p.fields, ?_, rfl, rfl, ?_, multi, ?_, hmulti⟩
  · rw [hmulti, List.append_assoc]
    exact deserializePq_run hwritable rfl
  · rw [hreceived]
    cases parts <;> rfl
  · cases multi with
    | nil => rfl
    | cons s rest => exact mapM_decode_encode (s :: rest)

/-- What the reader finds in a section that it can tell apart. -/
structure SignaturesRead (tx u : Transaction) (first middle last : Bytes) (g : SignatureFields) :
    Prop where
  reads : deserializeSignatures (u.withSignatures {}) (first ++ middle ++ last) =
    .ok (u.withSignatures g, [])
  sections : Sections (u.withSignatures g) first middle last
  signature : g.signature = some (Hex.encode first)
  second : tx.isPq → g.secondSignature = none
  blocks : tx.isPq → g.secondSignatures.getD [] = tx.pqBlocks.map PqSignatureBlock.received

theorem exists_signaturesRead {tx u : Transaction} {first middle last : Bytes}
    (h : Sections tx first middle last) (hread : SignaturesReadable tx)
    (hversion : u.isPq = tx.isPq) (hmark : tx.isPq → ∀ b ∈ tx.pqBlocks, b.algorithm ≠ 0xff) :
    ∃ g, SignaturesRead tx u first middle last g := by
  have hlayout := hread first middle last h
  have hpqOf : ∀ g, (u.withSignatures g).isPq = tx.isPq := fun _ => hversion
  cases hpq : tx.isPq with
  | true =>
      have hmiddle := h.middle
      simp only [hpq, if_true] at hlayout hmiddle
      obtain ⟨raws, hraws, rfl⟩ := hmiddle
      obtain ⟨parts, -, hlast⟩ := h.last
      have hstart : last = [] ∨ last[0]? = some 0xff := by
        rw [hlast, hpq]
        cases parts with
        | nil => exact .inl rfl
        | cons p rest => exact .inr rfl
      obtain ⟨g, hreads, hfirst, hsecond, hblocks, parts', hparts, hlast'⟩ :=
        @deserializePq_layout u tx.pqBlocks raws first last hlayout hraws (hmark hpq) hstart
      refine ⟨g, ?_, ⟨?_, ?_, parts', hparts, ?_⟩, hfirst, fun _ => hsecond, fun _ => hblocks⟩
      · unfold deserializeSignatures
        rw [hpqOf, hpq]
        exact hreads
      · have hsig : (u.withSignatures g).signature = some (Hex.encode first) := hfirst
        rw [hsig]
        exact Hex.decode_encode first
      · rw [hpqOf, hpq]
        refine ⟨raws, ?_, rfl⟩
        have hfield : (u.withSignatures g).pqBlocks = tx.pqBlocks.map PqSignatureBlock.received :=
          hblocks
        rw [hfield]
        exact mapM_serializePqBlock_received hraws
      · rw [hpqOf, hpq, hlast']
        cases parts' <;> rfl
  | false =>
      simp only [hpq, Bool.false_eq_true, if_false] at hlayout
      have hfound : ∃ g, deserializeSignatures (u.withSignatures {}) (first ++ middle ++ last) =
          .ok (u.withSignatures g, []) ∧ FieldsOf g first middle last := by
        unfold deserializeSignatures
        rw [hpqOf, hpq, if_neg (by decide), Reader.bind_remaining]
        rcases hlayout with hlayout | hlayout
        · rw [if_pos (detectSchnorr_of_layout hlayout)]
          exact deserializeSchnorr_layout hlayout
        · have hother : ¬ detectSchnorr (first ++ middle ++ last).length = true := by
            obtain ⟨hdetect, rfl, -⟩ := hlayout
            rw [List.append_nil, List.length_append, hdetect]
            decide
          rw [if_neg hother]
          exact deserializeDer_layout hlayout
      have hclassic : ¬ tx.isPq = true := by
        rw [hpq]
        decide
      obtain ⟨g, hreads, hfields⟩ := hfound
      refine ⟨g, hreads, ⟨?_, ?_, ?_⟩, hfields.first, fun htrue => absurd htrue hclassic,
        fun htrue => absurd htrue hclassic⟩
      · have hsig : (u.withSignatures g).signature = some (Hex.encode first) := hfields.first
        rw [hsig]
        exact Hex.decode_encode first
      · rw [hpqOf, hpq]
        have hany : (u.withSignatures g).secondSignatureAny = g.secondSignature := Option.or_none
        rw [hany]
        exact hfields.middle
      · obtain ⟨parts, hparts, hlast⟩ := hfields.last
        refine ⟨parts, hparts, ?_⟩
        rw [hpqOf, hpq]
        exact hlast

end SthCore
