import SthCore.Crypto.Sections

/-!
A block header as it is read back from its bytes.
-/

namespace SthCore

open SthCore.Lib Reader

/-- The header as it is read: hex in lower case, no id and no transactions. -/
def Block.wireHeader (b : Block) : Block :=
  { b with
    id := none
    previousBlock := b.previousBlock.toLower
    payloadHash := b.payloadHash.toLower
    generatorPublicKey := b.generatorPublicKey.toLower
    blockSignature := b.blockSignature.map Text.toLower
    pqSignature := b.pqSignature.map fun pq => { pq with signature := pq.signature.toLower }
    transactions := [] }

/-- The widths that the reader of a header goes by. -/
structure HeaderBytes.Readable (f : HeaderBytes) : Prop where
  previous : f.previous.length = 32
  payloadHash : f.payloadHash.length = 32
  generator : f.generator.length = 33
  signature : f.signature.any counted
  pq : f.pq.isSome → f.version ≥ blockVersionPq
  pqLength : ∀ p ∈ f.pq, p.2.length ≤ 65535

theorem two_le_of_counted {sig : Bytes} (h : counted sig) : 2 ≤ sig.length := by
  match sig, h with
  | _ :: _ :: _, _ => simp

theorem counted_length {sig : Bytes} (h : counted sig) : sig.length ≤ 257 := by
  match sig, h with
  | _ :: l :: rest, h =>
      have hrest : rest.length = l.toNat := by simpa [counted] using h
      have hl : l.toNat < 256 := l.toNat_lt
      simp only [List.length_cons]
      omega

theorem HeaderBytes.Readable.raw_length {f : HeaderBytes} (h : f.Readable) :
    f.raw.length < 2 ^ 32 := by
  obtain ⟨sig, hsig, hcounted⟩ := (Option.any_eq_true _ _).mp h.signature
  have hsigLength : (f.signature.getD []).length ≤ 257 := by
    rw [hsig]
    exact counted_length hcounted
  have hpqLength : (pqBytes f.pq).length ≤ 65538 := by
    cases hpq : f.pq with
    | none => simp [pqBytes]
    | some p =>
        have hp := h.pqLength p hpq
        simp only [pqBytes, List.cons_append, List.length_cons, List.length_append, u16le,
          leBytes_length]
        omega
  unfold HeaderBytes.raw
  simp only [List.length_append, u32le, u64le, leBytes_length, h.previous, h.payloadHash,
    h.generator]
  omega

/-- A header is read back from its bytes, with the id they have. -/
theorem HeaderBytes.deserialize_raw {P : Primitives} {network : Network} {f : HeaderBytes}
    {id : Text} (h : f.Readable)
    (hid : (if f.height.toNat = 1 then .ok network.genesisBlockId else blockId P f.toBlock) =
      .ok id) :
    deserializeBlockHeader P network f.raw = .ok { f.toBlock with id := some id } := by
  obtain ⟨sig, hsig, hcounted⟩ := (Option.any_eq_true _ _).mp h.signature
  have hpos : (sig ++ pqBytes f.pq).length ≥ 2 := by
    have htwo := two_le_of_counted hcounted
    rw [List.length_append]
    omega
  unfold deserializeBlockHeader
  simp only
  refine bind_eq_ok.mpr ⟨(f.toBlock, []), ?_, ?_⟩
  · simp only [HeaderBytes.raw, List.append_assoc]
    rw [Reader.bind_run (Reads.u32 _ _), Reader.bind_run (Reads.u32 _ _),
      Reader.bind_run (Reads.u32 _ _), Reader.bind_run (Reads.hex h.previous _),
      Reader.bind_run (Reads.u32 _ _), Reader.bind_run (Reads.u64 _ _),
      Reader.bind_run (Reads.u64 _ _), Reader.bind_run (Reads.u64 _ _),
      Reader.bind_run (Reads.u32 _ _), Reader.bind_run (Reads.hex h.payloadHash _),
      Reader.bind_run (Reads.hex h.generator _), hsig]
    have hder : (some <$> readDer) (sig ++ pqBytes f.pq) =
        .ok (some (Hex.encode sig), pqBytes f.pq) := ((Reads.der hcounted).map some) _
    rw [Option.getD_some, Reader.bind_remaining, if_pos hpos, Reader.bind_run hder]
    rw [Reader.bind_remaining]
    cases hpq : f.pq with
    | none =>
        rw [if_neg (by simp [pqBytes])]
        unfold HeaderBytes.toBlock
        rw [hsig, hpq]
        rfl
    | some p =>
        have hversion : f.version ≥ blockVersionPq := h.pq (by rw [hpq]; rfl)
        have hlength : p.2.length ≤ 65535 := h.pqLength p hpq
        have hbytes : pqBytes (some p) = [p.1] ++ (u16le (UInt16.ofNat p.2.length) ++ (p.2 ++ [])) := by
          rw [List.append_nil]
          rfl
        rw [hbytes, if_pos ⟨hversion, by simp [u16le, leBytes_length]⟩,
          Reader.bind_run (Reads.u8 p.1 _), Reader.bind_run (Reads.u16 _ _),
          toNat_ofNat_u16 hlength, Reader.bind_run (Reads.hex rfl _)]
        unfold HeaderBytes.toBlock
        rw [hsig, hpq]
        rfl
  · have hheight : f.toBlock.height = f.height.toNat := rfl
    simp only [hheight]
    split_ifs at hid ⊢ with hfirst
    · exact bind_eq_ok.mpr ⟨id, hid, rfl⟩
    · exact bind_eq_ok.mpr ⟨id, hid, rfl⟩

/-- What a header that was serialised looks like in bytes. -/
theorem exists_headerBytes {b : Block} {raw : Bytes} (h : serializeBlock b true = .ok raw)
    (hsignature : b.blockSignature.isSome)
    (hpq : b.pqSignature.isSome → b.version ≥ blockVersionPq) :
    ∃ f : HeaderBytes, f.raw = raw ∧ f.previous.length = 32 ∧
      f.toBlock = { b.wireHeader with height := b.height % 2 ^ 32 } := by
  obtain ⟨sig, hsig⟩ := Option.isSome_iff_exists.mp hsignature
  unfold serializeBlock serializeBlockParts at h
  simp only [throw_bind, ite_error_eq_ok, not_not, hsig] at h
  obtain ⟨hsize, h⟩ := h
  obtain ⟨previous, hprevious, h⟩ := bind_eq_ok.mp h
  obtain ⟨payloadHash, hpayloadHash, h⟩ := bind_eq_ok.mp h
  obtain ⟨generator, hgenerator, h⟩ := bind_eq_ok.mp h
  obtain ⟨signature, hdecoded, h⟩ := bind_eq_ok.mp h
  have hlength : previous.length = 32 := by
    have hdouble := Hex.utf8ByteSize_of_decode hprevious
    omega
  let f (pq : Option (UInt8 × Bytes)) : HeaderBytes :=
    { version := b.version, timestamp := b.timestamp, height := UInt32.ofNat b.height
      previous, numberOfTransactions := b.numberOfTransactions, totalAmount := b.totalAmount
      totalFee := b.totalFee, reward := b.reward, payloadLength := b.payloadLength
      payloadHash, generator, signature := some signature, pq }
  have hfields : ∀ pq : Option (UInt8 × Bytes),
      pq.map (fun p => { algorithm := p.1, signature := Hex.encode p.2 : PqSignatureBlock }) =
        b.wireHeader.pqSignature →
      (f pq).toBlock = { b.wireHeader with height := b.height % 2 ^ 32 } := by
    intro pq hsame
    unfold HeaderBytes.toBlock
    simp only [f, hsame, Hex.encode_of_decode hprevious, Hex.encode_of_decode hpayloadHash,
      Hex.encode_of_decode hgenerator, Option.map_some, Hex.encode_of_decode hdecoded,
      UInt32.toNat_ofNat']
    simp only [Block.wireHeader, hsig, Option.map_some]
  cases hblock : b.pqSignature with
  | none =>
      simp only [hblock, ok_bind, pure_eq_ok] at h
      exact ⟨f none, h, hlength, hfields none (by rw [Block.wireHeader, hblock]; rfl)⟩
  | some pq =>
      have hversion : b.version ≥ blockVersionPq := hpq (by rw [hblock]; rfl)
      simp only [hblock, hversion, decide_true, Bool.and_true] at h
      obtain ⟨x, hx, h⟩ := bind_eq_ok.mp h
      refine ⟨f (some (pq.algorithm, x)), Except.ok.inj h, hlength, hfields _ ?_⟩
      · rw [Block.wireHeader, hblock, Option.map_some, Option.map_some, Hex.encode_of_decode hx]

end SthCore
