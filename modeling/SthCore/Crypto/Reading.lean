import SthCore.Crypto.BlockSerializer
import SthCore.Crypto.Codec

/-!
What a reader accepts is what the writer of the same field writes.  A header
that is read back re-encodes to the bytes it was read from.
-/

namespace SthCore

open SthCore.Lib

theorem leBytes_ofLeBytes (bytes : Bytes) : leBytes bytes.length (ofLeBytes bytes) = bytes := by
  induction bytes with
  | nil => rfl
  | cons b rest ih =>
      have hb := b.toNat_lt
      have hdiv : (b.toNat + 256 * ofLeBytes rest) / 256 = ofLeBytes rest := by omega
      rw [List.length_cons, leBytes, ofLeBytes, hdiv, ih]
      congr 1
      apply UInt8.toNat_inj.mp
      rw [UInt8.toNat_ofNat']
      omega

theorem ofLeBytes_lt (bytes : Bytes) : ofLeBytes bytes < 256 ^ bytes.length := by
  induction bytes with
  | nil => simp [ofLeBytes]
  | cons b rest ih =>
      have hb := b.toNat_lt
      rw [ofLeBytes, List.length_cons, pow_succ]
      omega

namespace Reader

variable {α β : Type} {input rest : Bytes}

theorem bind_ok {r : Reader α} {f : α → Reader β} {b : β} :
    (r >>= f) input = .ok (b, rest) ↔
      ∃ a mid, r input = .ok (a, mid) ∧ f a mid = .ok (b, rest) := by
  change (r input >>= fun p => f p.1 p.2) = _ ↔ _
  rw [bind_eq_ok]
  simp

theorem pure_ok {a b : α} : (pure a : Reader α) input = .ok (b, rest) ↔ a = b ∧ input = rest := by
  change (pure (a, input) : Except Error (α × Bytes)) = _ ↔ _
  rw [pure_eq_ok, Prod.mk.injEq]

theorem bytes_ok {n : Nat} {x : Bytes} :
    bytes n input = .ok (x, rest) ↔ input = x ++ rest ∧ x.length = n := by
  unfold bytes
  constructor
  · intro h
    split_ifs at h with hshort
    injection h with h
    injection h with hx hrest
    subst hx hrest
    refine ⟨(List.take_append_drop n input).symm, ?_⟩
    rw [List.length_take]
    omega
  · rintro ⟨rfl, rfl⟩
    simp

theorem hex_ok {n : Nat} {text : Text} :
    hex n input = .ok (text, rest) ↔
      ∃ x, text = Hex.encode x ∧ input = x ++ rest ∧ x.length = n := by
  unfold hex
  rw [bind_ok]
  constructor
  · rintro ⟨x, mid, hx, h⟩
    obtain ⟨htext, rfl⟩ := pure_ok.mp h
    exact ⟨x, htext.symm, bytes_ok.mp hx⟩
  · rintro ⟨x, rfl, hx⟩
    exact ⟨x, rest, bytes_ok.mpr hx, pure_ok.mpr ⟨rfl, rfl⟩⟩

theorem u8_ok {v : UInt8} : u8 input = .ok (v, rest) ↔ input = v :: rest := by
  unfold u8
  rw [bind_ok]
  constructor
  · rintro ⟨x, mid, hx, h⟩
    obtain ⟨hv, rfl⟩ := pure_ok.mp h
    obtain ⟨rfl, hlength⟩ := bytes_ok.mp hx
    obtain ⟨b, rfl⟩ := List.length_eq_one_iff.mp hlength
    rw [← hv]
    rfl
  · rintro rfl
    exact ⟨[v], rest, bytes_ok.mpr ⟨rfl, rfl⟩, pure_ok.mpr ⟨rfl, rfl⟩⟩

/-- A number of a fixed width, whatever its type. -/
theorem number_ok {γ : Type} {width : Nat} {ofNat : Nat → γ} {toNat : γ → Nat}
    (hof : ∀ v, ofNat (toNat v) = v) (hto : ∀ n < 256 ^ width, toNat (ofNat n) = n)
    (hlt : ∀ v, toNat v < 256 ^ width) {v : γ} :
    (do return ofNat (ofLeBytes (← bytes width)) : Reader γ) input = .ok (v, rest) ↔
      input = leBytes width (toNat v) ++ rest := by
  rw [bind_ok]
  constructor
  · rintro ⟨x, mid, hx, h⟩
    obtain ⟨rfl, rfl⟩ := pure_ok.mp h
    obtain ⟨rfl, hlength⟩ := bytes_ok.mp hx
    rw [hto _ (hlength ▸ ofLeBytes_lt x), ← hlength, leBytes_ofLeBytes]
  · rintro rfl
    refine ⟨_, rest, bytes_ok.mpr ⟨rfl, leBytes_length width _⟩, pure_ok.mpr ⟨?_, rfl⟩⟩
    rw [ofLeBytes_leBytes, Nat.mod_eq_of_lt (hlt v), hof]

theorem u16_ok {v : UInt16} : u16 input = .ok (v, rest) ↔ input = u16le v ++ rest :=
  number_ok (fun _ => UInt16.ofNat_toNat) (fun _ h => UInt16.toNat_ofNat_of_lt' h)
    fun v => v.toNat_lt

theorem u32_ok {v : UInt32} : u32 input = .ok (v, rest) ↔ input = u32le v ++ rest :=
  number_ok (fun _ => UInt32.ofNat_toNat) (fun _ h => UInt32.toNat_ofNat_of_lt' h)
    fun v => v.toNat_lt

theorem u64_ok {v : UInt64} : u64 input = .ok (v, rest) ↔ input = u64le v ++ rest :=
  number_ok (fun _ => UInt64.ofNat_toNat) (fun _ h => UInt64.toNat_ofNat_of_lt' h)
    fun v => v.toNat_lt

theorem remaining_ok {n : Nat} :
    remaining input = .ok (n, rest) ↔ n = input.length ∧ rest = input := by
  unfold remaining
  constructor
  · intro h
    injection h with h
    injection h with hn hrest
    exact ⟨hn.symm, hrest.symm⟩
  · rintro ⟨rfl, rfl⟩
    rfl

theorem peek_ok {ahead : Nat} {b : Option UInt8} :
    peek ahead input = .ok (b, rest) ↔ b = input[ahead]? ∧ rest = input := by
  unfold peek
  constructor
  · intro h
    injection h with h
    injection h with hb hrest
    exact ⟨hb.symm, hrest.symm⟩
  · rintro ⟨rfl, rfl⟩
    rfl

theorem map_ok {f : α → β} {r : Reader α} {b : β} :
    (f <$> r) input = .ok (b, rest) ↔ ∃ a, r input = .ok (a, rest) ∧ f a = b := by
  rw [map_eq_pure_bind, bind_ok]
  constructor
  · rintro ⟨a, mid, ha, h⟩
    obtain ⟨hb, rfl⟩ := pure_ok.mp h
    exact ⟨a, ha, hb⟩
  · rintro ⟨a, ha, rfl⟩
    exact ⟨a, rest, ha, pure_ok.mpr ⟨rfl, rfl⟩⟩

theorem fail_ok {message : String} {a : α} :
    ¬ (fail message : Reader α) input = .ok (a, rest) := by
  unfold fail
  intro h
  cases h

theorem readDer_ok {text : Text} (h : readDer input = .ok (text, rest)) :
    ∃ x, text = Hex.encode x ∧ input = x ++ rest := by
  unfold readDer at h
  obtain ⟨b, mid, hpeek, h⟩ := bind_ok.mp h
  obtain ⟨-, rfl⟩ := peek_ok.mp hpeek
  cases b with
  | none => exact absurd h fail_ok
  | some l =>
      obtain ⟨x, htext, hinput, -⟩ := hex_ok.mp h
      exact ⟨x, htext, hinput⟩

end Reader

theorem u32le_injective : Function.Injective u32le := by
  intro x y h
  have hx : Reader.u32 (u32le x ++ []) = .ok (x, []) := Reader.u32_ok.mpr rfl
  have hy : Reader.u32 (u32le y ++ []) = .ok (y, []) := Reader.u32_ok.mpr rfl
  rw [h, hy] at hx
  injection hx with hx
  exact (congrArg Prod.fst hx).symm

theorem utf8ByteSize_eq (t : Text) : t.utf8ByteSize = (utf8Bytes t).length := by
  rw [Text.utf8ByteSize, utf8Bytes, Text.utf8Bytes, List.length_flatMap]
  congr 2
  funext c
  exact (String.length_utf8EncodeChar c).symm

theorem Hex.utf8ByteSize_encode (bytes : Bytes) :
    (Hex.encode bytes).utf8ByteSize = 2 * bytes.length := by
  rw [utf8ByteSize_eq, Hex.utf8Bytes_length (Hex.decode_encode bytes)]

/-- The bytes of a hybrid signature. -/
def pqBytes (pq : Option (UInt8 × Bytes)) : Bytes :=
  match pq with
  | none => []
  | some (algorithm, sig) => algorithm :: u16le (UInt16.ofNat sig.length) ++ sig

/-- The fields of a header in bytes. -/
structure HeaderBytes where
  version : UInt32
  timestamp : UInt32
  height : UInt32
  previous : Bytes
  numberOfTransactions : UInt32
  totalAmount : UInt64
  totalFee : UInt64
  reward : UInt64
  payloadLength : UInt32
  payloadHash : Bytes
  generator : Bytes
  signature : Option Bytes
  pq : Option (UInt8 × Bytes)

namespace HeaderBytes

/-- The header with its byte strings in hex. -/
def toBlock (f : HeaderBytes) : Block where
  version := f.version
  timestamp := f.timestamp
  previousBlock := Hex.encode f.previous
  height := f.height.toNat
  numberOfTransactions := f.numberOfTransactions
  totalAmount := f.totalAmount
  totalFee := f.totalFee
  reward := f.reward
  payloadLength := f.payloadLength
  payloadHash := Hex.encode f.payloadHash
  generatorPublicKey := Hex.encode f.generator
  blockSignature := f.signature.map Hex.encode
  pqSignature := f.pq.map fun p => { algorithm := p.1, signature := Hex.encode p.2 }

def raw (f : HeaderBytes) : Bytes :=
  u32le f.version ++ u32le f.timestamp ++ u32le f.height ++ f.previous ++
    u32le f.numberOfTransactions ++ u64le f.totalAmount ++ u64le f.totalFee ++ u64le f.reward ++
    u32le f.payloadLength ++ f.payloadHash ++ f.generator ++ f.signature.getD [] ++ pqBytes f.pq

theorem serializeBlock_toBlock (f : HeaderBytes) (hprevious : f.previous.length = 32)
    (hpq : f.pq.isSome → f.version ≥ blockVersionPq) :
    serializeBlock f.toBlock true = .ok f.raw := by
  have hsize : (Hex.encode f.previous).utf8ByteSize = 64 := by
    rw [Hex.utf8ByteSize_encode, hprevious]
  unfold serializeBlock serializeBlockParts toBlock raw
  simp only [hsize, Hex.decode_encode, ne_eq, not_true_eq_false, if_false]
  cases hsig : f.signature with
  | none =>
      cases hfpq : f.pq with
      | none => simp [pqBytes, bind, Except.bind, pure, Except.pure]
      | some p =>
          have hversion := hpq (by simp [hfpq])
          simp [pqBytes, hversion, Hex.decode_encode, bind, Except.bind, pure, Except.pure]
  | some sig =>
      cases hfpq : f.pq with
      | none => simp [pqBytes, Hex.decode_encode, bind, Except.bind, pure, Except.pure]
      | some p =>
          have hversion := hpq (by simp [hfpq])
          simp [pqBytes, hversion, Hex.decode_encode, bind, Except.bind, pure, Except.pure]

end HeaderBytes

open Reader

/-- The optional signature of a header. -/
theorem readSignature_ok {β : Type} {input last : Bytes} {k : Option Text → Reader β} {b : β}
    (h : (do
      let left ← remaining
      let blockSignature ← if left ≥ 2 then some <$> readDer else pure none
      k blockSignature : Reader β) input = .ok (b, last)) :
    ∃ (sig : Option Bytes) (rest : Bytes), input = sig.getD [] ++ rest ∧
      k (sig.map Hex.encode) rest = .ok (b, last) := by
  obtain ⟨left, mid, hleft, h⟩ := bind_ok.mp h
  obtain ⟨rfl, rfl⟩ := remaining_ok.mp hleft
  split_ifs at h
  · obtain ⟨sig, rest, hsig, h⟩ := bind_ok.mp h
    obtain ⟨text, hder, rfl⟩ := map_ok.mp hsig
    obtain ⟨x, rfl, hinput⟩ := readDer_ok hder
    exact ⟨some x, rest, hinput, h⟩
  · obtain ⟨sig, rest, hsig, h⟩ := bind_ok.mp h
    obtain ⟨rfl, rfl⟩ := pure_ok.mp hsig
    exact ⟨none, mid, rfl, h⟩

/-- The optional hybrid signature of a header, up to its last byte. -/
theorem readPqSignature_ok {input last : Bytes} {version : UInt32} {b : Block} {message : Nat → String}
    {k : Option PqSignatureBlock → Block}
    (h : (do
      let left ← remaining
      let pqSignature ←
        if version ≥ blockVersionPq ∧ left ≥ 3 then do
          let algorithm ← u8
          let len := (← u16).toNat
          let signature ← hex len
          pure (some { algorithm, signature : PqSignatureBlock })
        else pure none
      let left ← remaining
      if left > 0 then fail (message left) else return k pqSignature : Reader Block) input =
        .ok (b, last)) :
    ∃ pq : Option (UInt8 × Bytes), input = pqBytes pq ∧
      (pq.isSome → version ≥ blockVersionPq) ∧
      b = k (pq.map fun p => { algorithm := p.1, signature := Hex.encode p.2 }) := by
  have hend : ∀ (pq : Option PqSignatureBlock) (rest : Bytes), (do
      let left ← remaining
      if left > 0 then fail (message left) else return k pq : Reader Block) rest =
        .ok (b, last) → rest = [] ∧ b = k pq := by
    intro pq rest h
    obtain ⟨left, mid, hleft, h⟩ := bind_ok.mp h
    obtain ⟨rfl, rfl⟩ := remaining_ok.mp hleft
    split_ifs at h with hmore
    · exact absurd h fail_ok
    · obtain ⟨rfl, -⟩ := pure_ok.mp h
      exact ⟨List.eq_nil_of_length_eq_zero (by omega), rfl⟩
  obtain ⟨left, mid, hleft, h⟩ := bind_ok.mp h
  obtain ⟨rfl, rfl⟩ := remaining_ok.mp hleft
  split_ifs at h with hversion
  · obtain ⟨algorithm, in1, halgorithm, h⟩ := bind_ok.mp h
    obtain ⟨len, in2, hlen, h⟩ := bind_ok.mp h
    obtain ⟨signature, in3, hsignature, h⟩ := bind_ok.mp h
    obtain ⟨pq, in4, hpq, h⟩ := bind_ok.mp h
    obtain ⟨rfl, rfl⟩ := pure_ok.mp hpq
    obtain ⟨rfl, rfl⟩ := hend _ _ h
    obtain ⟨x, rfl, hin2, hlength⟩ := hex_ok.mp hsignature
    rw [u8_ok] at halgorithm
    rw [u16_ok] at hlen
    refine ⟨some (algorithm, x), ?_, fun _ => hversion.1, rfl⟩
    rw [halgorithm, hlen, hin2, pqBytes, hlength, UInt16.ofNat_toNat]
    simp
  · obtain ⟨pq, in1, hpq, h⟩ := bind_ok.mp h
    obtain ⟨rfl, rfl⟩ := pure_ok.mp hpq
    obtain ⟨rfl, rfl⟩ := hend _ _ h
    exact ⟨none, rfl, by simp, rfl⟩

/-- A header that is read back, field by field. -/
theorem deserializeBlockHeader_ok {P : Primitives} {network : Network} {raw : Bytes} {b : Block}
    (h : deserializeBlockHeader P network raw = .ok b) :
    ∃ (f : HeaderBytes) (id : Text), f.raw = raw ∧ f.previous.length = 32 ∧
      f.payloadHash.length = 32 ∧ f.generator.length = 33 ∧
      (f.pq.isSome → f.version ≥ blockVersionPq) ∧
      (if f.height.toNat = 1 then .ok network.genesisBlockId else blockId P f.toBlock) = .ok id ∧
      b = { f.toBlock with id := some id } := by
  unfold deserializeBlockHeader at h
  simp only at h
  obtain ⟨⟨hdr, last⟩, hparse, h⟩ := bind_eq_ok.mp h
  have hid : ∃ id, (if hdr.height = 1 then .ok network.genesisBlockId else blockId P hdr) =
      .ok id ∧ { hdr with id := some id } = b := by
    split_ifs at h with hfirst
    · obtain ⟨id, hid, h⟩ := bind_eq_ok.mp h
      exact ⟨id, by rw [if_pos hfirst, hid], pure_eq_ok.mp h⟩
    · obtain ⟨id, hid, h⟩ := bind_eq_ok.mp h
      exact ⟨id, by rw [if_neg hfirst, hid], pure_eq_ok.mp h⟩
  obtain ⟨id, hid, hb⟩ := hid
  obtain ⟨version, in1, hversion, hparse⟩ := bind_ok.mp hparse
  obtain ⟨timestamp, in2, htimestamp, hparse⟩ := bind_ok.mp hparse
  obtain ⟨height, in3, hheight, hparse⟩ := bind_ok.mp hparse
  obtain ⟨previous, in4, hprevious, hparse⟩ := bind_ok.mp hparse
  obtain ⟨count, in5, hcount, hparse⟩ := bind_ok.mp hparse
  obtain ⟨amount, in6, hamount, hparse⟩ := bind_ok.mp hparse
  obtain ⟨fee, in7, hfee, hparse⟩ := bind_ok.mp hparse
  obtain ⟨reward, in8, hreward, hparse⟩ := bind_ok.mp hparse
  obtain ⟨payloadLength, in9, hpayloadLength, hparse⟩ := bind_ok.mp hparse
  obtain ⟨payloadHash, in10, hpayloadHash, hparse⟩ := bind_ok.mp hparse
  obtain ⟨generator, in11, hgenerator, hparse⟩ := bind_ok.mp hparse
  rw [u32_ok] at hversion htimestamp hheight hcount hpayloadLength
  rw [u64_ok] at hamount hfee hreward
  obtain ⟨prev, rfl, hin3, hprev⟩ := hex_ok.mp hprevious
  obtain ⟨payload, rfl, hin9, hpayload⟩ := hex_ok.mp hpayloadHash
  obtain ⟨gen, rfl, hin10, hgen⟩ := hex_ok.mp hgenerator
  obtain ⟨sig, in12, hin11, hparse⟩ := readSignature_ok hparse
  obtain ⟨pq, hin12, hpq, rfl⟩ := readPqSignature_ok hparse
  refine ⟨⟨version, timestamp, height, prev, count, amount, fee, reward, payloadLength, payload,
    gen, sig, pq⟩, id, ?_, hprev, hpayload, hgen, hpq, hid, hb.symm⟩
  rw [hversion, htimestamp, hheight, hin3, hcount, hamount, hfee, hreward, hpayloadLength, hin9,
    hin10, hin11, hin12]
  simp only [HeaderBytes.raw, List.append_assoc]

/-- The bytes of a header begin with version, time, height and parent. -/
theorem serializeBlock_layout {c : Block} {sig : Bool} {raw : Bytes}
    (h : serializeBlock c sig = .ok raw) :
    ∃ previous rest, Hex.decode c.previousBlock = .ok previous ∧ previous.length = 32 ∧
      raw = u32le c.version ++ (u32le c.timestamp ++ (u32le (UInt32.ofNat c.height) ++
        (previous ++ rest))) := by
  unfold serializeBlock serializeBlockParts at h
  simp only [throw_bind, ite_error_eq_ok, not_not] at h
  obtain ⟨hsize, h⟩ := h
  obtain ⟨previous, hprevious, h⟩ := bind_eq_ok.mp h
  obtain ⟨payload, -, h⟩ := bind_eq_ok.mp h
  obtain ⟨generator, -, h⟩ := bind_eq_ok.mp h
  have hlength : previous.length = 32 := by
    have hdouble := Hex.utf8Bytes_length hprevious
    rw [← utf8ByteSize_eq, hsize] at hdouble
    omega
  have hend : ∀ signature pq : Bytes, (pure (u32le c.version ++ u32le c.timestamp ++
      u32le (UInt32.ofNat c.height) ++ previous ++ u32le c.numberOfTransactions ++
      u64le c.totalAmount ++ u64le c.totalFee ++ u64le c.reward ++ u32le c.payloadLength ++
      payload ++ generator ++ signature ++ pq) : Except Error Bytes) = .ok raw →
      ∃ rest, raw = u32le c.version ++ (u32le c.timestamp ++ (u32le (UInt32.ofNat c.height) ++
        (previous ++ rest))) := by
    intro signature pq hraw
    rw [pure_eq_ok] at hraw
    rw [← hraw]
    simp only [List.append_assoc]
    exact ⟨_, rfl⟩
  have hrest : ∃ rest, raw = u32le c.version ++ (u32le c.timestamp ++
      (u32le (UInt32.ofNat c.height) ++ (previous ++ rest))) := by
    split at h
    · obtain ⟨signature, -, h⟩ := bind_eq_ok.mp h
      split at h
      · obtain ⟨sig, -, h⟩ := bind_eq_ok.mp h
        exact hend _ _ h
      · exact hend _ _ h
    · obtain ⟨signature, -, h⟩ := bind_eq_ok.mp h
      split at h
      · obtain ⟨sig, -, h⟩ := bind_eq_ok.mp h
        exact hend _ _ h
      · exact hend _ _ h
  obtain ⟨rest, hraw⟩ := hrest
  exact ⟨previous, rest, hprevious, hlength, hraw⟩

/-- What a stored record says about the block it was written from. -/
theorem decodeBlock_encodeBlock {E : Env} {c b : Block} {record : List Bytes}
    (hencode : encodeBlock E c = .ok record) (hdecode : decodeBlock E record = .ok b) :
    b.timestamp = c.timestamp ∧ b.previousBlock = c.previousBlock.toLower ∧
    ∃ id, b.id = some id ∧
      (if c.height % 2 ^ 32 = 1 then .ok E.network.genesisBlockId else blockId E.prim c) =
        .ok id := by
  obtain ⟨raw, hraw, hencode⟩ := bind_eq_ok.mp hencode
  obtain ⟨txs, -, hencode⟩ := bind_eq_ok.mp hencode
  rw [pure_eq_ok] at hencode
  subst hencode
  obtain ⟨header, hheader, hdecode⟩ := bind_eq_ok.mp hdecode
  obtain ⟨parsed, -, hdecode⟩ := bind_eq_ok.mp hdecode
  rw [pure_eq_ok] at hdecode
  subst hdecode
  obtain ⟨f, id, hf, hprevious, -, -, hpq, hid, rfl⟩ := deserializeBlockHeader_ok hheader
  obtain ⟨previous, rest, hdecoded, hlength, hlayout⟩ := serializeBlock_layout hraw
  have hbytes := f.serializeBlock_toBlock hprevious hpq
  rw [hf] at hbytes
  have hsame := hf.trans hlayout
  simp only [HeaderBytes.raw, List.append_assoc] at hsame
  obtain ⟨-, hsame⟩ := List.append_inj hsame (by simp [u32le, leBytes_length])
  obtain ⟨hstamp, hsame⟩ := List.append_inj hsame (by simp [u32le, leBytes_length])
  obtain ⟨hheight, hsame⟩ := List.append_inj hsame (by simp [u32le, leBytes_length])
  obtain ⟨hparent, -⟩ := List.append_inj hsame (by rw [hprevious, hlength])
  refine ⟨u32le_injective hstamp, ?_, ?_⟩
  · change Hex.encode f.previous = _
    rw [hparent, Hex.encode_of_decode hdecoded]
  · refine ⟨id, rfl, ?_⟩
    have hnumber : f.height.toNat = c.height % 2 ^ 32 := by
      rw [u32le_injective hheight, UInt32.toNat_ofNat']
    have hids : blockId E.prim f.toBlock = blockId E.prim c := by
      unfold blockId
      rw [hbytes, hraw]
    rw [← hnumber, ← hids]
    exact hid

end SthCore
