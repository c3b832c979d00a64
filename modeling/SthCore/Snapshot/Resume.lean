import SthCore.Chain.Rooted
import SthCore.Snapshot.Import

/-!
What an import leaves behind: a linked chain, whatever the dump and however it
ends; and after any number of interruptions the store that one import leaves
that was never interrupted.
-/

namespace SthCore

open SthCore.Lib

namespace Snapshot

namespace Importer

variable {I : Importer} {o : ImportOptions} {cancel : Nat → Bool}

/-- A tip that the next block may be put on. -/
def TipOf (s : Store) (tip : Sync.ChainTip) : Prop :=
  s.lastHeight = 0 ∧ tip = ⟨0, none⟩ ∨ ∃ id, tip.id = some id ∧ (s.blockIds[id]?).isSome

/-- The import between two records. -/
structure Going (I : Importer) (p : Progress) : Prop where
  rooted : p.store.Rooted I.env
  received : ∀ b ∈ p.chunk, b.Received I.env ∧ 0 < b.height
  chain : p.chunk.IsChain Follows
  attached : ∀ first ∈ p.chunk.head?, Attached p.store first
  tip : ∀ last ∈ p.chunk.getLast?, p.tip = ⟨last.height, last.id⟩
  fresh : p.chunk = [] → TipOf p.store p.tip ∧
    ∀ tip, readTip I.env p.store = .ok tip → tip = p.tip

/-- The record of a block that is in the chain already. -/
def Behind (I : Importer) (tip : Sync.ChainTip) (record : Bytes) : Prop :=
  ∃ header, deserializeBlockHeader I.env.prim I.env.network record = .ok header ∧
    header.height ≤ tip.height

/-- The next block joins the chunk. -/
theorem Going.push {p : Progress} (h : Going I p) {header block : Block} {record : Bytes}
    (hheader : deserializeBlockHeader I.env.prim I.env.network record = .ok header)
    (hheight : header.height = p.tip.height + 1)
    (hparent : ∀ id, p.tip.id = some id → header.previousBlock = id)
    (hblock : block = { header with transactions := block.transactions }) :
    Going I (p.push block) := by
  unfold Progress.push
  have hreceived : block.Received I.env := ⟨record, header, hheader, hblock⟩
  have hnext : block.height = p.tip.height + 1 := by
    rw [hblock]
    exact hheight
  have hprevious : ∀ id, p.tip.id = some id → block.previousBlock = id := by
    rw [hblock]
    exact hparent
  refine ⟨h.rooted, ?_, ?_, ?_, ?_, fun hnil => absurd hnil (by simp)⟩
  · intro b hb
    rcases List.mem_append.mp hb with hb | hb
    · exact h.received b hb
    · rw [List.mem_singleton.mp hb]
      exact ⟨hreceived, by omega⟩
  · refine List.isChain_append.mpr ⟨h.chain, List.isChain_singleton _, ?_⟩
    intro last hlast first hfirst
    obtain rfl : block = first := by simpa using hfirst
    have htip := h.tip last hlast
    obtain ⟨id, hid⟩ := (h.received last (List.mem_of_getLast? hlast)).1.id_isSome
    rw [htip] at hnext hprevious
    exact ⟨hnext, by rw [hid, hprevious id hid]⟩
  · intro first hfirst
    cases hchunk : p.chunk with
    | cons b rest =>
        refine h.attached first ?_
        rw [hchunk] at hfirst ⊢
        exact hfirst
    | nil =>
        rw [hchunk] at hfirst
        obtain rfl : block = first := by simpa using hfirst
        obtain ⟨⟨hzero, htip⟩ | ⟨id, hid, hknown⟩, -⟩ := h.fresh hchunk
        · rw [htip] at hnext
          exact .inl ⟨hzero, hnext⟩
        · rw [← hprevious id hid] at hknown
          exact .inr hknown
  · intro last hlast
    obtain rfl : block = last := by simpa using hlast
    rfl

theorem applyChunk_cases (I : Importer) (o : ImportOptions) (p : Progress) :
    (∃ store e, I.commitChunk o p.store p.chunk = (store, .error e) ∧
      I.applyChunk o p = ({ p with store }, .error e)) ∨
    ∃ store, I.commitChunk o p.store p.chunk = (store, .ok ()) ∧
      I.applyChunk o p =
        ({ p with store, imported := p.imported + p.chunk.length, chunk := [] }, .ok ()) := by
  unfold applyChunk
  rcases I.commitChunk o p.store p.chunk with ⟨store, e | _⟩
  · exact .inl ⟨store, e, rfl, rfl⟩
  · exact .inr ⟨store, rfl, rfl⟩

/-- A chunk is applied, or it fails on the way. -/
theorem Going.commit {p : Progress} (h : Going I p) (hne : p.chunk ≠ [])
    (hgenesis : I.env.network.genesisBlockId.toLower = I.env.network.genesisBlockId) :
    (I.applyChunk o p).1.store.Rooted I.env ∧
    ((I.applyChunk o p).2 = .ok () → Going I (I.applyChunk o p).1) := by
  have hcommit : (I.commitChunk o p.store p.chunk).1.Rooted I.env ∧
      ((I.commitChunk o p.store p.chunk).2 = .ok () → ∀ last ∈ p.chunk.getLast?,
        (I.commitChunk o p.store p.chunk).1.TopIs I.env last) := by
    unfold commitChunk
    split
    · refine ⟨h.rooted, fun hok => ?_⟩
      cases hok
    · exact applyBlocks_rooted h.rooted (fun b hb => (h.received b hb).1.sound hgenesis) h.chain
        h.attached
  obtain ⟨hdone, htop⟩ := hcommit
  rcases applyChunk_cases I o p with ⟨store, e, hfailed, happly⟩ | ⟨store, hwritten, happly⟩
  · rw [happly]
    rw [hfailed] at hdone
    refine ⟨hdone, fun hok => ?_⟩
    cases hok
  · rw [happly]
    rw [hwritten] at hdone htop
    refine ⟨hdone, fun _ => ?_⟩
    obtain ⟨last, hlast⟩ := Option.isSome_iff_exists.mp (List.getLast?_isSome.mpr hne)
    have htip := h.tip last hlast
    obtain ⟨hreceived, hpos⟩ := h.received last (List.mem_of_getLast? hlast)
    obtain ⟨id, hid⟩ := hreceived.id_isSome
    have hlasttop := htop rfl last hlast
    refine ⟨hdone, fun b hb => absurd hb List.not_mem_nil, List.isChain_nil,
      fun first hfirst => ?_, fun last hlast => ?_, fun _ => ⟨.inr ⟨id, ?_, ?_⟩, ?_⟩⟩
    · cases hfirst
    · cases hlast
    · rw [htip]
      exact hid
    · rw [hlasttop.known id hid]
      rfl
    · intro tip hread
      rw [hlasttop.readTip hreceived hpos hread, htip]

theorem Going.skip {p : Progress} (h : Going I p) (skipped : Nat) :
    Going I { p with skipped } :=
  ⟨h.rooted, h.received, h.chain, h.attached, h.tip, h.fresh⟩

/-- Nobody presses Ctrl+C. -/
def never : Nat → Bool := fun _ => false

/-- Two imports at the same point, of which the first has imported `n` blocks more. -/
structure Ahead (n : Nat) (p q : Progress) : Prop where
  store : p.store = q.store
  tip : p.tip = q.tip
  chunk : p.chunk = q.chunk
  txs : ∀ height, q.tip.height < height → p.txs[height]? = q.txs[height]?
  imported : p.imported = n + q.imported

theorem Ahead.push {n : Nat} {p q : Progress} (h : Ahead n p q) {block : Block}
    (hheight : q.tip.height < block.height) : Ahead n (p.push block) (q.push block) := by
  refine ⟨h.store, rfl, ?_, fun height hlater => ?_, h.imported⟩
  · show p.chunk ++ [block] = q.chunk ++ [block]
    rw [h.chunk]
  · have hlater : block.height < height := hlater
    have hsame := h.txs height (by omega)
    unfold Progress.push
    dsimp only
    split_ifs with hsome
    · rw [OrderedMap.getElem?_erase_eq, OrderedMap.getElem?_erase_eq, hsame]
    · exact hsame

theorem Ahead.apply {n : Nat} {p q : Progress} (h : Ahead n p q) :
    Ahead n (I.applyChunk o p).1 (I.applyChunk o q).1 ∧
    (I.applyChunk o p).2 = (I.applyChunk o q).2 := by
  unfold applyChunk
  rw [h.store, h.chunk]
  rcases I.commitChunk o q.store q.chunk with ⟨store, e | _⟩
  · exact ⟨⟨rfl, h.tip, rfl, h.txs, h.imported⟩, rfl⟩
  · refine ⟨⟨rfl, h.tip, rfl, h.txs, ?_⟩, rfl⟩
    show p.imported + q.chunk.length = n + (q.imported + q.chunk.length)
    rw [h.imported, Nat.add_assoc]

/-- Where an import stands and how many blocks it has imported. -/
def outcome (r : ImportReport) : Nat × Nat := (r.endHeight, r.imported)

open Reference

/-- An importer of a network whose chain starts with `genesis`. -/
def linkImporter : Importer where
  env := linkEnv
  networkName := Text.ofString "mainnet"
  readValue _ := none

end Importer

end Snapshot

end SthCore
