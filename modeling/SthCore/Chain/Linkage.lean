import SthCore.Chain.Intake
import SthCore.Crypto.Reading
import SthCore.Storage.Reverted

/-!
Blocks name their parents, whatever the order in which intake tasks read the
tip, check blocks against it and commit them, and whatever is rolled back in
between.
-/

namespace SthCore

open SthCore.Lib

namespace Store

/-- Every stored block above the first one names the stored block below it. -/
def Linked (E : Env) (s : Store) : Prop :=
  ∀ height block, s.getBlockByHeight E height = .ok (some block) →
    (∃ lower < height, s.blocks[lower]?.isSome) →
    ∃ record, s.blocks[height - 1]? = some record ∧
      ∀ parent, decodeBlock E record = .ok parent → parent.id = some block.previousBlock

/-- The chain and its index of ids: heights without gaps up to the tip, every entry of the index
names the block at its height, and every block names its parent. -/
structure ChainIndex (E : Env) (s : Store) : Prop where
  range : ∃ base ≥ 1, ∀ height : Nat,
    s.blocks[height]?.isSome ↔ base ≤ height ∧ height ≤ s.lastHeight
  below : ∀ (id : Text) (height : Nat), s.blockIds[id]? = some height →
    1 ≤ height ∧ height ≤ s.lastHeight ∧ id.toLower = id
  names : ∀ (id : Text) (height : Nat) (block : Block), s.blockIds[id]? = some height →
    s.getBlockByHeight E height = .ok (some block) → block.id = some id
  linked : s.Linked E

/-- The chain and its index are all that `ChainIndex` is about. -/
theorem ChainIndex.congr {E : Env} {s s' : Store} (hblocks : s'.blocks = s.blocks)
    (hids : s'.blockIds = s.blockIds) (hheight : s'.lastHeight = s.lastHeight)
    (h : ChainIndex E s) : ChainIndex E s' := by
  have hget : s'.getBlockByHeight E = s.getBlockByHeight E := by
    funext height
    unfold getBlockByHeight
    rw [hblocks]
  obtain ⟨hrange, hbelow, hnames, hlinked⟩ := h
  refine ⟨?_, ?_, ?_, ?_⟩
  · rw [hblocks, hheight]
    exact hrange
  · rw [hids, hheight]
    exact hbelow
  · rw [hids, hget]
    exact hnames
  · unfold Linked at hlinked ⊢
    rw [hblocks, hget]
    exact hlinked

/-- The id that is computed when the record of a block is read back. -/
def readId (E : Env) (block : Block) : Except Error Text :=
  if block.height % 2 ^ 32 = 1 then .ok E.network.genesisBlockId else blockId E.prim block

/-- The blocks of a store after a record is written at a height. -/
theorem getBlockByHeight_insert {E : Env} {s : Store} {height other : Nat} {record : List Bytes}
    (ids : OrderedMap Text Nat) (last : Nat) (hne : height ≠ other) :
    getBlockByHeight E { s with
      blocks := s.blocks.insert height record, blockIds := ids, lastHeight := last } other =
    s.getBlockByHeight E other := by
  simp only [getBlockByHeight, OrderedMap.getElem?_insert_eq, hne, if_false]

/-- Writing the next block on the tip that it names. -/
theorem ChainIndex.append {E : Env} {s : Store} {block : Block} {record : List Bytes} {id : Text}
    (h : ChainIndex E s) (hid : readId E block = .ok id) (hlower : id.toLower = id)
    (hrecord : encodeBlock E block = .ok record) (hheight : block.height = s.lastHeight + 1)
    (hparent : s.lastHeight = 0 ∨ s.blockIds[block.previousBlock]? = some s.lastHeight) :
    ChainIndex E { s with
      blocks := s.blocks.insert block.height record
      blockIds := s.blockIds.insert id block.height
      lastHeight := block.height } := by
  obtain ⟨⟨base, hbase, hrange⟩, hbelow, hnames, hlinked⟩ := h
  have hread : ∀ b, decodeBlock E record = .ok b →
      b.id = some id ∧ b.previousBlock = block.previousBlock.toLower := by
    intro b hb
    obtain ⟨-, hprevious, id', hid', hcomputed⟩ := decodeBlock_encodeBlock hrecord hb
    rw [← readId, hid] at hcomputed
    injection hcomputed with hcomputed
    exact ⟨hcomputed ▸ hid', hprevious⟩
  refine ⟨?_, ?_, ?_, ?_⟩
  · refine ⟨min base block.height, by omega, ?_⟩
    intro height
    simp only [OrderedMap.getElem?_insert_eq]
    by_cases heq : block.height = height
    · simp [heq]
    · simp only [heq, if_false, hrange]
      omega
  · intro id' height' hfound
    rw [OrderedMap.getElem?_insert_eq] at hfound
    split_ifs at hfound with heq
    · injection hfound with hfound
      refine ⟨by omega, hfound.ge, heq ▸ hlower⟩
    · obtain ⟨hpos, hle, hlow⟩ := hbelow id' height' hfound
      refine ⟨hpos, ?_, hlow⟩
      simp only
      omega
  · intro id' height' b hfound hb
    rw [OrderedMap.getElem?_insert_eq] at hfound
    split_ifs at hfound with heq
    · injection hfound with hfound
      subst heq hfound
      obtain ⟨r, hr, hdecode⟩ := getBlockByHeight_some.mp hb
      rw [OrderedMap.getElem?_insert_eq, if_pos rfl] at hr
      injection hr with hr
      exact (hread b (hr ▸ hdecode)).1
    · have hle := (hbelow id' height' hfound).2.1
      rw [getBlockByHeight_insert _ _ (by omega)] at hb
      exact hnames id' height' b hfound hb
  · intro height b hb hlow
    obtain ⟨lower, hlt, hstored⟩ := hlow
    simp only [OrderedMap.getElem?_insert_eq] at hstored ⊢
    by_cases heq : block.height = height
    · -- the new block: its parent is found through the index
      subst heq
      have hlowne : block.height ≠ lower := by omega
      rw [if_neg hlowne] at hstored
      have hin := (hrange lower).mp hstored
      have htip := (hrange s.lastHeight).mpr (by omega)
      obtain ⟨r, hr⟩ := Option.isSome_iff_exists.mp htip
      have hbelowtip : block.height - 1 = s.lastHeight := by omega
      rw [hbelowtip, if_neg (by omega : block.height ≠ s.lastHeight)]
      refine ⟨r, hr, ?_⟩
      intro parent hdecode
      have hindex : s.blockIds[block.previousBlock]? = some s.lastHeight :=
        hparent.resolve_left (by omega)
      obtain ⟨r', hr', hb'⟩ := getBlockByHeight_some.mp hb
      rw [OrderedMap.getElem?_insert_eq, if_pos rfl] at hr'
      injection hr' with hr'
      rw [(hread b (hr' ▸ hb')).2, (hbelow _ _ hindex).2.2]
      exact hnames _ _ parent hindex (getBlockByHeight_some.mpr ⟨r, hr, hdecode⟩)
    · rw [getBlockByHeight_insert _ _ heq] at hb
      obtain ⟨r, hr, -⟩ := getBlockByHeight_some.mp hb
      have hin := (hrange height).mp (by simp [hr])
      rw [if_neg (by omega : block.height ≠ lower)] at hstored
      rw [if_neg (by omega : block.height ≠ height - 1)]
      exact hlinked height b hb ⟨lower, hlt, hstored⟩

/-- Taking the last block off again. -/
theorem ChainIndex.remove {E : Env} {s : Store} {block : Block} (h : ChainIndex E s)
    (habove : 1 < s.lastHeight)
    (hblock : s.getBlockByHeight E s.lastHeight = .ok (some block)) :
    ChainIndex E { s with
      blocks := s.blocks.erase s.lastHeight
      blockIds := match block.id with
        | some id => s.blockIds.erase id
        | none => s.blockIds
      lastHeight := s.lastHeight - 1 } := by
  obtain ⟨⟨base, hbase, hrange⟩, hbelow, hnames, hlinked⟩ := h
  -- every entry that is left is an old one, and none is left for the removed height
  have hkept : ∀ (id : Text) (height : Nat), (match block.id with
      | some id => s.blockIds.erase id
      | none => s.blockIds)[id]? = some height →
      s.blockIds[id]? = some height ∧ height ≠ s.lastHeight := by
    intro id height hfound
    have hentry : s.blockIds[id]? = some height ∧ block.id ≠ some id := by
      cases hid : block.id with
      | none =>
          rw [hid] at hfound
          exact ⟨hfound, by simp⟩
      | some own =>
          rw [hid] at hfound
          simp only [OrderedMap.getElem?_erase_eq] at hfound
          split_ifs at hfound with heq
          exact ⟨hfound, by simpa using heq⟩
    refine ⟨hentry.1, ?_⟩
    rintro rfl
    exact hentry.2 (hnames id _ block hentry.1 hblock)
  refine ⟨?_, ?_, ?_, ?_⟩
  · refine ⟨base, hbase, ?_⟩
    intro height
    simp only [OrderedMap.getElem?_erase_eq]
    by_cases heq : s.lastHeight = height
    · simp only [heq, if_true, Option.isSome_none, Bool.false_eq_true, false_iff]
      omega
    · simp only [heq, if_false, hrange]
      omega
  · intro id height hfound
    obtain ⟨hold, hne⟩ := hkept id height hfound
    obtain ⟨hpos, hle, hlow⟩ := hbelow id height hold
    refine ⟨hpos, ?_, hlow⟩
    simp only
    omega
  · intro id height b hfound hb
    obtain ⟨hold, hne⟩ := hkept id height hfound
    refine hnames id height b hold ?_
    simpa only [getBlockByHeight, OrderedMap.getElem?_erase_eq, hne.symm, if_false] using hb
  · intro height b hb hlow
    obtain ⟨lower, hlt, hstored⟩ := hlow
    obtain ⟨r, hr, hdecode⟩ := getBlockByHeight_some.mp hb
    simp only [OrderedMap.getElem?_erase_eq] at hr hstored ⊢
    split_ifs at hr with heq
    split_ifs at hstored with heq'
    · simp at hstored
    · have hin := (hrange height).mp (by simp [hr])
      rw [if_neg (by omega : s.lastHeight ≠ height - 1)]
      exact hlinked height b (getBlockByHeight_some.mpr ⟨r, hr, hdecode⟩) ⟨lower, hlt, hstored⟩

theorem RolledBack.chainIndex {E : Env} {s s' : Store} (r : RolledBack E s s')
    (h : ChainIndex E s) : ChainIndex E s' := by
  obtain ⟨hblocks, hids, hheight, -, -⟩ := r.chain
  exact (h.remove r.above r.stored).congr hblocks hids hheight

theorem writeBlock_chain {E : Env} {s s' : Store} {block : Block} {record : List Bytes} {id : Text}
    (hid : block.id = some id) (h : writeBlock E s (block, record) = .ok s') :
    s'.blocks = s.blocks.insert block.height record ∧
    s'.blockIds = s.blockIds.insert id block.height ∧
    s'.lastHeight = max s.lastHeight block.height := by
  unfold writeBlock at h
  simp only [hid] at h
  obtain ⟨s₁, hs₁, h⟩ := bind_eq_ok.mp h
  rw [pure_eq_ok] at h
  obtain ⟨hblocks, hids, hheight⟩ := indexTransactions_chain hs₁
  rw [← h]
  refine ⟨hblocks, hids, ?_⟩
  simp only
  rw [hheight]

end Store

/-- `b` comes right after `a`. -/
def Follows (a b : Block) : Prop :=
  b.height = a.height + 1 ∧ a.id = some b.previousBlock

/-- A prepared block with the id that its record gives it back. -/
structure Recorded (E : Env) (p : Block × List Bytes) : Prop where
  record : encodeBlock E p.1 = .ok p.2
  id : ∃ id, p.1.id = some id ∧ Store.readId E p.1 = .ok id ∧ id.toLower = id

/-- The first block of a list sits on the tip, as far as the index of ids tells. -/
def OnTip (s : Store) (first : Block) : Prop :=
  first.height = s.lastHeight + 1 ∧
    (s.lastHeight = 0 ∨ s.blockIds[first.previousBlock]? = some s.lastHeight)

theorem writeBlocks_chainIndex {E : Env} {s s' : Store} {prepared : List (Block × List Bytes)}
    (h : prepared.foldlM (Store.writeBlock E) s = .ok s') (hindex : s.ChainIndex E)
    (hchain : (prepared.map (·.1)).IsChain Follows)
    (hfirst : ∀ first ∈ (prepared.map (·.1)).head?, OnTip s first)
    (hrecorded : ∀ p ∈ prepared, Recorded E p) :
    s'.ChainIndex E ∧ ∀ last ∈ (prepared.map (·.1)).getLast?, s'.lastHeight = last.height ∧
      ∀ id, last.id = some id → s'.blockIds[id]? = some s'.lastHeight := by
  induction prepared generalizing s with
  | nil =>
      have hs : s = s' := foldlM_nil_ok.mp h
      exact ⟨hs ▸ hindex, by simp⟩
  | cons p rest ih =>
      obtain ⟨s₁, hwrite, hrest⟩ := foldlM_cons_ok.mp h
      obtain ⟨hheight, hparent⟩ := hfirst p.1 (by simp)
      obtain ⟨hrecord, id, hid, hread, hlower⟩ := hrecorded p List.mem_cons_self
      obtain ⟨hblocks, hids, hlast⟩ := Store.writeBlock_chain hid hwrite
      have hlast₁ : s₁.lastHeight = p.1.height := by omega
      have hindex₁ : s₁.ChainIndex E :=
        (hindex.append hread hlower hrecord hheight hparent).congr hblocks hids hlast₁
      have hown : s₁.blockIds[id]? = some s₁.lastHeight := by
        rw [hids, hlast₁, OrderedMap.getElem?_insert_eq, if_pos rfl]
      cases rest with
      | nil =>
          have hs : s₁ = s' := foldlM_nil_ok.mp hrest
          subst hs
          refine ⟨hindex₁, ?_⟩
          intro last hmem
          have hlasteq : p.1 = last := by simpa using hmem
          subst hlasteq
          refine ⟨hlast₁, ?_⟩
          intro id' hid'
          rw [hid] at hid'
          injection hid' with hid'
          exact hid' ▸ hown
      | cons q rest =>
          simp only [List.map_cons, List.isChain_cons_cons] at hchain ih
          obtain ⟨hfollows, hchain⟩ := hchain
          have hprevious : id = q.1.previousBlock := by
            have hsame := hfollows.2
            rw [hid] at hsame
            injection hsame
          have honTip : ∀ first ∈ (q.1 :: rest.map (·.1)).head?, OnTip s₁ first := by
            intro first hmem
            have hq : q.1 = first := by simpa using hmem
            subst hq
            refine ⟨by rw [hlast₁, hfollows.1], .inr ?_⟩
            rw [← hprevious]
            exact hown
          obtain ⟨hdone, hlasts⟩ := ih hrest hindex₁ hchain honTip
            fun r hr => hrecorded r (List.mem_cons_of_mem p hr)
          exact ⟨hdone, fun last hmem => hlasts last (by simpa using hmem)⟩

/-- A block whose id is the right one: the genesis id at height 1, the computed one above. -/
structure Sound (E : Env) (block : Block) : Prop where
  height : block.height < 2 ^ 32
  genesis : block.height = 1 → block.id = some E.network.genesisBlockId ∧
    E.network.genesisBlockId.toLower = E.network.genesisBlockId
  computed : block.height ≠ 1 → ∀ id, block.id = some id → blockId E.prim block = .ok id

theorem blockId_lower {P : Primitives} {block : Block} {id : Text}
    (h : blockId P block = .ok id) : id.toLower = id := by
  obtain ⟨raw, -, h⟩ := bind_eq_ok.mp h
  rw [pure_eq_ok] at h
  rw [← h]
  exact (Hex.encode_of_decode (Hex.decode_encode _)).symm

theorem prepareBlock_recorded {E : Env} {block : Block} {p : Block × List Bytes}
    (hsound : Sound E block) (h : prepareBlock E block = .ok p) : Recorded E p := by
  obtain ⟨hrecord, hheight, -, hsame, id, hid, hown⟩ := prepareBlock_ok h
  have hsmall := hsound.height
  refine ⟨hrecord, id, hid, ?_⟩
  unfold Store.readId
  rw [hheight, hsame, Nat.mod_eq_of_lt hsmall]
  by_cases hfirst : block.height = 1
  · obtain ⟨hgenesis, hlower⟩ := hsound.genesis hfirst
    rcases hown with hown | ⟨hnone, -⟩
    · rw [hgenesis] at hown
      injection hown with hown
      subst hown
      exact ⟨by rw [if_pos hfirst], hlower⟩
    · rw [hgenesis] at hnone
      cases hnone
  · have hcomputed : blockId E.prim block = .ok id := by
      rcases hown with hown | ⟨-, hcomputed⟩
      · exact hsound.computed hfirst id hown
      · exact hcomputed
    rw [if_neg hfirst]
    exact ⟨hcomputed, blockId_lower hcomputed⟩

theorem prepared_isChain {E : Env} {blocks : List Block} {prepared : List (Block × List Bytes)}
    (h : blocks.mapM (prepareBlock E) = .ok prepared) (hchain : blocks.IsChain Follows) :
    (prepared.map (·.1)).IsChain Follows := by
  have hall := forall₂_of_mapM_ok h
  clear h
  induction hall with
  | nil => exact List.isChain_nil
  | cons hab hrest ih =>
      rename_i a p l l'
      cases hrest with
      | nil => exact List.isChain_singleton _
      | cons hbc hrest =>
          rename_i b q l l'
          obtain ⟨hfollows, hchain⟩ := List.isChain_cons_cons.mp hchain
          refine List.isChain_cons_cons.mpr ⟨?_, ih hchain⟩
          obtain ⟨-, hheight, -, -, id, hid, hown⟩ := prepareBlock_ok hab
          obtain ⟨-, hheight', hprevious', -, -⟩ := prepareBlock_ok hbc
          refine ⟨by rw [hheight, hheight', hfollows.1], ?_⟩
          rcases hown with hown | ⟨hnone, -⟩
          · rw [hid, ← hown, hprevious']
            exact hfollows.2
          · have hsome := hfollows.2
            rw [hnone] at hsome
            cases hsome

/-- The index of ids knows the parent of a block, or the block is the first of all. -/
def Attached (s : Store) (first : Block) : Prop :=
  s.lastHeight = 0 ∧ first.height = 1 ∨ (s.blockIds[first.previousBlock]?).isSome

/-- What `check_tip` leaves open when it does not find the parent is all that is missing. -/
theorem onTip_of_checkTip {E : Env} {s : Store} {first : Block} (hindex : s.ChainIndex E)
    (hattached : Attached s first) (h : s.checkTip first = .ok ()) : OnTip s first := by
  unfold Store.checkTip at h
  simp only at h
  rcases hattached with ⟨hempty, hheight⟩ | hknown
  · exact ⟨by omega, .inl hempty⟩
  · obtain ⟨height, hfound⟩ := Option.isSome_iff_exists.mp hknown
    obtain ⟨hpos, hle, -⟩ := hindex.below _ _ hfound
    rw [if_neg (by omega : ¬ s.lastHeight = 0)] at h
    split_ifs at h with hheight
    rw [hfound] at h
    simp only at h
    split_ifs at h with hsame
    rw [not_not] at hheight
    exact ⟨hheight, .inr (hsame ▸ hfound)⟩

theorem applyLocked_chainIndex {E : Env} {s : Store} {chunk : List Block} {force : Bool}
    (hindex : s.ChainIndex E) (hsound : ∀ b ∈ chunk, Sound E b)
    (hchain : chunk.IsChain Follows) (hfirst : ∀ first ∈ chunk.head?, Attached s first) :
    (s.applyLocked E chunk force).1.ChainIndex E ∧
    ((s.applyLocked E chunk force).2 = .ok () → ∀ last ∈ chunk.getLast?, ∀ id,
      last.id = some id → ((s.applyLocked E chunk force).1.blockIds[id]?).isSome) := by
  rcases Store.applyLocked_cases E s chunk force with ⟨e, he⟩ | ⟨prepared, hprepared, ⟨c⟩⟩
  · rw [he]
    exact ⟨hindex, by simp⟩
  · have hrecorded : ∀ p ∈ prepared, Recorded E p := by
      intro p hp
      obtain ⟨b, hb, hbp⟩ := mapM_ok_mem hprepared p hp
      exact prepareBlock_recorded (hsound b hb) hbp
    obtain ⟨hblocks, hids, hheight, -⟩ := (Store.writeEntries_sameRecords c.written).chain
    have hwallets : c.wallets.ChainIndex E := hindex.congr hblocks hids hheight
    have honTip : ∀ first ∈ (prepared.map (·.1)).head?, OnTip c.wallets first := by
      intro first hmem
      rw [List.head?_map, Option.mem_def, Option.map_eq_some_iff] at hmem
      obtain ⟨p, hp, rfl⟩ := hmem
      obtain ⟨b, hb, hbp⟩ := mapM_ok_head hprepared hp
      obtain ⟨-, hpheight, hpprevious, -⟩ := prepareBlock_ok hbp
      have hattached : Attached s p.1 := by
        unfold Attached
        rw [hpheight, hpprevious]
        exact hfirst b hb
      obtain ⟨hon, hparent⟩ := onTip_of_checkTip hindex hattached (c.tip p hp)
      unfold OnTip
      rw [hheight, hids]
      exact ⟨hon, hparent⟩
    obtain ⟨hdone, hlast⟩ := writeBlocks_chainIndex c.stored hwallets
      (prepared_isChain hprepared hchain) honTip hrecorded
    obtain ⟨hsblocks, hsids, hsheight, -⟩ := c.same.chain
    refine ⟨hdone.congr hsblocks hsids hsheight, ?_⟩
    intro _ last hmem id hid
    obtain ⟨p, hp, hlastp⟩ := mapM_ok_getLast hprepared hmem
    obtain ⟨-, -, -, -, pid, hpid, hown⟩ := prepareBlock_ok hlastp
    have hsame : p.1.id = some id := by
      rcases hown with hown | ⟨hnone, -⟩
      · rw [hpid, ← hown, hid]
      · rw [hid] at hnone
        cases hnone
    have hfound := (hlast p.1 (by rw [List.getLast?_map, hp]; rfl)).2 id hsame
    rw [hsids, hfound]
    rfl

/-- Sub-batches of one list of blocks, until one of them fails. -/
theorem applyChunks_chainIndex {E : Env} {s : Store} {chunks : List (List Block)} {force : Bool}
    (hindex : s.ChainIndex E) (hsound : ∀ b ∈ chunks.flatten, Sound E b)
    (hchain : chunks.flatten.IsChain Follows) (hne : ∀ c ∈ chunks, c ≠ [])
    (hfirst : ∀ first ∈ chunks.flatten.head?, Attached s first) :
    (s.applyChunks E chunks force).1.ChainIndex E := by
  induction chunks generalizing s with
  | nil => exact hindex
  | cons c rest ih =>
      have hcne : c ≠ [] := hne c List.mem_cons_self
      rw [List.flatten_cons] at hsound hchain hfirst
      obtain ⟨hchunk, hrest, hlink⟩ := List.isChain_append.mp hchain
      have hhead : ∀ first ∈ c.head?, Attached s first := by
        intro first hmem
        apply hfirst
        rw [List.head?_append_of_ne_nil _ hcne]
        exact hmem
      obtain ⟨hdone, hknown⟩ := @applyLocked_chainIndex E s c force hindex
        (fun b hb => hsound b (List.mem_append_left _ hb)) hchunk hhead
      rw [Store.applyChunks_cons]
      unfold Outcome.andThen
      split
      · rename_i hok
        refine ih hdone (fun b hb => hsound b (List.mem_append_right _ hb)) hrest
          (fun d hd => hne d (List.mem_cons_of_mem c hd)) ?_
        intro first hmem
        obtain ⟨last, hlast⟩ := Option.isSome_iff_exists.mp (List.getLast?_isSome.mpr hcne)
        have hfollows := hlink last hlast first hmem
        exact .inr (hknown hok last hlast _ hfollows.2)
      · exact hdone

theorem subBatches_ne_nil (E : Env) (blocks : List Block) :
    ∀ c ∈ Store.subBatches E blocks, c ≠ [] := by
  induction blocks with
  | nil => simp [Store.subBatches]
  | cons b rest ih =>
      unfold Store.subBatches
      split_ifs
      · intro c hc
        rcases List.mem_cons.mp hc with rfl | hc
        · simp
        · exact ih c hc
      · split
        · simp
        · rename_i chunk chunks hrest
          intro c hc
          rcases List.mem_cons.mp hc with rfl | hc
          · simp
          · exact ih c (hrest ▸ List.mem_cons_of_mem chunk hc)

theorem chunks_ne_nil (E : Env) (s : Store) (blocks : List Block) :
    ∀ c ∈ s.chunks E blocks, c ≠ [] := by
  match blocks with
  | [] => simp [Store.chunks]
  | [b] => simp [Store.chunks]
  | a :: b :: rest =>
      unfold Store.chunks
      split_ifs
      · intro c hc
        obtain ⟨x, -, rfl⟩ := List.mem_map.mp hc
        simp
      · exact subBatches_ne_nil E _

/-- One call of `apply_blocks`, whether it fails or not. -/
theorem applyBlocks_chainIndex {E : Env} {s : Store} {blocks : List Block}
    (hindex : s.ChainIndex E) (hsound : ∀ b ∈ blocks, Sound E b)
    (hchain : blocks.IsChain Follows) (hfirst : ∀ first ∈ blocks.head?, Attached s first) :
    (s.applyBlocks E blocks).1.ChainIndex E := by
  rw [Store.applyBlocks_eq_applyChunks]
  have hflatten := Store.chunks_flatten E s blocks
  apply applyChunks_chainIndex hindex
  · rw [hflatten]
    exact hsound
  · rw [hflatten]
    exact hchain
  · exact chunks_ne_nil E s blocks
  · rw [hflatten]
    exact hfirst

open Sync in
theorem link_isChain {E : Env} {tip tip' : ChainTip} {blocks : List Block}
    (h : blocks.foldlM (link E) tip = .ok tip') : blocks.IsChain Follows := by
  induction blocks generalizing tip with
  | nil => exact List.isChain_nil
  | cons a rest ih =>
      obtain ⟨tip₁, ha, hrest⟩ := foldlM_cons_ok.mp h
      cases rest with
      | nil => exact List.isChain_singleton a
      | cons b rest =>
          refine List.isChain_cons_cons.mpr ⟨?_, ih hrest⟩
          obtain ⟨-, -, -, id, hid, rfl⟩ := link_eq_ok.mp ha
          obtain ⟨tip₂, hb, -⟩ := foldlM_cons_ok.mp hrest
          obtain ⟨hheight, -, hprevious, -⟩ := link_eq_ok.mp hb
          exact ⟨hheight, by rw [hid, hprevious id rfl]⟩

/-- The tip that an intake task reads: the last block as it is stored. -/
def readTip (E : Env) (s : Store) : Except Error Sync.ChainTip := do
  match ← s.getLastBlock E with
  | some b => return { height := b.height, id := b.id }
  | none => return { height := 0, id := none }

/-- Intake tasks in any order: tips that were read, lists of blocks that passed the checks of
`sync::apply_blocks` against such a tip, and the store.  Every write meets a condition.  Only
the checks read the clock. -/
inductive Interleaving (E : Env) (good : Store → List Block → Prop) :
    List Sync.ChainTip → List (List Block) → Store → Prop where
  | start (s : Store) (hblocks : s.blocks = ∅) (hids : s.blockIds = ∅)
      (hheight : s.lastHeight = 0) : Interleaving E good [] [] s
  | read {tips : List Sync.ChainTip} {checked : List (List Block)} {s : Store}
      {tip : Sync.ChainTip} (hrun : Interleaving E good tips checked s)
      (h : readTip E s = .ok tip) : Interleaving E good (tip :: tips) checked s
  | check {tips : List Sync.ChainTip} {checked : List (List Block)} {s : Store}
      {tip tip' : Sync.ChainTip} {blocks : List Block} (now : Int) (verify : Bool)
      (hrun : Interleaving E good tips checked s) (htip : tip ∈ tips)
      (h : Sync.checkBlocks { E with nowMs := now } s blocks tip verify = .ok tip') :
      Interleaving E good tips (blocks :: checked) s
  | commit {tips : List Sync.ChainTip} {checked : List (List Block)} {s : Store}
      {blocks : List Block} (hrun : Interleaving E good tips checked s)
      (hblocks : blocks ∈ checked) (hgood : good s blocks) :
      Interleaving E good tips checked (s.applyBlocks E blocks).1
  /-- The write of `prefer_earlier_slot`, after its rollback. -/
  | install {tips : List Sync.ChainTip} {checked : List (List Block)} {s : Store}
      (block : Block) (hrun : Interleaving E good tips checked s) (hgood : good s [block]) :
      Interleaving E good tips checked (s.applyBlocks E [block]).1
  | rollback {tips : List Sync.ChainTip} {checked : List (List Block)} {s : Store}
      (height : Nat) (hrun : Interleaving E good tips checked s) :
      Interleaving E good tips checked (s.rollbackTo E height).1
  | setUndo {tips : List Sync.ChainTip} {checked : List (List Block)} {s : Store} (on : Bool)
      (hrun : Interleaving E good tips checked s) :
      Interleaving E good tips checked { s with undoEnabled := on }

/-- The parent of the first block is in the index of ids when the list is written, and the ids
of its blocks are the right ones. -/
def ParentKnown (E : Env) (s : Store) (blocks : List Block) : Prop :=
  (∀ first ∈ blocks.head?, Attached s first) ∧ ∀ b ∈ blocks, Sound E b

namespace Interleaving

variable {E : Env} {good : Store → List Block → Prop} {tips : List Sync.ChainTip}
  {checked : List (List Block)} {s : Store}

/-- Lists that wait for their commit are chains, whatever happened since they were checked. -/
theorem checked_isChain (hrun : Interleaving E good tips checked s) :
    ∀ blocks ∈ checked, blocks.IsChain Follows := by
  induction hrun with
  | start => simp
  | read _ _ ih => exact ih
  | check now verify _ _ h ih =>
      intro blocks hmem
      rcases List.mem_cons.mp hmem with rfl | hmem
      · obtain ⟨_, hlink, -⟩ := bind_eq_ok.mp h
        exact link_isChain hlink
      · exact ih blocks hmem
  | commit _ _ _ ih => exact ih
  | install _ _ _ ih => exact ih
  | rollback _ _ ih => exact ih
  | setUndo _ _ ih => exact ih

theorem chainIndex (hrun : Interleaving E (ParentKnown E) tips checked s) : s.ChainIndex E := by
  induction hrun with
  | start s hblocks hids hheight =>
      refine ⟨⟨1, le_refl 1, ?_⟩, ?_, ?_, ?_⟩
      · intro height
        rw [hblocks, hheight]
        simp only [Std.ExtTreeMap.getElem?_empty, Option.isSome_none, Bool.false_eq_true, false_iff]
        omega
      · intro id height hfound
        simp [hids] at hfound
      · intro id height block hfound
        simp [hids] at hfound
      · intro height block hblock
        obtain ⟨record, hrecord, -⟩ := Store.getBlockByHeight_some.mp hblock
        simp [hblocks] at hrecord
  | read _ _ ih => exact ih
  | check _ _ _ _ _ ih => exact ih
  | commit hrun hmem hgood ih =>
      exact applyBlocks_chainIndex ih hgood.2 (hrun.checked_isChain _ hmem) hgood.1
  | install block _ hgood ih =>
      exact applyBlocks_chainIndex ih hgood.2 (List.isChain_singleton block) hgood.1
  | rollback height _ ih =>
      exact Store.rollbackTo_preserves (fun _ _ r hs => r.chainIndex hs)
        (fun t _ hs => Store.ChainIndex.congr (s := t) rfl rfl rfl hs) height ih
  | setUndo _ _ ih =>
      rename_i s _ _
      exact Store.ChainIndex.congr (s := s) rfl rfl rfl ih

end Interleaving

/-- If every list finds the parent of its first block in the index of ids when it is written,
every stored block names the stored block below it, in every interleaving. -/
theorem interleaving_linked (E : Env) (tips : List Sync.ChainTip) (checked : List (List Block))
    (s : Store) (hrun : Interleaving E (ParentKnown E) tips checked s) : s.Linked E :=
  hrun.chainIndex.linked

/-- One intake task up to its checks. -/
theorem Interleaving.task {E : Env} {good : Store → List Block → Prop}
    {tips : List Sync.ChainTip} {checked : List (List Block)} {s : Store} {tip : Sync.ChainTip}
    {blocks : List Block} (hrun : Interleaving E good tips checked s)
    (hread : (readTip E s).toOption = some tip)
    (hcheck : (Sync.checkBlocks E s blocks tip true).toOption.isSome) :
    Interleaving E good (tip :: tips) (blocks :: checked) s := by
  have htip : readTip E s = .ok tip := by
    cases h : readTip E s with
    | error e => simp [h, Except.toOption] at hread
    | ok t => simpa [h, Except.toOption] using hread
  cases h : Sync.checkBlocks E s blocks tip true with
  | error e => simp [h, Except.toOption] at hcheck
  | ok tip' => exact .check E.nowMs true (.read hrun htip) List.mem_cons_self h

namespace Reference

/-- A block of the first key on the first block. -/
def ownBlock : Block := first.forge 2 8 (genesis.id.getD "") 0 []

/-- The block of another node at the same height. -/
def siblingBlock : Block := second.forge 2 16 (genesis.id.getD "") 0 []

/-- A block on `ownBlock`. -/
def childBlock : Block := first.forge 3 16 (ownBlock.id.getD "") 0 []

def linkEnv : Env := ⟨primitives, network {}, 16000⟩

def genesisStore : Store := (({} : Store).applyBlocks linkEnv [genesis]).1

def ownStore : Store := (genesisStore.applyBlocks linkEnv [ownBlock]).1

/-- The first block and a block on it, accepted one after the other. -/
def secondStore (b : Block) : Store :=
  (Sync.applyBlocks linkEnv (Sync.applyBlocks linkEnv {} [genesis] ⟨0, none⟩ true).1 [b]
    ⟨1, genesis.id⟩ true).1

/-- `ownBlock` is taken back and its sibling is applied. -/
def siblingStore : Store :=
  ((ownStore.rollbackTo linkEnv 1).1.applyBlocks linkEnv [siblingBlock]).1

end Reference

open Reference

theorem parentKnown_child {E : Env} {s : Store} {b : Block} (hheight : b.height = 2)
    (hid : (blockId E.prim b).toOption = b.id) (hparent : (s.blockIds[b.previousBlock]?).isSome) :
    ParentKnown E s [b] := by
  constructor
  · intro first hfirst
    obtain rfl : b = first := by simpa using hfirst
    exact .inr hparent
  · intro c hc
    obtain rfl := List.mem_singleton.mp hc
    refine ⟨by omega, by omega, ?_⟩
    intro _ id hown
    rw [hown] at hid
    cases h : blockId E.prim c with
    | error e => simp [h, Except.toOption] at hid
    | ok computed => simpa [h, Except.toOption] using hid

theorem parentKnown_first {E : Env} {b : Block} (hheight : b.height = 1)
    (hid : b.id = some E.network.genesisBlockId)
    (hlower : E.network.genesisBlockId.toLower = E.network.genesisBlockId) :
    ParentKnown E {} [b] := by
  constructor
  · intro first hfirst
    obtain rfl : b = first := by simpa using hfirst
    exact .inl ⟨rfl, hheight⟩
  · intro c hc
    obtain rfl := List.mem_singleton.mp hc
    exact ⟨by omega, fun _ => ⟨hid, hlower⟩, fun h => absurd hheight h⟩

/-- The tips that the tasks of `genesis` and `ownBlock` read, and their checks. -/
theorem ownBlock_tasks :
    ((readTip linkEnv {}).toOption = some ⟨0, none⟩ ∧
      (Sync.checkBlocks linkEnv {} [genesis] ⟨0, none⟩ true).toOption.isSome) ∧
    ((readTip linkEnv genesisStore).toOption = some ⟨1, genesis.id⟩ ∧
      (Sync.checkBlocks linkEnv genesisStore [ownBlock] ⟨1, genesis.id⟩ true).toOption.isSome) ∧
    (genesis.height = 1 ∧ genesis.id = some linkEnv.network.genesisBlockId ∧
      linkEnv.network.genesisBlockId.toLower = linkEnv.network.genesisBlockId) ∧
    (ownBlock.height = 2 ∧ (blockId linkEnv.prim ownBlock).toOption = ownBlock.id ∧
      (genesisStore.blockIds[ownBlock.previousBlock]?).isSome) ∧
    ownStore.lastHeight = 2 := by
  decide +kernel

theorem ownBlock_checked {good : Store → List Block → Prop} (hgood : good {} [genesis]) :
    Interleaving linkEnv good [⟨1, genesis.id⟩, ⟨0, none⟩] [[ownBlock], [genesis]]
      genesisStore := by
  obtain ⟨⟨hempty, hfirst⟩, ⟨htip, hsecond⟩, -⟩ := ownBlock_tasks
  have hgenesis : Interleaving linkEnv good [⟨0, none⟩] [[genesis]] {} :=
    (Interleaving.start {} rfl rfl rfl).task hempty hfirst
  have hcommitted : Interleaving linkEnv good [⟨0, none⟩] [[genesis]] genesisStore :=
    hgenesis.commit List.mem_cons_self hgood
  exact hcommitted.task htip hsecond

theorem interleaving_linked_own :
    ownStore.lastHeight = 2 ∧ ownStore.Linked linkEnv := by
  obtain ⟨-, -, ⟨hone, hgenesis, hlower⟩, ⟨hheight, hid, hparent⟩, hlast⟩ := ownBlock_tasks
  have hown : Interleaving linkEnv (ParentKnown linkEnv) [⟨1, genesis.id⟩, ⟨0, none⟩]
      [[ownBlock], [genesis]] genesisStore :=
    ownBlock_checked (parentKnown_first hone hgenesis hlower)
  refine ⟨hlast, ?_⟩
  exact interleaving_linked _ _ _ _
    (hown.commit List.mem_cons_self (parentKnown_child hheight hid hparent))

/-- A block that does not name the one below it. -/
def detachedAt (E : Env) (s : Store) (height : Nat) : Bool :=
  match s.getBlockByHeight E height, s.getBlockByHeight E (height - 1) with
  | .ok (some block), .ok (some parent) => parent.id ≠ some block.previousBlock
  | _, _ => false

theorem not_linked_of_detachedAt {E : Env} {s : Store} {height : Nat}
    (h : detachedAt E s height = true) (hpos : 0 < height) : ¬ s.Linked E := by
  intro hlinked
  unfold detachedAt at h
  split at h
  · rename_i block parent hblock hparent
    obtain ⟨record, hrecord, hdecode⟩ := Store.getBlockByHeight_some.mp hparent
    obtain ⟨record', hrecord', hnames⟩ := hlinked height block hblock
      ⟨height - 1, by omega, by simp [hrecord]⟩
    rw [hrecord] at hrecord'
    injection hrecord' with hrecord'
    subst hrecord'
    simp [hnames parent hdecode] at h
  · cases h

/-- A child of a block is checked while the block is the tip and written after the block has
been replaced by its sibling: the transaction does not find the parent, and takes the block. -/
theorem child_of_replaced_block :
    ∃ tips checked s, Interleaving linkEnv (fun _ _ => True) tips checked s ∧
      ¬ s.Linked linkEnv := by
  obtain ⟨⟨hown, hchild⟩, ⟨hgenesis, hsibling⟩, hbroken⟩ :
      ((readTip linkEnv ownStore).toOption = some ⟨2, ownBlock.id⟩ ∧
        (Sync.checkBlocks linkEnv ownStore [childBlock] ⟨2, ownBlock.id⟩
          true).toOption.isSome) ∧
      ((readTip linkEnv (ownStore.rollbackTo linkEnv 1).1).toOption = some ⟨1, genesis.id⟩ ∧
        (Sync.checkBlocks linkEnv (ownStore.rollbackTo linkEnv 1).1 [siblingBlock]
          ⟨1, genesis.id⟩ true).toOption.isSome) ∧
      detachedAt linkEnv (siblingStore.applyBlocks linkEnv [childBlock]).1 3 = true := by
    decide +kernel
  have hfirst : Interleaving linkEnv (fun _ _ => True) [⟨1, genesis.id⟩, ⟨0, none⟩]
      [[ownBlock], [genesis]] ownStore :=
    (ownBlock_checked trivial).commit List.mem_cons_self trivial
  have hback := (hfirst.task hown hchild).rollback 1
  have hreplaced : Interleaving linkEnv (fun _ _ => True)
      [⟨1, genesis.id⟩, ⟨2, ownBlock.id⟩, ⟨1, genesis.id⟩, ⟨0, none⟩]
      [[siblingBlock], [childBlock], [ownBlock], [genesis]] siblingStore :=
    (hback.task hgenesis hsibling).commit List.mem_cons_self trivial
  exact ⟨_, _, _, hreplaced.commit (List.mem_cons_of_mem _ List.mem_cons_self) trivial,
    not_linked_of_detachedAt hbroken (by omega)⟩

end SthCore
