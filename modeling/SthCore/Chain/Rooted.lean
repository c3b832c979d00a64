import SthCore.Chain.Linkage

/-!
The tip of a chain that received headers are applied to: it is stored and
indexed after every call, and it is read back as it was received.
-/

namespace SthCore

open SthCore.Lib

/-- A header that is read is written back to the bytes it was read from. -/
theorem serializeBlock_of_deserialize {P : Primitives} {network : Network} {raw : Bytes}
    {b : Block} (h : deserializeBlockHeader P network raw = .ok b) :
    serializeBlock b true = .ok raw := by
  obtain ⟨f, id, hraw, hprevious, -, -, hpq, -, rfl⟩ := deserializeBlockHeader_ok h
  rw [← hraw, ← f.serializeBlock_toBlock hprevious hpq]
  rfl

/-- The header of a block, with its id, was read from bytes. -/
def Block.Received (E : Env) (block : Block) : Prop :=
  ∃ raw header, deserializeBlockHeader E.prim E.network raw = .ok header ∧
    block = { header with transactions := block.transactions }

theorem prepareBlock_serializeBlock {E : Env} {block : Block} {p : Block × List Bytes}
    (h : prepareBlock E block = .ok p) :
    serializeBlock p.1 true = serializeBlock block true := by
  have hend : ∀ id : Text, (do
      let transactions ← block.transactions.mapM (fillId E.prim)
      return ({ block with id := some id, transactions },
        ← encodeBlock E { block with id := some id, transactions })) = .ok p →
      serializeBlock p.1 true = serializeBlock block true := by
    intro id h
    obtain ⟨txs, -, h⟩ := bind_eq_ok.mp h
    obtain ⟨record, -, h⟩ := bind_eq_ok.mp h
    rw [← pure_eq_ok.mp h]
    rfl
  unfold prepareBlock at h
  cases hid : block.id with
  | some id =>
      rw [hid] at h
      exact hend id h
  | none =>
      rw [hid] at h
      obtain ⟨id, -, h⟩ := bind_eq_ok.mp h
      exact hend id h

namespace Block.Received

variable {E : Env} {block : Block}

theorem sound (h : block.Received E)
    (hgenesis : E.network.genesisBlockId.toLower = E.network.genesisBlockId) : Sound E block := by
  obtain ⟨raw, header, hread, hblock⟩ := h
  obtain ⟨f, id, -, -, -, -, -, hid, rfl⟩ := deserializeBlockHeader_ok hread
  have hheight : block.height = f.height.toNat := by
    rw [hblock]
    rfl
  have hown : block.id = some id := by
    rw [hblock]
  have hsame : blockId E.prim block = blockId E.prim f.toBlock := by
    rw [hblock]
    rfl
  refine ⟨by rw [hheight]; exact f.height.toNat_lt, fun hone => ?_, fun hne id' hid' => ?_⟩
  · rw [if_pos (hheight ▸ hone)] at hid
    rw [hown, ← Except.ok.inj hid]
    exact ⟨rfl, hgenesis⟩
  · rw [if_neg (hheight ▸ hne)] at hid
    rw [hsame, hid, ← Option.some.inj (hown.symm.trans hid')]

theorem id_isSome (h : block.Received E) : ∃ id, block.id = some id := by
  obtain ⟨raw, header, hread, hblock⟩ := h
  obtain ⟨f, id, -, -, -, -, -, -, rfl⟩ := deserializeBlockHeader_ok hread
  exact ⟨id, by rw [hblock]⟩

/-- What is read back of a received block has its height and its id. -/
theorem decodeBlock (h : block.Received E) {p : Block × List Bytes} {b : Block}
    (hprepared : prepareBlock E block = .ok p) (hread : decodeBlock E p.2 = .ok b) :
    b.height = block.height ∧ b.id = block.id := by
  obtain ⟨raw, header, hheader, hblock⟩ := h
  obtain ⟨hencode, -⟩ := prepareBlock_ok hprepared
  obtain ⟨front, hfront, hencode⟩ := bind_eq_ok.mp hencode
  obtain ⟨txs, -, hencode⟩ := bind_eq_ok.mp hencode
  have hraw : serializeBlock block true = .ok raw := by
    rw [hblock, ← serializeBlock_of_deserialize hheader]
    rfl
  rw [prepareBlock_serializeBlock hprepared, hraw] at hfront
  rw [← pure_eq_ok.mp hencode, ← Except.ok.inj hfront] at hread
  obtain ⟨header', hheader', hread⟩ := bind_eq_ok.mp hread
  obtain ⟨txs', -, hread⟩ := bind_eq_ok.mp hread
  rw [← pure_eq_ok.mp hread, ← Except.ok.inj (hheader.symm.trans hheader'), hblock]
  exact ⟨rfl, rfl⟩

end Block.Received

namespace Store

/-- The chain is linked, and its tip is stored and in the index of ids. -/
structure Rooted (E : Env) (s : Store) : Prop where
  index : s.ChainIndex E
  tip : s.lastHeight = 0 ∨
    (s.blocks[s.lastHeight]?).isSome ∧ ∃ id : Text, s.blockIds[id]? = some s.lastHeight

/-- The tip of the chain is the record of a block. -/
structure TopIs (E : Env) (s : Store) (last : Block) : Prop where
  height : s.lastHeight = last.height
  known : ∀ id, last.id = some id → s.blockIds[id]? = some s.lastHeight
  stored : ∃ p, prepareBlock E last = .ok p ∧ s.blocks[s.lastHeight]? = some p.2

/-- The tip that is read is that of the last block. -/
theorem TopIs.readTip {E : Env} {s : Store} {last : Block} {tip : Sync.ChainTip}
    (h : s.TopIs E last) (hreceived : last.Received E) (hpos : 0 < last.height)
    (hread : SthCore.readTip E s = .ok tip) : tip = ⟨last.height, last.id⟩ := by
  obtain ⟨p, hprepared, hstored⟩ := h.stored
  obtain ⟨found, hlast, hread⟩ := bind_eq_ok.mp hread
  have hheight := h.height
  unfold getLastBlock getBlockByHeight at hlast
  rw [if_neg (by omega), hstored] at hlast
  simp only at hlast
  cases hdecode : SthCore.decodeBlock E p.2 with
  | error e =>
      rw [hdecode] at hlast
      cases hlast
  | ok b =>
      rw [hdecode] at hlast
      obtain rfl := Except.ok.inj hlast
      obtain ⟨hsame, hid⟩ := hreceived.decodeBlock hprepared hdecode
      rw [← pure_eq_ok.mp hread, hsame, hid]

end Store

/-- The chain after its blocks were written. -/
theorem writeBlocks_top {E : Env} {s s' : Store} {init : List (Block × List Bytes)}
    {last : Block × List Bytes} (h : (init ++ [last]).foldlM (Store.writeBlock E) s = .ok s') :
    s'.blocks[last.1.height]? = some last.2 := by
  obtain ⟨t, -, hlast⟩ := foldlM_append_ok.mp h
  obtain ⟨t', hwrite, hrest⟩ := foldlM_cons_ok.mp hlast
  obtain rfl := foldlM_nil_ok.mp hrest
  obtain ⟨hblocks, -⟩ := Store.writeBlock_blocks hwrite
  rw [hblocks, OrderedMap.getElem?_insert_eq, if_pos rfl]

section Apply

variable {E : Env} {s : Store} {force : Bool}

/-- A sub-batch on the tip. -/
theorem applyLocked_rooted {chunk : List Block} (h : s.Rooted E)
    (hsound : ∀ b ∈ chunk, Sound E b) (hchain : chunk.IsChain Follows)
    (hfirst : ∀ first ∈ chunk.head?, Attached s first) :
    (s.applyLocked E chunk force).1.Rooted E ∧
    ((s.applyLocked E chunk force).2 = .ok () → ∀ last ∈ chunk.getLast?,
      (s.applyLocked E chunk force).1.TopIs E last) := by
  obtain ⟨hindex, -⟩ := @applyLocked_chainIndex E s chunk force h.index hsound hchain hfirst
  rcases Store.applyLocked_cases E s chunk force with ⟨e, he⟩ | ⟨prepared, hprepared, ⟨c⟩⟩
  · rw [he] at hindex ⊢
    exact ⟨h, fun hok => by cases hok⟩
  · have hrecorded : ∀ p ∈ prepared, Recorded E p := by
      intro p hp
      obtain ⟨b, hb, hbp⟩ := mapM_ok_mem hprepared p hp
      exact prepareBlock_recorded (hsound b hb) hbp
    obtain ⟨hblocks, hids, hheight, -⟩ := (Store.writeEntries_sameRecords c.written).chain
    have hwallets : c.wallets.ChainIndex E := h.index.congr hblocks hids hheight
    have honTip : ∀ first ∈ (prepared.map (·.1)).head?, OnTip c.wallets first := by
      intro first hmem
      rw [List.head?_map, Option.mem_def, Option.map_eq_some_iff] at hmem
      obtain ⟨p, hp, rfl⟩ := hmem
      obtain ⟨b, hb, hbp⟩ := mapM_ok_head hprepared hp
      obtain ⟨-, hpheight, hpprevious, -⟩ := prepareBlock_ok hbp
      have hattached : Attached s p.1 := by
        unfold Attached
        rw [hpheight, hpprevious]
        exact hfirst b hb
      obtain ⟨hon, hparent⟩ := onTip_of_checkTip h.index hattached (c.tip p hp)
      unfold OnTip
      rw [hheight, hids]
      exact ⟨hon, hparent⟩
    obtain ⟨-, hlast⟩ := writeBlocks_chainIndex c.stored hwallets
      (prepared_isChain hprepared hchain) honTip hrecorded
    obtain ⟨hsblocks, hsids, hsheight, -⟩ := c.same.chain
    have htop : ∀ last ∈ chunk.getLast?, (s.applyLocked E chunk force).1.TopIs E last := by
      intro last hmem
      obtain ⟨p, hp, hlastp⟩ := mapM_ok_getLast hprepared hmem
      obtain ⟨-, hpheight, -, -, pid, hpid, hown⟩ := prepareBlock_ok hlastp
      obtain ⟨htip, hindexed⟩ := hlast p.1 (by rw [List.getLast?_map, hp]; rfl)
      have hsame : ∀ id, last.id = some id → p.1.id = some id := by
        intro id hid
        rcases hown with hown | ⟨hnone, -⟩
        · rw [hpid, ← hown, hid]
        · rw [hid] at hnone
          cases hnone
      refine ⟨by rw [hsheight, htip, hpheight], fun id hid => ?_, p, hlastp, ?_⟩
      · rw [hsids, hsheight]
        exact hindexed id (hsame id hid)
      · obtain ⟨init, rfl⟩ := List.getLast?_eq_some_iff.mp hp
        rw [hsblocks, hsheight, htip]
        exact writeBlocks_top c.stored
    refine ⟨⟨hindex, ?_⟩, fun _ => htop⟩
    cases hlastp : prepared.getLast? with
    | none =>
        obtain rfl := List.getLast?_eq_none_iff.mp hlastp
        obtain hsame := foldlM_nil_ok.mp c.stored
        rw [hsblocks, hsids, hsheight, ← hsame, hblocks, hids, hheight]
        exact h.tip
    | some p =>
        obtain ⟨init, rfl⟩ := List.getLast?_eq_some_iff.mp hlastp
        obtain ⟨-, id, hid, -⟩ := hrecorded p (by simp)
        obtain ⟨htip, hindexed⟩ := hlast p.1 (by rw [List.getLast?_map, hlastp]; rfl)
        refine .inr ⟨?_, id, ?_⟩
        · rw [hsblocks, hsheight, htip, writeBlocks_top c.stored]
          rfl
        · rw [hsids, hsheight]
          exact hindexed id hid

theorem applyChunks_rooted {chunks : List (List Block)} (h : s.Rooted E)
    (hsound : ∀ b ∈ chunks.flatten, Sound E b)
    (hchain : chunks.flatten.IsChain Follows) (hne : ∀ c ∈ chunks, c ≠ [])
    (hfirst : ∀ first ∈ chunks.flatten.head?, Attached s first) :
    (s.applyChunks E chunks force).1.Rooted E ∧
    ((s.applyChunks E chunks force).2 = .ok () → ∀ last ∈ chunks.flatten.getLast?,
      (s.applyChunks E chunks force).1.TopIs E last) := by
  induction chunks generalizing s with
  | nil =>
      refine ⟨h, fun _ last hlast => ?_⟩
      cases hlast
  | cons c rest ih =>
      have hcne : c ≠ [] := hne c List.mem_cons_self
      rw [List.flatten_cons] at hsound hchain hfirst
      obtain ⟨hchunk, hrest, hlink⟩ := List.isChain_append.mp hchain
      have hhead : ∀ first ∈ c.head?, Attached s first := by
        intro first hmem
        apply hfirst
        rw [List.head?_append_of_ne_nil _ hcne]
        exact hmem
      obtain ⟨hdone, htop⟩ := @applyLocked_rooted E s force c h
        (fun b hb => hsound b (List.mem_append_left _ hb)) hchunk hhead
      rw [Store.applyChunks_cons, List.flatten_cons]
      unfold Outcome.andThen
      split
      · rename_i hok
        obtain ⟨last, hlast⟩ := Option.isSome_iff_exists.mp (List.getLast?_isSome.mpr hcne)
        have hknown := (htop hok last hlast).known
        obtain ⟨hall, hend⟩ := ih hdone (fun b hb => hsound b (List.mem_append_right _ hb))
          hrest
          (fun d hd => hne d (List.mem_cons_of_mem c hd)) (by
            intro first hmem
            have hfollows := hlink last hlast first hmem
            refine .inr ?_
            rw [hknown _ hfollows.2]
            rfl)
        refine ⟨hall, fun hfine final hfinal => ?_⟩
        cases rest with
        | nil =>
            rw [List.flatten_nil, List.append_nil] at hfinal
            exact htop hok final hfinal
        | cons d rest =>
            have hdne : (d :: rest).flatten ≠ [] := by
              rw [List.flatten_cons]
              exact List.append_ne_nil_of_left_ne_nil (hne d (by simp)) _
            rw [List.getLast?_append_of_ne_nil _ hdne] at hfinal
            exact hend hfine final hfinal
      · rename_i herror
        refine ⟨hdone, fun hok => ?_⟩
        rw [herror] at hok
        cases hok

/-- Blocks on the tip, whether all of them are written or not. -/
theorem applyBlocks_rooted {blocks : List Block} (h : s.Rooted E)
    (hsound : ∀ b ∈ blocks, Sound E b)
    (hchain : blocks.IsChain Follows)
    (hfirst : ∀ first ∈ blocks.head?, Attached s first) :
    (s.applyBlocks E blocks).1.Rooted E ∧
    ((s.applyBlocks E blocks).2 = .ok () → ∀ last ∈ blocks.getLast?,
      (s.applyBlocks E blocks).1.TopIs E last) := by
  have hflatten := Store.chunks_flatten E s blocks
  rw [Store.applyBlocks_eq_applyChunks]
  have hdone := @applyChunks_rooted E s (s.forcesUndo blocks) (s.chunks E blocks) h
  rw [hflatten] at hdone
  exact hdone hsound hchain (chunks_ne_nil E s blocks) hfirst

end Apply

end SthCore
