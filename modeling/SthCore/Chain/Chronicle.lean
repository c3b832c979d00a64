import SthCore.Chain.Run
import SthCore.Storage.Reverted

/-!
Whole histories of a node: calls of `sync::apply_blocks`, whether they succeed
or not, and rollbacks of the last block, in any order.  A proof about all of
them follows the rules of a call from sub-batch to sub-batch beside the store.
-/

namespace SthCore

open SthCore.Lib

namespace Chain

/-- Heights that follow one another. -/
def Successive (blocks : List Block) : Prop := blocks.IsChain fun a b => b.height = a.height + 1

/-- Calls with verification, whatever tip they were given, and rollbacks; with conditions on the
sub-batches and on the stores before rollbacks. -/
inductive Chronicle (P : Primitives) (N : Network) (good : Condition) (keep : Store → Prop)
    (s₀ : Store) : Store → Prop
  | start : Chronicle P N good keep s₀ s₀
  | call {s : Store} (now : Int) (blocks : List Block) (tip : Sync.ChainTip) :
      Chronicle P N good keep s₀ s → CallMeets good ⟨P, N, now⟩ s blocks →
      Chronicle P N good keep s₀ (Sync.applyBlocks ⟨P, N, now⟩ s blocks tip true).1
  | rollback {s : Store} (now : Int) :
      Chronicle P N good keep s₀ s → keep s →
      Chronicle P N good keep s₀ (s.rollbackLastBlock ⟨P, N, now⟩).1
  | setUndo {s : Store} (on : Bool) :
      Chronicle P N good keep s₀ s → Chronicle P N good keep s₀ { s with undoEnabled := on }

/-- A sub-batch of an accepted call: the rules, which read the store at the start of the call,
go from `b` to `b'` while the store goes from `s` to `s'`. -/
structure CallStep (P : Primitives) (N : Network) (good : Condition) (start : Store)
    (b : Sync.Batch) (s : Store) (blocks : List Block) (b' : Sync.Batch) (s' : Store)
    extends Step P N good s blocks s' where
  nonempty : blocks ≠ []
  heights : Successive blocks
  positive : ∀ block ∈ blocks, 0 < block.height
  rules : blocks.foldlM (Sync.checkBlock ⟨P, N, now⟩ start) b = .ok b'
  /-- Only a block that is written alone leaves an undo record. -/
  alone : s'.undo = s.undo ∨ ∃ block, blocks = [block]

variable {P : Primitives} {N : Network} {good : Condition} {keep : Store → Prop}

theorem link_successive {E : Env} {tip tip' : Sync.ChainTip} {blocks : List Block}
    (h : blocks.foldlM (Sync.link E) tip = .ok tip') :
    Successive blocks ∧ (∀ b ∈ blocks, 0 < b.height) ∧
      ∀ b ∈ blocks.head?, b.height = tip.height + 1 := by
  induction blocks generalizing tip with
  | nil => exact ⟨List.isChain_nil, by simp, by simp⟩
  | cons first rest ih =>
      obtain ⟨tip₁, hfirst, hrest⟩ := foldlM_cons_ok.mp h
      obtain ⟨hchain, hpos, hnext⟩ := ih hrest
      obtain ⟨hheight, -, -, id, -, rfl⟩ := Sync.link_eq_ok.mp hfirst
      refine ⟨?_, ?_, ?_⟩
      · refine List.isChain_cons.mpr ⟨?_, hchain⟩
        intro b hb
        exact hnext b hb
      · intro b hb
        rcases List.mem_cons.mp hb with rfl | hb
        · omega
        · exact hpos b hb
      · intro b hb
        obtain rfl := Option.mem_some_iff.mp hb
        exact hheight

/-- What an accepted call has checked of its blocks. -/
structure Accepted (E : Env) (s : Store) (blocks : List Block) (b : Sync.Batch) : Prop where
  verified : ∀ block ∈ blocks, Verified E block
  heights : Successive blocks
  positive : ∀ block ∈ blocks, 0 < block.height
  rules : Sync.checkStatefulRules E s blocks = .ok b

theorem accepted_of_checkBlocks {E : Env} {s : Store} {blocks : List Block}
    {tip tip' : Sync.ChainTip} (h : Sync.checkBlocks E s blocks tip true = .ok tip') :
    ∃ b, Accepted E s blocks b := by
  obtain ⟨tip₁, hlink, hcheck⟩ := bind_eq_ok.mp h
  obtain ⟨u, hcrypto, hcheck⟩ := bind_eq_ok.mp hcheck
  simp only [if_true] at hcheck
  obtain ⟨b, hrules, -⟩ := bind_eq_ok.mp hcheck
  obtain ⟨hheights, hpos, -⟩ := link_successive hlink
  exact ⟨b, fun block hblock => Sync.checkCrypto_verified (Sync.forM_ok_mem hcrypto block hblock),
    hheights, hpos, hrules⟩

/-- What each sub-batch of a call preserves along with the rules, the call preserves. -/
theorem applyChunks_simulation {now : Int} {force : Bool} {start : Store}
    {Sim : Sync.Batch → Store → Prop}
    (hstep : ∀ b s c b' s', CallStep P N good start b s c b' s' → Sim b s → Sim b' s')
    {chunks : List (List Block)} {b b' : Sync.Batch} {s : Store}
    (hv : ∀ block ∈ chunks.flatten, Verified ⟨P, N, now⟩ block)
    (hheights : Successive chunks.flatten) (hpos : ∀ block ∈ chunks.flatten, 0 < block.height)
    (hmeets : EachChunk good ⟨P, N, now⟩ force s chunks)
    (halone : (force || s.undoEnabled) = false ∨ ∀ c ∈ chunks, ∃ block, c = [block])
    (hrules : chunks.flatten.foldlM (Sync.checkBlock ⟨P, N, now⟩ start) b = .ok b')
    (hsim : Sim b s) : ∃ b'', Sim b'' (s.applyChunks ⟨P, N, now⟩ chunks force).1 := by
  induction chunks generalizing b s with
  | nil => exact ⟨b, hsim⟩
  | cons c rest ih =>
      rw [List.flatten_cons, List.foldlM_append] at hrules
      obtain ⟨b₁, hc, hrest⟩ := bind_eq_ok.mp hrules
      rw [List.flatten_cons] at hv hheights hpos
      obtain ⟨hfirst, hlater, -⟩ := List.isChain_append.mp hheights
      rw [Store.applyChunks_cons]
      by_cases hempty : c = []
      · obtain ⟨e, he⟩ := Store.applyLocked_nil ⟨P, N, now⟩ s force
        rw [hempty, he]
        exact ⟨b, hsim⟩
      rcases Store.applyLocked_cases ⟨P, N, now⟩ s c force with
        ⟨e, he⟩ | ⟨prepared, hprepared, ⟨committed⟩⟩
      · rw [he]
        exact ⟨b, hsim⟩
      · have hdone := hstep b s c b₁ _
          { now, verified := fun block hblock => hv block (List.mem_append_left _ hblock)
            meets := hmeets.1, prepared, prepare := hprepared, committed
            nonempty := hempty
            heights := hfirst
            positive := fun block hblock => hpos block (List.mem_append_left _ hblock)
            rules := hc
            alone := halone.imp (Store.applyLocked_unlogged c) fun h => h c List.mem_cons_self }
          hsim
        unfold Outcome.andThen
        split
        · rename_i hok
          exact ih (fun block hblock => hv block (List.mem_append_right _ hblock)) hlater
            (fun block hblock => hpos block (List.mem_append_right _ hblock))
            (hmeets.2 _ (Prod.ext rfl hok))
            (by
              rw [Store.applyLocked_undoEnabled]
              exact halone.imp_right fun h d hd => h d (List.mem_cons_of_mem c hd))
            hrest hdone
        · exact ⟨b₁, hdone⟩

/-- The induction over a history: `Sim start b s` relates, inside a call, the store at its start,
the state of the rules and the store so far. -/
theorem Chronicle.induction {I : Store → Prop} (Sim : Store → Sync.Batch → Store → Prop)
    (hopen : ∀ s, I s → Sim s {} s) (hclose : ∀ start b s, Sim start b s → I s)
    (hstep : ∀ start b s c b' s', CallStep P N good start b s c b' s' → Sim start b s →
      Sim start b' s')
    (hback : ∀ now s s', Store.RolledBack ⟨P, N, now⟩ s s' → keep s → I s → I s')
    (hcerts : ∀ s certs, I s → I { s with finality := certs })
    (hundo : ∀ s on, I s → I { s with undoEnabled := on })
    {s₀ s : Store} (h : Chronicle P N good keep s₀ s) (hstart : I s₀) : I s := by
  induction h with
  | start => exact hstart
  | call now blocks tip hrun hmeets ih =>
      rename_i s
      unfold Sync.applyBlocks
      split
      · exact ih
      · rename_i tip' hchecked
        obtain ⟨b, haccepted⟩ := accepted_of_checkBlocks hchecked
        have hflat := Store.chunks_flatten ⟨P, N, now⟩ s blocks
        have heach := hmeets.each
        have halone := Store.chunks_alone ⟨P, N, now⟩ s blocks
        rw [Store.applyBlocks_eq_applyChunks]
        generalize s.chunks ⟨P, N, now⟩ blocks = chunks at hflat heach halone
        rw [← hflat] at haccepted
        obtain ⟨b', hsim⟩ := applyChunks_simulation (hstep s) haccepted.verified
          haccepted.heights haccepted.positive heach halone haccepted.rules (hopen s ih)
        exact hclose s b' _ hsim
  | rollback now hrun hkeep ih =>
      rename_i s
      cases hresult : s.rollbackLastBlock ⟨P, N, now⟩ with
      | mk s' result =>
          cases result with
          | error e =>
              obtain ⟨certs, rfl⟩ := Store.rollbackLastBlock_error hresult
              exact hcerts s certs ih
          | ok tip =>
              obtain ⟨-, ⟨r⟩⟩ := Store.rollbackLastBlock_eq_ok hresult
              exact hback now s s' r hkeep ih
  | setUndo on hrun ih => exact hundo _ on ih

/-- The induction where a sub-batch needs nothing of the rules. -/
theorem Chronicle.induction_step {I : Store → Prop}
    (hstep : ∀ start b s c b' s', CallStep P N good start b s c b' s' → I s → I s')
    (hback : ∀ now s s', Store.RolledBack ⟨P, N, now⟩ s s' → keep s → I s → I s')
    (hcerts : ∀ s certs, I s → I { s with finality := certs })
    (hundo : ∀ s on, I s → I { s with undoEnabled := on })
    {s₀ s : Store} (h : Chronicle P N good keep s₀ s) (hstart : I s₀) : I s :=
  h.induction (fun _ _ s => I s) (fun _ hs => hs) (fun _ _ _ hs => hs) hstep hback hcerts
    hundo hstart

/-! ## The rules and the deltas side by side -/

section Beside

variable {E : Env} {start s : Store} {batch : List Block}
  {R : List (Block × Transaction) → Sync.Batch → Deltas → Prop}

/-- The transactions of one block, checked and accumulated. -/
theorem transactions_beside {block : Block}
    (htx : ∀ done b b' ds tx index address ops, tx ∈ block.transactions →
      Sync.checkTx E start block b tx = .ok b' →
      E.addressOf tx.senderPublicKey = .ok address →
      Accumulate.effect E s batch block index tx address (ds.run [(address, .spend tx)]) =
        .ok ops →
      R done b ds → R (done ++ [(block, tx)]) b' (ds.run ((address, .spend tx) :: ops)))
    {txs : List Transaction} (hmem : ∀ tx ∈ txs, tx ∈ block.transactions) {first : Nat}
    {done : List (Block × Transaction)} {b b' : Sync.Batch} {ds ds' : Deltas}
    (hrules : txs.foldlM (Sync.checkTx E start block) b = .ok b')
    (h : (txs.zipIdx first).foldlM (fun ds e =>
      Accumulate.transaction E s batch block e.1 e.2 ds) ds = .ok ds')
    (hR : R done b ds) : R (done ++ txs.map fun tx => (block, tx)) b' ds' := by
  induction txs generalizing first done b ds with
  | nil =>
      rw [List.foldlM_nil, pure_eq_ok] at hrules
      rw [List.zipIdx_nil, List.foldlM_nil, pure_eq_ok] at h
      rw [← hrules, ← h, List.map_nil, List.append_nil]
      exact hR
  | cons tx rest ih =>
      obtain ⟨b₁, hcheck, hrules⟩ := foldlM_cons_ok.mp hrules
      rw [List.zipIdx_cons] at h
      obtain ⟨ds₁, hstep, hrest⟩ := foldlM_cons_ok.mp h
      obtain ⟨address, ops, haddress, hops, rfl⟩ := Accumulate.transaction_eq_ok hstep
      have hone := htx done b b₁ ds tx first address ops (hmem tx List.mem_cons_self) hcheck
        haddress hops hR
      have hall := ih (fun t ht => hmem t (List.mem_cons_of_mem tx ht)) hrules hrest hone
      rwa [List.append_assoc] at hall

/-- What the rules and the deltas of each transaction keep together. -/
theorem batch_beside
    (hforge : ∀ done b ds block ops, block ∈ batch → Accumulate.forger E block = .ok ops →
      R done b ds → R done b (ds.run ops))
    (htx : ∀ done b b' ds block tx index address ops, block ∈ batch → tx ∈ block.transactions →
      Sync.checkTx E start block b tx = .ok b' →
      E.addressOf tx.senderPublicKey = .ok address →
      Accumulate.effect E s batch block index tx address (ds.run [(address, .spend tx)]) =
        .ok ops →
      R done b ds → R (done ++ [(block, tx)]) b' (ds.run ((address, .spend tx) :: ops)))
    (hcredit : ∀ done b ds block, R done b ds → R done (Sync.creditForger E b block) ds)
    {b b' : Sync.Batch} {ds : Deltas}
    (hrules : batch.foldlM (Sync.checkBlock E start) b = .ok b')
    (h : batchDeltas E s batch = .ok ds) (hR : R [] b ∅) : R (Accumulate.placed batch) b' ds := by
  suffices hgen : ∀ (l done : List Block) (b : Sync.Batch) (ds₀ : Deltas),
      (∀ block ∈ l, block ∈ batch) → R (Accumulate.placed done) b ds₀ →
      l.foldlM (Sync.checkBlock E start) b = .ok b' →
      l.foldlM (fun ds block => accumulateDeltas E s batch block ds) ds₀ = .ok ds →
      R (Accumulate.placed (done ++ l)) b' ds by
    simpa using hgen batch [] b ∅ (fun block hblock => hblock) hR hrules h
  intro l
  induction l with
  | nil =>
      intro done b ds₀ _ hR hrules hfold
      rw [List.foldlM_nil, pure_eq_ok] at hrules hfold
      rw [← hrules, ← hfold, List.append_nil]
      exact hR
  | cons block rest ih =>
      intro done b ds₀ hmem hR hrules hfold
      obtain ⟨b₁, hcheck, hrules⟩ := foldlM_cons_ok.mp hrules
      obtain ⟨u, -, hcheck⟩ := bind_eq_ok.mp hcheck
      obtain ⟨b₂, hchecked, hcheck⟩ := bind_eq_ok.mp hcheck
      rw [pure_eq_ok] at hcheck
      obtain ⟨ds₁, hblock, hrest⟩ := foldlM_cons_ok.mp hfold
      obtain ⟨ops, hops, htxs⟩ := bind_eq_ok.mp hblock
      have hin := hmem block List.mem_cons_self
      have hforged := hforge _ b ds₀ block ops hin hops hR
      have hdone := transactions_beside (fun done b b' ds tx index address ops htx' =>
        htx done b b' ds block tx index address ops hin htx') (fun _ h => h) hchecked htxs hforged
      have hplaced : Accumulate.placed done ++ block.transactions.map (fun tx => (block, tx)) =
          Accumulate.placed (done ++ [block]) := by
        rw [Accumulate.placed_append]
        simp [Accumulate.placed]
      rw [hplaced] at hdone
      have hnext := hcredit _ b₂ ds₁ block hdone
      rw [hcheck] at hnext
      have hall := ih (done ++ [block]) b₁ ds₁ (fun c hc => hmem c (List.mem_cons_of_mem block hc))
        hnext hrules hrest
      rwa [List.append_assoc] at hall

end Beside

end Chain

end SthCore
