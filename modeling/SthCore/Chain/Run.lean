import SthCore.Chain.Verified

/-!
Runs of `sync::apply_blocks` with verification.  The clock may change from call
to call, and undo records may be switched on and off between calls; a condition
on the steps is stated for each sub-batch and the store it is applied to.
-/

namespace SthCore

open SthCore.Lib

namespace Chain

/-- A condition on a sub-batch and the store before it. -/
abbrev Condition := Env → Store → List Block → Prop

/-- Sub-batches that each meet a condition on the store they are applied to. -/
def EachChunk (good : Condition) (E : Env) (force : Bool) : Store → List (List Block) → Prop
  | _, [] => True
  | s, c :: rest =>
      good E s c ∧ ∀ s', s.applyLocked E c force = (s', .ok ()) → EachChunk good E force s' rest

/-- Every sub-batch of a call meets the condition. -/
structure CallMeets (good : Condition) (E : Env) (s : Store) (blocks : List Block) : Prop where
  each : EachChunk good E (s.forcesUndo blocks) s (s.chunks E blocks)

/-- Accepted calls one after another, whose sub-batches all meet a condition:
first store and tip, the blocks applied, last store and tip. -/
inductive Run (P : Primitives) (N : Network) (good : Condition) (s : Store)
    (tip : Sync.ChainTip) : List Block → Store → Sync.ChainTip → Prop
  | refl : Run P N good s tip [] s tip
  | step {s₁ s₂ : Store} {tip₁ tip₂ : Sync.ChainTip} {chain blocks : List Block} (now : Int) :
      Run P N good s tip chain s₁ tip₁ →
      Sync.applyBlocks ⟨P, N, now⟩ s₁ blocks tip₁ true = (s₂, .ok tip₂) →
      CallMeets good ⟨P, N, now⟩ s₁ blocks →
      Run P N good s tip (chain ++ blocks) s₂ tip₂
  | setUndo {s₁ : Store} {tip₁ : Sync.ChainTip} {chain : List Block} (on : Bool) :
      Run P N good s tip chain s₁ tip₁ →
      Run P N good s tip chain { s₁ with undoEnabled := on } tip₁

/-- No condition at all. -/
def unconditional : Condition := fun _ _ _ => True

theorem callMeets_unconditional (E : Env) (s : Store) (blocks : List Block) :
    CallMeets unconditional E s blocks := by
  constructor
  generalize s.chunks E blocks = chunks
  generalize s.forcesUndo blocks = force
  induction chunks generalizing s with
  | nil => trivial
  | cons c rest ih => exact ⟨trivial, fun s' _ => ih s'⟩

/-- A call with one block has one sub-batch. -/
theorem callMeets_single {good : Condition} {E : Env} {s : Store} {block : Block}
    (h : good E s [block]) : CallMeets good E s [block] :=
  ⟨h, fun _ _ => trivial⟩

/-- A run of one call. -/
theorem Run.single {P : Primitives} {N : Network} {good : Condition} {s : Store}
    {tip tip' : Sync.ChainTip} {blocks : List Block} (now : Int)
    (h : (Sync.applyBlocks ⟨P, N, now⟩ s blocks tip true).2 = .ok tip')
    (hmeets : CallMeets good ⟨P, N, now⟩ s blocks) :
    Run P N good s tip blocks (Sync.applyBlocks ⟨P, N, now⟩ s blocks tip true).1 tip' :=
  Run.step now Run.refl (Prod.ext rfl h) hmeets

/-- One more call. -/
theorem Run.next {P : Primitives} {N : Network} {good : Condition} {s s₁ : Store}
    {tip tip₁ tip₂ : Sync.ChainTip} {chain blocks : List Block} (now : Int)
    (hrun : Run P N good s tip chain s₁ tip₁)
    (h : (Sync.applyBlocks ⟨P, N, now⟩ s₁ blocks tip₁ true).2 = .ok tip₂)
    (hmeets : CallMeets good ⟨P, N, now⟩ s₁ blocks) :
    Run P N good s tip (chain ++ blocks)
      (Sync.applyBlocks ⟨P, N, now⟩ s₁ blocks tip₁ true).1 tip₂ :=
  Run.step now hrun (Prod.ext rfl h) hmeets

/-- One committed sub-batch of verified blocks that met the condition. -/
structure Step (P : Primitives) (N : Network) (good : Condition) (s : Store) (blocks : List Block)
    (s' : Store) where
  now : Int
  verified : ∀ b ∈ blocks, Verified ⟨P, N, now⟩ b
  meets : good ⟨P, N, now⟩ s blocks
  prepared : List (Block × List Bytes)
  prepare : blocks.mapM (prepareBlock ⟨P, N, now⟩) = .ok prepared
  committed : Store.Committed ⟨P, N, now⟩ s prepared s'

namespace Step

variable {P : Primitives} {N : Network} {good : Condition} {s s' : Store} {blocks : List Block}

theorem prepared_blocks (st : Step P N good s blocks s') :
    st.prepared.map (fun p => p.1) = blocks :=
  prepared_eq st.verified st.prepare

/-- The deltas of the sub-batch. -/
theorem deltas (st : Step P N good s blocks s') :
    batchDeltas ⟨P, N, st.now⟩ s blocks = .ok st.committed.ds := by
  have h := st.committed.deltas
  rwa [st.prepared_blocks] at h

end Step

variable {P : Primitives} {N : Network} {good : Condition}

/-- What one step preserves, the sub-batches of a call preserve. -/
theorem applyChunks_induction {now : Int} {force : Bool} {R : List Block → Store → Prop}
    (hstep : ∀ chain s c s', Step P N good s c s' → R chain s → R (chain ++ c) s')
    {chunks : List (List Block)} {chain : List Block} {s s' : Store}
    (hv : ∀ b ∈ chunks.flatten, Verified ⟨P, N, now⟩ b)
    (hmeets : EachChunk good ⟨P, N, now⟩ force s chunks)
    (h : s.applyChunks ⟨P, N, now⟩ chunks force = (s', .ok ())) (hR : R chain s) :
    R (chain ++ chunks.flatten) s' := by
  induction chunks generalizing chain s with
  | nil =>
      rw [Store.applyChunks_nil] at h
      obtain ⟨rfl, -⟩ := Prod.mk.inj h
      simpa using hR
  | cons c rest ih =>
      obtain ⟨s₁, hc, hrest⟩ := Store.applyChunks_cons_eq_ok.mp h
      obtain ⟨prepared, hprepare, ⟨committed⟩⟩ := Store.applyLocked_eq_ok hc
      have hvc : ∀ b ∈ c, Verified ⟨P, N, now⟩ b := fun b hb => hv b (by simp [hb])
      rw [List.flatten_cons, ← List.append_assoc]
      refine ih (fun b hb => hv b ?_) (hmeets.2 s₁ hc) hrest ?_
      · rw [List.flatten_cons, List.mem_append]
        exact .inr hb
      · exact hstep chain s c s₁ ⟨now, hvc, hmeets.1, prepared, hprepare, committed⟩ hR

/-- What one step preserves, a run preserves. -/
theorem Run.induction {R : List Block → Store → Prop} {s : Store} {tip : Sync.ChainTip}
    (hstart : R [] s)
    (hundo : ∀ chain s on, R chain s → R chain { s with undoEnabled := on })
    (hstep : ∀ chain s c s', Step P N good s c s' → R chain s → R (chain ++ c) s')
    {chain : List Block} {s' : Store} {tip' : Sync.ChainTip} (h : Run P N good s tip chain s' tip') :
    R chain s' := by
  induction h with
  | refl => exact hstart
  | step now hrun hcall hmeets ih =>
      rename_i s₁ s₂ tip₁ tip₂ chain blocks
      obtain ⟨-, hv, -, happly⟩ := Sync.applyBlocks_eq_ok hcall
      rw [Store.applyBlocks_eq_applyChunks] at happly
      have hflat := Store.chunks_flatten ⟨P, N, now⟩ s₁ blocks
      have hR := applyChunks_induction hstep (by rwa [hflat]) hmeets.each happly ih
      rwa [hflat] at hR
  | setUndo on hrun ih => exact hundo _ _ on ih

end Chain

end SthCore
