import SthCore.Chain.Linkage
import SthCore.Chain.Run

/-!
How far back the last blocks can be taken: what a refused rollback leaves
behind, and how deep the undo records reach.
-/

namespace SthCore

open SthCore.Lib

namespace Store

/-! ## Refused rollbacks -/

/-- `rollback_last_block` with what reading the undo record of the last block gives: nothing, a
record that does not parse, or the record. -/
def rollbackReading (E : Env) (s : Store) (read : Option (Except Error UndoRecord)) :
    Store × Except Error Nat :=
  let height := s.lastHeight
  if height ≤ 1 then (s, .error (.sync "cannot roll back the genesis block"))
  else
    match s.passFinality E height with
    | .error e => (s, .error e)
    | .ok s =>
        match s.getBlockByHeight E height, read with
        | .error e, _ => (s, .error e)
        | .ok none, _ => (s, .error (.notFound s!"block {height}"))
        | .ok (some _), none => (s, .error (.sync s!"no undo record for block {height}"))
        | .ok (some _), some (.error e) => (s, .error e)
        | .ok (some block), some (.ok undo) =>
            match s.revert E height block undo with
            | .error e => (s, .error e)
            | .ok s => ((s.dropMissedAt height).dropRound E height, .ok (height - 1))

/-- Stored undo records parse. -/
theorem rollbackLastBlock_eq_reading (E : Env) (s : Store) :
    s.rollbackLastBlock E = s.rollbackReading E ((s.undo[s.lastHeight]?).map .ok) := by
  unfold rollbackLastBlock rollbackReading
  simp only
  split_ifs
  · rfl
  · cases hpass : s.passFinality E s.lastHeight with
    | error e => rfl
    | ok t =>
        have hundo : t.undo[s.lastHeight]? = s.undo[s.lastHeight]? := by
          obtain ⟨certs, rfl⟩ := passFinality_eq_ok hpass
          rfl
        simp only
        rw [hundo]
        rcases t.getBlockByHeight E s.lastHeight with e | none | block
        · rfl
        · rfl
        · cases s.undo[s.lastHeight]? <;> rfl

/-- The store after the finality check of a rollback. -/
def passed (E : Env) (s : Store) : Store :=
  if s.lastHeight ≤ 1 then s
  else
    match s.passFinality E s.lastHeight with
    | .error _ => s
    | .ok s => s

theorem rollbackReading_error {E : Env} {s : Store} {read : Option (Except Error UndoRecord)}
    {e : Error} (h : (s.rollbackReading E read).2 = .error e) :
    (s.rollbackReading E read).1 = s.passed E := by
  unfold rollbackReading passed at *
  simp only at h ⊢
  split_ifs at h ⊢
  · rfl
  · cases hpass : s.passFinality E s.lastHeight with
    | error e => rfl
    | ok t =>
        rw [hpass] at h
        simp only at h ⊢
        split at h <;> try rfl
        split at h
        · rfl
        · cases h

/-- The last block is certified, and the soft mode drops its certificate. -/
def DropsCertificate (E : Env) (s : Store) : Prop :=
  1 < s.lastHeight ∧ (E.network.milestone s.lastHeight).finality.active = false ∧
    ∃ cert, s.latestFinalityCert = some cert ∧ s.lastHeight ≤ cert.height ∧
      (s.finality[cert.height]?).isSome

theorem finality_erase_ne {s : Store} {height : Nat} (h : (s.finality[height]?).isSome) :
    ({ s with finality := s.finality.erase height } : Store) ≠ s := by
  intro hsame
  have hfinality := congrArg (fun t : Store => t.finality[height]?) hsame
  simp only [OrderedMap.getElem?_erase_eq, if_true] at hfinality
  rw [← hfinality] at h
  cases h

theorem passed_eq_iff (E : Env) (s : Store) : s.passed E = s ↔ ¬ s.DropsCertificate E := by
  unfold passed DropsCertificate passFinality
  by_cases hgenesis : s.lastHeight ≤ 1
  · rw [if_pos hgenesis]
    refine iff_of_true rfl ?_
    rintro ⟨habove, -⟩
    omega
  rw [if_neg hgenesis]
  cases hlatest : s.latestFinalityCert with
  | none => simp
  | some cert =>
      by_cases hcertified : s.lastHeight ≤ cert.height
      · rw [Option.filter_some_pos (by simpa using hcertified)]
        by_cases hactive : (E.network.milestone s.lastHeight).finality.active = true
        · simp only [hactive, if_true]
          simp
        · simp only [if_neg hactive]
          constructor
          · rintro hsame ⟨-, -, cert', heq, -, hstored⟩
            obtain rfl := Option.some.inj heq
            exact finality_erase_ne hstored hsame
          · intro hkeeps
            have habsent : s.finality[cert.height]? = none := by
              by_contra hne
              exact hkeeps ⟨by omega, by simpa using hactive, cert, rfl, hcertified,
                Option.isSome_iff_ne_none.mpr hne⟩
            rw [OrderedMap.erase_of_none _ _ habsent]
      · rw [Option.filter_some_neg (by simpa using hcertified)]
        refine iff_of_true rfl ?_
        rintro ⟨-, -, cert', heq, hle, -⟩
        obtain rfl := Option.some.inj heq
        exact hcertified hle

/-- A refused rollback changes nothing exactly when it has no certificate to drop. -/
theorem rollback_error_unchanged (E : Env) (s : Store) (read : Option (Except Error UndoRecord))
    (e : Error) (h : (s.rollbackReading E read).2 = .error e) :
    (s.rollbackReading E read).1 = s ↔ ¬ s.DropsCertificate E := by
  rw [rollbackReading_error h]
  exact passed_eq_iff E s

/-! ## The depth of the undo records -/

/-- `oldest_undo_height`. -/
def oldestUndoHeight (s : Store) : Option Nat := s.undo.toList.head?.map fun e => e.1

theorem oldestUndoHeight_isSome {s : Store} {height : Nat} (h : s.oldestUndoHeight = some height) :
    (s.undo[height]?).isSome := by
  obtain ⟨e, he, rfl⟩ := Option.map_eq_some_iff.mp h
  have hmem := List.mem_of_mem_head? he
  rw [Std.ExtTreeMap.mem_toList_iff_getElem?_eq_some] at hmem
  rw [hmem]
  rfl

/-- The indexes of a block can be taken back: the wallets its transactions touch have addresses. -/
def Revertible (E : Env) (block : Block) : Prop :=
  ∀ tx ∈ block.transactions, tx.id.isSome → ∃ addresses, txAddresses E tx = .ok addresses

theorem undoSobj_ok {E : Env} (owners : OrderedMap Text Text) (s : Store) {tx : Transaction}
    (e : SmartObjectAsset) {sender : Text} (hsender : E.addressOf tx.senderPublicKey = .ok sender) :
    ∃ s', undoSobj E owners s tx e = .ok s' := by
  unfold undoSobj
  split
  · split <;> exact ⟨_, rfl⟩
  · split
    · exact ⟨_, rfl⟩
    · rename_i reg _
      cases owners[reg]? with
      | none =>
          simp only [hsender]
          exact ⟨_, rfl⟩
      | some o => exact ⟨_, rfl⟩
  · split
    · exact ⟨_, rfl⟩
    · rename_i reg _
      cases owners[reg]? with
      | none =>
          simp only [hsender]
          exact ⟨_, rfl⟩
      | some o => exact ⟨_, rfl⟩
  · exact ⟨_, rfl⟩

theorem undoTransaction_ok {E : Env} (height : Nat) (owners : OrderedMap Text Text)
    (symbols : List (Text × Text)) (s : Store) {e : Transaction × Nat}
    (h : e.1.id.isSome → ∃ addresses, txAddresses E e.1 = .ok addresses) :
    ∃ s', undoTransaction E height owners symbols s e = .ok s' := by
  unfold undoTransaction
  simp only
  cases hid : e.1.id with
  | none => exact ⟨s, rfl⟩
  | some id =>
      obtain ⟨addresses, haddresses⟩ := h (by rw [hid]; rfl)
      obtain ⟨sender, hsender, -⟩ := bind_eq_ok.mp haddresses
      simp only
      cases hasset : e.1.sobjAsset with
      | none =>
          simp only
          rw [ok_bind, haddresses]
          exact ⟨_, rfl⟩
      | some asset =>
          obtain ⟨s₁, hs₁⟩ := undoSobj_ok owners s asset hsender
          simp only
          rw [hs₁, ok_bind, haddresses]
          exact ⟨_, rfl⟩

theorem revert_ok {E : Env} (s : Store) (height : Nat) {block : Block} (undo : UndoRecord)
    (h : Revertible E block) : ∃ s', s.revert E height block undo = .ok s' := by
  have hfold : ∀ (l : List (Transaction × Nat)) (t : Store), (∀ e ∈ l, e.1 ∈ block.transactions) →
      ∀ owners symbols, ∃ t', l.foldlM (undoTransaction E height owners symbols) t = .ok t' := by
    intro l
    induction l with
    | nil => exact fun t _ _ _ => ⟨t, rfl⟩
    | cons e rest ih =>
        intro t hmem owners symbols
        obtain ⟨t₁, ht₁⟩ := undoTransaction_ok height owners symbols t
          (h e.1 (hmem e List.mem_cons_self))
        obtain ⟨t', ht'⟩ := ih t₁ (fun d hd => hmem d (List.mem_cons_of_mem e hd)) owners symbols
        exact ⟨t', foldlM_cons_ok.mpr ⟨t₁, ht₁, ht'⟩⟩
  unfold revert
  simp only
  obtain ⟨t, ht⟩ := hfold block.transactions.zipIdx _
    (fun e he => List.fst_mem_of_mem_zipIdx he) (previousOwners undo) _
  rw [ht]
  exact ⟨_, rfl⟩

/-- A block that is stored reads back as a block that can be taken back. -/
def Recoverable (E : Env) (s : Store) (height : Nat) : Prop :=
  ∃ record block, s.blocks[height]? = some record ∧ decodeBlock E record = .ok block ∧
    Revertible E block

theorem rollbackLastBlock_ok {E : Env} {s : Store} (habove : 1 < s.lastHeight)
    (hsoft : (E.network.milestone s.lastHeight).finality.active = false)
    (hlogged : (s.undo[s.lastHeight]?).isSome) (hstored : s.Recoverable E s.lastHeight) :
    ∃ s', s.rollbackLastBlock E = (s', .ok (s.lastHeight - 1)) := by
  obtain ⟨record, block, hrecord, hdecode, hrevertible⟩ := hstored
  obtain ⟨undo, hundo⟩ := Option.isSome_iff_exists.mp hlogged
  have hpass : ∃ certs, s.passFinality E s.lastHeight = .ok { s with finality := certs } := by
    unfold passFinality
    split
    · exact ⟨s.finality, rfl⟩
    · rename_i cert _
      rw [if_neg (by simp [hsoft])]
      exact ⟨_, rfl⟩
  obtain ⟨certs, hpass⟩ := hpass
  obtain ⟨s', hrevert⟩ := revert_ok { s with finality := certs } s.lastHeight undo hrevertible
  have hblock : ({ s with finality := certs } : Store).getBlockByHeight E s.lastHeight =
      .ok (some block) := by
    unfold getBlockByHeight
    simp only [hrecord, hdecode]
    rfl
  unfold rollbackLastBlock
  simp only
  rw [if_neg (by omega), hpass]
  simp only [hblock, hundo, hrevert]
  exact ⟨_, rfl⟩

/-- Every undo record is followed by the records of all blocks up to the tip, which can be taken
back, and no record is older than the depth of the log. -/
structure Deep (E : Env) (s : Store) : Prop where
  top : ∀ height, (s.undo[height]?).isSome → 0 < height ∧ height ≤ s.lastHeight
  near : ∀ height, (s.undo[height]?).isSome → s.lastHeight < height + undoDepth
  upward : ∀ height, (s.undo[height]?).isSome → ∀ next, height ≤ next → next ≤ s.lastHeight →
    (s.undo[next]?).isSome
  stored : ∀ height, (s.undo[height]?).isSome → s.Recoverable E height

theorem Deep.of_empty {E : Env} {s : Store} (h : s.undo = ∅) : s.Deep E := by
  have hnone : ∀ height : Nat, ¬ (s.undo[height]?).isSome := by
    intro height
    rw [h, Std.ExtTreeMap.getElem?_empty]
    simp
  exact ⟨fun _ h => absurd h (hnone _), fun _ h => absurd h (hnone _),
    fun _ h => absurd h (hnone _), fun _ h => absurd h (hnone _)⟩

theorem Deep.congr {E : Env} {s s' : Store} (h : s.Deep E) (hblocks : s'.blocks = s.blocks)
    (hundo : s'.undo = s.undo) (hheight : s'.lastHeight = s.lastHeight) : s'.Deep E := by
  refine ⟨?_, ?_, ?_, ?_⟩
  · rw [hundo, hheight]
    exact h.top
  · rw [hundo, hheight]
    exact h.near
  · rw [hundo, hheight]
    exact h.upward
  · unfold Recoverable
    rw [hundo, hblocks]
    exact h.stored

/-- Reading a record does not ask for the time. -/
theorem Deep.atTime {P : Primitives} {N : Network} {now : Int} {s : Store}
    (h : s.Deep ⟨P, N, now⟩) (now' : Int) : s.Deep ⟨P, N, now'⟩ :=
  ⟨h.top, h.near, h.upward, h.stored⟩

/-- A rollback takes the youngest record. -/
theorem RolledBack.deep {E : Env} {s s' : Store} (r : RolledBack E s s') (h : s.Deep E) :
    s'.Deep E := by
  obtain ⟨hblocks, -, hheight, -⟩ := r.chain
  have habove := r.above
  have hkept : ∀ height : Nat, (s'.undo[height]?).isSome → height ≠ s.lastHeight ∧
      (s.undo[height]?).isSome := by
    intro height hsome
    rw [r.undoLog, OrderedMap.getElem?_erase_eq] at hsome
    split_ifs at hsome with hlast
    · cases hsome
    · exact ⟨fun heq => hlast heq.symm, hsome⟩
  refine ⟨?_, ?_, ?_, ?_⟩
  · intro height hsome
    obtain ⟨hne, hsome⟩ := hkept height hsome
    obtain ⟨hpos, hle⟩ := h.top height hsome
    omega
  · intro height hsome
    have := h.near height (hkept height hsome).2
    omega
  · intro height hsome next hle hnext
    have hrecord := h.upward height (hkept height hsome).2 next hle (by omega)
    rwa [r.undoLog, OrderedMap.getElem?_erase_eq, if_neg (by omega)]
  · intro height hsome
    obtain ⟨hne, hsome⟩ := hkept height hsome
    obtain ⟨record, block, hrecord, hrest⟩ := h.stored height hsome
    refine ⟨record, block, ?_, hrest⟩
    rwa [hblocks, OrderedMap.getElem?_erase_eq, if_neg (fun heq => hne heq.symm)]

/-- As long as the records reach, `rollback_to` gets there. -/
theorem Deep.rollbackTo {E : Env} {s : Store} (h : s.Deep E) {oldest target : Nat}
    (holdest : (s.undo[oldest]?).isSome) (hpos : 1 ≤ target) (hreach : oldest - 1 ≤ target)
    (htop : target ≤ s.lastHeight)
    (hsoft : ∀ height, target < height → height ≤ s.lastHeight →
      (E.network.milestone height).finality.active = false) :
    (s.rollbackTo E target).2 = .ok target ∧ (s.rollbackTo E target).1.lastHeight = target := by
  suffices hgen : ∀ fuel (t : Store), t.Deep E → t.lastHeight = target + fuel →
      (0 < fuel → (t.undo[t.lastHeight]?).isSome ∧
        ∀ height : Nat, target < height → height ≤ t.lastHeight → (t.undo[height]?).isSome) →
      (∀ height, target < height → height ≤ t.lastHeight →
        (E.network.milestone height).finality.active = false) →
      (rollbackWhile E target fuel t t.lastHeight).2 = .ok target ∧
        (rollbackWhile E target fuel t t.lastHeight).1.lastHeight = target by
    refine hgen (s.lastHeight - target) s h (by omega) ?_ hsoft
    intro hfuel
    have hall : ∀ height : Nat, target < height → height ≤ s.lastHeight →
        (s.undo[height]?).isSome :=
      fun height hlow hhigh => h.upward oldest holdest height (by omega) hhigh
    exact ⟨hall s.lastHeight (by omega) le_rfl, hall⟩
  intro fuel
  induction fuel with
  | zero =>
      intro t _ htip _ _
      have htip : t.lastHeight = target := htip
      rw [rollbackWhile]
      exact ⟨congrArg Except.ok htip, htip⟩
  | succ fuel ih =>
      intro t ht htip hrecords hsoft
      obtain ⟨hlast, hall⟩ := hrecords (Nat.succ_pos fuel)
      obtain ⟨t', hback⟩ := rollbackLastBlock_ok (E := E) (s := t) (by omega)
        (hsoft t.lastHeight (by omega) le_rfl) hlast (ht.stored t.lastHeight hlast)
      obtain ⟨-, ⟨r⟩⟩ := rollbackLastBlock_eq_ok hback
      have hheight : t'.lastHeight = t.lastHeight - 1 := r.chain.2.2.1
      rw [rollbackWhile, if_neg (by omega), hback]
      simp only
      rw [← hheight]
      refine ih t' (r.deep ht) (by omega) ?_ fun height hlow hhigh =>
        hsoft height hlow (by omega)
      intro hfuel
      have hleft : ∀ height : Nat, target < height → height ≤ t'.lastHeight →
          (t'.undo[height]?).isSome := by
        intro height hlow hhigh
        rw [r.undoLog, OrderedMap.getElem?_erase_eq, if_neg (by omega)]
        exact hall height hlow (by omega)
      exact ⟨hleft t'.lastHeight (by omega) le_rfl, hleft⟩

end Store

namespace Chain

/-- Histories of the store under its lock: sub-batches, whatever was checked of them before,
rollbacks of the last block, and the undo switch. -/
inductive Sequence (P : Primitives) (N : Network)
    (good : Env → Store → List Block → Bool → Prop) (s₀ : Store) : Store → Prop
  | start : Sequence P N good s₀ s₀
  | batch {s : Store} (now : Int) (blocks : List Block) (force : Bool) :
      Sequence P N good s₀ s → good ⟨P, N, now⟩ s blocks force →
      Sequence P N good s₀ (s.applyLocked ⟨P, N, now⟩ blocks force).1
  | rollback {s : Store} (now : Int) :
      Sequence P N good s₀ s → Sequence P N good s₀ (s.rollbackLastBlock ⟨P, N, now⟩).1
  | setUndo {s : Store} (on : Bool) :
      Sequence P N good s₀ s → Sequence P N good s₀ { s with undoEnabled := on }

/-- The stored block reads back as one that can be taken back. -/
def ReadsRevertible (E : Env) (block : Block) : Prop :=
  ∀ p, prepareBlock E block = .ok p → ∃ d, decodeBlock E p.2 = .ok d ∧ Store.Revertible E d

/-- A sub-batch with an undo record is one block that reads back; one without is written only
while no undo record is stored. -/
def Loggable (E : Env) (s : Store) (blocks : List Block) (force : Bool) : Prop :=
  if force || s.undoEnabled then
    ∃ block, blocks = [block] ∧ 0 < block.height ∧ ReadsRevertible E block
  else s.undo = ∅

/-- One block committed on its own, with its undo record. -/
theorem Committed.deep {E : Env} {s s' : Store} {p : Block × List Bytes}
    (c : Store.Committed E s [p] s')
    (hlogged : s'.undo = (s.putUndo p.1.height (s.undoOf c.ds.toList)).undo)
    (hpos : 0 < p.1.height)
    (hback : ∃ d, decodeBlock E p.2 = .ok d ∧ Store.Revertible E d) (h : s.Deep E) :
    s'.Deep E := by
  obtain ⟨t, hstored, hlast⟩ := foldlM_cons_ok.mp c.stored
  rw [List.foldlM_nil, pure_eq_ok] at hlast
  obtain ⟨hblocks, hheight⟩ := Store.writeBlock_blocks hstored
  obtain ⟨hblocks₀, -, hheight₀, -⟩ := (Store.writeEntries_sameRecords c.written).chain
  obtain ⟨hblocks₁, -, hheight₁, -⟩ := c.same.chain
  rw [← hlast, hblocks, hblocks₀] at hblocks₁
  rw [← hlast, hheight, hheight₀] at hheight₁
  have htip : s.lastHeight = 0 ∨ p.1.height = s.lastHeight + 1 := by
    have htip := c.tip p rfl
    unfold Store.checkTip at htip
    simp only at htip
    split_ifs at htip with hzero hnext
    · exact .inl hzero
    · exact .inr (not_not.mp hnext)
  have htop : s'.lastHeight = p.1.height := by
    rw [hheight₁]
    omega
  have hkept : ∀ height : Nat, (s'.undo[height]?).isSome ↔ height = p.1.height ∨
      (s.undo[height]?).isSome ∧ height + undoDepth ≠ p.1.height := by
    intro height
    rw [hlogged]
    unfold Store.putUndo
    simp only
    split_ifs with hdeep
    · rw [OrderedMap.getElem?_erase_eq, OrderedMap.getElem?_insert_eq]
      by_cases hown : p.1.height = height
      · subst hown
        simp only [if_true, true_or, iff_true]
        rw [if_neg (by unfold undoDepth at hdeep ⊢; omega)]
        rfl
      · rw [if_neg hown]
        split_ifs with hold
        · simp only [Option.isSome_none, Bool.false_eq_true, false_iff, not_or, not_and, not_not]
          exact ⟨fun heq => hown heq.symm, fun _ => by omega⟩
        · constructor
          · intro hsome
            exact .inr ⟨hsome, by omega⟩
          · rintro (heq | ⟨hsome, -⟩)
            · exact absurd heq.symm hown
            · exact hsome
    · rw [OrderedMap.getElem?_insert_eq]
      by_cases hown : p.1.height = height
      · subst hown
        simp
      · rw [if_neg hown]
        constructor
        · intro hsome
          have := h.top height hsome
          exact .inr ⟨hsome, by omega⟩
        · rintro (heq | ⟨hsome, -⟩)
          · exact absurd heq.symm hown
          · exact hsome
  refine ⟨?_, ?_, ?_, ?_⟩
  · intro height hsome
    rcases (hkept height).mp hsome with rfl | ⟨hold, -⟩
    · omega
    · have := h.top height hold
      omega
  · intro height hsome
    rcases (hkept height).mp hsome with rfl | ⟨hold, hne⟩
    · unfold undoDepth
      omega
    · have := h.near height hold
      have := h.top height hold
      omega
  · intro height hsome next hle hnext
    rcases (hkept height).mp hsome with rfl | ⟨hold, hne⟩
    · obtain rfl : next = p.1.height := by omega
      exact hsome
    · by_cases hown : next = p.1.height
      · exact (hkept next).mpr (.inl hown)
      · have := h.near height hold
        have := h.top height hold
        exact (hkept next).mpr (.inr ⟨h.upward height hold next hle (by omega), by omega⟩)
  · intro height hsome
    unfold Store.Recoverable
    rw [hblocks₁]
    rcases (hkept height).mp hsome with rfl | ⟨hold, -⟩
    · obtain ⟨d, hdecode, hrevertible⟩ := hback
      exact ⟨p.2, d, by rw [OrderedMap.getElem?_insert_eq, if_pos rfl], hdecode, hrevertible⟩
    · obtain ⟨record, d, hrecord, hrest⟩ := h.stored height hold
      have := h.top height hold
      refine ⟨record, d, ?_, hrest⟩
      rwa [OrderedMap.getElem?_insert_eq, if_neg (by omega)]

theorem applyLocked_deep {P : Primitives} {N : Network} {now : Int} {s : Store}
    {blocks : List Block} {force : Bool} (h : s.Deep ⟨P, N, 0⟩)
    (hgood : Loggable ⟨P, N, now⟩ s blocks force) :
    (s.applyLocked ⟨P, N, now⟩ blocks force).1.Deep ⟨P, N, 0⟩ := by
  rcases Store.applyLocked_logs ⟨P, N, now⟩ s blocks force with
    ⟨e, he⟩ | ⟨prepared, hprepared, c, hlogs⟩
  · rw [he]
    exact h
  unfold Loggable at hgood
  unfold Store.Logs at hlogs
  split_ifs at hgood hlogs with hon
  · obtain ⟨block, rfl, hpos, hback⟩ := hgood
    obtain ⟨p, rest, hp, hrest, rfl⟩ := mapM_ok_cons.mp hprepared
    obtain rfl : [] = rest := pure_eq_ok.mp hrest
    obtain ⟨first, hfirst, hundo⟩ := hlogs
    obtain rfl := Option.some.inj hfirst
    refine (Committed.deep c hundo ?_ (hback p hp) (h.atTime now)).atTime 0
    rw [(prepareBlock_ok hp).2.1]
    exact hpos
  · refine Store.Deep.of_empty ?_
    rw [hlogs]
    exact hgood

/-- In every history whose undo-less sub-batches find no undo record, the records are followed by
the records of all later blocks. -/
theorem Sequence.deep {P : Primitives} {N : Network} {s : Store}
    (h : Sequence P N Loggable {} s) : s.Deep ⟨P, N, 0⟩ := by
  induction h with
  | start => exact Store.Deep.of_empty rfl
  | batch now blocks force _ hgood ih => exact applyLocked_deep ih hgood
  | rollback now _ ih =>
      rename_i s _
      cases hback : s.rollbackLastBlock ⟨P, N, now⟩ with
      | mk s' result =>
          cases result with
          | error e =>
              obtain ⟨certs, rfl⟩ := Store.rollbackLastBlock_error hback
              exact ih.congr rfl rfl rfl
          | ok tip =>
              obtain ⟨-, ⟨r⟩⟩ := Store.rollbackLastBlock_eq_ok hback
              exact (r.deep (ih.atTime now)).atTime 0
  | setUndo on _ ih => exact ih.congr rfl rfl rfl

/-- The oldest undo record tells how far `rollback_to` gets in soft mode. -/
theorem undo_depth_real {P : Primitives} {N : Network} {s : Store}
    (h : Sequence P N Loggable {} s) (now : Int) (oldest target : Nat)
    (holdest : s.oldestUndoHeight = some oldest) (hpos : 1 ≤ target)
    (hreach : oldest - 1 ≤ target) (htop : target ≤ s.lastHeight)
    (hsoft : ∀ height, target < height → height ≤ s.lastHeight →
      (N.milestone height).finality.active = false) :
    (s.rollbackTo ⟨P, N, now⟩ target).2 = .ok target ∧
      (s.rollbackTo ⟨P, N, now⟩ target).1.lastHeight = target :=
  (h.deep.atTime now).rollbackTo (Store.oldestUndoHeight_isSome holdest) hpos hreach htop hsoft

theorem Sequence.chunks {P : Primitives} {N : Network} {now : Int} {force : Bool}
    {good : Env → Store → List Block → Bool → Prop} {s₀ s : Store} (h : Sequence P N good s₀ s)
    {chunks : List (List Block)}
    (hmeets : EachChunk (fun E t c => good E t c force) ⟨P, N, now⟩ force s chunks) :
    Sequence P N good s₀ (s.applyChunks ⟨P, N, now⟩ chunks force).1 := by
  induction chunks generalizing s with
  | nil => exact h
  | cons c rest ih =>
      have hfirst := Sequence.batch now c force h hmeets.1
      rw [Store.applyChunks_cons]
      unfold Outcome.andThen
      split
      · rename_i hok
        exact ih hfirst (hmeets.2 _ (Prod.ext rfl hok))
      · exact hfirst

/-- A call of `apply_blocks` is a sequence of sub-batches. -/
theorem Sequence.call {P : Primitives} {N : Network}
    {good : Env → Store → List Block → Bool → Prop} {s₀ s : Store} (h : Sequence P N good s₀ s)
    (now : Int) (blocks : List Block)
    (hmeets : CallMeets (fun E t c => good E t c (s.forcesUndo blocks)) ⟨P, N, now⟩ s blocks) :
    Sequence P N good s₀ (s.applyBlocks ⟨P, N, now⟩ blocks).1 := by
  rw [Store.applyBlocks_eq_applyChunks]
  exact h.chunks hmeets.each

end Chain

namespace Reference

/-- Two blocks in bulk mode leave no undo record. -/
def bulkStore : Store := (({} : Store).applyBlocks linkEnv [genesis, ownBlock]).1

/-- The last of them is certified. -/
def certifiedStore : Store :=
  bulkStore.putFinalityCert { height := 2, blockId := ownBlock.id.getD "" }

/-- Two blocks in bulk mode on a first block with an undo record. -/
def mixedStore : Store := (genesisStore.applyBlocks linkEnv [ownBlock, childBlock]).1

end Reference

open Reference

/-- No block of the bulk can be taken back, certified or not. -/
theorem bulk_refused :
    ((bulkStore.rollbackReading linkEnv none).2.toOption = none ∧
      bulkStore.latestFinalityCert.isNone) ∧
    (certifiedStore.rollbackLastBlock linkEnv).2.toOption = none ∧
      (certifiedStore.finality[2]?).isSome ∧
      ((certifiedStore.rollbackLastBlock linkEnv).1.finality[2]?).isNone := by
  decide +kernel

theorem rollback_error_unchanged_bulk :
    ∃ e, (bulkStore.rollbackReading linkEnv none).2 = .error e ∧
      (bulkStore.rollbackReading linkEnv none).1 = bulkStore := by
  obtain ⟨hfails, hnone⟩ := bulk_refused.1
  obtain ⟨e, he⟩ := exists_error_of_toOption hfails
  refine ⟨e, he, (Store.rollback_error_unchanged linkEnv bulkStore none e he).mpr ?_⟩
  rintro ⟨-, -, cert, hcert, -⟩
  rw [Option.isNone_iff_eq_none.mp hnone] at hcert
  cases hcert

/-- The certificate of the last block is gone, although the rollback is refused. -/
theorem certificate_lost :
    ∃ e, (certifiedStore.rollbackLastBlock linkEnv).2 = .error e ∧
      (certifiedStore.rollbackLastBlock linkEnv).1 ≠ certifiedStore := by
  obtain ⟨hfails, hbefore, hafter⟩ := bulk_refused.2
  obtain ⟨e, he⟩ := exists_error_of_toOption hfails
  refine ⟨e, he, ?_⟩
  intro hsame
  rw [hsame, Option.isNone_iff_eq_none] at hafter
  rw [hafter] at hbefore
  cases hbefore

/-- The transactions a block is read back with. -/
def readBackWith (E : Env) (block : Block) : Option (List Transaction) :=
  (prepareBlock E block).toOption.bind fun p =>
    (decodeBlock E p.2).toOption.map fun d => d.transactions

theorem readsRevertible_of_no_transactions {E : Env} {block : Block}
    (h : readBackWith E block = some []) : Chain.ReadsRevertible E block := by
  intro p hp
  unfold readBackWith at h
  rw [hp] at h
  obtain ⟨d, hd, hempty⟩ := Option.map_eq_some_iff.mp h
  refine ⟨d, toOption_eq_some.mp hd, ?_⟩
  unfold Store.Revertible
  rw [hempty]
  simp

/-- The chain of single blocks is logged to the first, the mixed one not to the last. -/
theorem chains_logged :
    ((0 < genesis.height ∧ readBackWith linkEnv genesis = some []) ∧
      (0 < ownBlock.height ∧ readBackWith linkEnv ownBlock = some []) ∧
      ownStore.lastHeight = 2 ∧ (linkEnv.network.milestone 2).finality.active = false ∧
      ownStore.oldestUndoHeight = some 1) ∧
    mixedStore.oldestUndoHeight = some 1 ∧ mixedStore.lastHeight = 3 ∧
      ((mixedStore.rollbackTo linkEnv 1).2.toOption = none ∧
        (mixedStore.undo[3]?).isNone) := by
  decide +kernel

theorem undo_depth_real_own :
    (ownStore.rollbackTo linkEnv 1).2 = .ok 1 ∧
      (ownStore.rollbackTo linkEnv 1).1.lastHeight = 1 := by
  obtain ⟨⟨hone, hfirst⟩, ⟨htwo, hsecond⟩, htop, hsoft, holdest⟩ := chains_logged.1
  have hgenesis : Chain.Sequence primitives (network {}) Chain.Loggable {} genesisStore := by
    refine Chain.Sequence.start.call 16000 [genesis] ⟨?_, fun _ _ => trivial⟩
    exact ⟨genesis, rfl, hone, readsRevertible_of_no_transactions hfirst⟩
  have hown : Chain.Sequence primitives (network {}) Chain.Loggable {} ownStore := by
    refine hgenesis.call 16000 [ownBlock] ⟨?_, fun _ _ => trivial⟩
    exact ⟨ownBlock, rfl, htwo, readsRevertible_of_no_transactions hsecond⟩
  have hreach : 1 ≤ ownStore.lastHeight := by
    rw [htop]
    omega
  have hall : ∀ height, 1 < height → height ≤ ownStore.lastHeight →
      ((network {}).milestone height).finality.active = false := by
    intro height hlow hhigh
    rw [htop] at hhigh
    obtain rfl : height = 2 := by omega
    exact hsoft
  rw [show linkEnv = ⟨primitives, network {}, 16000⟩ from rfl]
  exact Chain.undo_depth_real hown 16000 1 1 holdest le_rfl (Nat.zero_le 1) hreach hall

/-- The oldest undo record belongs to the first block, but the last one has none. -/
theorem undo_depth_broken :
    Chain.Sequence primitives (network {}) (fun _ _ _ _ => True) {} mixedStore ∧
      mixedStore.oldestUndoHeight = some 1 ∧ mixedStore.lastHeight = 3 ∧
      ((mixedStore.rollbackTo linkEnv 1).2.toOption = none ∧
        (mixedStore.undo[3]?).isNone) := by
  refine ⟨?_, chains_logged.2⟩
  have hgenesis : Chain.Sequence primitives (network {}) (fun _ _ _ _ => True) {} genesisStore :=
    Chain.Sequence.start.call 16000 [genesis] (Chain.callMeets_unconditional _ _ _)
  exact hgenesis.call 16000 [ownBlock, childBlock] (Chain.callMeets_unconditional _ _ _)

end SthCore
