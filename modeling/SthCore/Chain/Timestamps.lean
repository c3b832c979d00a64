import SthCore.Chain.Chronicle
import SthCore.Chain.Linkage
import SthCore.Lib.Bisect

/-!
The search for the heights of a span of time.  It halves the chain, and so
relies on timestamps that do not decrease from block to block.
-/

namespace SthCore

open SthCore.Lib

namespace Store

/-- `first_height`: 0 when nothing is stored. -/
def firstHeight (s : Store) : Nat := (s.blocks.toList.head?.map fun e => e.1).getD 0

/-- Whether the block at `height` is older than `ts`; a missing block is not. -/
def olderThan (E : Env) (s : Store) (ts : UInt32) (height : Nat) : Except Error Bool :=
  (s.getBlockByHeight E height).map fun b => b.any fun b => b.timestamp < ts

/-- `height_at_or_after`. -/
def heightAtOrAfter (E : Env) (s : Store) (ts : UInt32) : Except Error Nat :=
  let lo := max s.firstHeight 1
  let hi := s.lastHeight + 1
  bisect (s.olderThan E ts) (hi - lo) lo hi

/-- `saturating_add(1)`. -/
def nextSecond (ts : UInt32) : UInt32 := if ts = 4294967295 then ts else ts + 1

/-- The first height of a span that may begin with the chain. -/
def lowerHeight (E : Env) (s : Store) : Option UInt32 → Except Error Nat
  | some f => s.heightAtOrAfter E f
  | none => .ok 1

/-- The last height of a span that may end with the chain. -/
def upperHeight (E : Env) (s : Store) : Option UInt32 → Except Error Nat
  | some t => (s.heightAtOrAfter E (nextSecond t)).map fun h => h - 1
  | none => .ok s.lastHeight

/-- `heights_for_timestamps`: the ends of the range of heights. -/
def heightsForTimestamps (E : Env) (s : Store) (start stop : Option UInt32) :
    Except Error (Option (Nat × Nat)) :=
  let tip := s.lastHeight
  if tip = 0 then .ok none
  else do
    let lo ← s.lowerHeight E start
    let hi ← s.upperHeight E stop
    return if lo ≤ hi ∧ lo ≤ tip then some (lo, min hi tip) else none

/-- The block at `height` carries the timestamp `ts`. -/
def StampedAt (E : Env) (s : Store) (height : Nat) (ts : UInt32) : Prop :=
  ∃ b, s.getBlockByHeight E height = .ok (some b) ∧ b.timestamp = ts

/-- A timestamp between two optional bounds. -/
def Within (start stop : Option UInt32) (ts : UInt32) : Prop :=
  (∀ f ∈ start, f ≤ ts) ∧ ∀ t ∈ stop, ts ≤ t

/-- The search answers with exactly the stored heights of the span, and with nothing when there
are none. -/
def ExactSpan (E : Env) (s : Store) (start stop : Option UInt32) : Prop :=
  ∃ span, s.heightsForTimestamps E start stop = .ok span ∧
    (∀ ends ∈ span, ends.1 ≤ ends.2) ∧
    ∀ height, (∃ ends ∈ span, ends.1 ≤ height ∧ height ≤ ends.2) ↔
      ∃ ts, s.StampedAt E height ts ∧ Within start stop ts

/-- The chain is stored from its first height on. -/
def Complete (s : Store) : Prop :=
  ∀ height, 1 ≤ height → height ≤ s.lastHeight → (s.blocks[height]?).isSome

/-- No block is older than one below it. -/
def Aged (E : Env) (s : Store) : Prop :=
  ∀ low high older younger, low ≤ high → s.StampedAt E low older → s.StampedAt E high younger →
    older ≤ younger

/-- No block has the last timestamp there is. -/
def BeforeEnd (E : Env) (s : Store) : Prop := ∀ height, ¬ s.StampedAt E height 4294967295

/-- Stored heights lie between 1 and the tip, and every record reads back. -/
structure Surveyed (E : Env) (s : Store) : Prop where
  inside : ∀ height, (s.blocks[height]?).isSome → 1 ≤ height ∧ height ≤ s.lastHeight
  read : ∀ (height : Nat) record, s.blocks[height]? = some record →
    ∃ b, decodeBlock E record = .ok b

variable {E : Env} {s : Store}

theorem StampedAt.stored {height : Nat} {ts : UInt32} (h : s.StampedAt E height ts) :
    (s.blocks[height]?).isSome := by
  obtain ⟨b, hb, -⟩ := h
  unfold getBlockByHeight at hb
  split at hb
  · rename_i record hrecord
    rw [hrecord]
    rfl
  · cases hb

theorem StampedAt.unique {height : Nat} {ts ts' : UInt32} (h : s.StampedAt E height ts)
    (h' : s.StampedAt E height ts') : ts = ts' := by
  obtain ⟨b, hb, rfl⟩ := h
  obtain ⟨b', hb', rfl⟩ := h'
  rw [hb] at hb'
  cases hb'
  rfl

theorem Surveyed.stamped (h : s.Surveyed E) {height : Nat} (hstored : (s.blocks[height]?).isSome) :
    ∃ ts, s.StampedAt E height ts := by
  obtain ⟨record, hrecord⟩ := Option.isSome_iff_exists.mp hstored
  obtain ⟨b, hb⟩ := h.read height record hrecord
  refine ⟨b.timestamp, b, ?_, rfl⟩
  unfold getBlockByHeight
  rw [hrecord]
  simp only
  rw [hb]
  rfl

theorem firstHeight_of_complete (hinside : s.Surveyed E) (hcomplete : s.Complete)
    (htip : s.lastHeight ≠ 0) : s.firstHeight = 1 := by
  obtain ⟨record, hrecord⟩ := Option.isSome_iff_exists.mp (hcomplete 1 le_rfl (by omega))
  have hone : (1, record) ∈ s.blocks.toList :=
    Std.ExtTreeMap.mem_toList_iff_getElem?_eq_some.mpr hrecord
  have hsorted := Std.ExtTreeMap.ordered_keys_toList (t := s.blocks)
  unfold firstHeight
  cases hlist : s.blocks.toList with
  | nil =>
      rw [hlist] at hone
      cases hone
  | cons e rest =>
      have hmem : e ∈ s.blocks.toList := hlist ▸ List.mem_cons_self
      have hpos := (hinside.inside e.1 (by
        rw [Std.ExtTreeMap.mem_toList_iff_getElem?_eq_some.mp hmem]
        rfl)).1
      rw [hlist] at hone hsorted
      rcases List.mem_cons.mp hone with rfl | hlater
      · rfl
      · have hlt := (List.pairwise_cons.mp hsorted).1 (1, record) hlater
        rw [Nat.compare_eq_lt] at hlt
        change e.1 < 1 at hlt
        omega

/-- In a complete chain that does not age backwards the search finds the first block that is at
least as young as `ts`. -/
theorem heightAtOrAfter_ok (h : s.Surveyed E) (hcomplete : s.Complete) (haged : s.Aged E)
    (htip : s.lastHeight ≠ 0) (ts : UInt32) :
    ∃ r, s.heightAtOrAfter E ts = .ok r ∧ 1 ≤ r ∧ r ≤ s.lastHeight + 1 ∧
      ∀ height own, s.StampedAt E height own → (height < r ↔ own < ts) := by
  have hfirst := firstHeight_of_complete h hcomplete htip
  have hread : ∀ k, 1 ≤ k → k < s.lastHeight + 1 →
      ∃ b, s.olderThan E ts k = .ok b ∧ (b = true ↔ ∃ own, s.StampedAt E k own ∧ own < ts) := by
    intro k hk hlt
    obtain ⟨own, block, hblock, rfl⟩ := h.stamped (hcomplete k hk (by omega))
    refine ⟨decide (block.timestamp < ts), ?_, ?_⟩
    · unfold olderThan
      rw [hblock]
      rfl
    · rw [decide_eq_true_eq]
      constructor
      · intro hlt
        exact ⟨_, ⟨block, hblock, rfl⟩, hlt⟩
      · rintro ⟨own, ⟨b, hb, rfl⟩, hlt⟩
        rw [hblock] at hb
        injection hb with hb
        obtain rfl := Option.some.inj hb
        exact hlt
  have hdown : ∀ k l, 1 ≤ k → k ≤ l → l < s.lastHeight + 1 →
      (∃ own, s.StampedAt E l own ∧ own < ts) → ∃ own, s.StampedAt E k own ∧ own < ts := by
    rintro k l hk hkl hl ⟨younger, hyounger, hlt⟩
    obtain ⟨older, holder⟩ := h.stamped (hcomplete k hk (by omega))
    exact ⟨older, holder, UInt32.lt_of_le_of_lt (haged k l older younger hkl holder hyounger) hlt⟩
  obtain ⟨r, hr, hturns⟩ := bisect_turns (by omega) hread hdown (le_refl (s.lastHeight + 1 - 1))
  refine ⟨r, ?_, hturns.above, hturns.inside, ?_⟩
  · unfold heightAtOrAfter
    simp only
    rw [hfirst]
    exact hr
  · intro height own hown
    obtain ⟨hlow, hhigh⟩ := h.inside height hown.stored
    constructor
    · intro hlt
      obtain ⟨own', hown', hlt'⟩ := hturns.before height hlow hlt
      obtain ⟨b, hb, rfl⟩ := hown
      obtain ⟨b', hb', rfl⟩ := hown'
      rw [hb] at hb'
      injection hb' with hb'
      obtain rfl := Option.some.inj hb'
      exact hlt'
    · intro hlt
      by_contra hge
      exact hturns.after height (by omega) (by omega) ⟨own, hown, hlt⟩

theorem lt_nextSecond {t own : UInt32} (h : own ≠ 4294967295) : own < nextSecond t ↔ own ≤ t := by
  have hown : own.toNat < 4294967295 := by
    have := own.toNat_lt
    have hne : own.toNat ≠ 4294967295 := fun heq => h (UInt32.toNat_inj.mp heq)
    omega
  unfold nextSecond
  rw [UInt32.lt_iff_toNat_lt, UInt32.le_iff_toNat_le]
  split_ifs with hmax
  · subst hmax
    change own.toNat < 4294967295 ↔ own.toNat ≤ 4294967295
    omega
  · have ht : t.toNat < 4294967295 := by
      have := t.toNat_lt
      have hne : t.toNat ≠ 4294967295 := fun heq => hmax (UInt32.toNat_inj.mp heq)
      omega
    rw [UInt32.toNat_add]
    change own.toNat < (t.toNat + 1) % 2 ^ 32 ↔ own.toNat ≤ t.toNat
    rw [Nat.mod_eq_of_lt (by omega)]
    omega

/-- In a complete chain that does not age backwards every span is found. -/
theorem exactSpan_of_aged (h : s.Surveyed E) (hcomplete : s.Complete) (haged : s.Aged E)
    (hend : s.BeforeEnd E) (start stop : Option UInt32) : s.ExactSpan E start stop := by
  unfold ExactSpan heightsForTimestamps
  simp only
  by_cases htip : s.lastHeight = 0
  · rw [if_pos htip]
    refine ⟨none, rfl, by simp, ?_⟩
    intro height
    simp only [Option.mem_def, reduceCtorEq, false_and, exists_false, false_iff]
    rintro ⟨ts, hts, -⟩
    have := h.inside height hts.stored
    omega
  rw [if_neg htip]
  obtain ⟨lo, hlo, hlopos, hlow⟩ : ∃ lo, s.lowerHeight E start = .ok lo ∧ 1 ≤ lo ∧
      ∀ height own, s.StampedAt E height own → (lo ≤ height ↔ ∀ f ∈ start, f ≤ own) := by
    cases start with
    | none =>
        refine ⟨1, rfl, le_rfl, ?_⟩
        intro height own hown
        simpa using (h.inside height hown.stored).1
    | some f =>
        obtain ⟨r, hr, hpos, -, hturn⟩ := heightAtOrAfter_ok h hcomplete haged htip f
        refine ⟨r, hr, hpos, ?_⟩
        intro height own hown
        rw [← Nat.not_lt, hturn height own hown, UInt32.not_lt]
        simp
  obtain ⟨hi, hhi, hhigh⟩ : ∃ hi, s.upperHeight E stop = .ok hi ∧
      ∀ height own, s.StampedAt E height own → (height ≤ hi ↔ ∀ t ∈ stop, own ≤ t) := by
    cases stop with
    | none =>
        refine ⟨s.lastHeight, rfl, ?_⟩
        intro height own hown
        simpa using (h.inside height hown.stored).2
    | some t =>
        obtain ⟨r, hr, hpos, -, hturn⟩ :=
          heightAtOrAfter_ok h hcomplete haged htip (nextSecond t)
        refine ⟨r - 1, by simp only [upperHeight, hr]; rfl, ?_⟩
        intro height own hown
        have hne : own ≠ 4294967295 := fun heq => hend height (heq ▸ hown)
        have hcut : height ≤ r - 1 ↔ height < r := by omega
        rw [hcut, hturn height own hown, lt_nextSecond hne]
        simp
  refine ⟨if lo ≤ hi ∧ lo ≤ s.lastHeight then some (lo, min hi s.lastHeight) else none, ?_, ?_, ?_⟩
  · rw [hlo, ok_bind, hhi, ok_bind]
    rfl
  · intro ends hends
    split_ifs at hends with hne
    · obtain rfl := Option.some.inj hends
      simp only
      omega
    · cases hends
  · intro height
    constructor
    · rintro ⟨ends, hends, hge, hle⟩
      split_ifs at hends with hne
      · obtain rfl := Option.some.inj hends
        simp only at hge hle
        obtain ⟨ts, hts⟩ := h.stamped (hcomplete height (by omega) (by omega))
        exact ⟨ts, hts, (hlow height ts hts).mp hge, (hhigh height ts hts).mp (by omega)⟩
      · cases hends
    · rintro ⟨ts, hts, hstart, hstop⟩
      have hge := (hlow height ts hts).mpr hstart
      have hle := (hhigh height ts hts).mpr hstop
      have hin := h.inside height hts.stored
      rw [if_pos (by omega)]
      exact ⟨_, rfl, hge, by simp only; omega⟩

/-- Without an upper bound the search answers with a range up to the tip. -/
theorem heightsForTimestamps_open {start : Option UInt32} {span : Option (Nat × Nat)}
    (h : s.heightsForTimestamps E start none = .ok span) :
    ∀ ends ∈ span, ends.2 = s.lastHeight := by
  intro ends hends
  unfold heightsForTimestamps at h
  simp only at h
  split_ifs at h with htip
  · injection h with h
    rw [← h] at hends
    cases hends
  · obtain ⟨lo, -, h⟩ := bind_eq_ok.mp h
    rw [upperHeight, ok_bind, pure_eq_ok] at h
    rw [← h] at hends
    split_ifs at hends with hne
    · obtain rfl := Option.some.inj hends
      simp
    · cases hends

/-- The search is exact for all bounds exactly when the chain is complete, does not age
backwards and stays below the last timestamp. -/
theorem exactSpan_iff (h : s.Surveyed E) :
    (∀ start stop, s.ExactSpan E start stop) ↔ s.Complete ∧ s.Aged E ∧ s.BeforeEnd E := by
  constructor
  · intro hexact
    have hcomplete : s.Complete := by
      obtain ⟨span, hspan, -, hheights⟩ := hexact none none
      intro height hlow hhigh
      have hanswer : span = some (1, s.lastHeight) := by
        unfold heightsForTimestamps at hspan
        simp only at hspan
        rw [if_neg (by omega), lowerHeight, upperHeight, ok_bind, ok_bind, if_pos (by omega),
          pure_eq_ok] at hspan
        rw [← hspan, Nat.min_self]
      obtain ⟨ts, hts, -⟩ := (hheights height).mp ⟨_, hanswer, hlow, hhigh⟩
      exact hts.stored
    have haged : s.Aged E := by
      intro low high older younger hle holder hyounger
      obtain ⟨span, hspan, -, hheights⟩ := hexact (some older) none
      obtain ⟨ends, hends, hge, -⟩ := (hheights low).mpr ⟨older, holder, by
        constructor
        · intro f hf
          obtain rfl := Option.some.inj hf
          exact UInt32.le_refl _
        · intro t ht
          cases ht⟩
      have hlast := heightsForTimestamps_open hspan ends hends
      have hin := h.inside high hyounger.stored
      obtain ⟨own, ⟨b, hb, rfl⟩, hstart, -⟩ :=
        (hheights high).mp ⟨ends, hends, by omega, by omega⟩
      obtain ⟨b', hb', rfl⟩ := hyounger
      rw [hb] at hb'
      injection hb' with hb'
      obtain rfl := Option.some.inj hb'
      exact hstart older rfl
    refine ⟨hcomplete, haged, ?_⟩
    intro height hlast
    obtain ⟨span, hspan, -, hheights⟩ := hexact none (some 4294967295)
    obtain ⟨ends, hends, hge, hle⟩ := (hheights height).mpr ⟨_, hlast, by
      constructor
      · intro f hf
        cases hf
      · intro t ht
        obtain rfl := Option.some.inj ht
        exact UInt32.le_refl _⟩
    have hin := h.inside height hlast.stored
    have htip : s.lastHeight ≠ 0 := by omega
    obtain ⟨r, hr, -, -, hturn⟩ := heightAtOrAfter_ok h hcomplete haged htip 4294967295
    have hafter : ¬ height < r := by
      rw [hturn height _ hlast]
      exact UInt32.lt_irrefl _
    unfold heightsForTimestamps at hspan
    simp only at hspan
    rw [if_neg htip, lowerHeight, ok_bind, upperHeight] at hspan
    change ((s.heightAtOrAfter E 4294967295).map (fun h => h - 1) >>= _) = _ at hspan
    rw [hr] at hspan
    change Except.ok _ = Except.ok _ at hspan
    injection hspan with hspan
    rw [← hspan] at hends
    split_ifs at hends with hne
    · obtain rfl := Option.some.inj hends
      simp only at hle hne
      omega
    · cases hends
  · rintro ⟨hcomplete, haged, hend⟩ start stop
    exact exactSpan_of_aged h hcomplete haged hend start stop

/-- The heights of the readable blocks with their timestamps. -/
def stamps (E : Env) (s : Store) : List (Nat × UInt32) :=
  s.blocks.toList.filterMap fun e =>
    (decodeBlock E e.2).toOption.map fun b => (e.1, b.timestamp)

theorem StampedAt.mem_stamps {height : Nat} {ts : UInt32} (h : s.StampedAt E height ts) :
    (height, ts) ∈ s.stamps E := by
  obtain ⟨b, hb, rfl⟩ := h
  obtain ⟨record, hrecord, hdecode⟩ := getBlockByHeight_some.mp hb
  refine List.mem_filterMap.mpr ⟨(height, record),
    Std.ExtTreeMap.mem_toList_iff_getElem?_eq_some.mpr hrecord, ?_⟩
  simp only [hdecode, Except.toOption, Option.map_some]

theorem aged_of_stamps (h : ∀ a ∈ s.stamps E, ∀ b ∈ s.stamps E, a.1 ≤ b.1 → a.2 ≤ b.2) :
    s.Aged E :=
  fun _ _ _ _ hle holder hyounger => h _ holder.mem_stamps _ hyounger.mem_stamps hle

theorem beforeEnd_of_stamps (h : ∀ a ∈ s.stamps E, a.2 ≠ 4294967295) : s.BeforeEnd E :=
  fun _ hlast => h _ hlast.mem_stamps rfl

end Store

namespace Chain

/-- Accepted blocks are stored between height 1 and the tip. -/
theorem Chronicle.inside {P : Primitives} {N : Network} {good : Condition} {keep : Store → Prop}
    {s : Store} (h : Chronicle P N good keep {} s) :
    ∀ height, (s.blocks[height]?).isSome → 1 ≤ height ∧ height ≤ s.lastHeight := by
  refine h.induction_step (I := fun s => ∀ height, (s.blocks[height]?).isSome →
    1 ≤ height ∧ height ≤ s.lastHeight) ?_ ?_ (fun _ _ hs => hs) (fun _ _ hs => hs) ?_
  · intro start b s c b' s' st hs
    obtain ⟨hblocks, -, hheight, -⟩ :=
      (Store.writeEntries_sameRecords st.committed.written).chain
    obtain ⟨hblocks', -, hheight', -⟩ := st.committed.same.chain
    rw [hblocks', hheight']
    have hwallets : ∀ height, (st.committed.wallets.blocks[height]?).isSome →
        1 ≤ height ∧ height ≤ st.committed.wallets.lastHeight := by
      rw [hblocks, hheight]
      exact hs
    refine foldlM_preserves (P := fun t : Store => ∀ height, (t.blocks[height]?).isSome →
      1 ≤ height ∧ height ≤ t.lastHeight) ?_ st.committed.stored hwallets
    intro t p t' hp ht hinside height hsome
    obtain ⟨hwritten, htop⟩ := Store.writeBlock_blocks ht
    have hpos : 0 < p.1.height := by
      refine st.positive p.1 ?_
      rw [← st.prepared_blocks]
      exact List.mem_map_of_mem hp
    rw [hwritten, OrderedMap.getElem?_insert_eq] at hsome
    rw [htop]
    split_ifs at hsome with hown
    · omega
    · have := hinside height hsome
      omega
  · intro now s s' r _ hs height hsome
    obtain ⟨hblocks, -, hheight, -⟩ := r.chain
    rw [hblocks, OrderedMap.getElem?_erase_eq] at hsome
    rw [hheight]
    split_ifs at hsome with hlast
    · cases hsome
    · have := hs height hsome
      omega
  · intro height hsome
    simp at hsome

/-- In every history of accepted blocks, the search is exact for all bounds exactly when the
chain is complete, does not age backwards and stays below the last timestamp. -/
theorem timestamp_search_exact {P : Primitives} {N : Network} {s : Store}
    (h : Chronicle P N unconditional (fun _ => True) {} s) (now : Int)
    (hread : ∀ (height : Nat) record, s.blocks[height]? = some record →
      ∃ b, decodeBlock ⟨P, N, now⟩ record = .ok b) :
    (∀ start stop, s.ExactSpan ⟨P, N, now⟩ start stop) ↔
      s.Complete ∧ s.Aged ⟨P, N, now⟩ ∧ s.BeforeEnd ⟨P, N, now⟩ :=
  Store.exactSpan_iff ⟨h.inside, hread⟩

end Chain

namespace Reference

/-- A block on `siblingBlock` with an earlier timestamp. -/
def backdatedBlock : Block := first.forge 3 8 (siblingBlock.id.getD "") 0 []

def backdatedStore : Store :=
  (Sync.applyBlocks linkEnv (Sync.applyBlocks linkEnv (Sync.applyBlocks linkEnv {} [genesis]
    ⟨0, none⟩ true).1 [siblingBlock] ⟨1, genesis.id⟩ true).1 [backdatedBlock]
    ⟨2, siblingBlock.id⟩ true).1

/-- One more block on top of `secondStore`. -/
def thirdStore (b c : Block) : Store :=
  (Sync.applyBlocks linkEnv (Sync.applyBlocks linkEnv (Sync.applyBlocks linkEnv {} [genesis]
    ⟨0, none⟩ true).1 [b] ⟨1, genesis.id⟩ true).1 [c] ⟨2, b.id⟩ true).1

def datedStore : Store :=
  (Sync.applyBlocks linkEnv (Sync.applyBlocks linkEnv {} [genesis] ⟨0, none⟩ true).1
    [siblingBlock] ⟨1, genesis.id⟩ true).1

end Reference

open Reference

theorem chronicle_second (b : Block) :
    Chain.Chronicle primitives (network {}) Chain.unconditional (fun _ => True) {}
      (secondStore b) := by
  unfold secondStore
  exact (Chain.Chronicle.start.call 16000 [genesis] ⟨0, none⟩
    (Chain.callMeets_unconditional _ _ _)).call 16000 [b] ⟨1, genesis.id⟩
    (Chain.callMeets_unconditional _ _ _)

theorem chronicle_third (b c : Block) :
    Chain.Chronicle primitives (network {}) Chain.unconditional (fun _ => True) {}
      (thirdStore b c) := by
  have hsecond := chronicle_second b
  unfold secondStore at hsecond
  exact hsecond.call 16000 [c] ⟨2, b.id⟩ (Chain.callMeets_unconditional _ _ _)

theorem timestamp_search_exact_dated :
    datedStore.lastHeight = 2 ∧ ∀ start stop, datedStore.ExactSpan linkEnv start stop := by
  have hrun : Chain.Chronicle primitives (network {}) Chain.unconditional (fun _ => True) {}
      datedStore := chronicle_second siblingBlock
  obtain ⟨htip, hstamps, hstored, hreads⟩ :
      datedStore.lastHeight = 2 ∧ datedStore.stamps linkEnv = [(1, 0), (2, 16)] ∧
      ((datedStore.blocks[1]?).isSome ∧ (datedStore.blocks[2]?).isSome) ∧
      ∀ e ∈ datedStore.blocks.toList, (decodeBlock linkEnv e.2).toOption.isSome := by
    decide +kernel
  refine ⟨htip, ?_⟩
  rw [show linkEnv = ⟨primitives, network {}, 16000⟩ from rfl] at *
  refine (Chain.timestamp_search_exact hrun 16000 ?_).mpr ⟨?_, ?_, ?_⟩
  · intro height record hrecord
    have hread := hreads (height, record)
      (Std.ExtTreeMap.mem_toList_iff_getElem?_eq_some.mpr hrecord)
    cases hdecode : decodeBlock ⟨primitives, network {}, 16000⟩ record with
    | error e => simp [hdecode, Except.toOption] at hread
    | ok b => exact ⟨b, rfl⟩
  · intro height hlow hhigh
    rw [htip] at hhigh
    obtain rfl | rfl : height = 1 ∨ height = 2 := by omega
    · exact hstored.1
    · exact hstored.2
  · refine Store.aged_of_stamps ?_
    rw [hstamps]
    decide
  · refine Store.beforeEnd_of_stamps ?_
    rw [hstamps]
    decide

/-- From 16 on there is one block, but the search answers with the older one above it as well. -/
theorem backdated_block_in_span :
    Chain.Chronicle primitives (network {}) Chain.unconditional (fun _ => True) {} backdatedStore ∧
      backdatedStore.lastHeight = 3 ∧ ¬ backdatedStore.ExactSpan linkEnv (some 16) none := by
  obtain ⟨htip, hanswer, hstamps⟩ :
      backdatedStore.lastHeight = 3 ∧
      (backdatedStore.heightsForTimestamps linkEnv (some 16) none).toOption = some (some (2, 3)) ∧
      backdatedStore.stamps linkEnv = [(1, 0), (2, 16), (3, 8)] := by
    decide +kernel
  refine ⟨chronicle_third siblingBlock backdatedBlock, htip, ?_⟩
  rintro ⟨span, hspan, -, hheights⟩
  rw [hspan] at hanswer
  obtain rfl := Option.some.inj hanswer
  obtain ⟨ts, hts, hstart, -⟩ := (hheights 3).mp ⟨(2, 3), rfl, by omega, le_rfl⟩
  have hts := hstamps ▸ hts.mem_stamps
  simp only [List.mem_cons, Prod.mk.injEq, List.not_mem_nil, or_false] at hts
  rcases hts with ⟨h, -⟩ | ⟨h, -⟩ | ⟨-, rfl⟩
  · omega
  · omega
  · exact absurd (hstart 16 rfl) (by decide)

end SthCore
