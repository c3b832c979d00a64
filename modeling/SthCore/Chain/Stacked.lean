import SthCore.Chain.Booked
import SthCore.Chain.Linkage
import SthCore.Storage.Rounds

/-!
Blocks on the tip: a call of `apply_blocks` stores its blocks up to the one where it fails, and
leaves the records below as they are.
-/

namespace SthCore

open SthCore.Lib

namespace Chain

/-- `s'` has blocks on the tip of `s`. -/
structure Stacked (E : Env) (s : Store) (blocks : List Block) (s' : Store) : Prop where
  height : s'.lastHeight = s.lastHeight + blocks.length
  written : ∀ b ∈ blocks, ∃ p, prepareBlock E b = .ok p ∧ s'.blocks[b.height]? = some p.2
  kept : ∀ height, height ∉ blocks.map (fun b => b.height) →
    s'.blocks[height]? = s.blocks[height]?

/-- Blocks whose heights follow on a height. -/
structure Above (height : Nat) (blocks : List Block) : Prop where
  chain : Successive blocks
  first : ∀ b ∈ blocks.head?, b.height = height + 1

variable {E : Env} {s s' s'' : Store} {height : Nat} {blocks front rest : List Block}

theorem Above.heights (h : Above height blocks) :
    blocks.map (fun b => b.height) = List.range' (height + 1) blocks.length := by
  obtain ⟨hchain, hfirst⟩ := h
  induction blocks generalizing height with
  | nil => rfl
  | cons b rest ih =>
      have hb := hfirst b rfl
      obtain ⟨hnext, hrest⟩ := List.isChain_cons.mp hchain
      have hmap := ih hrest fun c hc => hnext c hc
      rw [List.map_cons, hmap, hb, List.length_cons, List.range'_succ]

theorem Above.mem (h : Above height blocks) {b : Block} (hb : b ∈ blocks) :
    height < b.height ∧ b.height ≤ height + blocks.length := by
  have hmem : b.height ∈ blocks.map fun b => b.height := List.mem_map_of_mem hb
  rw [h.heights, List.mem_range'_1] at hmem
  omega

theorem Above.mem_heights (h : Above height blocks) {n : Nat} :
    n ∈ blocks.map (fun b => b.height) ↔ height < n ∧ n ≤ height + blocks.length := by
  rw [h.heights, List.mem_range'_1]
  omega

/-- A block is found by its height. -/
theorem Above.getElem?_eq (h : Above height blocks) {b : Block} (hb : b ∈ blocks) :
    blocks[b.height - (height + 1)]? = some b := by
  obtain ⟨i, hi⟩ := List.mem_iff_getElem?.mp hb
  have hmap : (blocks.map fun b => b.height)[i]? = some b.height := by
    rw [List.getElem?_map, hi]
    rfl
  have hlt := (List.getElem?_eq_some_iff.mp hi).1
  rw [h.heights, List.getElem?_range' hlt] at hmap
  have heq := Option.some.inj hmap
  have hindex : b.height - (height + 1) = i := by omega
  rw [hindex, hi]

/-- Blocks that follow one another follow by their heights. -/
theorem Above.follows (h : Above height blocks) (hchain : blocks.IsChain Follows) {a b : Block}
    (ha : a ∈ blocks) (hb : b ∈ blocks) (hnext : b.height = a.height + 1) : Follows a b := by
  have hlow := (h.mem ha).1
  obtain ⟨hi, hai⟩ := List.getElem?_eq_some_iff.mp (h.getElem?_eq ha)
  have hindex : b.height - (height + 1) = a.height - (height + 1) + 1 := by omega
  have hbi := h.getElem?_eq hb
  rw [hindex] at hbi
  obtain ⟨hj, hbj⟩ := List.getElem?_eq_some_iff.mp hbi
  have hstep := List.isChain_iff_getElem.mp hchain _ hj
  rwa [hai, hbj] at hstep

theorem Above.last (h : Above height blocks) {last : Block} (hlast : last ∈ blocks.getLast?) :
    last.height = height + blocks.length := by
  have hmap : (blocks.map fun b => b.height).getLast? = some last.height := by
    rw [List.getLast?_map, hlast]
    rfl
  have hpos : blocks.length ≠ 0 := by
    rintro hzero
    rw [List.length_eq_zero_iff.mp hzero] at hlast
    cases hlast
  rw [h.heights, List.getLast?_range', if_neg hpos] at hmap
  have heq := Option.some.inj hmap
  omega

theorem Above.append (h : Above height (front ++ rest)) :
    Above height front ∧ Above (height + front.length) rest := by
  obtain ⟨hfront, hrest, hlink⟩ := List.isChain_append.mp h.chain
  have hhead : Above height front := by
    refine ⟨hfront, fun b hb => h.first b ?_⟩
    rw [List.head?_append, Option.mem_def.mp hb]
    rfl
  refine ⟨hhead, hrest, fun b hb => ?_⟩
  cases hlast : front.getLast? with
  | none =>
      obtain rfl := List.getLast?_eq_none_iff.mp hlast
      exact h.first b hb
  | some last =>
      rw [hlink last hlast b hb, hhead.last hlast]

theorem Stacked.refl (E : Env) (s : Store) : Stacked E s [] s :=
  ⟨rfl, fun _ hb => absurd hb List.not_mem_nil, fun _ _ => rfl⟩

theorem Stacked.append (h : Stacked E s front s') (h' : Stacked E s' rest s'')
    (habove : Above s.lastHeight (front ++ rest)) : Stacked E s (front ++ rest) s'' := by
  obtain ⟨hfront, hrest⟩ := habove.append
  refine ⟨?_, fun b hb => ?_, fun n hn => ?_⟩
  · rw [h'.height, h.height, List.length_append, Nat.add_assoc]
  · rcases List.mem_append.mp hb with hb | hb
    · obtain ⟨p, hp, hstored⟩ := h.written b hb
      refine ⟨p, hp, ?_⟩
      rw [h'.kept, hstored]
      rw [hrest.mem_heights]
      have := (hfront.mem hb).2
      omega
    · exact h'.written b hb
  · rw [List.map_append, List.mem_append, not_or] at hn
    rw [h'.kept n hn.2, h.kept n hn.1]

/-- A sub-batch is stored as a whole, or not at all. -/
theorem applyLocked_stacked (E : Env) {force : Bool} (habove : Above s.lastHeight blocks) :
    (∃ e, s.applyLocked E blocks force = (s, .error e)) ∨
      Stacked E s blocks (s.applyLocked E blocks force).1 := by
  have hchain : (blocks.map fun b => b.height).IsChain fun a b => b = a + 1 :=
    (List.isChain_map _).mpr habove.chain
  rcases Store.applyLocked_grown E s force hchain with he | ⟨⟨g⟩⟩
  · exact .inl he
  rcases Store.applyLocked_cases E s blocks force with he | ⟨prepared, hprepared, ⟨c⟩⟩
  · exact .inl he
  right
  have hheights := prepared_heights hprepared
  rw [List.map_map] at hheights
  cases prepared with
  | nil =>
      obtain ⟨q, hq, -⟩ := forall₂_mem_left (forall₂_of_mapM_ok hprepared) g.last
        (List.mem_of_getLast? g.isLast)
      cases hq
  | cons p ps =>
      have hgrown := grown_of_committed c hprepared habove.chain fun b hb => by
        have := (habove.mem hb).1
        omega
      refine ⟨?_, fun b hb => ?_, fun n hn => hgrown.kept n ?_⟩
      · have hlast := habove.last g.isLast
        rw [g.tip, hlast]
        omega
      · obtain ⟨q, hq, hbq⟩ := forall₂_mem_left (forall₂_of_mapM_ok hprepared) b hb
        obtain ⟨-, hheight, -⟩ := prepareBlock_ok hbq
        refine ⟨q, hbq, ?_⟩
        rw [← hheight]
        exact (hgrown.written q hq).1
      · have hsame : (p :: ps).map (fun p => p.1.height) = blocks.map fun b => b.height := hheights
        rwa [hsame]

theorem applyChunks_stacked (E : Env) {force : Bool} {chunks : List (List Block)}
    (habove : Above s.lastHeight chunks.flatten) :
    ∃ front rest, chunks.flatten = front ++ rest ∧
      Stacked E s front (s.applyChunks E chunks force).1 ∧
      ((s.applyChunks E chunks force).2 = .ok () → rest = []) := by
  induction chunks generalizing s with
  | nil => exact ⟨[], [], rfl, .refl E s, fun _ => rfl⟩
  | cons c chunks ih =>
      rw [List.flatten_cons] at habove ⊢
      obtain ⟨hfirst, hlater⟩ := habove.append
      rw [Store.applyChunks_cons]
      rcases @applyLocked_stacked s c E force hfirst with ⟨e, he⟩ | hstacked
      · rw [he]
        exact ⟨[], _, rfl, .refl E s, fun hok => by cases hok⟩
      · unfold Outcome.andThen
        split
        · rw [← hstacked.height] at hlater
          obtain ⟨front, rest, heq, hrest, hend⟩ := ih hlater
          refine ⟨c ++ front, rest, by rw [heq, List.append_assoc], hstacked.append hrest ?_, hend⟩
          rw [heq, ← List.append_assoc] at habove
          exact habove.append.1
        · rename_i herror
          refine ⟨c, _, rfl, hstacked, fun hok => ?_⟩
          rw [herror] at hok
          cases hok

/-- A call stores its blocks up to some block, and all of them when it succeeds. -/
theorem applyBlocks_stacked (E : Env) (habove : Above s.lastHeight blocks) :
    ∃ front rest, blocks = front ++ rest ∧ Stacked E s front (s.applyBlocks E blocks).1 ∧
      ((s.applyBlocks E blocks).2 = .ok () → rest = []) := by
  have hflatten := Store.chunks_flatten E s blocks
  rw [Store.applyBlocks_eq_applyChunks]
  have hdone := @applyChunks_stacked s E (s.forcesUndo blocks) (s.chunks E blocks)
  rw [hflatten] at hdone
  exact hdone habove

end Chain

end SthCore
