import SthCore.Storage.Postings
import SthCore.Sync

/-!
What a block that passed verification is known to satisfy, and what an accepted
call of `sync::apply_blocks` has checked.
-/

namespace SthCore

open SthCore.Lib

namespace VerifyBlock

theorem complain_eq_nil {c : Bool} {m : String} : complain c m = [] ↔ c = false := by
  cases c <;> simp [complain]

theorem checkIds_eq_nil {height : Nat} {seen : List Text} {txs : List Transaction}
    (h : checkIds height seen txs = []) :
    (∀ tx ∈ txs, tx.id.isSome) ∧ (txs.map fun tx => tx.id).Nodup ∧
      ∀ tx ∈ txs, ∀ id ∈ seen, tx.id ≠ some id := by
  induction txs generalizing seen with
  | nil => simp
  | cons tx rest ih =>
      cases hid : tx.id with
      | none => simp [checkIds, hid] at h
      | some id =>
          simp only [checkIds, hid, List.append_eq_nil_iff, complain_eq_nil] at h
          obtain ⟨⟨hseen, -⟩, hrest⟩ := h
          obtain ⟨hsome, hnodup, hfresh⟩ := ih hrest
          refine ⟨?_, ?_, ?_⟩
          · intro t ht
            rcases List.mem_cons.mp ht with rfl | ht
            · simp [hid]
            · exact hsome t ht
          · rw [List.map_cons, List.nodup_cons]
            refine ⟨?_, hnodup⟩
            intro hmem
            obtain ⟨t, ht, heq⟩ := List.mem_map.mp hmem
            exact hfresh t ht id List.mem_cons_self (heq.trans hid)
          · intro t ht x hx
            rcases List.mem_cons.mp ht with rfl | ht
            · rw [hid]
              rintro heq
              injection heq with heq
              subst heq
              simp [hx] at hseen
            · exact hfresh t ht x (List.mem_cons_of_mem id hx)

theorem checkTransaction_eq_nil {P : Primitives} {tx : Transaction} {id : Text}
    (hid : tx.id = some id) (h : checkTransaction P tx = []) :
    transactionId P tx = .ok id ∧ verifyTransactionSignature P tx = .ok true := by
  simp only [checkTransaction, hid] at h
  split at h
  · simp at h
  · rename_i computed hcomputed
    split_ifs at h with hne
    · rw [not_not] at hne
      subst hne
      refine ⟨hcomputed, ?_⟩
      split at h
      · assumption
      · simp at h
      · simp at h

end VerifyBlock

/-- The facts about a verified block that the proofs use. -/
structure Verified (E : Env) (block : Block) : Prop where
  id : block.id.isSome
  txIds : ∀ tx ∈ block.transactions, tx.id.isSome
  nodup : (block.transactions.map fun tx => tx.id).Nodup
  txId : ∀ tx ∈ block.transactions, ∀ id, tx.id = some id → transactionId E.prim tx = .ok id
  format : ∀ tx ∈ block.transactions,
    VerifyBlock.checkFormat E.prim (E.network.milestone block.height) tx = []
  fees : (block.transactions.map fun tx => tx.fee.toNat).sum = block.totalFee.toNat
  reward : block.reward = (E.network.milestone block.height).reward

open VerifyBlock in
theorem verified_of_verifyBlock {E : Env} {block : Block} (hid : block.id.isSome)
    (h : verifyBlock E block = []) : Verified E block := by
  simp only [verifyBlock, List.append_eq_nil_iff, complain_eq_nil, List.flatMap_eq_nil_iff] at h
  obtain ⟨⟨⟨⟨⟨⟨⟨⟨⟨⟨⟨⟨⟨⟨-, hreward⟩, -⟩, -⟩, -⟩, -⟩, -⟩, -⟩, -⟩, hids⟩, htxs⟩, hformat⟩, -⟩, hfee⟩, -⟩ := h
  obtain ⟨hsome, hnodup, -⟩ := checkIds_eq_nil hids
  refine ⟨hid, hsome, hnodup, ?_, hformat, ?_, by simpa using hreward⟩
  · intro tx htx id hid'
    exact (checkTransaction_eq_nil hid' (htxs tx htx)).1
  · have hall : (block.transactions.filter fun tx => tx.id.isSome) = block.transactions :=
      List.filter_eq_self.mpr hsome
    simpa [totalOf, hall] using hfee

namespace Sync

theorem forM_ok_mem {α : Type} {f : α → Except Error Unit} {l : List α}
    (h : l.forM f = .ok ()) : ∀ a ∈ l, f a = .ok () := by
  induction l with
  | nil => simp
  | cons a rest ih =>
      obtain ⟨u, hu, hrest⟩ := bind_eq_ok.mp h
      intro x hx
      rcases List.mem_cons.mp hx with rfl | hx
      · exact hu
      · exact ih hrest x hx

theorem checkCrypto_verified {E : Env} {block : Block} (h : checkCrypto E true block = .ok ()) :
    Verified E block := by
  unfold checkCrypto at h
  cases hid : block.id with
  | none => simp [hid] at h
  | some id =>
      simp only [hid, if_true] at h
      refine verified_of_verifyBlock (by simp [hid]) ?_
      split_ifs at h with herr
      simpa using herr

theorem ruled_ok {α : Type} {block : Block} {tx : Transaction} {check : Rules.Check α} {a : α} :
    ruled block tx check = .ok a ↔ check = .ok a := by
  cases check <;> simp [ruled]

/-- A linked block: right height, slot not in the future, an id, and the right parent. -/
theorem link_eq_ok {E : Env} {tip tip' : ChainTip} {block : Block} :
    link E tip block = .ok tip' ↔
      block.height = tip.height + 1 ∧ futureSlotMs E block = none ∧
      (∀ prev, tip.id = some prev → block.previousBlock = prev) ∧
      ∃ id, block.id = some id ∧ tip' = { height := block.height, id := some id } := by
  unfold link
  by_cases hheight : block.height = tip.height + 1
  · cases hslot : futureSlotMs E block with
    | some early => simp [hheight]
    | none =>
        cases hid : block.id with
        | none => simp [hheight]
        | some id =>
            cases hprev : tip.id with
            | none =>
                simp only [hheight]
                simp [eq_comm (a := tip')]
            | some prev =>
                by_cases hsame : block.previousBlock = prev
                · simp [hheight, hsame, eq_comm (a := tip')]
                · simp [hheight, hsame, map_eq_ok]
  · simp [hheight]

/-- Everything an accepted call has checked and done. -/
theorem applyBlocks_eq_ok {E : Env} {s s' : Store} {blocks : List Block} {tip tip' : ChainTip}
    (h : applyBlocks E s blocks tip true = (s', .ok tip')) :
    blocks.foldlM (link E) tip = .ok tip' ∧ (∀ b ∈ blocks, Verified E b) ∧
      (∃ b, checkStatefulRules E s blocks = .ok b) ∧ s.applyBlocks E blocks = (s', .ok ()) := by
  unfold applyBlocks at h
  split at h
  · exact absurd (congrArg Prod.snd h) (by simp)
  · rename_i tip₁ hcheck
    obtain ⟨hstore, hresult⟩ := Prod.mk.inj h
    obtain ⟨tip₂, hlink, hcheck⟩ := bind_eq_ok.mp hcheck
    obtain ⟨u, hcrypto, hcheck⟩ := bind_eq_ok.mp hcheck
    simp only [if_true] at hcheck
    obtain ⟨b, hrules, hcheck⟩ := bind_eq_ok.mp hcheck
    rw [pure_eq_ok] at hcheck
    have hunit : (s.applyBlocks E blocks).2 = .ok () := by
      cases hr : (s.applyBlocks E blocks).2 with
      | error e => simp [hr, Except.map] at hresult
      | ok u => rfl
    have htip : tip₁ = tip' := by simpa [hunit, Except.map] using hresult
    refine ⟨?_, fun b hb => checkCrypto_verified (forM_ok_mem hcrypto b hb), ⟨b, hrules⟩, ?_⟩
    · rw [hlink, hcheck, htip]
    · exact Prod.ext hstore hunit

end Sync

theorem fillIds_eq {P : Primitives} {txs txs' : List Transaction}
    (hsome : ∀ tx ∈ txs, tx.id.isSome) (h : txs.mapM (fillId P) = .ok txs') : txs' = txs := by
  have hall := forall₂_of_mapM_ok h
  clear h
  induction hall with
  | nil => rfl
  | cons hab hrest ih =>
      rename_i a b l l'
      rw [ih fun tx htx => hsome tx (List.mem_cons_of_mem a htx)]
      obtain ⟨id, hid⟩ := Option.isSome_iff_exists.mp (hsome a List.mem_cons_self)
      simp only [fillId, hid, Except.ok.injEq] at hab
      rw [hab]

/-- A block whose ids are all present is stored as it is. -/
theorem prepareBlock_eq_ok {E : Env} {block : Block} {p : Block × List Bytes}
    (hv : Verified E block) (h : prepareBlock E block = .ok p) :
    p.1 = block ∧ encodeBlock E block = .ok p.2 := by
  obtain ⟨id, hid⟩ := Option.isSome_iff_exists.mp hv.id
  simp only [prepareBlock, hid] at h
  obtain ⟨id', hid', h⟩ := bind_eq_ok.mp h
  obtain ⟨txs, htxs, h⟩ := bind_eq_ok.mp h
  obtain ⟨frames, hframes, h⟩ := bind_eq_ok.mp h
  rw [pure_eq_ok] at h
  have hsame := fillIds_eq hv.txIds htxs
  injection hid' with hid'
  have hblock : { block with id := some id', transactions := txs } = block := by
    rw [hsame, ← hid', ← hid]
  rw [hblock] at hframes h
  rw [← h]
  exact ⟨rfl, hframes⟩

/-- Verified blocks are stored as they are. -/
theorem prepared_eq {E : Env} {blocks : List Block} {prepared : List (Block × List Bytes)}
    (hv : ∀ b ∈ blocks, Verified E b) (h : blocks.mapM (prepareBlock E) = .ok prepared) :
    prepared.map (fun p => p.1) = blocks := by
  have hall := forall₂_of_mapM_ok h
  clear h
  induction hall with
  | nil => rfl
  | cons hab hrest ih =>
      rename_i a p l l'
      rw [List.map_cons, ih fun b hb => hv b (List.mem_cons_of_mem a hb),
        (prepareBlock_eq_ok (hv a List.mem_cons_self) hab).1]

end SthCore
