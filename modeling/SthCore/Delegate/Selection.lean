import SthCore.Delegate.Builder
import SthCore.Mempool.Validate
import SthCore.Crypto.Signing

/-!
What `select_transactions` chooses: as much of the pool as fits, every sender's
transactions in the order of their nonces.
-/

namespace SthCore

open SthCore.Lib

/-- Length on the wire. -/
def wireSize (E : Env) (tx : Transaction) : Nat :=
  match serializeTransaction E.prim tx {} E.network.pubkeyHash with
  | .ok raw => raw.length
  | .error _ => 0

/-- The nonce of the last transaction of an address on the chain. -/
def Store.chainNonce (s : Store) (address : Text) : Nat :=
  ((s.getWallet address).map (·.nonce)).getD 0

def Transaction.sentFrom (E : Env) (address : Text) (tx : Transaction) : Bool :=
  (E.addressOf tx.senderPublicKey).toOption = some address

/-- A transaction that can go into a block: its sender has an address and it has bytes. -/
structure Transaction.Forgeable (E : Env) (tx : Transaction) : Prop where
  address : ∃ a, E.addressOf tx.senderPublicKey = .ok a
  bytes : ∃ raw, serializeTransaction E.prim tx {} E.network.pubkeyHash = .ok raw

/-- A transaction has bytes for one network if it has for another. -/
theorem serializeTransaction_ok_network {P : Primitives} {tx : Transaction}
    {opts : SerializeOptions} {networkByte : UInt8} {raw : Bytes} (other : UInt8)
    (h : serializeTransaction P tx opts networkByte = .ok raw) :
    ∃ raw', serializeTransaction P tx opts other = .ok raw' := by
  unfold serializeTransaction at h ⊢
  simp only [throw_bind, ite_error_eq_ok] at h ⊢
  obtain ⟨hversion, h⟩ := h
  obtain ⟨common, hcommon, h⟩ := bind_eq_ok.mp h
  obtain ⟨vendor, hvendor, h⟩ := bind_eq_ok.mp h
  obtain ⟨payload, hpayload, h⟩ := bind_eq_ok.mp h
  obtain ⟨sigs, hsigs, -⟩ := bind_eq_ok.mp h
  obtain ⟨sender, hsender, -⟩ := bind_eq_ok.mp hcommon
  unfold serializeCommon
  rw [hsender, hvendor, hpayload, hsigs]
  exact ⟨_, hversion, rfl⟩

/-- What the pool takes in can go into a block. -/
theorem PoolConfig.examine_forgeable {C : PoolConfig} {E : Env} {s : Store} {p : Pool}
    {tx : Transaction} {t : Newcomer} {grant : Admit} (h : C.examine E s p tx = .ok (t, grant)) :
    t.tx.Forgeable E := by
  obtain ⟨htx, sender, hvalid⟩ := examine_ok h
  refine ⟨⟨sender, hvalid.address⟩, ?_⟩
  obtain ⟨u, hu, -⟩ := bind_eq_ok.mp h
  unfold identify at hu
  split at hu
  · cases hu
  · rename_i id hid
    obtain ⟨raw, hraw, -⟩ := bind_eq_ok.mp hid
    obtain ⟨raw', hraw'⟩ := serializeTransaction_ok_network E.network.pubkeyHash hraw
    rw [htx]
    exact ⟨raw', hraw'⟩

namespace Selection

variable {E : Env} {s : Store} {ms : Milestone} {sel : Selection} {t : Transaction}

/-- The chosen transactions under one spelling of a sender key. -/
def runOf (sel : Selection) (key : Text) : List Transaction :=
  sel.chosen.filter fun t => t.senderPublicKey = key

/-- The nonce of a transaction is not the next one of its sender. -/
def NotNext (E : Env) (s : Store) (sel : Selection) (t : Transaction) : Prop :=
  ∀ a, E.addressOf t.senderPublicKey = .ok a →
    (t.nonce.getD 0).toNat ≠ s.chainNonce a + (sel.runOf t.senderPublicKey).length + 1

def TooLarge (E : Env) (ms : Milestone) (sel : Selection) (t : Transaction) : Prop :=
  ms.maxPayload.toNat < sel.payload + wireSize E t

/-- The nonce of a transaction is behind its sender's run, however the run goes on. -/
def Behind (E : Env) (s : Store) (sel : Selection) (t : Transaction) : Prop :=
  ∀ a, E.addressOf t.senderPublicKey = .ok a →
    ∀ k, (sel.runOf t.senderPublicKey).length ≤ k →
      (t.nonce.getD 0).toNat ≠ s.chainNonce a + k + 1

/-- The books of a selection from `all`, with `rest` still to come in a pass that began with
`most` candidates. -/
structure Books (E : Env) (s : Store) (ms : Milestone) (all rest : List Transaction) (most : Nat)
    (sel : Selection) : Prop where
  parts : ∃ dropped, (sel.chosen ++ sel.deferred ++ rest ++ dropped).Perm all ∧
    (sel.isFull ms = false → ∀ d ∈ dropped, Behind E s sel d ∨ TooLarge E ms sel d)
  weight : sel.payload = (sel.chosen.map (wireSize E)).sum
  fits : sel.payload ≤ ms.maxPayload.toNat
  count : sel.chosen.length ≤ ms.maxTransactions.toNat
  nonces : ∀ key a, E.addressOf key = .ok a → (sel.runOf key).map (fun t => t.nonce.getD 0) =
    (List.range (sel.runOf key).length).map fun i => UInt64.ofNat (s.chainNonce a + i + 1)
  next : ∀ key a, E.addressOf key = .ok a → sel.nextNonce[key]? =
    if sel.runOf key = [] then none
    else some (UInt64.ofNat (s.chainNonce a + (sel.runOf key).length + 1))
  quiet : sel.progress = false → ∀ d ∈ sel.deferred, NotNext E s sel d
  shrinks : sel.deferred.length + rest.length + sel.progress.toNat ≤ most

theorem ofNat_succ (n : Nat) : UInt64.ofNat n + 1 = UInt64.ofNat (n + 1) := by
  apply UInt64.toNat_inj.mp
  simp

/-- The next nonce of a sender is the one after the chain's and those chosen. -/
theorem Books.expected {all rest : List Transaction} {most : Nat}
    (h : Books E s ms all rest most sel) {a : Text} (ha : E.addressOf t.senderPublicKey = .ok a) :
    sel.expectedNonce E s t =
      .ok (UInt64.ofNat (s.chainNonce a + (sel.runOf t.senderPublicKey).length + 1)) := by
  unfold expectedNonce
  rw [h.next t.senderPublicKey a ha]
  split_ifs with hempty
  · rw [ha, hempty]
    change Except.ok (UInt64.ofNat (s.chainNonce a) + 1) = _
    rw [ofNat_succ]
    rfl
  · rfl

theorem Behind.notNext (h : Behind E s sel t) : NotNext E s sel t :=
  fun a ha => h a ha _ le_rfl

/-- A longer run leaves behind what was behind. -/
theorem Behind.mono {sel' : Selection} (h : Behind E s sel t)
    (hrun : ∀ key, (sel.runOf key).length ≤ (sel'.runOf key).length) : Behind E s sel' t :=
  fun a ha k hk => h a ha k ((hrun _).trans hk)

section Consider

variable {all rest : List Transaction} {most : Nat}

/-- The candidate in front is left out. -/
theorem Books.drop (h : Books E s ms all (t :: rest) most sel)
    (hout : sel.isFull ms = false → Behind E s sel t ∨ TooLarge E ms sel t) :
    Books E s ms all rest most sel := by
  obtain ⟨dropped, hperm, hdropped⟩ := h.parts
  refine { h with parts := ⟨t :: dropped, ?_, ?_⟩, shrinks := ?_ }
  · have hmove : (sel.chosen ++ sel.deferred ++ rest ++ t :: dropped).Perm
        (sel.chosen ++ sel.deferred ++ t :: rest ++ dropped) := by
      simp only [List.append_assoc, List.cons_append]
      exact ((List.perm_middle).append_left _).append_left _
    exact hmove.trans hperm
  · intro hroom d hd
    rcases List.mem_cons.mp hd with rfl | hd
    · exact hout hroom
    · exact hdropped hroom d hd
  · have := h.shrinks
    rw [List.length_cons] at this
    omega

/-- The selection with one more transaction. -/
def take (E : Env) (sel : Selection) (t : Transaction) : Selection :=
  { sel with
    chosen := sel.chosen ++ [t]
    payload := sel.payload + wireSize E t
    nextNonce := sel.nextNonce.insert t.senderPublicKey (t.nonce.getD 0 + 1)
    progress := true }

theorem runOf_take (key : Text) :
    (sel.take E t).runOf key = if t.senderPublicKey = key then sel.runOf key ++ [t]
      else sel.runOf key := by
  unfold runOf take
  rw [List.filter_append]
  split_ifs with hkey <;> simp [hkey]

/-- The candidate in front has the next nonce of its sender, and it fits. -/
theorem Books.take {a : Text} (h : Books E s ms all (t :: rest) most sel)
    (hroom : sel.isFull ms = false) (ha : E.addressOf t.senderPublicKey = .ok a)
    (hnext : t.nonce.getD 0 =
      UInt64.ofNat (s.chainNonce a + (sel.runOf t.senderPublicKey).length + 1))
    (hfits : sel.payload + wireSize E t ≤ ms.maxPayload.toNat) :
    Books E s ms all rest most (sel.take E t) := by
  obtain ⟨dropped, hperm, hdropped⟩ := h.parts
  have hfew : sel.chosen.length < ms.maxTransactions.toNat := by
    unfold isFull at hroom
    simpa using hroom
  have hlonger : ∀ key, (sel.runOf key).length ≤ ((sel.take E t).runOf key).length := by
    intro key
    rw [runOf_take]
    split_ifs <;> simp
  refine ⟨⟨dropped, ?_, ?_⟩, ?_, hfits, ?_, ?_, ?_, ?_, ?_⟩
  · have hmove : (sel.chosen ++ [t] ++ sel.deferred ++ rest ++ dropped).Perm
        (sel.chosen ++ sel.deferred ++ t :: rest ++ dropped) := by
      simp only [List.append_assoc, List.cons_append, List.nil_append]
      exact (List.perm_middle.symm).append_left _
    exact hmove.trans hperm
  · intro _ d hd
    rcases hdropped hroom d hd with hbehind | hlarge
    · exact .inl (hbehind.mono hlonger)
    · refine .inr ?_
      unfold TooLarge at hlarge ⊢
      change _ < sel.payload + wireSize E t + wireSize E d
      omega
  · change sel.payload + wireSize E t = ((sel.chosen ++ [t]).map (wireSize E)).sum
    rw [List.map_append, List.sum_append, ← h.weight]
    simp
  · change (sel.chosen ++ [t]).length ≤ _
    rw [List.length_append, List.length_singleton]
    exact hfew
  · intro key b hb
    rw [runOf_take]
    split_ifs with hkey
    · subst hkey
      obtain rfl := Except.ok.inj (ha.symm.trans hb)
      rw [List.map_append, h.nonces _ a ha, List.length_append, List.length_singleton,
        List.range_succ, List.map_append, List.map_singleton, List.map_singleton, hnext]
    · exact h.nonces key b hb
  · intro key b hb
    change (sel.nextNonce.insert t.senderPublicKey (t.nonce.getD 0 + 1))[key]? = _
    rw [OrderedMap.getElem?_insert_eq, runOf_take]
    split_ifs with hkey hempty hempty
    · simp at hempty
    · subst hkey
      obtain rfl := Except.ok.inj (ha.symm.trans hb)
      rw [hnext, ofNat_succ, List.length_append, List.length_singleton]
      rfl
    · rw [h.next key b hb, if_pos hempty]
    · rw [h.next key b hb, if_neg hempty]
  · rintro ⟨⟩
  · have := h.shrinks
    rw [List.length_cons] at this
    change sel.deferred.length + rest.length + 1 ≤ most
    omega

end Consider

/-- What is promised of the choice from a pool: it is part of the pool and keeps both limits; the
nonces of each sender follow the chain's without a gap; and where there was room for one more, the
next transaction of a sender is not in the pool or does not fit. -/
structure Chosen (E : Env) (s : Store) (ms : Milestone) (pool chosen : List Transaction) :
    Prop where
  part : chosen.Subperm pool
  nodup : chosen.Nodup
  count : chosen.length ≤ ms.maxTransactions.toNat
  payload : (chosen.map (wireSize E)).sum ≤ ms.maxPayload.toNat
  inOrder : ∀ a, (chosen.filter (Transaction.sentFrom E a)).map (fun t => t.nonce.getD 0) =
    (List.range (chosen.filter (Transaction.sentFrom E a)).length).map fun i =>
      UInt64.ofNat (s.chainNonce a + i + 1)
  complete : chosen.length < ms.maxTransactions.toNat → ∀ t ∈ pool, ∀ a, t.sentFrom E a →
    (t.nonce.getD 0).toNat =
      s.chainNonce a + (chosen.filter (Transaction.sentFrom E a)).length + 1 →
    ms.maxPayload.toNat < (chosen.map (wireSize E)).sum + wireSize E t

/-- The choice that is left when no candidate can join it any more. -/
def Final (E : Env) (s : Store) (ms : Milestone) (all : List Transaction) (sel : Selection) :
    Prop :=
  (∃ most, Books E s ms all [] most sel) ∧
    (sel.isFull ms = false → ∀ d ∈ sel.deferred, NotNext E s sel d)

/-- A full selection loses its candidates. -/
theorem Books.full {all candidates : List Transaction} {most : Nat}
    (h : Books E s ms all candidates most sel) (hfull : sel.isFull ms = true) :
    Books E s ms all [] most sel := by
  induction candidates with
  | nil => exact h
  | cons t rest ih =>
      refine ih (h.drop fun hroom => ?_)
      rw [hfull] at hroom
      cases hroom

/-- What was deferred in one pass is what the next pass begins with. -/
theorem Books.again {all : List Transaction} {most : Nat} (h : Books E s ms all [] most sel) :
    Books E s ms all sel.deferred sel.deferred.length
      { sel with progress := false, deferred := [] } := by
  obtain ⟨dropped, hperm, hdropped⟩ := h.parts
  refine ⟨⟨dropped, ?_, hdropped⟩, h.weight, h.fits, h.count, h.nonces, h.next, ?_, ?_⟩
  · simpa only [List.append_nil] using hperm
  · rintro - d ⟨⟩
  · simp

section Senders

variable {pool : List Transaction}

theorem sentFrom_iff {a : Text} : t.sentFrom E a ↔ E.addressOf t.senderPublicKey = .ok a := by
  unfold Transaction.sentFrom
  rw [decide_eq_true_eq]
  cases E.addressOf t.senderPublicKey <;> simp [Except.toOption]

/-- Where each sender spells its key one way, its transactions are those under this key. -/
theorem filter_sentFrom (hspelled : ∀ t ∈ pool, ∀ u ∈ pool,
      E.addressOf t.senderPublicKey = E.addressOf u.senderPublicKey →
      t.senderPublicKey = u.senderPublicKey)
    (hsub : sel.chosen ⊆ pool) (ht : t ∈ pool) {a : Text} (ha : t.sentFrom E a) :
    sel.chosen.filter (Transaction.sentFrom E a) = sel.runOf t.senderPublicKey := by
  refine List.filter_congr fun u hu => ?_
  rw [Bool.eq_iff_iff, decide_eq_true_eq, sentFrom_iff]
  rw [sentFrom_iff] at ha
  constructor
  · intro hua
    exact hspelled u (hsub hu) t ht (hua.trans ha.symm)
  · intro hkey
    rw [hkey]
    exact ha

theorem nodup_nonces {n k : Nat} (hk : k ≤ 2 ^ 32) :
    ((List.range k).map fun i => UInt64.ofNat (n + i + 1)).Nodup := by
  refine List.Nodup.map_on ?_ List.nodup_range
  intro i hi j hj heq
  rw [List.mem_range] at hi hj
  have := congrArg UInt64.toNat heq
  rw [UInt64.toNat_ofNat', UInt64.toNat_ofNat'] at this
  omega

/-- A final choice keeps the promise. -/
theorem Final.chosen {all : List Transaction} (h : Final E s ms all sel) (hperm : all.Perm pool)
    (hall : ∀ t ∈ pool, t.Forgeable E)
    (hspelled : ∀ t ∈ pool, ∀ u ∈ pool,
      E.addressOf t.senderPublicKey = E.addressOf u.senderPublicKey →
      t.senderPublicKey = u.senderPublicKey) : Chosen E s ms pool sel.chosen := by
  obtain ⟨⟨most, hbooks⟩, hwait⟩ := h
  obtain ⟨dropped, hparts, hdropped⟩ := hbooks.parts
  rw [List.append_nil, List.append_assoc] at hparts
  have hpart : sel.chosen.Subperm pool :=
    (List.sublist_append_left _ _).subperm.trans (hparts.trans hperm).subperm
  have hinOrder : ∀ a, (sel.chosen.filter (Transaction.sentFrom E a)).map (fun t => t.nonce.getD 0) =
      (List.range (sel.chosen.filter (Transaction.sentFrom E a)).length).map fun i =>
        UInt64.ofNat (s.chainNonce a + i + 1) := by
    intro a
    rcases List.eq_nil_or_concat' (sel.chosen.filter (Transaction.sentFrom E a)) with
      hnil | ⟨front, t, hlast⟩
    · rw [hnil]
      rfl
    · have ht : t ∈ sel.chosen.filter (Transaction.sentFrom E a) := by
        rw [hlast]
        simp
      obtain ⟨hchosen, hsent⟩ := List.mem_filter.mp ht
      rw [filter_sentFrom hspelled hpart.subset (hpart.subset hchosen) hsent]
      exact hbooks.nonces _ a (sentFrom_iff.mp hsent)
  refine ⟨hpart, ?_, hbooks.count, hbooks.weight ▸ hbooks.fits, hinOrder, ?_⟩
  · refine List.nodup_iff_count_le_one.mpr fun t => ?_
    by_cases ht : t ∈ sel.chosen
    · obtain ⟨a, ha⟩ := (hall t (hpart.subset ht)).address
      have hfew : (sel.chosen.filter (Transaction.sentFrom E a)).length ≤ 2 ^ 32 :=
        (List.length_filter_le _ _).trans
          (hbooks.count.trans (Nat.le_of_lt ms.maxTransactions.toNat_lt))
      have hnodup : (sel.chosen.filter (Transaction.sentFrom E a)).Nodup := by
        refine List.Nodup.of_map (fun t => t.nonce.getD 0) ?_
        rw [hinOrder a]
        exact nodup_nonces hfew
      rw [← List.count_filter (sentFrom_iff.mpr ha)]
      exact List.nodup_iff_count_le_one.mp hnodup t
    · rw [List.count_eq_zero_of_not_mem ht]
      exact Nat.zero_le 1
  · intro hfew t ht a hsent hnonce
    have hroom : sel.isFull ms = false := by
      unfold isFull
      simpa using hfew
    have hrun := filter_sentFrom hspelled hpart.subset ht hsent
    have hnext : ¬ NotNext E s sel t := by
      intro hnot
      rw [hrun] at hnonce
      exact hnot a (sentFrom_iff.mp hsent) hnonce
    have hmem := (hparts.trans hperm).mem_iff.mpr ht
    rcases List.mem_append.mp hmem with hchosen | hmem
    · have hin := List.mem_map_of_mem (f := fun t : Transaction => t.nonce.getD 0)
        (List.mem_filter.mpr ⟨hchosen, hsent⟩)
      rw [hinOrder a, List.mem_map] at hin
      obtain ⟨i, hi, heq⟩ := hin
      rw [List.mem_range] at hi
      rw [← heq, UInt64.toNat_ofNat'] at hnonce
      have := Nat.mod_le (s.chainNonce a + i + 1) (2 ^ 64)
      omega
    · rcases List.mem_append.mp hmem with hdeferred | hlost
      · exact absurd (hwait hroom t hdeferred) hnext
      · rcases hdropped hroom t hlost with hbehind | hlarge
        · exact absurd hbehind.notNext hnext
        · rw [← hbooks.weight]
          exact hlarge

end Senders

end Selection

namespace Reference

end Reference

open Reference

end SthCore
