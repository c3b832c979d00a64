import SthCore.Chain.Nonces
import SthCore.Lib.Runs
import SthCore.Crypto.Signing
import SthCore.Mempool.Validate

/-!
The books of the pool: its byte counter, its limits, and one pending
transaction for a sender and a nonce, under any order of checks and writes.
-/

namespace SthCore

open SthCore.Lib

/-- What an admission takes out of the pool. -/
def Admit.gone (a : Admit) : List Text := a.replaces.toList ++ a.evicts

theorem Admit.mem_gone {a : Admit} {id : Text} :
    id ∈ a.gone ↔ a.replaces = some id ∨ id ∈ a.evicts := by
  simp [gone]

namespace PoolConfig

variable (C : PoolConfig)

/-- The books are in order. -/
structure Accounted (E : Env) (p : Pool) : Prop where
  bytes : p.bytes = (p.txs.toList.map fun e => C.txSize E e.2).sum
  slots : p.txs.size ≤ C.maxSize
  volume : p.bytes ≤ C.maxBytes
  senders : ∀ a, (p.txs.toList.filter fun e => Chain.sentBy E.prim E.network a e.2).length ≤
    C.antispam.maxPerSender
  nonces : ∀ e ∈ p.txs.toList, ∀ f ∈ p.txs.toList, ∀ a,
    Chain.sentBy E.prim E.network a e.2 → Chain.sentBy E.prim E.network a f.2 →
      e.2.nonce = f.2.nonce → e = f

/-- What `validate` has checked of the limits holds of a pool: the id is new, there is a slot and
there are the bytes once the replaced and the evicted are gone, and the sender has neither too
many transactions nor one with this nonce. -/
structure Fits (E : Env) (p : Pool) (t : Newcomer) (grant : Admit) : Prop where
  fresh : p.txs[t.id]? = none
  room : C.needs (C.removeAll E p grant.gone) (C.txSize E t.tx) = (0, 0)
  hoard : (C.pendingOf (C.removeAll E p grant.gone) t.tx.senderPublicKey).length <
    C.antispam.maxPerSender
  nonce : ∀ u ∈ C.pendingOf (C.removeAll E p grant.gone) t.tx.senderPublicKey,
    u.nonce ≠ t.tx.nonce

/-- The pending transactions from the address of a newcomer spell its key the same way. -/
def OneSpelling (E : Env) (p : Pool) (tx : Transaction) : Prop :=
  ∀ e ∈ p.txs.toList, E.addressOf e.2.senderPublicKey = E.addressOf tx.senderPublicKey →
    e.2.senderPublicKey = tx.senderPublicKey

variable {C} {E : Env} {p q : Pool}

theorem mem_pendingOf {key : Text} {u : Transaction} :
    u ∈ C.pendingOf p key ↔ ∃ id : Text, p.txs[id]? = some u ∧ u.senderPublicKey = key := by
  simp only [pendingOf, List.mem_insertionSort, List.mem_filter, List.mem_map,
    C.entries_perm p |>.mem_iff, decide_eq_true_eq]
  constructor
  · rintro ⟨⟨⟨id, t⟩, he, rfl⟩, hkey⟩
    exact ⟨id, Std.ExtTreeMap.mem_toList_iff_getElem?_eq_some.mp he, hkey⟩
  · rintro ⟨id, hid, hkey⟩
    exact ⟨⟨(id, u), Std.ExtTreeMap.mem_toList_iff_getElem?_eq_some.mpr hid, rfl⟩, hkey⟩

theorem length_pendingOf (key : Text) :
    (C.pendingOf p key).length =
      (p.txs.toList.filter fun e => e.2.senderPublicKey = key).length := by
  rw [pendingOf, List.length_insertionSort, List.filter_map, List.length_map]
  exact ((C.entries_perm p).filter _).length_eq

theorem pendingOf_subset (h : q.txs.Sub p.txs) (key : Text) :
    C.pendingOf q key ⊆ C.pendingOf p key := by
  intro u hu
  obtain ⟨id, hid, hkey⟩ := mem_pendingOf.mp hu
  exact mem_pendingOf.mpr ⟨id, h id u hid, hkey⟩

theorem length_pendingOf_le (h : q.txs.Sub p.txs) (key : Text) :
    (C.pendingOf q key).length ≤ (C.pendingOf p key).length := by
  rw [length_pendingOf, length_pendingOf]
  exact h.length_filter_le _

/-- Without one of its transactions a sender has fewer. -/
theorem length_pendingOf_lt {id : Text} {old : Transaction} (h : q.txs.Sub (p.txs.erase id))
    (hold : p.txs[id]? = some old) :
    (C.pendingOf q old.senderPublicKey).length < (C.pendingOf p old.senderPublicKey).length := by
  have hperm := (OrderedMap.toList_perm_erase hold).filter
    fun e => e.2.senderPublicKey = old.senderPublicKey
  rw [length_pendingOf, length_pendingOf, hperm.length_eq, List.filter_cons_of_pos (by simp),
    List.length_cons]
  exact Nat.lt_succ_of_le (h.length_filter_le _)

/-- The transactions under one spelling of a key are among those of its address. -/
theorem length_pendingOf_le_sent {key a : Text} (h : E.addressOf key = .ok a) :
    (C.pendingOf p key).length ≤
      (p.txs.toList.filter fun e => Chain.sentBy E.prim E.network a e.2).length := by
  rw [length_pendingOf, ← List.countP_eq_length_filter, ← List.countP_eq_length_filter]
  refine List.countP_mono_left fun e _ he => ?_
  rw [decide_eq_true_eq] at he
  exact Chain.sentBy_iff.mpr (he ▸ h)

theorem Exact.bytes_le (hq : C.Exact E q) (hp : C.Exact E p) (hsub : q.txs.Sub p.txs) :
    q.bytes ≤ p.bytes := by
  rw [hq, hp]
  exact hsub.sum_le _

theorem needs_eq_zero {size : Nat} :
    C.needs p size = (0, 0) ↔ p.txs.size < C.maxSize ∧ p.bytes + size ≤ C.maxBytes := by
  unfold needs
  rw [Prod.mk.injEq, Nat.sub_eq_zero_iff_le]
  split_ifs with hfull
  · simp [hfull]
  · simp [not_le.mp hfull]

/-- A pool that has lost transactions fits what it fitted. -/
theorem Fits.of_sub {t : Newcomer} {grant : Admit} (h : C.Fits E p t grant)
    (hp : C.Exact E p) (hq : C.Exact E q) (hsub : q.txs.Sub p.txs) : C.Fits E q t grant := by
  have hgone : (C.removeAll E q grant.gone).txs.Sub (C.removeAll E p grant.gone).txs := by
    rw [removeAll_txs, removeAll_txs]
    exact hsub.eraseAll _
  constructor
  · cases hnone : q.txs[t.id]? with
    | none => rfl
    | some u =>
        have := h.fresh ▸ hsub t.id u hnone
        cases this
  · obtain ⟨hslots, hbytes⟩ := needs_eq_zero.mp h.room
    have hsize := hgone.size_le
    have hweight := (hq.removeAll grant.gone).bytes_le (hp.removeAll grant.gone) hgone
    rw [needs_eq_zero]
    omega
  · exact lt_of_le_of_lt (length_pendingOf_le hgone _) h.hoard
  · exact fun u hu => h.nonce u (pendingOf_subset hgone _ hu)

theorem Accounted.exact (h : C.Accounted E p) : C.Exact E p := h.bytes

/-- Books stay in order when transactions go. -/
theorem Accounted.of_sub (h : C.Accounted E p) (hq : C.Exact E q) (hsub : q.txs.Sub p.txs) :
    C.Accounted E q where
  bytes := hq
  slots := hsub.size_le.trans h.slots
  volume := (hq.bytes_le h.exact hsub).trans h.volume
  senders a := (hsub.length_filter_le _).trans (h.senders a)
  nonces e he f hf := h.nonces e (hsub.subset he) f (hsub.subset hf)

theorem checkHoard_ok {sender : Text} {pending : List Transaction} {tx : Transaction} {size : Nat}
    (h : C.checkHoard E sender pending tx size = .ok ()) (henabled : C.antispam.enabled = true)
    (hnone : ∀ u ∈ pending, u.nonce ≠ tx.nonce) : pending.length < C.antispam.maxPerSender := by
  unfold checkHoard at h
  rw [if_neg (by simpa using hnone)] at h
  unfold checkSender at h
  rw [henabled] at h
  split_ifs at h with hfull
  · cases hfull
  · cases h
  · cases h
  · omega

theorem removeAll_sub (ids : List Text) : (C.removeAll E p ids).txs.Sub p.txs := by
  rw [removeAll_txs]
  exact OrderedMap.eraseAll_sub p.txs ids

theorem Accounted.removeAll (h : C.Accounted E p) (ids : List Text) :
    C.Accounted E (C.removeAll E p ids) :=
  h.of_sub (h.exact.removeAll ids) (removeAll_sub ids)

/-- Books stay in order when a transaction enters that fits. -/
theorem Accounted.insert {t : Newcomer} {grant : Admit} (h : C.Accounted E p)
    (hfits : C.Fits E p t grant) (hspelled : OneSpelling E p t.tx) (tip : Nat) :
    C.Accounted E (C.insert E tip p t grant) := by
  have hless := h.removeAll grant.gone
  have hsub : (C.removeAll E p grant.gone).txs.Sub p.txs := removeAll_sub grant.gone
  obtain ⟨hslots, hbytes⟩ := needs_eq_zero.mp hfits.room
  have hfresh : (C.removeAll E p grant.gone).txs[t.id]? = none := by
    rw [removeAll_txs, OrderedMap.getElem?_eraseAll, hfits.fresh, ite_self]
  have hperm := OrderedMap.toList_insert_of_none hfresh t.tx
  -- an entry of the sender's address is one of the sender's key
  have hkeys : ∀ a, Chain.sentBy E.prim E.network a t.tx →
      ∀ e ∈ (C.removeAll E p grant.gone).txs.toList, Chain.sentBy E.prim E.network a e.2 →
        e.2.senderPublicKey = t.tx.senderPublicKey := by
    intro a ht e he hsent
    apply hspelled e (hsub.subset he)
    exact (Chain.sentBy_iff.mp hsent).trans (Chain.sentBy_iff.mp ht).symm
  have hnew : ∀ a, Chain.sentBy E.prim E.network a t.tx →
      ∀ e ∈ (C.removeAll E p grant.gone).txs.toList, Chain.sentBy E.prim E.network a e.2 →
        e.2.nonce ≠ t.tx.nonce := by
    intro a ht e he hsent
    have hget := Std.ExtTreeMap.mem_toList_iff_getElem?_eq_some.mp he
    exact hfits.nonce e.2 (mem_pendingOf.mpr ⟨e.1, hget, hkeys a ht e he hsent⟩)
  constructor
  · change (C.removeAll E p grant.gone).bytes + C.txSize E t.tx = _
    have hsum := (hperm.map fun e => C.txSize E e.2).sum_eq
    rw [List.map_cons, List.sum_cons] at hsum
    refine Eq.trans ?_ hsum.symm
    rw [hless.bytes, Nat.add_comm]
  · have hlength := hperm.length_eq
    rw [List.length_cons, Std.ExtTreeMap.length_toList, Std.ExtTreeMap.length_toList] at hlength
    exact le_of_eq_of_le hlength hslots
  · exact hbytes
  · intro a
    have hcount := (hperm.filter fun e => Chain.sentBy E.prim E.network a e.2).length_eq
    refine le_of_eq_of_le hcount ?_
    rw [List.filter_cons]
    split_ifs with ht
    · refine Nat.succ_le_of_lt (lt_of_le_of_lt ?_ hfits.hoard)
      rw [length_pendingOf, ← List.countP_eq_length_filter, ← List.countP_eq_length_filter]
      refine List.countP_mono_left fun e he hsent => ?_
      exact decide_eq_true (hkeys a ht e he hsent)
    · exact hless.senders a
  · intro e he f hf a hea hfa hnonce
    have he := hperm.mem_iff.mp he
    have hf := hperm.mem_iff.mp hf
    rcases List.mem_cons.mp he with rfl | he <;> rcases List.mem_cons.mp hf with rfl | hf
    · rfl
    · exact absurd hnonce.symm (hnew a hea f hf hfa)
    · exact absurd hnonce (hnew a hfa e he hea)
    · exact hless.nonces e he f hf a hea hfa hnonce

/-- A transaction that has just been validated fits. -/
theorem Validated.fits {s : Store} {t : Newcomer} {sender : Text} {grant : Admit}
    (hv : C.Validated E s p t.tx sender grant) (h : C.Accounted E p)
    (henabled : C.antispam.enabled = true) : C.Fits E p t grant := by
  obtain ⟨out, hevicts, hnodup, hevictable, hslots, hbytes⟩ := room_ok hv.room
  have hgone : (C.removeAll E p grant.gone).txs.Sub (p.txs.eraseAll (out.map Candidate.id)) := by
    rw [removeAll_txs, ← hevicts]
    exact OrderedMap.eraseAll_anti p.txs (List.subset_append_right _ _)
  have hsize := OrderedMap.size_eraseAll Candidate.id hnodup fun c hc =>
    (hevictable c hc).imp fun u hu => hu.pending
  have hweight := OrderedMap.sum_eraseAll (fun e => C.txSize E e.2) Candidate.id Candidate.bytes
    hnodup fun c hc => (hevictable c hc).imp fun u hu => ⟨hu.pending, hu.bytes⟩
  have hless : (C.removeAll E p grant.gone).bytes ≤ _ :=
    le_of_eq_of_le (h.exact.removeAll grant.gone) (hgone.sum_le fun e => C.txSize E e.2)
  obtain ⟨n, hn, -⟩ := checkNonce_ok hv.nonce
  have hnonce : t.tx.nonce.isSome := by rw [hn]; rfl
  have hsub : (C.removeAll E p grant.gone).txs.Sub p.txs := removeAll_sub grant.gone
  constructor
  · have hfresh := hv.fresh
    rwa [t.keyed] at hfresh
  · have hbound := h.slots
    have hcounter := h.bytes
    have hsmaller := hgone.size_le
    rw [needs_eq_zero]
    unfold needs at hslots hbytes
    constructor
    · dsimp only at hslots
      split_ifs at hslots <;> omega
    · dsimp only at hbytes
      omega
  · rcases replacement_ok hv.replaces hnonce with ⟨old, hold, -, hreplaces⟩ | ⟨-, hnone⟩
    · obtain ⟨id, hid, hkey⟩ := mem_pendingOf.mp hold
      rw [p.keyed id old hid] at hreplaces
      have herase : (C.removeAll E p grant.gone).txs.Sub (p.txs.erase id) := by
        rw [removeAll_txs]
        have hgone : [id] ⊆ grant.gone := by simp [Admit.gone, hreplaces]
        exact OrderedMap.eraseAll_anti p.txs hgone
      have hfewer := length_pendingOf_lt (C := C) herase hid
      have hmost := (length_pendingOf_le_sent (C := C) (p := p) hv.address).trans (h.senders sender)
      rw [hkey] at hfewer
      omega
    · exact lt_of_le_of_lt (length_pendingOf_le hsub _) (checkHoard_ok hv.hoard henabled hnone)
  · intro u hu hsame
    obtain ⟨id, hid, hkey⟩ := mem_pendingOf.mp hu
    rcases replacement_ok hv.replaces hnonce with ⟨old, hold, holdn, hreplaces⟩ | ⟨-, hnone⟩
    · -- the replaced transaction was the only one with this nonce
      obtain ⟨id', hid', hkey'⟩ := mem_pendingOf.mp hold
      have hsent : ∀ v, v.senderPublicKey = t.tx.senderPublicKey →
          Chain.sentBy E.prim E.network sender v := by
        intro v hv'
        exact Chain.sentBy_iff.mpr (hv' ▸ hv.address)
      have heq := h.nonces (id, u) (Std.ExtTreeMap.mem_toList_iff_getElem?_eq_some.mpr (hsub id u hid))
        (id', old) (Std.ExtTreeMap.mem_toList_iff_getElem?_eq_some.mpr hid') sender
        (hsent u hkey) (hsent old hkey') (hsame.trans holdn.symm)
      obtain ⟨rfl, rfl⟩ := Prod.mk.inj heq
      refine (getElem?_removeAll C |>.mp hid).1 (Admit.mem_gone.mpr (.inl ?_))
      rw [hreplaces, p.keyed id u hid']
    · exact hnone u (pendingOf_subset hsub _ hu) hsame

end PoolConfig

/-- A transaction that has been validated and waits for the write lock, with the height that its
batch has read and the number of transactions that had entered when it was validated. -/
structure Waiting where
  tip : Nat
  newcomer : Newcomer
  grant : Admit
  entered : Nat

/-- A pool with the tasks that work on it. -/
structure SharedPool where
  store : Store
  pool : Pool := {}
  waiting : List Waiting := []
  /-- What running prunes have chosen to drop. -/
  sweeps : List (List Text) := []
  /-- How many transactions have entered. -/
  entered : Nat := 0

inductive PoolAction where
  /-- A batch that has read the height `tip` comes to one of its transactions. -/
  | validate (tip : Nat) (tx : Transaction)
  | insert (k : Nat)
  | purge (sender : Option Text)
  /-- The first half of `prune_confirmed`, with the entry heights and chain states it reads. -/
  | survey (seen : Text → Store) (tip : Nat) (entered : OrderedMap Text Nat)
  | sweep (k : Nat)
  /-- The chain moves. -/
  | chain (s : Store)

namespace SharedPool

/-- One step, nothing when it cannot be taken. -/
def step (C : PoolConfig) (E : Env) (n : SharedPool) : PoolAction → Option SharedPool
  | .validate tip tx =>
      match C.examine E n.store n.pool tx with
      | .error _ => some n
      | .ok (t, grant) =>
          some { n with waiting := ⟨tip, t, grant, n.entered⟩ :: n.waiting }
  | .insert k =>
      n.waiting[k]?.map fun w =>
        { n with
          pool := C.insert E w.tip n.pool w.newcomer w.grant
          waiting := n.waiting.eraseIdx k
          entered := n.entered + 1 }
  | .purge sender => some { n with pool := C.purge E n.pool sender }
  | .survey seen tip entered =>
      some { n with sweeps := C.stale E seen tip entered (C.entries n.pool) :: n.sweeps }
  | .sweep k =>
      n.sweeps[k]?.map fun ids =>
        { n with pool := C.removeAll E n.pool ids, sweeps := n.sweeps.eraseIdx k }
  | .chain s => some { n with store := s }

/-- A transaction enters a pool whose transactions from the same address spell the key its way,
and either none has entered since it was validated or what was checked of it still holds. -/
def Undisturbed (C : PoolConfig) (E : Env) (n : SharedPool) : PoolAction → Prop
  | .insert k => ∀ w, n.waiting[k]? = some w → PoolConfig.OneSpelling E n.pool w.newcomer.tx ∧
      (w.entered = n.entered ∨ C.Fits E n.pool w.newcomer w.grant)
  | _ => True

/-- What holds between the steps. -/
structure InOrder (C : PoolConfig) (E : Env) (n : SharedPool) : Prop where
  accounted : C.Accounted E n.pool
  past : ∀ w ∈ n.waiting, w.entered ≤ n.entered
  fits : ∀ w ∈ n.waiting, w.entered = n.entered → C.Fits E n.pool w.newcomer w.grant

variable {C : PoolConfig} {E : Env} {n n' : SharedPool}

/-- Removals keep what the waiting transactions rely on. -/
theorem InOrder.removeAll (h : InOrder C E n) (ids : List Text) (sweeps : List (List Text)) :
    InOrder C E { n with pool := C.removeAll E n.pool ids, sweeps } := by
  refine ⟨h.accounted.removeAll ids, h.past, ?_⟩
  intro w hw hnow
  exact (h.fits w hw hnow).of_sub h.accounted.exact (h.accounted.exact.removeAll ids)
    (PoolConfig.removeAll_sub ids)

theorem InOrder.step (h : InOrder C E n) (henabled : C.antispam.enabled = true) (a : PoolAction)
    (hgood : Undisturbed C E n a) (hstep : n.step C E a = some n') : InOrder C E n' := by
  cases a with
  | validate tip tx =>
      simp only [SharedPool.step] at hstep
      split at hstep
      · exact Option.some.inj hstep ▸ h
      · rename_i t grant hexamine
        obtain rfl := Option.some.inj hstep
        obtain ⟨-, sender, hvalidated⟩ := PoolConfig.examine_ok hexamine
        refine ⟨h.accounted, ?_, ?_⟩
        · intro w hw
          rcases List.mem_cons.mp hw with rfl | hw
          · exact le_rfl
          · exact h.past w hw
        · intro w hw hnow
          rcases List.mem_cons.mp hw with rfl | hw
          · exact hvalidated.fits h.accounted henabled
          · exact h.fits w hw hnow
  | insert k =>
      obtain ⟨w, hw, rfl⟩ := Option.map_eq_some_iff.mp hstep
      obtain ⟨hspelled, hnow⟩ := hgood w hw
      have hfits : C.Fits E n.pool w.newcomer w.grant :=
        hnow.elim (h.fits w (List.mem_of_getElem? hw)) id
      refine ⟨h.accounted.insert hfits hspelled w.tip, ?_, ?_⟩
      · intro v hv
        exact Nat.le_succ_of_le (h.past v (List.mem_of_mem_eraseIdx hv))
      · -- the others were validated before this insertion
        intro v hv hsame
        have hpast := h.past v (List.mem_of_mem_eraseIdx hv)
        dsimp only at hsame
        omega
  | purge sender =>
      obtain rfl := Option.some.inj hstep
      exact h.removeAll _ n.sweeps
  | survey seen tip entered =>
      obtain rfl := Option.some.inj hstep
      exact ⟨h.accounted, h.past, h.fits⟩
  | sweep k =>
      obtain ⟨ids, -, rfl⟩ := Option.map_eq_some_iff.mp hstep
      exact h.removeAll ids _
  | chain s =>
      obtain rfl := Option.some.inj hstep
      exact ⟨h.accounted, h.past, h.fits⟩

/-- A validation leaves the pool alone. -/
theorem step_validate {tip : Nat} {tx : Transaction}
    (hstep : n.step C E (.validate tip tx) = some n') :
    n'.pool = n.pool ∧ n'.entered = n.entered ∧
      ∀ w ∈ n'.waiting, w ∈ n.waiting ∨ w.entered = n.entered := by
  simp only [SharedPool.step] at hstep
  split at hstep
  · obtain rfl := Option.some.inj hstep
    exact ⟨rfl, rfl, fun w hw => .inl hw⟩
  · obtain rfl := Option.some.inj hstep
    refine ⟨rfl, rfl, fun w hw => ?_⟩
    rcases List.mem_cons.mp hw with rfl | hw
    · exact .inr rfl
    · exact .inl hw

theorem inOrder_start (s : Store) : InOrder C E { store := s } where
  accounted := by
    constructor
    · rfl
    · exact Nat.zero_le _
    · exact Nat.zero_le _
    · exact fun a => Nat.zero_le _
    · intro e he
      cases he
  past w hw := by cases hw
  fits w hw := by cases hw

end SharedPool

/-- In every order of checks and writes that are not disturbed the books of the pool are in
order. -/
theorem sharedPool_accounted (C : PoolConfig) (E : Env) (henabled : C.antispam.enabled = true)
    (s : Store) (n : SharedPool)
    (hrun : Reaches (SharedPool.step C E) (SharedPool.Undisturbed C E) { store := s } n) :
    C.Accounted E n.pool :=
  (hrun.invariant (SharedPool.inOrder_start s) fun _ a _ h hgood hstep =>
    h.step henabled a hgood hstep).accounted

namespace Reference

/-- The pool of a node with static fees. -/
def poolConfig : PoolConfig where
  walk := fun entries => entries
  walk_perm := fun entries => .refl entries
  jsonLength := fun _ => 0
  dynamicFees := { enabled := false }

/-- A network on which a transfer costs 10. -/
def poolEnv : Env := ⟨primitives, network { staticFees := [("transfer", 10)] }, 8000⟩

/-- A chain on which the first key pair has 100. -/
def purseStore : Store where
  wallets := (∅ : OrderedMap Text WalletState).insert first.address
    { address := first.address, balance := 100 }

/-- The states that actions on an empty pool end in. -/
def poolAfter (actions : List PoolAction) : Option SharedPool :=
  actions.foldlM (SharedPool.step poolConfig poolEnv) { store := purseStore }

/-- A transfer is validated and inserted. -/
def oneTransfer : List PoolAction := [.validate 0 (transfer first second 1 5), .insert 0]

/-- Two tasks validate one transfer before either inserts it. -/
def oneTransferTwice : List PoolAction :=
  [.validate 0 (transfer first second 1 5), .validate 0 (transfer first second 1 5),
    .insert 0, .insert 0]

end Reference

open Reference

/-- The pool after either way to insert the transfer. -/
theorem poolAfter_transfer :
    (poolAfter oneTransfer).any (fun n : SharedPool => decide (n.pool.txs.size = 1)) = true ∧
    (poolAfter oneTransferTwice).any (fun n : SharedPool => decide
      (n.pool.bytes ≠ (n.pool.txs.toList.map fun e => poolConfig.txSize poolEnv e.2).sum)) =
        true := by
  decide +kernel

/-- A run of one validated transfer that is inserted next. -/
theorem sharedPool_accounted_transfer :
    ∃ n : SharedPool, n.pool.txs.size = 1 ∧ poolConfig.Accounted poolEnv n.pool := by
  obtain ⟨n, hn, hsize⟩ := (Option.any_eq_true _ _).mp poolAfter_transfer.1
  rw [poolAfter, oneTransfer, List.foldlM_cons] at hn
  obtain ⟨n₁, hvalidate, hn⟩ := Option.bind_eq_some_iff.mp hn
  rw [List.foldlM_cons] at hn
  obtain ⟨n₂, hinsert, hn⟩ := Option.bind_eq_some_iff.mp hn
  rw [List.foldlM_nil] at hn
  obtain rfl := Option.some.inj hn
  refine ⟨n₂, of_decide_eq_true hsize, ?_⟩
  apply sharedPool_accounted poolConfig poolEnv rfl purseStore
  have hfirst : SharedPool.Undisturbed poolConfig poolEnv { store := purseStore }
      (.validate 0 (transfer first second 1 5)) := trivial
  refine .next _ (.next _ .start hfirst hvalidate) ?_ hinsert
  obtain ⟨hpool, hentered, hwaiting⟩ := SharedPool.step_validate hvalidate
  intro w hw
  refine ⟨?_, .inl ?_⟩
  · intro e he
    rw [hpool] at he
    cases he
  · rcases hwaiting w (List.mem_of_getElem? hw) with hmem | hnow
    · cases hmem
    · rw [hnow, hentered]

/-- A transaction that two tasks validate before either inserts it is counted twice. -/
theorem doubled_transfer :
    ∃ n, Reaches (SharedPool.step poolConfig poolEnv) (fun _ _ => True)
        { store := purseStore } n ∧ ¬ poolConfig.Accounted poolEnv n.pool := by
  obtain ⟨n, hn, hbytes⟩ := (Option.any_eq_true _ _).mp poolAfter_transfer.2
  exact ⟨n, .of_foldlM (fun _ _ _ => trivial) hn, fun h => of_decide_eq_true hbytes h.bytes⟩

end SthCore
