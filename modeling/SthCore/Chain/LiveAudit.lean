import SthCore.Chain.Audited
import SthCore.Chain.Batches
import SthCore.Lib.Runs

/-!
The audit of a running node.  It walks through the chain and the wallets while
blocks are applied, takes the lock, books the blocks that have come meanwhile and
compares the wallets again that may have drifted.
-/

namespace SthCore

open SthCore.Lib

namespace Audit

/-- Where `audit_all_live` is before it takes the lock: the anchor, its id, the walk through the
blocks and the transactions of the last one, the walk through the wallets. -/
inductive AuditPhase
  | idle
  | anchored (anchor : Nat)
  | scanning (anchor : Nat) (anchorId : Option Text) (cursor : Option Nat)
      (todo : List Transaction) (acc : Accounts)
  | comparing (anchor : Nat) (anchorId : Option Text) (acc : Accounts) (cursor : Option Text)
      (out : ChainAudit)
  | compared (anchor : Nat) (anchorId : Option Text) (acc : Accounts) (unlocked : ChainAudit)

structure LiveAudit where
  store : Store
  phase : AuditPhase := .idle

inductive AuditAction
  | apply (blocks : List Block) (force : Bool)
  | rollback
  /-- The audit gets on. -/
  | advance

namespace LiveAudit

variable (E : Env)

/-- One unlocked step of `audit_all_live`; an error ends it. -/
def advance (t : LiveAudit) : Option LiveAudit :=
  match t.phase with
  | .idle => some { t with phase := .anchored t.store.lastHeight }
  | .anchored anchor =>
      match t.store.getBlockByHeight E anchor with
      | .ok block => some { t with phase := .scanning anchor (block.bind fun b => b.id) none [] ∅ }
      | .error _ => none
  | .scanning anchor anchorId cursor (tx :: rest) acc =>
      match auditTx E t.store tx with
      | .ok entries =>
          some { t with phase := .scanning anchor anchorId cursor rest (acc.book entries) }
      | .error _ => none
  | .scanning anchor anchorId cursor [] acc =>
      match t.store.blocks.nextEntry (inRange 0 anchor) cursor with
      | none => some { t with phase := .comparing anchor anchorId acc none { height := anchor } }
      | some e =>
          match decodeBlock E e.2 with
          | .error _ => none
          | .ok b =>
              match auditForger E b with
              | .error _ => none
              | .ok entries =>
                  some { t with
                    phase := .scanning anchor anchorId (some e.1) b.transactions
                      (acc.book entries) }
  | .comparing anchor anchorId acc cursor out =>
      match t.store.wallets.nextEntry (fun _ => true) cursor with
      | none => some { t with phase := .compared anchor anchorId acc out }
      | some e =>
          some { t with
            phase := .comparing anchor anchorId acc (some e.1)
              (out.judge (auditWallet acc anchor e.2)) }
  | .compared .. => none

/-- One step; nothing is rolled back once the audit has begun. -/
def step (t : LiveAudit) : AuditAction → Option LiveAudit
  | .apply blocks force =>
      if Chain.Successive blocks ∧ ∀ b ∈ blocks, 0 < b.height then
        some { t with store := (t.store.applyLocked E blocks force).1 }
      else none
  | .rollback =>
      match t.phase with
      | .idle => some { t with store := (t.store.rollbackLastBlock E).1 }
      | _ => none
  | .advance => advance E t

end LiveAudit

/-- The wallets and the undo records carry their own addresses. -/
structure Addressed (s : Store) : Prop where
  wallets : ∀ (x : Text) (w : WalletState), s.wallets[x]? = some w → w.address = x
  undo : ∀ (height : Nat) (record : UndoRecord), s.undo[height]? = some record →
    ∀ e ∈ record, ∀ w : WalletState, e.2 = some w → w.address = e.1

section Addresses

variable {E : Env} {s s' : Store}

theorem Addressed.walletAt (h : Addressed s) (x : Text) : (s.walletAt x).address = x := by
  unfold Store.walletAt Store.getWallet
  cases hw : s.wallets[x]? with
  | none => rfl
  | some w => exact h.wallets x w hw

theorem Addressed.committed (h : Addressed s) {p : Block × List Bytes}
    {rest : List (Block × List Bytes)} {on : Bool} (c : Store.Committed E s (p :: rest) s')
    (hlogs : s.Logs (p :: rest) c.ds on s') : Addressed s' := by
  constructor
  · rw [c.sameLedger.wallets]
    intro x w hw
    rcases Store.writeEntries_wallet c.written x with ⟨-, hget⟩ | ⟨d, w', -, happly, hget⟩
    · unfold Store.getWallet at hget
      rw [hget] at hw
      exact h.wallets x w hw
    · unfold Store.getWallet at hget
      rw [hget] at hw
      obtain rfl := Option.some.inj hw
      obtain ⟨-, -, issued, tokens, -, -, rfl⟩ := WalletState.apply_eq_ok happly
      exact h.walletAt x
  · intro height record hrecord
    rcases Chain.logs_entry hlogs hrecord with hold | ⟨-, rfl⟩
    · exact h.undo height record hold
    · rintro e he w hw
      obtain ⟨entry, -, rfl⟩ := List.mem_map.mp he
      exact h.wallets entry.1 w hw

theorem Addressed.rolledBack (h : Addressed s) (r : Store.RolledBack E s s') : Addressed s' := by
  constructor
  · rw [r.accounts.1, Store.restoreWallets_wallets]
    intro x w hw
    rw [Edit.getElem?_run] at hw
    cases hlast : Edit.last r.undo x with
    | none =>
        rw [hlast] at hw
        exact h.wallets x w hw
    | some v =>
        rw [hlast] at hw
        exact h.undo s.lastHeight r.undo r.logged (x, v) (Edit.mem_of_last hlast) w hw
  · rw [r.undoLog]
    intro height record hrecord
    rw [OrderedMap.getElem?_erase_eq] at hrecord
    split_ifs at hrecord
    exact h.undo height record hrecord

end Addresses

/-- What the audit relies on when a sub-batch is applied while it runs: the blocks read back with
the wallets they name, no stored claim has named their transactions in vain, a purchase pays a
wallet that the audit books, and no wallet that is created unbooked has been booked before. -/
structure Bookable (E : Env) (s s' : Store) (blocks : List Block) : Prop where
  retold : ∀ b ∈ blocks, Retold E b
  unnamed : ∀ e ∈ s.storedBlocks E, ∀ tx ∈ e.2.transactions, ∀ id, lockId tx = some id →
    ∀ b ∈ blocks, ∀ u ∈ b.transactions, u.id ≠ some id
  sold : (∃ b ∈ blocks, ∃ tx ∈ b.transactions, isPurchase tx = true) →
    ∀ x, (∀ b ∈ blocks, x ∉ blockParties E s' b) →
      figures (s'.walletAt x) = figures (s.walletAt x)
  created : ∀ x, s.getWallet x = none → (s'.getWallet x).isSome →
    (∀ b ∈ blocks, x ∉ blockParties E s' b) → ∀ e ∈ s.storedBlocks E, x ∉ blockParties E s e.2

/-- What a sub-batch means for an audit that runs meanwhile. -/
structure Extends (E : Env) (s s' : Store) : Prop where
  up : s.lastHeight ≤ s'.lastHeight
  below : ∀ height, height ≤ s.lastHeight → s'.blocks[height]? = s.blocks[height]?
  stored : ∀ e ∈ s.storedBlocks E, e ∈ s'.storedBlocks E
  lookups : ∀ e ∈ s.storedBlocks E, ∀ tx ∈ e.2.transactions, ∀ id, lockId tx = some id →
    s'.getTransaction E id = s.getTransaction E id
  wallets : ∀ x, (∃ e ∈ s'.storedBlocks E, s.lastHeight < e.1 ∧ x ∈ blockParties E s' e.2) ∨
    figures (s'.walletAt x) = figures (s.walletAt x) ∧
      (s.getWallet x = none → (s'.getWallet x).isSome →
        ∀ e ∈ s.storedBlocks E, x ∉ blockParties E s e.2)

theorem Extends.refl (E : Env) (s : Store) : Extends E s s where
  up := le_rfl
  below _ _ := rfl
  stored _ he := he
  lookups _ _ _ _ _ _ := rfl
  wallets x := .inr ⟨rfl, fun hnone hsome => by rw [hnone] at hsome; cases hsome⟩

section Growth

variable {E : Env} {s s' : Store} {blocks : List Block} {prepared : List (Block × List Bytes)}

theorem extends_of_committed (c : Store.Committed E s prepared s')
    (hgrown : Chain.Grown s prepared s') (h : Chain.Listed E s) (h' : Chain.Listed E s')
    (hprepared : blocks.mapM (prepareBlock E) = .ok prepared)
    (hback : ∀ p ∈ prepared, Store.ReadsBack E p.1)
    (hbookable : Bookable E s s' (prepared.map fun p => p.1)) : Extends E s s' := by
  have hmem : ∀ p ∈ prepared, p.1 ∈ prepared.map fun p => p.1 := fun p hp => List.mem_map_of_mem hp
  have hretold : ∀ p ∈ prepared, Retold E p.1 := fun p hp => hbookable.retold p.1 (hmem p hp)
  refine ⟨hgrown.up, fun _ => hgrown.blocks_eq, fun e => hgrown.storedBlocks_mem h, ?_, ?_⟩
  · intro e he tx htx id hid
    refine hgrown.getTransaction_eq h h' hprepared hback ?_
    exact fun p hp => hbookable.unnamed e he tx htx id hid p.1 (hmem p hp)
  · intro x
    by_cases hbooked : ∃ p ∈ prepared, x ∈ blockParties E s' p.1
    · obtain ⟨p, hp, hx⟩ := hbooked
      obtain ⟨own, -, hown⟩ := mapM_ok_mem hprepared p hp
      obtain ⟨d, hdecode, hheight, hgenerator, hkeys⟩ :=
        (hretold p hp).back p.2 (prepareBlock_ok hown).1
      refine .inl ⟨(p.1.height, d), ?_, hgrown.above p hp, ?_⟩
      · exact Store.mem_storedBlocks.mpr ⟨p.2, (hgrown.written p hp).1, hdecode⟩
      · rw [blockParties_congr hheight hgenerator hkeys]
        exact hx
    · have hother : ∀ b ∈ prepared.map fun p => p.1, x ∉ blockParties E s' b := by
        rintro b hb hx
        obtain ⟨p, hp, rfl⟩ := List.mem_map.mp hb
        exact hbooked ⟨p, hp, hx⟩
      refine .inr ⟨?_, fun hnone hsome => hbookable.created x hnone hsome hother⟩
      by_cases hsold : ∃ b ∈ prepared.map fun p => p.1, ∃ tx ∈ b.transactions, isPurchase tx = true
      · exact hbookable.sold hsold x hother
      · refine figures_of_committed c ?_ ?_ (locksStored hgrown h h' hprepared hback hretold) ?_
        · intro p hp tx htx
          rw [← Bool.not_eq_true]
          exact fun hpurchase => hsold ⟨p.1, hmem p hp, tx, htx, hpurchase⟩
        · exact fun p hp => (hretold p hp).refunds
        · exact fun p hp => hother p.1 (hmem p hp)

theorem Extends.blockParties_eq (h : Extends E s s') {e : Nat × Block}
    (he : e ∈ s.storedBlocks E) : blockParties E s' e.2 = blockParties E s e.2 := by
  unfold blockParties
  congr 1
  have hall : ∀ tx ∈ e.2.transactions, txParties E s' tx = txParties E s tx :=
    fun tx htx => txParties_stays (h.lookups e he tx htx)
  generalize e.2.transactions = l at hall
  induction l with
  | nil => rfl
  | cons tx rest ih =>
      rw [List.flatMap_cons, List.flatMap_cons, hall tx List.mem_cons_self,
        ih fun u hu => hall u (List.mem_cons_of_mem tx hu)]

/-- The blocks up to the anchor are booked as before. -/
theorem Extends.mapM_auditTx (h : Extends E s s') {e : Nat × Block} (he : e ∈ s.storedBlocks E)
    {l : List Transaction} (hl : ∀ tx ∈ l, tx ∈ e.2.transactions) :
    l.mapM (auditTx E s') = l.mapM (auditTx E s) := by
  induction l with
  | nil => rfl
  | cons tx rest ih =>
      rw [List.mapM_cons, List.mapM_cons, ih fun u hu => hl u (List.mem_cons_of_mem tx hu),
        auditTx_congr (h.lookups e he tx (hl tx List.mem_cons_self))]

theorem Extends.mapM_auditRecord (h : Extends E s s') {records : List (Nat × List Bytes)}
    (hrecords : ∀ e ∈ records, s.blocks[e.1]? = some e.2) :
    (records.mapM fun e => auditRecord E s' e.2) = records.mapM fun e => auditRecord E s e.2 := by
  induction records with
  | nil => rfl
  | cons e rest ih =>
      have hfirst : auditRecord E s' e.2 = auditRecord E s e.2 := by
        unfold auditRecord
        cases hdecode : decodeBlock E e.2 with
        | error err => rfl
        | ok b =>
            have hstored : (e.1, b) ∈ s.storedBlocks E :=
              Store.mem_storedBlocks.mpr ⟨e.2, hrecords e List.mem_cons_self, hdecode⟩
            simp only [ok_bind]
            unfold auditBlock
            rw [h.mapM_auditTx hstored fun tx htx => htx]
      rw [List.mapM_cons, List.mapM_cons, hfirst,
        ih fun d hd => hrecords d (List.mem_cons_of_mem e hd)]

theorem Extends.agree (h : Extends E s s') {anchor : Nat} (hanchor : anchor ≤ s.lastHeight)
    (k : Nat) (v : List Bytes) (hp : inRange 0 anchor (k, v) = true) :
    s'.blocks[k]? = some v ↔ s.blocks[k]? = some v := by
  unfold inRange at hp
  simp only [Bool.and_eq_true, decide_eq_true_eq] at hp
  rw [h.below k (hp.2.trans hanchor)]

theorem Extends.remaining_eq (h : Extends E s s') {anchor : Nat} (hanchor : anchor ≤ s.lastHeight)
    (cursor : Option Nat) :
    ((s'.blocks.remaining (inRange 0 anchor) cursor).mapM fun e => auditRecord E s' e.2) =
      (s.blocks.remaining (inRange 0 anchor) cursor).mapM fun e => auditRecord E s e.2 := by
  rw [OrderedMap.remaining_congr (h.agree hanchor) cursor]
  refine h.mapM_auditRecord fun e he => ?_
  exact Std.ExtTreeMap.mem_toList_iff_getElem?_eq_some.mp (List.mem_filter.mp he).1

theorem Extends.auditScan_eq (h : Extends E s s') {anchor : Nat} (hanchor : anchor ≤ s.lastHeight) :
    auditScan E s' 0 anchor = auditScan E s 0 anchor := by
  have hall := h.remaining_eq hanchor none
  rw [OrderedMap.remaining_none, OrderedMap.remaining_none] at hall
  unfold auditScan
  rw [hall]

end Growth

/-- The anchor is below the tip, with the id that was read. -/
structure Anchored (E : Env) (s : Store) (anchor : Nat) (anchorId : Option Text) : Prop where
  low : anchor ≤ s.lastHeight
  block : ∃ b, s.getBlockByHeight E anchor = .ok b ∧ (b.bind fun b => b.id) = anchorId

/-- What has been booked, and what is still to come, are the whole scan. -/
def Scanned (E : Env) (s : Store) (anchor : Nat) (cursor : Option Nat) (todo : List Transaction)
    (acc : Accounts) : Prop :=
  ∃ done, acc = (∅ : Accounts).book done ∧
    ∀ txs records, todo.mapM (auditTx E s) = .ok txs →
      ((s.blocks.remaining (inRange 0 anchor) cursor).mapM fun e => auditRecord E s e.2) =
        .ok records →
      auditScan E s 0 anchor = .ok (done ++ txs.flatten ++ records.flatten)

/-- What the comparison of a wallet has left: it is a candidate, it fits what has been booked for
it, or a block above the anchor books it. -/
def Judged (E : Env) (s : Store) (anchor : Nat) (acc : Accounts) (out : ChainAudit) (x : Text) :
    Prop :=
  (∃ a ∈ out.drifted, a.address = x) ∨
    (∀ w, s.getWallet x = some w → drifts (acc.of x) w = false) ∨
    ∃ e ∈ s.storedBlocks E, anchor < e.1 ∧ x ∈ blockParties E s e.2

/-- The accounts are those of the blocks up to the anchor. -/
def Scan (E : Env) (s : Store) (anchor : Nat) (acc : Accounts) : Prop :=
  ∃ entries, auditScan E s 0 anchor = .ok entries ∧ acc = (∅ : Accounts).book entries

def Progress (E : Env) (s : Store) : AuditPhase → Prop
  | .idle => True
  | .anchored anchor => anchor ≤ s.lastHeight
  | .scanning anchor anchorId cursor todo acc =>
      Anchored E s anchor anchorId ∧ Scanned E s anchor cursor todo acc ∧
        (todo = [] ∨ ∃ e ∈ s.storedBlocks E, ∀ tx ∈ todo, tx ∈ e.2.transactions)
  | .comparing anchor anchorId acc cursor out =>
      Anchored E s anchor anchorId ∧ Scan E s anchor acc ∧
        ∀ x, OrderedMap.ahead cursor x = false → Judged E s anchor acc out x
  | .compared anchor anchorId acc out =>
      Anchored E s anchor anchorId ∧ Scan E s anchor acc ∧ ∀ x, Judged E s anchor acc out x

section Keep

variable {E : Env} {s s' : Store} {anchor : Nat} {anchorId : Option Text} {acc : Accounts}
  {out : ChainAudit}

theorem Anchored.extends (h : Anchored E s anchor anchorId) (hext : Extends E s s') :
    Anchored E s' anchor anchorId := by
  refine ⟨h.low.trans hext.up, ?_⟩
  unfold Store.getBlockByHeight
  rw [hext.below anchor h.low]
  exact h.block

theorem Scanned.extends {cursor : Option Nat} {todo : List Transaction}
    (h : Scanned E s anchor cursor todo acc) (hext : Extends E s s') (hlow : anchor ≤ s.lastHeight)
    (htodo : todo = [] ∨ ∃ e ∈ s.storedBlocks E, ∀ tx ∈ todo, tx ∈ e.2.transactions) :
    Scanned E s' anchor cursor todo acc := by
  obtain ⟨done, hacc, hwhole⟩ := h
  have htxs : todo.mapM (auditTx E s') = todo.mapM (auditTx E s) := by
    rcases htodo with rfl | ⟨e, he, hmem⟩
    · rfl
    · exact hext.mapM_auditTx he hmem
  refine ⟨done, hacc, ?_⟩
  rw [htxs, hext.remaining_eq hlow, hext.auditScan_eq hlow]
  exact hwhole

theorem Scan.extends (h : Scan E s anchor acc) (hext : Extends E s s')
    (hlow : anchor ≤ s.lastHeight) : Scan E s' anchor acc := by
  unfold Scan
  rw [hext.auditScan_eq hlow]
  exact h

theorem figures_drifts {t : Totals} {w w' : WalletState} (h : figures w' = figures w) :
    drifts t w' = drifts t w := by
  unfold figures at h
  simp only [Prod.mk.injEq] at h
  obtain ⟨hbalance, hnonce, -⟩ := h
  unfold drifts
  rw [hbalance, hnonce]

/-- What the scan has not booked is of no stored block. -/
theorem Scan.of_unbooked (h : Scan E s anchor acc) {x : Text}
    (hx : ∀ e ∈ s.storedBlocks E, x ∉ blockParties E s e.2) : acc.of x = 0 := by
  obtain ⟨entries, hentries, rfl⟩ := h
  refine Accounts.of_book_of_notMem fun hmem => ?_
  obtain ⟨e, he, -, hbooked⟩ := (auditScan_parties hentries x).mp hmem
  exact hx e he hbooked

theorem Judged.extends (hscan : Scan E s anchor acc) (hlow : anchor ≤ s.lastHeight) {x : Text}
    (h : Judged E s anchor acc out x) (hext : Extends E s s') : Judged E s' anchor acc out x := by
  rcases h with hcandidate | hfits | ⟨e, he, habove, hx⟩
  · exact .inl hcandidate
  · rcases hext.wallets x with ⟨e, he, habove, hx⟩ | ⟨hfigures, hcreated⟩
    · exact .inr (.inr ⟨e, he, hlow.trans_lt habove, hx⟩)
    · refine .inr (.inl fun w' hw' => ?_)
      unfold Store.walletAt at hfigures
      rw [hw', Option.getD_some] at hfigures
      cases hw : s.getWallet x with
      | some w =>
          rw [hw, Option.getD_some] at hfigures
          rw [figures_drifts hfigures]
          exact hfits w hw
      | none =>
          -- a new wallet that nothing has been booked for
          rw [hw, Option.getD_none] at hfigures
          have hunbooked := hcreated hw (by rw [hw']; rfl)
          rw [figures_drifts hfigures, hscan.of_unbooked hunbooked]
          rfl
  · refine .inr (.inr ⟨e, hext.stored e he, habove, ?_⟩)
    rw [hext.blockParties_eq he]
    exact hx

theorem Progress.extends {phase : AuditPhase} (h : Progress E s phase) (hext : Extends E s s') :
    Progress E s' phase := by
  cases phase with
  | idle => trivial
  | anchored anchor => exact le_trans h hext.up
  | scanning anchor anchorId cursor todo acc =>
      obtain ⟨hanchored, hscanned, htodo⟩ := h
      refine ⟨hanchored.extends hext, hscanned.extends hext hanchored.low htodo, ?_⟩
      rcases htodo with hnil | ⟨e, he, hmem⟩
      · exact .inl hnil
      · exact .inr ⟨e, hext.stored e he, hmem⟩
  | comparing anchor anchorId acc cursor out =>
      obtain ⟨hanchored, hscan, hjudged⟩ := h
      exact ⟨hanchored.extends hext, hscan.extends hext hanchored.low,
        fun x hx => (hjudged x hx).extends hscan hanchored.low hext⟩
  | compared anchor anchorId acc out =>
      obtain ⟨hanchored, hscan, hjudged⟩ := h
      exact ⟨hanchored.extends hext, hscan.extends hext hanchored.low,
        fun x => (hjudged x).extends hscan hanchored.low hext⟩

/-- A walk through the blocks that has come to the next one. -/
theorem Scanned.next_block {cursor : Option Nat} (h : Scanned E s anchor cursor [] acc)
    {e : Nat × List Bytes} {b : Block} {entries : Entries}
    (hnext : s.blocks.nextEntry (inRange 0 anchor) cursor = some e)
    (hdecode : decodeBlock E e.2 = .ok b) (hforger : auditForger E b = .ok entries) :
    Scanned E s anchor (some e.1) b.transactions (acc.book entries) := by
  obtain ⟨done, rfl, hwhole⟩ := h
  refine ⟨done ++ entries, (Accounts.book_append _ _ _).symm, ?_⟩
  intro txs records htxs hrecords
  have hrecord : auditRecord E s e.2 = .ok (entries ++ txs.flatten) := by
    unfold auditRecord auditBlock
    rw [hdecode, ok_bind, hforger, ok_bind, htxs]
    rfl
  have hlater := hwhole [] ((entries ++ txs.flatten) :: records) rfl ?_
  · rw [hlater]
    simp only [List.flatten_nil, List.append_nil, List.flatten_cons, List.append_assoc]
  · rw [OrderedMap.remaining_of_nextEntry hnext, List.mapM_cons, hrecord, ok_bind, hrecords]
    rfl

theorem Scanned.next_tx {cursor : Option Nat} {tx : Transaction} {rest : List Transaction}
    (h : Scanned E s anchor cursor (tx :: rest) acc) {entries : Entries}
    (htx : auditTx E s tx = .ok entries) :
    Scanned E s anchor cursor rest (acc.book entries) := by
  obtain ⟨done, rfl, hwhole⟩ := h
  refine ⟨done ++ entries, (Accounts.book_append _ _ _).symm, ?_⟩
  intro txs records htxs hrecords
  rw [hwhole (entries :: txs) records ?_ hrecords, List.flatten_cons]
  · simp only [List.append_assoc]
  · rw [List.mapM_cons, htx, ok_bind, htxs]
    rfl

theorem Scanned.over {cursor : Option Nat} (h : Scanned E s anchor cursor [] acc)
    (hnext : s.blocks.nextEntry (inRange 0 anchor) cursor = none) : Scan E s anchor acc := by
  obtain ⟨done, hacc, hwhole⟩ := h
  refine ⟨done, ?_, hacc⟩
  rw [OrderedMap.nextEntry_eq_head?, List.head?_eq_none_iff] at hnext
  have hall := hwhole [] [] rfl (by rw [hnext]; rfl)
  simpa using hall

/-- The comparison of the next wallet judges it and every key that it passes. -/
theorem Judged.next_wallet (haddressed : Addressed s) {cursor : Option Text}
    (h : ∀ x, OrderedMap.ahead cursor x = false → Judged E s anchor acc out x)
    {e : Text × WalletState}
    (hnext : s.wallets.nextEntry (fun _ => true) cursor = some e) {x : Text}
    (hx : OrderedMap.ahead (some e.1) x = false) :
    Judged E s anchor acc (out.judge (auditWallet acc anchor e.2)) x := by
  have hmem : e ∈ s.wallets.toList := List.mem_of_find?_eq_some hnext
  have haddress : e.2.address = e.1 :=
    haddressed.wallets e.1 e.2 (Std.ExtTreeMap.mem_toList_iff_getElem?_eq_some.mp hmem)
  have hkeeps : ∀ a ∈ out.drifted, a ∈ (out.judge (auditWallet acc anchor e.2)).drifted := by
    intro a ha
    rw [judge_drifted]
    split_ifs
    · exact List.mem_append_left _ ha
    · exact ha
  cases hahead : OrderedMap.ahead cursor x with
  | false =>
      rcases h x hahead with ⟨a, ha, hax⟩ | hfits | hbooked
      · exact .inl ⟨a, hkeeps a ha, hax⟩
      · exact .inr (.inl hfits)
      · exact .inr (.inr hbooked)
  | true =>
      by_cases hdrifts : drifts (acc.of x) e.2 = true ∧ e.1 = x
      · obtain ⟨hdrifts, rfl⟩ := hdrifts
        refine .inl ⟨auditWallet acc anchor e.2, ?_, haddress⟩
        have hdrifted : (auditWallet acc anchor e.2).drifted = true := by
          unfold auditWallet
          rw [auditFinish_drifted, haddress]
          exact hdrifts
        rw [judge_drifted, if_pos hdrifted]
        exact List.mem_append_right _ (List.mem_singleton.mpr rfl)
      · refine .inr (.inl fun w hw => ?_)
        obtain ⟨n, hn, hcase⟩ := OrderedMap.nextEntry_of_mem (p := fun _ => true)
          (Std.ExtTreeMap.mem_toList_iff_getElem?_eq_some.mpr hw) rfl hahead
        rw [hnext] at hn
        obtain rfl := Option.some.inj hn
        rcases hcase with rfl | hstill
        · rw [← Bool.not_eq_true]
          exact fun hd => hdrifts ⟨hd, rfl⟩
        · rw [hx] at hstill
          cases hstill

theorem Judged.over {cursor : Option Text}
    (h : ∀ x, OrderedMap.ahead cursor x = false → Judged E s anchor acc out x)
    (hnext : s.wallets.nextEntry (fun _ => true) cursor = none) (x : Text) :
    Judged E s anchor acc out x := by
  cases hahead : OrderedMap.ahead cursor x with
  | false => exact h x hahead
  | true =>
      refine .inr (.inl fun w hw => ?_)
      obtain ⟨n, hn, -⟩ := OrderedMap.nextEntry_of_mem (p := fun _ => true)
        (Std.ExtTreeMap.mem_toList_iff_getElem?_eq_some.mpr hw) rfl hahead
      rw [hnext] at hn
      cases hn

end Keep

namespace LiveAudit

/-- Sub-batches bring new transactions, and the audit can book those that are applied while it
runs. -/
def Sound (E : Env) (t : LiveAudit) : AuditAction → Prop
  | .apply blocks force => t.store.Commits E blocks force →
      ∀ prepared, blocks.mapM (prepareBlock E) = .ok prepared →
        Chain.Indexable E t.store (prepared.map fun p => p.1) ∧
          (t.phase ≠ .idle → Bookable E t.store (t.store.applyLocked E blocks force).1
            (prepared.map fun p => p.1))
  | _ => True

structure Kept (E : Env) (t : LiveAudit) : Prop where
  listed : Chain.Listed E t.store
  addressed : Addressed t.store
  progress : Progress E t.store t.phase

variable {E : Env} {t t' : LiveAudit}

theorem Kept.apply (k : Kept E t) {blocks : List Block} {force : Bool}
    (hgood : t.Sound E (.apply blocks force)) (h : t.step E (.apply blocks force) = some t') :
    Kept E t' := by
  unfold step at h
  simp only at h
  split_ifs at h with hlinked
  obtain ⟨hchain, hpos⟩ := hlinked
  obtain rfl := Option.some.inj h
  by_cases hcommits : t.store.Commits E blocks force
  · obtain ⟨prepared, s', hprepared, hcommit⟩ := hcommits
    obtain ⟨hnew, hbookable⟩ := hgood ⟨prepared, s', hprepared, hcommit⟩ prepared hprepared
    obtain ⟨first, rest, rfl⟩ := Chain.prepared_ne_nil hcommit
    obtain ⟨c, hlogs⟩ := Store.applyLocked_committed hprepared hcommit
    have hgrown := Chain.grown_of_committed c hprepared hchain hpos
    have hlisted := Chain.committed_listed c hprepared hnew hchain hgrown.above k.listed
    refine ⟨hlisted, k.addressed.committed c hlogs, ?_⟩
    by_cases hidle : t.phase = .idle
    · show Progress E _ t.phase
      rw [hidle]
      trivial
    · have hback : ∀ p ∈ first :: rest, Store.ReadsBack E p.1 :=
        fun p hp => hnew.back p.1 (List.mem_map_of_mem hp)
      exact k.progress.extends
        (extends_of_committed c hgrown k.listed hlisted hprepared hback (hbookable hidle))
  · obtain ⟨e, he⟩ := Store.applyLocked_refused hcommits
    rw [he]
    exact k

theorem Kept.rollback (k : Kept E t) (h : t.step E .rollback = some t') : Kept E t' := by
  unfold step at h
  simp only at h
  split at h
  · rename_i hidle
    obtain rfl := Option.some.inj h
    have hprogress : ∀ s, Progress E s t.phase := by
      intro s
      rw [hidle]
      trivial
    cases hback : t.store.rollbackLastBlock E with
    | mk store outcome =>
        cases outcome with
        | error e =>
            obtain ⟨certs, rfl⟩ := Store.rollbackLastBlock_error hback
            exact ⟨k.listed.congr rfl rfl rfl rfl rfl rfl,
              ⟨k.addressed.wallets, k.addressed.undo⟩, hprogress _⟩
        | ok tip =>
            obtain ⟨-, ⟨r⟩⟩ := Store.rollbackLastBlock_eq_ok hback
            have hback : Store.RolledBack ⟨E.prim, E.network, E.nowMs⟩ t.store store := r
            exact ⟨(Chain.rollback_listed hback (k.listed.atTime 0)).atTime E.nowMs,
              k.addressed.rolledBack r, hprogress _⟩
  · cases h

theorem Kept.advance (k : Kept E t) (h : t.step E .advance = some t') : Kept E t' := by
  unfold step LiveAudit.advance at h
  simp only at h
  have hprogress := k.progress
  split at h
  · obtain rfl := Option.some.inj h
    exact ⟨k.listed, k.addressed, le_rfl⟩
  · rename_i anchor hphase
    rw [hphase] at hprogress
    split at h
    · rename_i b hblock
      obtain rfl := Option.some.inj h
      refine ⟨k.listed, k.addressed, ⟨hprogress, b, hblock, rfl⟩, ⟨[], rfl, ?_⟩, .inl rfl⟩
      intro txs records htxs hrecords
      obtain rfl := pure_eq_ok.mp htxs
      rw [OrderedMap.remaining_none] at hrecords
      unfold auditScan
      rw [hrecords]
      rfl
    · cases h
  · rename_i anchor anchorId cursor tx rest acc hphase
    rw [hphase] at hprogress
    obtain ⟨hanchored, hscanned, htodo⟩ := hprogress
    split at h
    · rename_i entries htx
      obtain rfl := Option.some.inj h
      refine ⟨k.listed, k.addressed, hanchored, hscanned.next_tx htx, ?_⟩
      rcases htodo with hnil | ⟨e, he, hmem⟩
      · cases hnil
      · exact .inr ⟨e, he, fun u hu => hmem u (List.mem_cons_of_mem tx hu)⟩
    · cases h
  · rename_i anchor anchorId cursor acc hphase
    rw [hphase] at hprogress
    obtain ⟨hanchored, hscanned, -⟩ := hprogress
    split at h
    · rename_i hnext
      obtain rfl := Option.some.inj h
      exact ⟨k.listed, k.addressed, hanchored, hscanned.over hnext, by rintro x ⟨⟩⟩
    · rename_i e hnext
      split at h
      · cases h
      · rename_i b hdecode
        split at h
        · cases h
        · rename_i entries hforger
          obtain rfl := Option.some.inj h
          refine ⟨k.listed, k.addressed, hanchored, hscanned.next_block hnext hdecode hforger,
            .inr ⟨(e.1, b), ?_, fun tx htx => htx⟩⟩
          have hmem := Std.ExtTreeMap.mem_toList_iff_getElem?_eq_some.mp
            (List.mem_of_find?_eq_some hnext)
          exact Store.mem_storedBlocks.mpr ⟨e.2, hmem, hdecode⟩
  · rename_i anchor anchorId acc cursor out hphase
    rw [hphase] at hprogress
    obtain ⟨hanchored, hscan, hjudged⟩ := hprogress
    split at h
    · rename_i hnext
      obtain rfl := Option.some.inj h
      exact ⟨k.listed, k.addressed, hanchored, hscan, fun x => Judged.over hjudged hnext x⟩
    · rename_i e hnext
      obtain rfl := Option.some.inj h
      exact ⟨k.listed, k.addressed, hanchored, hscan,
        fun x hx => Judged.next_wallet k.addressed hjudged hnext hx⟩
  · cases h

theorem reaches_kept (h : Reaches (step E) (Sound E) { store := {} } t) : Kept E t := by
  refine h.invariant (I := Kept E) ⟨?_, ⟨?_, ?_⟩, trivial⟩ ?_
  · exact Chain.listed_of_empty E rfl rfl rfl rfl rfl
  · intro x w hw
    cases hw
  · intro height record hrecord
    cases hrecord
  · intro t a u k hgood hnext
    cases a with
    | apply blocks force => exact k.apply hgood hnext
    | rollback => exact k.rollback hnext
    | advance => exact k.advance hnext

end LiveAudit

section Locked

variable {E : Env} {s : Store} {anchor : Nat} {anchorId : Option Text} {acc : Accounts}
  {unlocked : ChainAudit} {tail : Entries}

/-- Comparing the candidates finds what comparing every wallet finds. -/
theorem mem_recompare_iff (hlisted : Chain.Listed E s) (haddressed : Addressed s)
    {entries : Entries} (hacc : acc = (∅ : Accounts).book entries)
    (hjudged : ∀ x, Judged E s anchor acc unlocked x)
    (htail : auditScan E s (anchor + 1) s.lastHeight = .ok tail) (a : WalletAudit) :
    a ∈ recompare s (acc.book ((∅ : Accounts).book tail).toList) s.lastHeight
        (candidatesOf unlocked.drifted ((∅ : Accounts).book tail)) ↔
      a ∈ (auditCompare s ((∅ : Accounts).book (entries ++ tail)) s.lastHeight).drifted := by
  have hmerged : ∀ x, (acc.book ((∅ : Accounts).book tail).toList).of x =
      ((∅ : Accounts).book (entries ++ tail)).of x := by
    intro x
    rw [hacc, Accounts.of_book_parts]
  have htails : ∀ x, x ∈ (∅ : Accounts).book tail ↔ x ∈ tail.map fun e => e.1 := by
    intro x
    rw [Accounts.mem_book]
    simp
  rw [mem_recompare, mem_auditCompare]
  constructor
  · rintro ⟨x, -, w, hw, rfl, hdrifted⟩
    have haddress : w.address = x := haddressed.wallets x w hw
    refine ⟨x, w, hw, ?_, hdrifted⟩
    unfold auditWallet
    rw [hmerged, haddress]
  · rintro ⟨x, w, hw, rfl, hdrifted⟩
    have haddress : w.address = x := haddressed.wallets x w hw
    unfold auditWallet at hdrifted ⊢
    rw [haddress] at hdrifted ⊢
    refine ⟨x, ?_, w, hw, by rw [hmerged], hdrifted⟩
    rw [mem_candidatesOf]
    rcases hjudged x with hcandidate | hfits | ⟨e, he, habove, hx⟩
    · exact .inl hcandidate
    · right
      by_contra hunbooked
      have hzero : ((∅ : Accounts).book tail).of x = 0 :=
        Accounts.of_book_of_notMem ((htails x).not.mp hunbooked)
      rw [auditFinish_drifted, ← hmerged, Accounts.of_book_toList, hzero, add_zero,
        hfits w hw] at hdrifted
      cases hdrifted
    · refine .inr ((htails x).mpr ((auditScan_parties htail x).mpr ⟨e, he, ?_, hx⟩))
      exact ⟨habove, (hlisted.height_le he).2⟩

theorem auditLocked_ok {fix : Bool} {s' : Store} {report : ChainAudit} {repaired : Nat}
    (h : auditLocked E s anchor anchorId acc unlocked fix = .ok (s', report, repaired)) :
    ∃ tail, auditScan E s (anchor + 1) s.lastHeight = .ok tail ∧
      report.drifted = recompare s (acc.book ((∅ : Accounts).book tail).toList) s.lastHeight
        (candidatesOf unlocked.drifted ((∅ : Accounts).book tail)) := by
  obtain ⟨block, -, h⟩ := bind_eq_ok.mp h
  split_ifs at h with hid
  · cases h
  · obtain ⟨tail, htail, h⟩ := bind_eq_ok.mp h
    refine ⟨tail, htail, ?_⟩
    dsimp only at h
    split_ifs at h
    · obtain ⟨repairedStore, -, h⟩ := bind_eq_ok.mp h
      rw [← (Prod.mk.inj (Prod.mk.inj (pure_eq_ok.mp h)).2).1]
    · rw [← (Prod.mk.inj (Prod.mk.inj (pure_eq_ok.mp h)).2).1]

end Locked

/-- The audit of a running node reports the wallets that the audit of the resting node would report
at the moment it takes the lock, and it reports whenever that audit does. -/
theorem live_audit_exact (E : Env) {t : LiveAudit}
    (h : Reaches (LiveAudit.step E) (LiveAudit.Sound E) { store := {} } t) {anchor : Nat}
    {anchorId : Option Text} {acc : Accounts} {unlocked : ChainAudit}
    (hphase : t.phase = .compared anchor anchorId acc unlocked) :
    (∀ fix s' report repaired,
      auditLocked E t.store anchor anchorId acc unlocked fix = .ok (s', report, repaired) →
        ∃ full, auditAll E t.store = .ok full ∧ ∀ a, a ∈ report.drifted ↔ a ∈ full.drifted) ∧
    ∀ full, auditAll E t.store = .ok full →
      ∃ report,
        auditLocked E t.store anchor anchorId acc unlocked false = .ok (t.store, report, 0) := by
  have k := LiveAudit.reaches_kept h
  have hprogress := k.progress
  rw [hphase] at hprogress
  obtain ⟨hanchored, ⟨entries, hentries, hacc⟩, hjudged⟩ := hprogress
  constructor
  · intro fix s' report repaired hlocked
    obtain ⟨tail, htail, hdrifted⟩ := auditLocked_ok hlocked
    refine ⟨auditCompare t.store ((∅ : Accounts).book (entries ++ tail)) t.store.lastHeight, ?_, ?_⟩
    · unfold auditAll
      rw [auditScan_parts hanchored.low hentries htail]
      rfl
    · intro a
      rw [hdrifted]
      exact mem_recompare_iff k.listed k.addressed hacc hjudged htail a
  · intro full hfull
    obtain ⟨whole, hwhole, -⟩ := bind_eq_ok.mp hfull
    obtain ⟨tail, htail⟩ := auditScan_upper hanchored.low hwhole
    obtain ⟨b, hb, hid⟩ := hanchored.block
    unfold auditLocked
    rw [hb, ok_bind, if_neg (not_not.mpr hid)]
    dsimp only
    rw [htail]
    exact ⟨_, rfl⟩

section Sample

open Reference

/-- Run the round trip of one block. -/
theorem retold_of_roundTrip {E : Env} {b : Block}
    (hsame : ((encodeBlock E b).toOption.map fun record =>
        (decodeBlock E record).toOption.map fun d =>
          (d.height, d.generatorPublicKey, d.transactions.map auditKey)) =
      some (some (b.height, b.generatorPublicKey, b.transactions.map auditKey)))
    (hrefunds : ∀ tx ∈ b.transactions, tx.coreType ≠ some .htlcRefund) : Retold E b := by
  refine ⟨fun record hrecord => ?_, fun tx htx htype => absurd htype (hrefunds tx htx)⟩
  rw [hrecord] at hsame
  change some ((decodeBlock E record).toOption.map _) = _ at hsame
  cases hdecode : decodeBlock E record with
  | error e =>
      rw [hdecode] at hsame
      cases hsame
  | ok d =>
      rw [hdecode] at hsame
      have htold := Option.some.inj (Option.some.inj hsame)
      simp only [Prod.mk.injEq] at htold
      exact ⟨d, rfl, htold⟩

/-- The audit's view of the blocks is seen to read back, and they hold no refund and no purchase. -/
def PlainlyRetold (E : Env) (blocks : List Block) : Prop :=
  ∀ ps ∈ (blocks.mapM (prepareBlock E)).toOption, ∀ p ∈ ps,
    ((encodeBlock E p.1).toOption.map fun record =>
      (decodeBlock E record).toOption.map fun d =>
        (d.height, d.generatorPublicKey, d.transactions.map auditKey)) =
      some (some (p.1.height, p.1.generatorPublicKey, p.1.transactions.map auditKey)) ∧
    ∀ tx ∈ p.1.transactions, tx.coreType ≠ some .htlcRefund ∧ isPurchase tx = false

instance (E : Env) (blocks : List Block) : Decidable (PlainlyRetold E blocks) :=
  inferInstanceAs (Decidable (∀ ps ∈ (blocks.mapM (prepareBlock E)).toOption, ∀ p ∈ ps,
    _ = some (some (p.1.height, p.1.generatorPublicKey, p.1.transactions.map auditKey)) ∧
      ∀ tx ∈ p.1.transactions, tx.coreType ≠ some .htlcRefund ∧ isPurchase tx = false))

def auditEnv : Env := ⟨primitives, network { sobjActive := true, sobjV2 := true }, 24000⟩

/-- An audit that has begun to compare the wallets. -/
def scanned : Option LiveAudit :=
  (LiveAudit.step auditEnv { store := {} } (.apply [genesis] true)).bind fun t =>
    [AuditAction.advance, .advance, .advance, .advance].foldlM (LiveAudit.step auditEnv) t

/-- A transfer is applied, and the comparison goes on. -/
def overtaken : Option LiveAudit :=
  scanned.bind fun t => t.step auditEnv (.apply [placedBlock] true)

/-- The audit after the transfer, up to the end of the comparison. -/
def compared : Option LiveAudit :=
  overtaken.bind fun t =>
    [AuditAction.advance, .advance, .advance].foldlM (LiveAudit.step auditEnv) t

/-- What the blocks read back as, what the scanned store holds and the transfer books, and where
the audit ends. -/
theorem compared_steps :
    (Chain.RoundTrips auditEnv [genesis] ∧ Chain.RoundTrips auditEnv [placedBlock]) ∧
    PlainlyRetold auditEnv [placedBlock] ∧
    (∀ t ∈ scanned, (t.store.txs.toList = [] ∧
        ∀ e ∈ t.store.storedBlocks auditEnv, e.2.transactions.length = 0) ∧
      ∀ ps ∈ ([placedBlock].mapM (prepareBlock auditEnv)).toOption,
      ∀ e ∈ (t.store.applyLocked auditEnv [placedBlock] true).1.wallets.toList,
        (t.store.getWallet e.1).isSome ∨ ∃ p ∈ ps, e.1 ∈ blockParties auditEnv
          (t.store.applyLocked auditEnv [placedBlock] true).1 p.1) ∧
    compared.isSome ∧ ∀ v ∈ compared, v.store.lastHeight = 2 ∧
      (match v.phase with | .compared .. => true | _ => false) = true ∧
      (auditAll auditEnv v.store).toOption.isSome = true := by
  decide +kernel

theorem placedBlock_bookable {t : LiveAudit} (ht : t ∈ scanned) {prepared : List (Block × List Bytes)}
    (hprepared : [placedBlock].mapM (prepareBlock auditEnv) = .ok prepared) :
    Bookable auditEnv t.store (t.store.applyLocked auditEnv [placedBlock] true).1
      (prepared.map fun p => p.1) := by
  obtain ⟨-, hback, hscanned, -⟩ := compared_steps
  unfold PlainlyRetold at hback
  obtain ⟨⟨-, hempty⟩, hbooked⟩ := hscanned t ht
  rw [hprepared] at hback hbooked
  refine ⟨?_, ?_, ?_, ?_⟩
  · rintro b hb
    obtain ⟨p, hp, rfl⟩ := List.mem_map.mp hb
    obtain ⟨hsame, hplain⟩ := hback prepared rfl p hp
    exact retold_of_roundTrip hsame fun tx htx => (hplain tx htx).1
  · intro e he tx htx
    rw [List.eq_nil_of_length_eq_zero (hempty e he)] at htx
    cases htx
  · rintro ⟨b, hb, tx, htx, hpurchase⟩
    obtain ⟨p, hp, rfl⟩ := List.mem_map.mp hb
    rw [((hback prepared rfl p hp).2 tx htx).2] at hpurchase
    cases hpurchase
  · intro x hnone hsome hother
    exfalso
    obtain ⟨w, hw⟩ := Option.isSome_iff_exists.mp hsome
    rcases hbooked prepared rfl (x, w)
      (Std.ExtTreeMap.mem_toList_iff_getElem?_eq_some.mpr hw) with hold | ⟨p, hp, hx⟩
    · rw [hnone] at hold
      cases hold
    · exact hother p.1 (List.mem_map_of_mem hp) hx

theorem live_audit_exact_transfer :
    ∃ t anchor anchorId acc unlocked,
      Reaches (LiveAudit.step auditEnv) (LiveAudit.Sound auditEnv) { store := {} } t ∧
      t.phase = .compared anchor anchorId acc unlocked ∧ t.store.lastHeight = 2 ∧
      ∃ report full,
        auditLocked auditEnv t.store anchor anchorId acc unlocked false =
          .ok (t.store, report, 0) ∧
        auditAll auditEnv t.store = .ok full ∧ ∀ a, a ∈ report.drifted ↔ a ∈ full.drifted := by
  obtain ⟨⟨hgenesis, hplacedBlock⟩, -, hscanned, hsome, hend⟩ := compared_steps
  obtain ⟨v, hv⟩ := Option.isSome_iff_exists.mp hsome
  obtain ⟨hheight, hphase, hfull⟩ := hend v hv
  obtain ⟨u, hu, hrest⟩ := Option.bind_eq_some_iff.mp hv
  obtain ⟨t, ht, hplaced⟩ := Option.bind_eq_some_iff.mp hu
  obtain ⟨s, hs, hscan⟩ := Option.bind_eq_some_iff.mp ht
  have hfree : ∀ (actions : List AuditAction), (∀ a ∈ actions, a = .advance) →
      ∀ t : LiveAudit, ∀ a ∈ actions, t.Sound auditEnv a := by
    intro actions hall t a ha
    rw [hall a ha]
    trivial
  have hstart : Reaches (LiveAudit.step auditEnv) (LiveAudit.Sound auditEnv) { store := {} } s := by
    refine .next (.apply [genesis] true) .start ?_ hs
    intro _ prepared hprepared
    refine ⟨?_, fun hidle => absurd rfl hidle⟩
    exact Chain.indexable_of_roundTrip (by simp) hgenesis prepared hprepared
  have hreach : Reaches (LiveAudit.step auditEnv) (LiveAudit.Sound auditEnv) { store := {} } u := by
    refine .next (.apply [placedBlock] true)
      (hstart.trans (.of_foldlM (hfree _ (by simp)) hscan)) ?_ hplaced
    intro _ prepared hprepared
    refine ⟨?_, fun _ => placedBlock_bookable ht hprepared⟩
    exact Chain.indexable_of_roundTrip (hscanned t ht).1.1 hplacedBlock prepared hprepared
  have hfinal := hreach.trans (.of_foldlM (hfree _ (by simp)) hrest)
  obtain ⟨anchor, anchorId, acc, unlocked, hcompared⟩ :
      ∃ anchor anchorId acc unlocked, v.phase = .compared anchor anchorId acc unlocked := by
    revert hphase
    cases v.phase <;> simp
  obtain ⟨hexact, hreports⟩ := live_audit_exact auditEnv hfinal hcompared
  obtain ⟨full, hall⟩ := exists_ok_of_isSome hfull
  obtain ⟨report, hreport⟩ := hreports full hall
  obtain ⟨full', hall', hsame⟩ := hexact false v.store report 0 hreport
  exact ⟨v, anchor, anchorId, acc, unlocked, hfinal, hcompared, hheight, report, full', hreport,
    hall', hsame⟩

def objectTx (k : KeyPair) (nonce fee : UInt64) (e : SmartObjectAsset) : Transaction :=
  k.sign { typeGroup := typeGroupSobj, type := sobjType, nonce := some nonce,
           senderPublicKey := "", fee, asset := some { sobj := some e } }

/-- The second key pair registers an object and offers it for 5. -/
def registered : Transaction :=
  objectTx second 1 5000000000
    { type := 0, subType := 0, action := 0, data := { name := some "shop" } }

def offered : Transaction :=
  objectTx second 2 100000000
    { type := 0, subType := 0, action := 4, registrationId := registered.id, price := some 5 }

def offerBlock : Block :=
  first.forge 2 8 (genesis.id.getD "") 0 [transfer first second 1 100, registered, offered]

/-- The first key pair buys it. -/
def saleBlock : Block :=
  first.forge 3 16 (offerBlock.id.getD "") 0
    [objectTx first 2 100000000
      { type := 0, subType := 0, action := 5, registrationId := registered.id }]

/-- The sale is applied when the wallets have been compared. -/
def soldMeanwhile : List AuditAction :=
  [.apply [genesis] true, .apply [offerBlock] true] ++ List.replicate 11 .advance ++
    [.apply [saleBlock] true]

/-- The seller is not compared again: the audit of the resting node reports the seller, the other
one does not. -/
theorem seller_unreported :
    ∃ t, soldMeanwhile.foldlM (LiveAudit.step auditEnv) { store := {} } = some t ∧
      ∃ anchor anchorId acc unlocked, t.phase = .compared anchor anchorId acc unlocked ∧
        ∃ s' report repaired full,
          auditLocked auditEnv t.store anchor anchorId acc unlocked false =
            .ok (s', report, repaired) ∧
          auditAll auditEnv t.store = .ok full ∧ report.drifted = [] ∧
          full.drifted.map (fun a => a.address) = [second.address] := by
  have hrun : (soldMeanwhile.foldlM (LiveAudit.step auditEnv) { store := {} }).any fun t =>
      match t.phase with
      | .compared anchor anchorId acc unlocked =>
          ((auditLocked auditEnv t.store anchor anchorId acc unlocked false).toOption.any fun r =>
            r.2.1.drifted.isEmpty) &&
          (auditAll auditEnv t.store).toOption.any fun full =>
            full.drifted.map (fun a => a.address) == [second.address]
      | _ => false := by
    decide +kernel
  obtain ⟨t, ht, hfacts⟩ := (Option.any_eq_true _ _).mp hrun
  refine ⟨t, ht, ?_⟩
  cases hphase : t.phase with
  | compared anchor anchorId acc unlocked =>
      simp only [hphase, Bool.and_eq_true] at hfacts
      obtain ⟨hlocked, hfull⟩ := hfacts
      cases hreport : auditLocked auditEnv t.store anchor anchorId acc unlocked false with
      | error e =>
          rw [hreport] at hlocked
          cases hlocked
      | ok r =>
          cases hall : auditAll auditEnv t.store with
          | error e =>
              rw [hall] at hfull
              cases hfull
          | ok full =>
              rw [hreport] at hlocked
              rw [hall] at hfull
              exact ⟨anchor, anchorId, acc, unlocked, rfl, r.1, r.2.1, r.2.2, full, hreport, rfl,
                List.isEmpty_iff.mp hlocked, eq_of_beq hfull⟩
  | _ =>
      rw [hphase] at hfacts
      cases hfacts

end Sample

end Audit

end SthCore
