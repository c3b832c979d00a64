import SthCore.Lib.Cursor
import SthCore.Storage.Votes

/-!
The audit of the wallets.  It adds up what the stored blocks say about every
address and compares the stored wallets with it.
-/

namespace SthCore

open SthCore.Lib

namespace Audit

/-- The numbers that the audit of a wallet adds up. -/
@[ext]
structure Totals where
  computedNonce : Nat := 0
  computedBalance : Int := 0
  sent : Nat := 0
  received : Nat := 0
  skipped : Nat := 0
  forged : Nat := 0
  deriving DecidableEq

namespace Totals

instance : Zero Totals := ⟨{}⟩

/-- Nonces go to the highest one. -/
instance : Add Totals where
  add a b :=
    { computedNonce := max a.computedNonce b.computedNonce
      computedBalance := a.computedBalance + b.computedBalance
      sent := a.sent + b.sent
      received := a.received + b.received
      skipped := a.skipped + b.skipped
      forged := a.forged + b.forged }

instance : AddCommMonoid Totals where
  add_assoc a b c := by
    ext
    · exact max_assoc _ _ _
    · exact add_assoc _ _ _
    all_goals exact Nat.add_assoc _ _ _
  zero_add a := by
    ext
    · exact Nat.zero_max _
    · exact zero_add _
    all_goals exact Nat.zero_add _
  add_zero a := by
    ext
    · exact Nat.max_zero _
    · exact add_zero _
    all_goals exact Nat.add_zero _
  add_comm a b := by
    ext
    · exact max_comm _ _
    · exact add_comm _ _
    all_goals exact Nat.add_comm _ _
  nsmul := nsmulRec

end Totals

/-- What the scan books, in order. -/
abbrev Entries := List (Text × Totals)

/-- The accumulator of a scan. -/
abbrev Accounts := OrderedMap Text Totals

def Accounts.of (acc : Accounts) (address : Text) : Totals := acc[address]?.getD 0

def Accounts.book (acc : Accounts) (entries : Entries) : Accounts :=
  entries.foldl (fun m e => OrderedMap.upsert m e.1 0 fun t => t + e.2) acc

/-- The lock that a claim or refund names. -/
def lockId (tx : Transaction) : Option Text :=
  ((tx.asset.bind fun a => a.claim).map fun c => c.lockTransactionId).or
    ((tx.asset.bind fun a => a.refund).map fun r => r.lockTransactionId)

/-- A purchase: its price goes to a wallet that only the state names. -/
def isPurchase (tx : Transaction) : Bool :=
  (tx.sobjAsset.any fun e => SobjAction.ofCode e.action = some .buy) || tx.tokenType = some .buy

/-- What a core transaction takes from its sender besides the fee. -/
def coreSpent (tx : Transaction) : Int :=
  match tx.coreType with
  | some .multiPayment => (tx.payments.map fun p => (p.amount.toNat : Int)).sum
  | some .htlcClaim | some .htlcRefund => 0
  | _ => tx.amount.toNat

/-- The amounts of a multi payment by recipient. -/
def mine (tx : Transaction) : OrderedMap Text Int :=
  tx.payments.foldl (fun m p => m.upsert p.recipientId 0 fun v => v + p.amount.toNat) ∅

/-- The stored lock of a claim or refund. -/
def storedLock (E : Env) (s : Store) (tx : Transaction) : Except Error (Option Transaction) :=
  match lockId tx with
  | some id => s.getTransaction E id
  | none => .ok none

/-- Who a claim or refund pays. -/
def payeeOf (E : Env) (tx lock : Transaction) : Except Error Text :=
  if tx.coreType = some .htlcClaim then .ok (lock.recipientId.getD "")
  else E.addressOf lock.senderPublicKey

/-- What a claim or refund pays out, as far as its lock is found. -/
def settlement (E : Env) (s : Store) (tx : Transaction) (sender : Text) :
    Except Error Entries := do
  match ← storedLock E s tx with
  | some lock =>
      let payee ← payeeOf E tx lock
      return [(payee, { received := 1, computedBalance := lock.amount.toNat })]
  | none => return [(sender, { skipped := 1 })]

/-- What the other parties of a core transaction receive. -/
def coreReceived (E : Env) (s : Store) (tx : Transaction) (sender : Text) :
    Except Error Entries :=
  if tx.typeGroup ≠ typeGroupCore then .ok []
  else match tx.coreType with
  | some .multiPayment =>
      .ok ((mine tx).toList.map fun e => (e.1, { received := 1, computedBalance := e.2 }))
  | some .htlcClaim | some .htlcRefund => settlement E s tx sender
  | some .htlcLock => .ok []
  | _ =>
      .ok (tx.recipientId.toList.map fun r =>
        (r, if sender ≠ r then { received := 1, computedBalance := tx.amount.toNat }
          else if tx.coreType = some .transfer then { computedBalance := tx.amount.toNat }
          else {}))

def senderTotals (tx : Transaction) : Totals :=
  { sent := 1
    computedNonce := (tx.nonce.getD 0).toNat
    computedBalance :=
      -tx.fee.toNat - (if tx.typeGroup = typeGroupCore then coreSpent tx else 0)
    skipped := if tx.typeGroup ≠ typeGroupCore ∧ isPurchase tx then 1 else 0 }

/-- `audit_tx` for all parties. -/
def auditTx (E : Env) (s : Store) (tx : Transaction) : Except Error Entries := do
  let sender ← E.addressOf tx.senderPublicKey
  return (sender, senderTotals tx) :: (← coreReceived E s tx sender)

/-- What a block gives its forger and the burn address. -/
def auditForger (E : Env) (b : Block) : Except Error Entries := do
  let burned := burnedBy E b
  let generator ← E.addressOf b.generatorPublicKey
  return (if burned > 0 then [(E.network.burnAddress, { computedBalance := burned.toNat })]
      else []) ++
    [(generator, { computedBalance := b.reward.toNat + b.totalFee.toNat - burned.toNat,
                   forged := 1 })]

def auditBlock (E : Env) (s : Store) (b : Block) : Except Error Entries := do
  let forged ← auditForger E b
  let txs ← b.transactions.mapM (auditTx E s)
  return forged ++ txs.flatten

def auditRecord (E : Env) (s : Store) (record : List Bytes) : Except Error Entries := do
  auditBlock E s (← decodeBlock E record)

/-- Whether a record lies in a range of heights. -/
def inRange (lo hi : Nat) (e : Nat × List Bytes) : Bool := lo ≤ e.1 && e.1 ≤ hi

/-- `audit_scan`. -/
def auditScan (E : Env) (s : Store) (lo hi : Nat) : Except Error Entries := do
  let found ← (s.blocks.toList.filter (inRange lo hi)).mapM fun e => auditRecord E s e.2
  return found.flatten

/-- A wallet with what the audit has found about it. -/
structure WalletAudit extends Totals where
  address : Text
  height : Nat
  storedNonce : Option Nat
  storedBalance : Option Int
  delegate : Bool
  nonceOk : Bool
  balanceOk : Bool
  deriving DecidableEq

/-- `audit_finish`. -/
def auditFinish (a : Totals) (address : Text) (tip : Nat) (fullChain : Bool)
    (stored : Option WalletState) : WalletAudit :=
  let delegate := stored.any fun w => w.username.isSome || w.producedBlocks > 0
  let comparable := (fullChain || !delegate) && a.skipped = 0
  { toTotals := a
    address
    height := tip
    storedNonce := stored.map fun w => w.nonce
    storedBalance := stored.map fun w => w.balance
    delegate
    nonceOk := (stored.map fun w => w.nonce).getD 0 = a.computedNonce
    balanceOk := !comparable || (stored.map fun w => w.balance).getD 0 = a.computedBalance }

def WalletAudit.drifted (a : WalletAudit) : Bool := a.skipped = 0 && (!a.nonceOk || !a.balanceOk)

structure ChainAudit where
  height : Nat
  wallets : Nat := 0
  checked : Nat := 0
  skipped : Nat := 0
  drifted : List WalletAudit := []

/-- One wallet of `audit_compare`. -/
def ChainAudit.judge (out : ChainAudit) (a : WalletAudit) : ChainAudit :=
  if a.skipped > 0 then { out with wallets := out.wallets + 1, skipped := out.skipped + 1 }
  else
    { out with
      wallets := out.wallets + 1
      checked := out.checked + 1
      drifted := if a.drifted then out.drifted ++ [a] else out.drifted }

/-- The audit of one stored wallet.  No address is stored twice, so that it stays in `acc`. -/
def auditWallet (acc : Accounts) (tip : Nat) (w : WalletState) : WalletAudit :=
  auditFinish (acc.of w.address) w.address tip true (some w)

/-- `audit_compare`. -/
def auditCompare (s : Store) (acc : Accounts) (tip : Nat) : ChainAudit :=
  s.wallets.toList.foldl (fun out e => out.judge (auditWallet acc tip e.2)) { height := tip }

/-- `audit_all`. -/
def auditAll (E : Env) (s : Store) : Except Error ChainAudit := do
  let entries ← auditScan E s 0 s.lastHeight
  return auditCompare s ((∅ : Accounts).book entries) s.lastHeight

/-- The values that a repair takes over. -/
def WalletAudit.repair (a : WalletAudit) : SthCore.WalletAudit :=
  { address := a.address, computedNonce := UInt64.ofNat a.computedNonce,
    computedBalance := a.computedBalance }

/-- The wallets that are compared again: those that have drifted so far, then those that the tail
books. -/
def candidatesOf (drifted : List WalletAudit) (tail : Accounts) : List Text :=
  tail.toList.foldl (fun c e => if e.1 ∈ c then c else c ++ [e.1])
    (drifted.map fun a => a.address)

/-- The candidates that have drifted. -/
def recompare (s : Store) (acc : Accounts) (tip : Nat) (candidates : List Text) :
    List WalletAudit :=
  candidates.filterMap fun address =>
    (s.getWallet address).bind fun w =>
      let a := auditFinish (acc.of address) address tip true (some w)
      if a.drifted then some a else none

/-- Repair wallets and rebuild the vote index. -/
def repairAll (s : Store) (drifted : List WalletAudit) : Except Error Store := do
  let s ← drifted.foldlM (fun s a => s.repairWallet a.repair) s
  return s.rebuildVoteIndex.1

/-- `audit_all_live` from the moment it holds the lock, with the number of repaired wallets. -/
def auditLocked (E : Env) (s : Store) (anchor : Nat) (anchorId : Option Text) (acc : Accounts)
    (unlocked : ChainAudit) (fix : Bool) : Except Error (Store × ChainAudit × Nat) := do
  let block ← s.getBlockByHeight E anchor
  if (block.bind fun b => b.id) ≠ anchorId then
    throw (.sync
      s!"chain reorganized during the audit (block {anchor} changed) — run it again")
  let tip := s.lastHeight
  let tail := (∅ : Accounts).book (← auditScan E s (anchor + 1) tip)
  let drifted := recompare s (acc.book tail.toList) tip (candidatesOf unlocked.drifted tail)
  let report := { unlocked with height := tip, drifted }
  if fix && !drifted.isEmpty then return (← repairAll s drifted, report, drifted.length)
  else return (s, report, 0)

namespace Accounts

theorem of_book (acc : Accounts) (entries : Entries) (x : Text) :
    (acc.book entries).of x =
      acc.of x + (entries.map fun e => if e.1 = x then e.2 else 0).sum := by
  induction entries generalizing acc with
  | nil => exact (add_zero _).symm
  | cons e rest ih =>
      change (Accounts.book (OrderedMap.upsert acc e.1 0 fun t => t + e.2) rest).of x = _
      rw [ih, List.map_cons, List.sum_cons, ← add_assoc]
      congr 1
      unfold Accounts.of
      rw [OrderedMap.getD_upsert]
      by_cases hx : e.1 = x
      · rw [if_pos hx, if_pos hx, hx]
      · rw [if_neg hx, if_neg hx, add_zero]

theorem book_append (acc : Accounts) (l l' : Entries) :
    acc.book (l ++ l') = (acc.book l).book l' :=
  List.foldl_append

theorem of_empty (x : Text) : (∅ : Accounts).of x = 0 := by
  unfold Accounts.of
  rw [Std.ExtTreeMap.getElem?_empty]
  rfl

/-- What nobody books stays empty. -/
theorem of_book_of_notMem {entries : Entries} {x : Text} (h : x ∉ entries.map fun e => e.1) :
    ((∅ : Accounts).book entries).of x = 0 := by
  rw [of_book, of_empty, zero_add]
  refine List.sum_eq_zero fun t ht => ?_
  obtain ⟨e, he, rfl⟩ := List.mem_map.mp ht
  exact if_neg fun hx => h (List.mem_map.mpr ⟨e, he, hx⟩)

/-- The addresses of an accumulator. -/
theorem mem_book {acc : Accounts} {entries : Entries} {x : Text} :
    x ∈ acc.book entries ↔ x ∈ acc ∨ x ∈ entries.map fun e => e.1 := by
  induction entries generalizing acc with
  | nil => simp [book]
  | cons e rest ih =>
      change x ∈ Accounts.book (OrderedMap.upsert acc e.1 0 fun t => t + e.2) rest ↔ _
      rw [ih, OrderedMap.upsert, Std.ExtTreeMap.mem_insert, Std.LawfulEqCmp.compare_eq_iff_eq,
        List.map_cons, List.mem_cons, eq_comm (a := x)]
      exact or_assoc.trans (by rw [or_left_comm])

theorem sum_toList_of_none {tail : Accounts} {x : Text} (h : tail[x]? = none) :
    (tail.toList.map fun e => if e.1 = x then e.2 else 0).sum = 0 := by
  refine List.sum_eq_zero fun t ht => ?_
  obtain ⟨e, he, rfl⟩ := List.mem_map.mp ht
  refine if_neg fun hx => ?_
  rw [← hx, Std.ExtTreeMap.mem_toList_iff_getElem?_eq_some.mp he] at h
  cases h

/-- Booking what another scan has added up. -/
theorem of_book_toList (acc tail : Accounts) (x : Text) :
    (acc.book tail.toList).of x = acc.of x + tail.of x := by
  rw [of_book]
  congr 1
  unfold Accounts.of
  cases h : tail[x]? with
  | none => exact sum_toList_of_none h
  | some t =>
      have hrest : ((tail.erase x : Accounts))[x]? = none := by
        rw [OrderedMap.getElem?_erase_eq, if_pos rfl]
      have hperm := OrderedMap.toList_insert_perm (tail.erase x) x t
      rw [OrderedMap.insert_erase_of_some tail x t h, OrderedMap.erase_of_none _ x hrest] at hperm
      rw [(hperm.map _).sum_eq, List.map_cons, List.sum_cons, if_pos rfl,
        sum_toList_of_none hrest, add_zero]
      rfl

/-- A scan in two parts. -/
theorem of_book_parts (l l' : Entries) (x : Text) :
    (((∅ : Accounts).book l).book ((∅ : Accounts).book l').toList).of x =
      ((∅ : Accounts).book (l ++ l')).of x := by
  rw [of_book_toList, book_append, of_book ∅ l', of_empty, zero_add, of_book (book ∅ l) l']

end Accounts

section Scan

variable {E : Env} {s : Store}

/-- A sorted list falls into what lies below a bound and what lies above it. -/
theorem filter_inRange {l : List (Nat × List Bytes)}
    (h : l.Pairwise fun e f => compare e.1 f.1 = .lt) {lo mid hi : Nat} (hlo : lo ≤ mid + 1)
    (hhi : mid ≤ hi) :
    l.filter (inRange lo hi) = l.filter (inRange lo mid) ++ l.filter (inRange (mid + 1) hi) := by
  induction l with
  | nil => rfl
  | cons e rest ih =>
      obtain ⟨hfirst, hrest⟩ := List.pairwise_cons.mp h
      by_cases hmid : e.1 ≤ mid
      · have hhigh : inRange (mid + 1) hi e = false := by
          unfold inRange
          simp only [Bool.and_eq_false_iff, decide_eq_false_iff_not]
          omega
        have hlow : inRange lo mid e = inRange lo hi e := by
          unfold inRange
          congr 1
          simp only [decide_eq_decide]
          omega
        rw [List.filter_cons, List.filter_cons, List.filter_cons, hlow, hhigh, ih hrest]
        cases inRange lo hi e <;> rfl
      · have hnone : (e :: rest).filter (inRange lo mid) = [] := by
          refine List.filter_eq_nil_iff.mpr fun d hd => ?_
          have hle : e.1 ≤ d.1 := by
            rcases List.mem_cons.mp hd with rfl | hd
            · exact le_rfl
            · exact (Nat.compare_eq_lt.mp (hfirst d hd)).le
          unfold inRange
          simp only [Bool.and_eq_true, decide_eq_true_eq]
          omega
        have hsame : ∀ d ∈ e :: rest, inRange lo hi d = inRange (mid + 1) hi d := by
          intro d hd
          have hle : e.1 ≤ d.1 := by
            rcases List.mem_cons.mp hd with rfl | hd
            · exact le_rfl
            · exact (Nat.compare_eq_lt.mp (hfirst d hd)).le
          unfold inRange
          congr 1
          simp only [decide_eq_decide]
          omega
        rw [hnone, List.nil_append, List.filter_congr hsame]

/-- A scan of a range is a scan of its lower part and one of its upper part. -/
theorem auditScan_parts {mid hi : Nat} (hhi : mid ≤ hi) {l l' : Entries}
    (h : auditScan E s 0 mid = .ok l) (h' : auditScan E s (mid + 1) hi = .ok l') :
    auditScan E s 0 hi = .ok (l ++ l') := by
  obtain ⟨ls, hls, hl⟩ := bind_eq_ok.mp h
  obtain ⟨ls', hls', hl'⟩ := bind_eq_ok.mp h'
  unfold auditScan
  rw [filter_inRange Std.ExtTreeMap.ordered_keys_toList (Nat.zero_le _) hhi, List.mapM_append,
    hls, ok_bind, hls', ok_bind]
  rw [← pure_eq_ok.mp hl, ← pure_eq_ok.mp hl', ← List.flatten_append]
  rfl

/-- A scan that gets through gets through its upper part. -/
theorem auditScan_upper {mid hi : Nat} (hhi : mid ≤ hi) {l : Entries}
    (h : auditScan E s 0 hi = .ok l) : ∃ l', auditScan E s (mid + 1) hi = .ok l' := by
  obtain ⟨ls, hls, -⟩ := bind_eq_ok.mp h
  rw [filter_inRange Std.ExtTreeMap.ordered_keys_toList (Nat.zero_le _) hhi,
    List.mapM_append] at hls
  obtain ⟨lower, -, hls⟩ := bind_eq_ok.mp hls
  obtain ⟨upper, hupper, -⟩ := bind_eq_ok.mp hls
  refine ⟨upper.flatten, ?_⟩
  unfold auditScan
  rw [hupper]
  rfl

end Scan

/-- What decides whether a wallet has drifted. -/
def drifts (t : Totals) (w : WalletState) : Bool :=
  t.skipped = 0 && (w.nonce ≠ t.computedNonce || w.balance ≠ t.computedBalance)

theorem auditFinish_drifted (t : Totals) (x : Text) (tip : Nat) (w : WalletState) :
    (auditFinish t x tip true (some w)).drifted = drifts t w := by
  unfold WalletAudit.drifted auditFinish drifts
  by_cases hskipped : t.skipped = 0 <;> simp [hskipped]

theorem judge_drifted (out : ChainAudit) (a : WalletAudit) :
    (out.judge a).drifted = if a.drifted then out.drifted ++ [a] else out.drifted := by
  unfold ChainAudit.judge
  split_ifs with hskipped hdrifted hdrifted
  · unfold WalletAudit.drifted at hdrifted
    simp only [Bool.and_eq_true, decide_eq_true_eq] at hdrifted
    omega
  · rfl
  · rfl
  · rfl

theorem foldl_judge_drifted (audits : List WalletAudit) (out : ChainAudit) :
    (audits.foldl ChainAudit.judge out).drifted =
      out.drifted ++ audits.filter WalletAudit.drifted := by
  induction audits generalizing out with
  | nil => exact (List.append_nil _).symm
  | cons a rest ih =>
      rw [List.foldl_cons, ih, judge_drifted, List.filter_cons]
      split_ifs
      · rw [List.append_assoc]
        rfl
      · rfl

/-- The drifted wallets of a full comparison. -/
theorem mem_auditCompare {s : Store} {acc : Accounts} {tip : Nat} {a : WalletAudit} :
    a ∈ (auditCompare s acc tip).drifted ↔
      ∃ x w, s.getWallet x = some w ∧ a = auditWallet acc tip w ∧ a.drifted = true := by
  have hfold : auditCompare s acc tip =
      (s.wallets.toList.map fun e => auditWallet acc tip e.2).foldl ChainAudit.judge
        { height := tip } :=
    List.foldl_map.symm
  rw [hfold, foldl_judge_drifted, List.nil_append, List.mem_filter, List.mem_map]
  constructor
  · rintro ⟨⟨e, he, rfl⟩, hdrifted⟩
    exact ⟨e.1, e.2, Std.ExtTreeMap.mem_toList_iff_getElem?_eq_some.mp he, rfl, hdrifted⟩
  · rintro ⟨x, w, hw, rfl, hdrifted⟩
    exact ⟨⟨(x, w), Std.ExtTreeMap.mem_toList_iff_getElem?_eq_some.mpr hw, rfl⟩, hdrifted⟩

theorem mem_candidatesOf {drifted : List WalletAudit} {tail : Accounts} {x : Text} :
    x ∈ candidatesOf drifted tail ↔ (∃ a ∈ drifted, a.address = x) ∨ x ∈ tail := by
  have hfold : ∀ (l : List (Text × Totals)) (c : List Text),
      x ∈ l.foldl (fun c e => if e.1 ∈ c then c else c ++ [e.1]) c ↔
        x ∈ c ∨ x ∈ l.map fun e => e.1 := by
    intro l
    induction l with
    | nil => simp
    | cons e rest ih =>
        intro c
        rw [List.foldl_cons, ih, List.map_cons, List.mem_cons]
        split_ifs with hseen
        · constructor
          · rintro (hc | hrest)
            · exact .inl hc
            · exact .inr (.inr hrest)
          · rintro (hc | rfl | hrest)
            · exact .inl hc
            · exact .inl hseen
            · exact .inr hrest
        · rw [List.mem_append, List.mem_singleton, or_assoc]
  unfold candidatesOf
  rw [hfold, List.mem_map]
  refine or_congr Iff.rfl ?_
  rw [List.mem_map]
  constructor
  · rintro ⟨e, he, rfl⟩
    refine Std.ExtTreeMap.isSome_getElem?_iff_mem.mp ?_
    rw [Std.ExtTreeMap.mem_toList_iff_getElem?_eq_some.mp he]
    rfl
  · intro hx
    obtain ⟨t, ht⟩ := Option.isSome_iff_exists.mp (Std.ExtTreeMap.isSome_getElem?_iff_mem.mpr hx)
    exact ⟨(x, t), Std.ExtTreeMap.mem_toList_iff_getElem?_eq_some.mpr ht, rfl⟩

theorem mem_recompare {s : Store} {acc : Accounts} {tip : Nat} {candidates : List Text}
    {a : WalletAudit} :
    a ∈ recompare s acc tip candidates ↔ ∃ x ∈ candidates, ∃ w, s.getWallet x = some w ∧
      a = auditFinish (acc.of x) x tip true (some w) ∧ a.drifted = true := by
  unfold recompare
  rw [List.mem_filterMap]
  refine exists_congr fun x => and_congr_right fun _ => ?_
  rw [Option.bind_eq_some_iff]
  refine exists_congr fun w => and_congr_right fun _ => ?_
  dsimp only
  split_ifs with hdrifted
  · rw [Option.some.injEq]
    constructor
    · rintro rfl
      exact ⟨rfl, hdrifted⟩
    · rintro ⟨rfl, -⟩
      rfl
  · constructor
    · rintro ⟨⟩
    · rintro ⟨rfl, h⟩
      exact absurd h hdrifted

end Audit

end SthCore
