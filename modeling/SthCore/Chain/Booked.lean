import SthCore.Chain.Chronicle
import SthCore.Chain.Linkage
import SthCore.Lib.Edits

/-!
Intake tasks that run at once.  Each checks a list of blocks against the tip it
read and writes it later, when other tasks may have written the same blocks or
rolled some back.  A ledger follows the blocks that are stored with the deltas
they were written with.
-/

namespace SthCore

open SthCore.Lib

/-- The wallets after a rollback: every entry of the undo record is one edit. -/
theorem Store.restoreWallets_wallets (s : Store) (undo : UndoRecord) :
    (s.restoreWallets undo).wallets = Edit.run s.wallets undo := by
  have hfold : ∀ t : Store, (undo.foldl restoreWallet t).wallets = Edit.run t.wallets undo := by
    induction undo with
    | nil => exact fun _ => rfl
    | cons e rest ih =>
        intro t
        rw [List.foldl_cons, ih, Edit.run_cons]
        congr 1
        unfold restoreWallet Edit.apply
        cases e.2 <;> rfl
  exact hfold _

/-- The wallets that the deltas have changed come back. -/
theorem Store.run_undoOf {s s' : Store} {ds : Deltas} (h : s.writeEntries ds.toList = .ok s') :
    Edit.run s'.wallets (s.undoOf ds.toList) = s.wallets := by
  apply Std.ExtTreeMap.ext_getElem?
  intro a
  rw [Edit.getElem?_run]
  obtain ⟨hkeep, -⟩ := writeEntries_getWallet (toList_keys_nodup ds) h
  by_cases ha : a ∈ ds.toList.map fun e => e.1
  · rw [Edit.last_of_mem (v := s.wallets[a]?)]
    · rfl
    · obtain ⟨e, he, rfl⟩ := List.mem_map.mp ha
      exact List.mem_map.mpr ⟨e, he, rfl⟩
    · intro u hu hkey
      obtain ⟨e, -, rfl⟩ := List.mem_map.mp hu
      subst hkey
      rfl
  · rw [Edit.last_eq_none.mpr]
    · exact hkeep a ha
    · unfold undoOf
      rwa [List.map_map]

namespace Chain

/-! ## The deltas of single blocks -/

/-- One block with the deltas of its sub-batch before and after it. -/
structure Booking where
  block : Block
  before : Deltas
  after : Deltas

namespace Booking

/-- What the block adds to the balance of an address. -/
def balance (a : Text) (e : Booking) : Int := (e.after.get a).balance - (e.before.get a).balance

/-- What the block adds to the nonce of an address. -/
def nonce (a : Text) (e : Booking) : Int := ((e.after.get a).nonce : Int) - (e.before.get a).nonce

def height (e : Booking) : Nat := e.block.height

end Booking

/-- The blocks of a sub-batch one after another, as `apply_locked` accumulates them. -/
def bookBlocks (E : Env) (s : Store) (batch : List Block) : List Block → Deltas → List Booking
  | [], _ => []
  | block :: rest, ds =>
      match accumulateDeltas E s batch block ds with
      | .ok ds' => ⟨block, ds, ds'⟩ :: bookBlocks E s batch rest ds'
      | .error _ => []

/-- What a sub-batch books: nothing unless its transaction commits. -/
def booked (E : Env) (s : Store) (blocks : List Block) (force : Bool) : List Booking :=
  match blocks.mapM (prepareBlock E) with
  | .error _ => []
  | .ok prepared =>
      match s.commitBlocks E prepared (force || s.undoEnabled) with
      | .error _ => []
      | .ok _ => bookBlocks E s (prepared.map fun p => p.1) (prepared.map fun p => p.1) ∅

/-- What sub-batches book until one of them fails. -/
def bookedChunks (E : Env) (force : Bool) : Store → List (List Block) → List Booking
  | _, [] => []
  | s, c :: rest =>
      booked E s c force ++
        match (s.applyLocked E c force).2 with
        | .ok _ => bookedChunks E force (s.applyLocked E c force).1 rest
        | .error _ => []

theorem bookBlocks_ok {E : Env} {s : Store} {batch l : List Block} {ds ds' : Deltas}
    (h : l.foldlM (fun ds block => accumulateDeltas E s batch block ds) ds = .ok ds') :
    (bookBlocks E s batch l ds).map (fun e => e.block) = l ∧
    ∀ a, ((bookBlocks E s batch l ds).map (Booking.balance a)).sum =
        (ds'.get a).balance - (ds.get a).balance ∧
      ((bookBlocks E s batch l ds).map (Booking.nonce a)).sum =
        ((ds'.get a).nonce : Int) - (ds.get a).nonce := by
  induction l generalizing ds with
  | nil =>
      rw [List.foldlM_nil, pure_eq_ok] at h
      subst h
      simp [bookBlocks]
  | cons block rest ih =>
      obtain ⟨ds₁, hfirst, hrest⟩ := foldlM_cons_ok.mp h
      obtain ⟨hblocks, hsums⟩ := ih hrest
      unfold bookBlocks
      rw [hfirst]
      simp only [List.map_cons, List.sum_cons]
      refine ⟨by rw [hblocks], ?_⟩
      intro a
      obtain ⟨hbalance, hnonce⟩ := hsums a
      rw [hbalance, hnonce]
      unfold Booking.balance Booking.nonce
      simp only
      constructor <;> omega

/-! ## Tasks -/

/-- A store with the blocks booked in it, oldest first, and the lists of blocks that tasks have
checked and not yet written. -/
structure Intake where
  store : Store
  bookings : List Booking := []
  waiting : List (List Block) := []

inductive IntakeAction where
  /-- A task checks a list of blocks against the tip it read. -/
  | check (now : Int) (blocks : List Block) (tip : Sync.ChainTip)
  /-- A task that has checked a list calls `Storage::apply_blocks`. -/
  | write (now : Int) (index : Nat)
  | rollback (now : Int)
  | setUndo (on : Bool)

namespace Intake

/-- One step.  The rules of a call read the store at moments of their own, so that a task may go
on to write whenever its list is linked; a list stays in waiting, as for a second task with it. -/
def step (P : Primitives) (N : Network) (n : Intake) : IntakeAction → Intake
  | .check now blocks tip =>
      match blocks.foldlM (Sync.link ⟨P, N, now⟩) tip with
      | .ok _ => { n with waiting := blocks :: n.waiting }
      | .error _ => n
  | .write now index =>
      match n.waiting[index]? with
      | none => n
      | some blocks =>
          { n with
            store := (n.store.applyBlocks ⟨P, N, now⟩ blocks).1
            bookings := n.bookings ++ bookedChunks ⟨P, N, now⟩ (n.store.forcesUndo blocks) n.store
              (n.store.chunks ⟨P, N, now⟩ blocks) }
  | .rollback now =>
      match n.store.rollbackLastBlock ⟨P, N, now⟩ with
      | (s, .ok _) => { n with store := s, bookings := n.bookings.dropLast }
      | (s, .error _) => { n with store := s }
  | .setUndo on => { n with store := { n.store with undoEnabled := on } }

/-- Every stored block is booked once, nothing else is booked, and each account is its first
value with what the bookings add. -/
structure Exact (P : Primitives) (N : Network) (start : Store) (n : Intake) : Prop where
  once : (n.bookings.map Booking.height).Pairwise (· < ·)
  stored : ∀ height, (n.store.blocks[height]?).isSome ↔ height ∈ n.bookings.map Booking.height
  record : ∀ e ∈ n.bookings, ∃ record, n.store.blocks[e.height]? = some record ∧
    encodeBlock ⟨P, N, 0⟩ e.block = .ok record
  balance : ∀ a, n.store.balanceAt a =
    start.balanceAt a + (n.bookings.map (Booking.balance a)).sum
  nonce : ∀ a, ((n.store.walletAt a).nonce : Int) =
    (start.walletAt a).nonce + (n.bookings.map (Booking.nonce a)).sum

end Intake

/-! ## The ledger through one sub-batch -/

/-- The accounts are their first values with what a list of bookings adds. -/
def Agrees (start : Store) (bookings : List Booking) (wallets : OrderedMap Text WalletState) :
    Prop :=
  ∀ a, ({ start with wallets } : Store).balanceAt a =
      start.balanceAt a + (bookings.map (Booking.balance a)).sum ∧
    ((({ start with wallets } : Store).walletAt a).nonce : Int) =
      (start.walletAt a).nonce + (bookings.map (Booking.nonce a)).sum

theorem agrees_of_store {start s : Store} {bookings : List Booking}
    (h : Agrees start bookings s.wallets) (a : Text) :
    s.balanceAt a = start.balanceAt a + (bookings.map (Booking.balance a)).sum ∧
    ((s.walletAt a).nonce : Int) =
      (start.walletAt a).nonce + (bookings.map (Booking.nonce a)).sum := h a

/-- The accounts agree with the bookings, youngest first, and every undo record that is next in
turn leads back to accounts that agree with the bookings below. -/
def Backed (start : Store) : List Booking → OrderedMap Text WalletState →
    OrderedMap Nat UndoRecord → Prop
  | [], wallets, _ => Agrees start [] wallets
  | e :: rest, wallets, undo =>
      Agrees start (e :: rest) wallets ∧
        ∀ record, undo[e.height]? = some record → Backed start rest (Edit.run wallets record) undo

theorem Backed.agrees {start : Store} {bookings : List Booking}
    {wallets : OrderedMap Text WalletState} {undo : OrderedMap Nat UndoRecord}
    (h : Backed start bookings wallets undo) : Agrees start bookings wallets := by
  cases bookings with
  | nil => exact h
  | cons e rest => exact h.1

/-- Fewer undo records lead back less far. -/
theorem Backed.fewer {start : Store} {bookings : List Booking}
    {wallets : OrderedMap Text WalletState} {undo undo' : OrderedMap Nat UndoRecord}
    (h : Backed start bookings wallets undo)
    (hundo : ∀ e ∈ bookings, ∀ record, undo'[e.height]? = some record →
      undo[e.height]? = some record) : Backed start bookings wallets undo' := by
  induction bookings generalizing wallets with
  | nil => exact h
  | cons e rest ih =>
      refine ⟨h.1, ?_⟩
      intro record hrecord
      refine ih (h.2 record (hundo e List.mem_cons_self record hrecord)) ?_
      exact fun d hd => hundo d (List.mem_cons_of_mem e hd)

/-- Bookings whose youngest one has no undo record lead back nowhere. -/
theorem Backed.of_unlogged {start : Store} {e : Booking} {rest : List Booking}
    {wallets : OrderedMap Text WalletState} {undo : OrderedMap Nat UndoRecord}
    (h : Agrees start (e :: rest) wallets) (hundo : undo[e.height]? = none) :
    Backed start (e :: rest) wallets undo := by
  refine ⟨h, ?_⟩
  intro record hrecord
  rw [hundo] at hrecord
  cases hrecord

/-- What a sub-batch did to the store and to the ledger. -/
theorem applyLocked_booked (E : Env) (s : Store) (blocks : List Block) (force : Bool) :
    (booked E s blocks force = [] ∧ ∃ e, s.applyLocked E blocks force = (s, .error e)) ∨
    ∃ prepared, blocks.mapM (prepareBlock E) = .ok prepared ∧
      booked E s blocks force =
        bookBlocks E s (prepared.map fun p => p.1) (prepared.map fun p => p.1) ∅ ∧
      ∃ c : Store.Committed E s prepared (s.applyLocked E blocks force).1,
        s.Logs prepared c.ds (force || s.undoEnabled) (s.applyLocked E blocks force).1 := by
  unfold booked
  cases hprepared : blocks.mapM (prepareBlock E) with
  | error e =>
      refine .inl ⟨rfl, e, ?_⟩
      unfold Store.applyLocked
      rw [hprepared]
  | ok prepared =>
      simp only
      cases hcommit : s.commitBlocks E prepared (force || s.undoEnabled) with
      | error e =>
          refine .inl ⟨rfl, e, ?_⟩
          unfold Store.applyLocked
          simp only [hprepared, hcommit]
      | ok s' =>
          exact .inr ⟨prepared, rfl, rfl, Store.applyLocked_committed hprepared hcommit⟩

/-- An undo record that a sub-batch leaves was there before, or is its own. -/
theorem logs_entry {s s' : Store} {p : Block × List Bytes} {rest : List (Block × List Bytes)}
    {ds : Deltas} {on : Bool} (h : s.Logs (p :: rest) ds on s') {height : Nat}
    {record : UndoRecord} (hrecord : s'.undo[height]? = some record) :
    s.undo[height]? = some record ∨ height = p.1.height ∧ record = s.undoOf ds.toList := by
  unfold Store.Logs at h
  split_ifs at h with hon
  · obtain ⟨first, hfirst, hundo⟩ := h
    obtain rfl := Option.some.inj hfirst
    have hinsert : (s.undo.insert p.1.height (s.undoOf ds.toList))[height]? = some record := by
      rw [hundo] at hrecord
      unfold Store.putUndo at hrecord
      simp only at hrecord
      split_ifs at hrecord
      · rw [OrderedMap.getElem?_erase_eq] at hrecord
        split_ifs at hrecord
        exact hrecord
      · exact hrecord
    rw [OrderedMap.getElem?_insert_eq] at hinsert
    split_ifs at hinsert with hown
    · exact .inr ⟨hown.symm, (Option.some.inj hinsert).symm⟩
    · exact .inl hinsert
  · rw [h] at hrecord
    exact .inl hrecord

/-- Blocks written one above the other lie under their heights. -/
theorem writeBlocks_blocks {E : Env} {s s' : Store} {prepared : List (Block × List Bytes)}
    (h : prepared.foldlM (Store.writeBlock E) s = .ok s')
    (hsorted : (prepared.map fun p => p.1.height).Pairwise (· < ·)) :
    (∀ p ∈ prepared, s'.blocks[p.1.height]? = some p.2 ∧ p.1.height ≤ s'.lastHeight) ∧
    (∀ height, height ∉ prepared.map (fun p => p.1.height) →
      s'.blocks[height]? = s.blocks[height]?) ∧ s.lastHeight ≤ s'.lastHeight := by
  induction prepared generalizing s with
  | nil =>
      rw [List.foldlM_nil, pure_eq_ok] at h
      subst h
      simp
  | cons p rest ih =>
      obtain ⟨t, hfirst, hrest⟩ := foldlM_cons_ok.mp h
      rw [List.map_cons, List.pairwise_cons] at hsorted
      obtain ⟨hlater, hsorted⟩ := hsorted
      obtain ⟨hwritten, hkept, hup⟩ := ih hrest hsorted
      obtain ⟨hblocks, hheight⟩ := Store.writeBlock_blocks hfirst
      refine ⟨?_, ?_, by omega⟩
      · intro q hq
        rcases List.mem_cons.mp hq with rfl | hq
        · have hapart : q.1.height ∉ rest.map fun p => p.1.height :=
            fun hmem => (hlater _ hmem).ne rfl
          rw [hkept _ hapart, hblocks, OrderedMap.getElem?_insert_eq, if_pos rfl]
          exact ⟨rfl, by omega⟩
        · exact hwritten q hq
      · intro height hnot
        rw [List.map_cons, List.mem_cons, not_or] at hnot
        rw [hkept height hnot.2, hblocks, OrderedMap.getElem?_insert_eq,
          if_neg fun heq => hnot.1 heq.symm]

theorem successive_heights {blocks : List Block} (h : Successive blocks) :
    (blocks.map fun b => b.height).Pairwise (· < ·) := by
  rw [List.pairwise_map]
  refine List.isChain_iff_pairwise.mp ?_
  exact List.IsChain.imp (fun a b hab => by omega) h

/-- The blocks, the undo records and the accounts of a store fit a list of bookings, oldest
first. -/
structure Balanced (P : Primitives) (N : Network) (start s : Store) (bookings : List Booking) :
    Prop where
  once : (bookings.map Booking.height).Pairwise (· < ·)
  stored : ∀ height, (s.blocks[height]?).isSome ↔ height ∈ bookings.map Booking.height
  record : ∀ e ∈ bookings, ∃ record, s.blocks[e.height]? = some record ∧
    encodeBlock ⟨P, N, 0⟩ e.block = .ok record
  low : ∀ e ∈ bookings, 0 < e.height ∧ e.height ≤ s.lastHeight
  logged : ∀ height, (s.undo[height]?).isSome → height ≤ s.lastHeight
  backed : Backed start bookings.reverse s.wallets s.undo

variable {P : Primitives} {N : Network} {start : Store}

theorem Balanced.congr {s s' : Store} {bookings : List Booking} (h : Balanced P N start s bookings)
    (hblocks : s'.blocks = s.blocks) (hheight : s'.lastHeight = s.lastHeight)
    (hundo : s'.undo = s.undo) (hwallets : s'.wallets = s.wallets) :
    Balanced P N start s' bookings := by
  refine ⟨h.once, ?_, ?_, ?_, ?_, ?_⟩
  · rw [hblocks]
    exact h.stored
  · rw [hblocks]
    exact h.record
  · rw [hheight]
    exact h.low
  · rw [hundo, hheight]
    exact h.logged
  · rw [hwallets, hundo]
    exact h.backed

theorem agrees_reverse {bookings : List Booking} {wallets : OrderedMap Text WalletState} :
    Agrees start bookings.reverse wallets ↔ Agrees start bookings wallets := by
  unfold Agrees
  simp only [List.map_reverse, List.sum_reverse]

/-- The chain after a committed sub-batch: new blocks on top of the old ones. -/
structure Grown (s : Store) (prepared : List (Block × List Bytes)) (s' : Store) : Prop where
  sorted : (prepared.map fun p => p.1.height).Pairwise (· < ·)
  above : ∀ p ∈ prepared, s.lastHeight < p.1.height
  written : ∀ p ∈ prepared, s'.blocks[p.1.height]? = some p.2 ∧ p.1.height ≤ s'.lastHeight
  kept : ∀ height, height ∉ prepared.map (fun p => p.1.height) →
    s'.blocks[height]? = s.blocks[height]?
  up : s.lastHeight ≤ s'.lastHeight

theorem grown_of_committed {E : Env} {s s' : Store} {blocks : List Block}
    {first : Block × List Bytes} {rest : List (Block × List Bytes)}
    (c : Store.Committed E s (first :: rest) s')
    (hprepared : blocks.mapM (prepareBlock E) = .ok (first :: rest)) (hchain : Successive blocks)
    (hpos : ∀ b ∈ blocks, 0 < b.height) : Grown s (first :: rest) s' := by
  have hheights := prepared_heights hprepared
  rw [List.map_map] at hheights
  have hsorted : ((first :: rest).map fun p => p.1.height).Pairwise (· < ·) := by
    have hsuccessive := successive_heights hchain
    rwa [← hheights] at hsuccessive
  have hfirst : s.lastHeight < first.1.height := by
    have hmem : first.1.height ∈ blocks.map fun b => b.height := by
      rw [← hheights]
      exact List.mem_cons_self
    obtain ⟨b, hb, hheight⟩ := List.mem_map.mp hmem
    have hfirstpos := hpos b hb
    have htip := c.tip first rfl
    unfold Store.checkTip at htip
    simp only at htip
    split_ifs at htip with hzero hnext
    · omega
    · have := not_not.mp hnext
      omega
  obtain ⟨hwritten, hkept, hup⟩ := writeBlocks_blocks c.stored hsorted
  obtain ⟨hblocks₀, -, hheight₀, -⟩ := (Store.writeEntries_sameRecords c.written).chain
  obtain ⟨hblocks₁, -, hheight₁, -⟩ := c.same.chain
  refine ⟨hsorted, ?_, ?_, ?_, ?_⟩
  · intro p hp
    rcases List.mem_cons.mp hp with rfl | hp
    · exact hfirst
    · rw [List.map_cons, List.pairwise_cons] at hsorted
      have := hsorted.1 p.1.height (List.mem_map.mpr ⟨p, hp, rfl⟩)
      omega
  · rw [hblocks₁, hheight₁]
    exact hwritten
  · rw [hblocks₁, ← hblocks₀]
    exact hkept
  · rw [hheight₁, ← hheight₀]
    exact hup

/-- The accounts after a committed sub-batch. -/
theorem agrees_of_committed {E : Env} {s s' : Store} {prepared : List (Block × List Bytes)}
    (c : Store.Committed E s prepared s') {bookings new : List Booking}
    (h : Agrees start bookings s.wallets)
    (hsums : ∀ a, (new.map (Booking.balance a)).sum = (c.ds.get a).balance ∧
      (new.map (Booking.nonce a)).sum = (c.ds.get a).nonce) :
    Agrees start (bookings ++ new) s'.wallets := by
  rw [c.sameLedger.wallets]
  intro a
  obtain ⟨hbalance, hnonce⟩ := h a
  obtain ⟨hadded, hsent⟩ := hsums a
  rw [List.map_append, List.map_append, List.sum_append, List.sum_append, hadded, hsent]
  constructor
  · change c.wallets.balanceAt a = _
    rw [Store.writeEntries_balance c.written a]
    change s.balanceAt a = _ at hbalance
    rw [hbalance, Deltas.bal]
    omega
  · change ((c.wallets.walletAt a).nonce : Int) = _
    rw [Store.writeEntries_nonce c.written a]
    change ((s.walletAt a).nonce : Int) = _ at hnonce
    push_cast
    omega

/-- A sub-batch that commits adds its bookings, one that fails adds nothing. -/
theorem Balanced.applyLocked (now : Int) {s : Store} {bookings : List Booking}
    (h : Balanced P N start s bookings) {blocks : List Block} (hchain : Successive blocks)
    (hpos : ∀ b ∈ blocks, 0 < b.height) (force : Bool) :
    Balanced P N start (s.applyLocked ⟨P, N, now⟩ blocks force).1
      (bookings ++ booked ⟨P, N, now⟩ s blocks force) := by
  rcases applyLocked_booked ⟨P, N, now⟩ s blocks force with
    ⟨hnone, e, he⟩ | ⟨prepared, hprepared, hbooked, c, hlogs⟩
  · rw [hnone, he, List.append_nil]
    exact h
  cases prepared with
  | nil =>
      obtain rfl : blocks = [] := by
        have hlength := congrArg List.length (prepared_heights hprepared)
        simpa using hlength.symm
      obtain ⟨e, he⟩ := Store.applyLocked_nil ⟨P, N, now⟩ s force
      rw [hbooked, he, List.map_nil, bookBlocks, List.append_nil]
      exact h
  | cons first rest =>
      have hgrown := grown_of_committed c hprepared hchain hpos
      obtain ⟨hblocks, hsums⟩ := bookBlocks_ok c.deltas
      rw [← hbooked] at hblocks hsums
      have hencode : ∀ p ∈ first :: rest, encodeBlock ⟨P, N, 0⟩ p.1 = .ok p.2 := by
        intro p hp
        obtain ⟨b, -, hb⟩ := mapM_ok_mem hprepared p hp
        exact (prepareBlock_ok hb).1
      generalize booked ⟨P, N, now⟩ s blocks force = new at hblocks hsums
      generalize (s.applyLocked ⟨P, N, now⟩ blocks force).1 = s' at c hlogs hgrown
      have hheights : new.map Booking.height = (first :: rest).map fun p => p.1.height := by
        have hmapped := congrArg (List.map fun b : Block => b.height) hblocks
        rwa [List.map_map, List.map_map] at hmapped
      have hnew : ∀ e ∈ new, ∃ p ∈ first :: rest, p.1 = e.block := by
        intro e he
        have hmem : e.block ∈ (first :: rest).map fun p => p.1 := by
          rw [← hblocks]
          exact List.mem_map_of_mem he
        exact List.mem_map.mp hmem
      have hagrees : Agrees start (bookings ++ new) s'.wallets := by
        refine agrees_of_committed c (agrees_reverse.mp h.backed.agrees) ?_
        intro a
        obtain ⟨hbalance, hnonce⟩ := hsums a
        rw [hbalance, hnonce]
        simp
      refine ⟨?_, ?_, ?_, ?_, ?_, ?_⟩
      · rw [List.map_append, List.pairwise_append]
        refine ⟨h.once, hheights ▸ hgrown.sorted, ?_⟩
        intro low hlow high hhigh
        rw [hheights] at hhigh
        obtain ⟨e, he, rfl⟩ := List.mem_map.mp hlow
        obtain ⟨p, hp, rfl⟩ := List.mem_map.mp hhigh
        exact lt_of_le_of_lt (h.low e he).2 (hgrown.above p hp)
      · intro height
        rw [List.map_append, List.mem_append, hheights, ← h.stored height]
        by_cases hin : height ∈ (first :: rest).map fun p => p.1.height
        · obtain ⟨p, hp, rfl⟩ := List.mem_map.mp hin
          rw [(hgrown.written p hp).1]
          exact iff_of_true rfl (.inr hin)
        · rw [hgrown.kept height hin]
          exact ⟨.inl, fun hor => hor.resolve_right hin⟩
      · intro e he
        rcases List.mem_append.mp he with hold | he
        · obtain ⟨record, hrecord, hsame⟩ := h.record e hold
          refine ⟨record, ?_, hsame⟩
          rw [hgrown.kept e.height]
          · exact hrecord
          · intro hmem
            obtain ⟨p, hp, heq⟩ := List.mem_map.mp hmem
            have := hgrown.above p hp
            have := (h.low e hold).2
            omega
        · obtain ⟨p, hp, hblock⟩ := hnew e he
          refine ⟨p.2, ?_, hblock ▸ hencode p hp⟩
          unfold Booking.height
          rw [← hblock]
          exact (hgrown.written p hp).1
      · intro e he
        rcases List.mem_append.mp he with hold | he
        · have := h.low e hold
          have := hgrown.up
          omega
        · obtain ⟨p, hp, hblock⟩ := hnew e he
          have := hgrown.above p hp
          have := (hgrown.written p hp).2
          unfold Booking.height
          rw [← hblock]
          omega
      · intro height hsome
        obtain ⟨record, hrecord⟩ := Option.isSome_iff_exists.mp hsome
        rcases logs_entry hlogs hrecord with hold | ⟨rfl, -⟩
        · have := h.logged height (by rw [hold]; rfl)
          have := hgrown.up
          omega
        · exact (hgrown.written first List.mem_cons_self).2
      · obtain ⟨init, last, rfl⟩ : ∃ init last, new = init ++ [last] := by
          rcases List.eq_nil_or_concat new with rfl | ⟨init, last, rfl⟩
          · cases hblocks
          · exact ⟨init, last, by simp⟩
        obtain ⟨p, hp, hblock⟩ := hnew last (by simp)
        have hlast : s.lastHeight < last.height := by
          have := hgrown.above p hp
          rwa [hblock] at this
        rw [← List.append_assoc, List.reverse_append, List.reverse_singleton,
          List.singleton_append]
        refine ⟨?_, ?_⟩
        · have hreversed := agrees_reverse.mpr hagrees
          rwa [← List.append_assoc, List.reverse_append, List.reverse_singleton,
            List.singleton_append] at hreversed
        · intro record hrecord
          rcases logs_entry hlogs hrecord with hold | ⟨hown, rfl⟩
          · have := h.logged last.height (by rw [hold]; rfl)
            omega
          · -- only a block that is written alone has a record of its own
            have halone : init = [] := by
              cases init with
              | nil => rfl
              | cons e more =>
                  have hsorted := hgrown.sorted
                  rw [← hheights] at hsorted
                  rw [List.cons_append, List.map_cons, List.pairwise_cons] at hsorted
                  have hlt := hsorted.1 last.height (by simp)
                  have hfirst : e.height = first.1.height := by
                    rw [List.cons_append, List.map_cons, List.map_cons] at hheights
                    exact (List.cons.inj hheights).1
                  omega
            rw [halone, List.append_nil, c.sameLedger.wallets, Store.run_undoOf c.written]
            refine h.backed.fewer ?_
            intro e he record hrecord
            rcases logs_entry hlogs hrecord with hold | ⟨hown, -⟩
            · exact hold
            · have := (h.low e (List.mem_reverse.mp he)).2
              have := hgrown.above first List.mem_cons_self
              omega

/-- The bookings of the sub-batches of a call. -/
theorem Balanced.applyChunks {now : Int} {force : Bool} {s : Store} {bookings : List Booking}
    (h : Balanced P N start s bookings) {chunks : List (List Block)}
    (hchain : Successive chunks.flatten) (hpos : ∀ b ∈ chunks.flatten, 0 < b.height) :
    Balanced P N start (s.applyChunks ⟨P, N, now⟩ chunks force).1
      (bookings ++ bookedChunks ⟨P, N, now⟩ force s chunks) := by
  induction chunks generalizing s bookings with
  | nil =>
      rw [bookedChunks, List.append_nil]
      exact h
  | cons c rest ih =>
      rw [List.flatten_cons] at hchain hpos
      obtain ⟨hfirst, hlater, -⟩ := List.isChain_append.mp hchain
      have hone := h.applyLocked now hfirst
        (fun b hb => hpos b (List.mem_append_left _ hb)) force
      rw [bookedChunks, Store.applyChunks_cons, ← List.append_assoc]
      unfold Outcome.andThen
      cases (s.applyLocked ⟨P, N, now⟩ c force).2 with
      | ok _ => exact ih hone hlater fun b hb => hpos b (List.mem_append_right _ hb)
      | error _ =>
          simp only
          rw [List.append_nil]
          exact hone

/-- A rollback takes the youngest booking back. -/
theorem Balanced.rolledBack {E : Env} {s s' : Store} {bookings : List Booking}
    (h : Balanced P N start s bookings) (r : Store.RolledBack E s s') :
    Balanced P N start s' bookings.dropLast := by
  obtain ⟨hblocks, -, hheight, -⟩ := r.chain
  have hstored : s.lastHeight ∈ bookings.map Booking.height := by
    rw [← h.stored]
    obtain ⟨record, hrecord, -⟩ := Store.getBlockByHeight_some.mp r.stored
    rw [hrecord]
    rfl
  obtain ⟨init, last, rfl⟩ : ∃ init last, bookings = init ++ [last] := by
    rcases List.eq_nil_or_concat bookings with rfl | ⟨init, last, rfl⟩
    · cases hstored
    · exact ⟨init, last, by simp⟩
  have honce := h.once
  rw [List.map_append, List.pairwise_append] at honce
  have hbelow : ∀ e ∈ init, e.height < last.height := by
    intro e he
    exact honce.2.2 e.height (List.mem_map_of_mem he) last.height (by simp)
  have hlast : last.height = s.lastHeight := by
    have hle := (h.low last (by simp)).2
    rw [List.map_append, List.mem_append] at hstored
    rcases hstored with hearlier | hown
    · obtain ⟨e, he, hsame⟩ := List.mem_map.mp hearlier
      have := hbelow e he
      omega
    · exact (List.mem_singleton.mp hown).symm
  rw [List.dropLast_concat]
  refine ⟨honce.1, ?_, ?_, ?_, ?_, ?_⟩
  · intro height
    rw [hblocks, OrderedMap.getElem?_erase_eq]
    split_ifs with hown
    · refine iff_of_false (by simp) ?_
      intro hmem
      obtain ⟨e, he, hsame⟩ := List.mem_map.mp hmem
      have := hbelow e he
      omega
    · rw [h.stored, List.map_append, List.mem_append]
      refine ⟨fun hor => hor.resolve_right ?_, .inl⟩
      intro hmem
      have := List.mem_singleton.mp hmem
      omega
  · intro e he
    obtain ⟨record, hrecord, hsame⟩ := h.record e (List.mem_append_left _ he)
    have := hbelow e he
    refine ⟨record, ?_, hsame⟩
    rwa [hblocks, OrderedMap.getElem?_erase_eq, if_neg (by omega)]
  · intro e he
    have := h.low e (List.mem_append_left _ he)
    have := hbelow e he
    omega
  · intro height hsome
    rw [r.undoLog, OrderedMap.getElem?_erase_eq] at hsome
    rw [hheight]
    split_ifs at hsome with hown
    · cases hsome
    · have := h.logged height hsome
      omega
  · have hbacked := h.backed
    rw [List.reverse_append, List.reverse_singleton, List.singleton_append] at hbacked
    have hrestored := hbacked.2 r.undo (by rw [hlast]; exact r.logged)
    rw [r.accounts.1, Store.restoreWallets_wallets]
    refine hrestored.fewer ?_
    intro e he record hrecord
    rw [r.undoLog, OrderedMap.getElem?_erase_eq] at hrecord
    split_ifs at hrecord
    exact hrecord

namespace Intake

/-- The ledger fits, and every waiting list is a chain of positive heights. -/
structure Kept (P : Primitives) (N : Network) (start : Store) (n : Intake) : Prop where
  balanced : Balanced P N start n.store n.bookings
  linked : ∀ blocks ∈ n.waiting, Successive blocks ∧ ∀ b ∈ blocks, 0 < b.height

theorem step_kept {n : Intake} (h : Kept P N start n) (a : IntakeAction) :
    Kept P N start (step P N n a) := by
  cases a with
  | check now blocks tip =>
      unfold step
      simp only
      split
      · rename_i hlink
        obtain ⟨hchain, hpos, -⟩ := link_successive hlink
        refine ⟨h.balanced, ?_⟩
        intro l hl
        rcases List.mem_cons.mp hl with rfl | hl
        · exact ⟨hchain, hpos⟩
        · exact h.linked l hl
      · exact h
  | write now index =>
      unfold step
      simp only
      split
      · exact h
      · rename_i blocks hblocks
        obtain ⟨hchain, hpos⟩ := h.linked blocks (List.mem_of_getElem? hblocks)
        refine ⟨?_, h.linked⟩
        simp only
        rw [Store.applyBlocks_eq_applyChunks]
        refine h.balanced.applyChunks ?_ ?_
        · rwa [Store.chunks_flatten]
        · rwa [Store.chunks_flatten]
  | rollback now =>
      unfold step
      simp only
      split
      · rename_i s tip hback
        obtain ⟨-, ⟨r⟩⟩ := Store.rollbackLastBlock_eq_ok hback
        exact ⟨h.balanced.rolledBack r, h.linked⟩
      · rename_i s e hback
        obtain ⟨certs, rfl⟩ := Store.rollbackLastBlock_error hback
        exact ⟨h.balanced.congr rfl rfl rfl rfl, h.linked⟩
  | setUndo on => exact ⟨h.balanced.congr rfl rfl rfl rfl, h.linked⟩

theorem run_kept {n : Intake} (h : Kept P N start n) (actions : List IntakeAction) :
    Kept P N start (actions.foldl (step P N) n) := by
  induction actions generalizing n with
  | nil => exact h
  | cons a rest ih => exact ih (step_kept h a)

/-- In every interleaving of intake tasks and rollbacks from a store without blocks, each stored
block is booked exactly once. -/
theorem exactly_once (P : Primitives) (N : Network) (start : Store) (hblocks : start.blocks = ∅)
    (hundo : start.undo = ∅) (actions : List IntakeAction) :
    Exact P N start (actions.foldl (step P N) { store := start }) := by
  have hstart : Kept P N start { store := start } := by
    refine ⟨⟨List.Pairwise.nil, ?_, ?_, ?_, ?_, ?_⟩, ?_⟩
    · intro height
      simp [hblocks]
    · simp
    · simp
    · intro height hsome
      simp [hundo] at hsome
    · intro a
      simp
    · simp
  have hkept := (run_kept hstart actions).balanced
  have hagrees := agrees_of_store (agrees_reverse.mp hkept.backed.agrees)
  exact ⟨hkept.once, hkept.stored, hkept.record, fun a => (hagrees a).1, fun a => (hagrees a).2⟩

end Intake

end Chain

namespace Reference

/-- Two tasks check the first block at once, and both write it; then one of two tasks that check
its child writes it before the other, and it is taken back. -/
def racingActions : List Chain.IntakeAction :=
  [.check 16000 [genesis] ⟨0, none⟩, .check 16000 [genesis] ⟨0, none⟩, .write 16000 0,
    .write 16000 1, .check 16000 [ownBlock] ⟨1, genesis.id⟩, .write 16000 0, .write 16000 0,
    .rollback 16000]

end Reference

open Reference

theorem exactly_once_racing :
    Chain.Intake.Exact primitives (network {}) {}
      (racingActions.foldl (Chain.Intake.step primitives (network {})) { store := {} }) :=
  Chain.Intake.exactly_once primitives (network {}) {} rfl rfl racingActions

/-- Each block is booked once although it is written twice. -/
example : ((racingActions.take 7).foldl (Chain.Intake.step primitives (network {}))
    { store := {} }).bookings.map Chain.Booking.height = [1, 2] := by
  decide +kernel

end SthCore
