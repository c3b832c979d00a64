import SthCore.Chain.Growth
import SthCore.Lib.Cursor
import SthCore.P2p.Trades

/-!
A session that subscribes to some wallets from a height on.  It replays the
index without a snapshot while blocks are applied and rolled back, and then
comes to the events that have been queued since it was opened.
-/

namespace SthCore

open SthCore.Lib

namespace P2p

def maxReplay : Nat := 200

inductive ChainEvent
  | applied (block : Block)
  | rolledBack (height : Nat)

/-- A `tx` frame. -/
structure TxFrame where
  addresses : List Text
  height : Nat
  replay : Bool
  tx : Transaction

/-- An entry of the index of a wallet: its key and the id of the transaction. -/
abbrev IndexEntry := (Text × Nat × UInt32) × Text

/-- Where a session is: before its subscription, in the walk through the index of the wallets
`todo`, sending what the walk has found, or after that. -/
inductive SessionPhase
  | idle
  | scanning (tip : Nat) (todo : List Text) (cursor : Option (Text × Nat × UInt32))
      (found : List IndexEntry)
  | replaying (todo : List IndexEntry) (resync : Bool)
  | live

/-- The node and one session; `resync` tells whether it has sent a resync frame since it
subscribed. -/
structure WalletSession where
  store : Store
  queue : List ChainEvent := []
  phase : SessionPhase := .idle
  sent : List TxFrame := []
  resync : Bool := false

inductive SessionAction
  | apply (blocks : List Block) (force : Bool)
  | rollback
  | subscribe
  /-- The subscription gets on. -/
  | advance
  /-- The oldest event is handled. -/
  | handle
  /-- The channel reports that the oldest events are gone. -/
  | lag (count : Nat)

/-- The subscribed addresses that a transaction touches. -/
def hits (E : Env) (addresses : List Text) (tx : Transaction) : List Text :=
  (touched E tx).filter fun a => addresses.contains a

/-- The frames of `on_block` for the wallet topic. -/
def blockFrames (E : Env) (addresses : List Text) (b : Block) : List TxFrame :=
  b.transactions.filterMap fun tx =>
    let hit := hits E addresses tx
    if hit.isEmpty then none else some { addresses := hit, height := b.height, replay := false, tx }

/-- The next entry of `transaction_index`. -/
def nextIndexed (s : Store) (address : Text) (since tip : Nat)
    (cursor : Option (Text × Nat × UInt32)) : Option IndexEntry :=
  s.walletTxs.nextEntry
    (fun e => e.1.1 = address && decide (since < e.1.2.1) && decide (e.1.2.1 ≤ tip)) cursor

/-- The found entries by height and position. -/
def inOrder (found : List IndexEntry) : List IndexEntry :=
  found.insertionSort fun e f => e.1.2.1 < f.1.2.1 ∨ e.1.2.1 = f.1.2.1 ∧ e.1.2.2 ≤ f.1.2.2

/-- The blocks of a sub-batch that is committed. -/
def committedBlocks (E : Env) (s : Store) (blocks : List Block) (force : Bool) : List Block :=
  match blocks.mapM (prepareBlock E) with
  | .error _ => []
  | .ok prepared =>
      match s.commitBlocks E prepared (force || s.undoEnabled) with
      | .error _ => []
      | .ok _ => prepared.map fun p => p.1

namespace WalletSession

variable (E : Env) (addresses : List Text) (since : Nat)

/-- One step of `subscribe`. -/
def advance (t : WalletSession) : Option WalletSession :=
  match t.phase with
  | .scanning _ [] _ found => some { t with phase := .replaying (inOrder found) false }
  | .scanning tip (a :: rest) cursor found =>
      match nextIndexed t.store a since tip cursor with
      | none => some { t with phase := .scanning tip rest none found }
      | some e =>
          if e.2 ∈ found.map (fun f => f.2) then
            some { t with phase := .scanning tip (a :: rest) (some e.1) found }
          else if found.length ≥ maxReplay then
            some { t with phase := .replaying (inOrder found) true }
          else some { t with phase := .scanning tip (a :: rest) (some e.1) (found ++ [e]) }
  | .replaying [] resync => some { t with phase := .live, resync := t.resync || resync }
  | .replaying (e :: rest) resync =>
      match t.store.getTransaction E e.2 with
      | .ok (some tx) =>
          some { t with
            phase := .replaying rest resync
            sent := t.sent ++ [{ addresses := hits E addresses tx, height := e.1.2.1,
                                 replay := true, tx }] }
      | .ok none => some { t with phase := .replaying rest resync }
      | .error _ => none
  | _ => none

def handle (t : WalletSession) : Option WalletSession :=
  match t.phase, t.queue with
  | .idle, _ :: rest => some { t with queue := rest }
  | .live, .applied b :: rest =>
      some { t with queue := rest, sent := t.sent ++ blockFrames E addresses b }
  | .live, .rolledBack _ :: rest => some { t with queue := rest }
  | _, _ => none

def step (t : WalletSession) : SessionAction → Option WalletSession
  | .apply blocks force =>
      if Chain.Successive blocks ∧ ∀ b ∈ blocks, 0 < b.height then
        match t.store.applyLocked E blocks force with
        | (store, .ok _) =>
            some { t with
              store
              queue := t.queue ++
                (committedBlocks E t.store blocks force).map ChainEvent.applied }
        | (store, .error _) => some { t with store }
      else none
  | .rollback =>
      match t.store.rollbackLastBlock E with
      | (store, .ok tip) => some { t with store, queue := t.queue ++ [.rolledBack tip] }
      | (store, .error _) => some { t with store }
  | .subscribe =>
      match t.phase with
      | .idle =>
          if since < t.store.lastHeight then
            some { t with phase := .scanning t.store.lastHeight addresses none [] }
          else some { t with phase := .live }
      | _ => none
  | .advance => advance E addresses since t
  | .handle => handle E addresses t
  | .lag count =>
      match t.phase with
      | .idle => some { t with queue := t.queue.drop count }
      | .live => some { t with queue := t.queue.drop count, resync := true }
      | _ => none

/-- Sub-batches announce their blocks; these read back and bring transactions with new ids. -/
def Sound (t : WalletSession) : SessionAction → Prop
  | .apply blocks force =>
      Announces E t.store blocks force ∧
        ∀ prepared, blocks.mapM (prepareBlock E) = .ok prepared →
          Chain.Indexable E t.store (prepared.map fun p => p.1)
  | _ => True

end WalletSession

/-- A transaction of a stored block above `since`, at its position, that touches a subscribed
wallet. -/
structure Concerns (E : Env) (addresses : List Text) (since : Nat) (s : Store) (height : Nat)
    (e : Transaction × Nat) : Prop where
  stored : ∃ b, (height, b) ∈ s.storedBlocks E ∧ e ∈ b.transactions.zipIdx
  above : since < height
  hit : ∃ a ∈ touched E e.1, a ∈ addresses

section Index

variable {E : Env} {addresses : List Text} {since : Nat} {s s' : Store} {height : Nat}
  {e : Transaction × Nat}

theorem Concerns.id (h : Concerns E addresses since s height e) (hlisted : Chain.Listed E s) :
    ∃ id, e.1.id = some id := by
  obtain ⟨b, hb, he⟩ := h.stored
  exact Option.isSome_iff_exists.mp
    (hlisted.indexed.identified _ hb _ (List.fst_mem_of_mem_zipIdx he))

theorem Concerns.below (h : Concerns E addresses since s height e) (hlisted : Chain.Listed E s) :
    0 < height ∧ height ≤ s.lastHeight := by
  obtain ⟨b, hb, -⟩ := h.stored
  exact hlisted.height_le hb

/-- It is in the index of every wallet that it touches. -/
theorem Concerns.indexed (h : Concerns E addresses since s height e) (hlisted : Chain.Listed E s)
    {id a : Text} (hid : e.1.id = some id) (ha : a ∈ touched E e.1) :
    ((a, height, UInt32.ofNat e.2), id) ∈ s.walletTxs.toList := by
  obtain ⟨b, hb, he⟩ := h.stored
  refine hlisted.indexed.wallets.mem_iff.mpr ?_
  refine List.mem_flatMap.mpr ⟨_, hb, List.mem_flatMap.mpr ⟨e, he, ?_⟩⟩
  unfold walletEntries
  rw [hid]
  simpa using ha

/-- It is found under its id. -/
theorem Concerns.found (h : Concerns E addresses since s height e) (hlisted : Chain.Listed E s)
    {id : Text} (hid : e.1.id = some id) :
    ∃ tx, s.getTransaction E id = .ok (some tx) ∧ tx.id = some id := by
  obtain ⟨b, hb, he⟩ := h.stored
  have htx := List.fst_mem_of_mem_zipIdx he
  have hsome : (b.transactions.find? (Store.hasId id)).isSome := by
    rw [List.find?_isSome]
    exact ⟨e.1, htx, by simp [Store.hasId, hid]⟩
  obtain ⟨tx, hfound⟩ := Option.isSome_iff_exists.mp hsome
  refine ⟨tx, ?_, by simpa [Store.hasId] using List.find?_some hfound⟩
  rw [hlisted.getTransaction hb htx hid, hfound]

theorem Concerns.congr (h : Concerns E addresses since s' height e) (hblocks : s'.blocks = s.blocks) :
    Concerns E addresses since s height e := by
  obtain ⟨b, hb, he⟩ := h.stored
  refine ⟨⟨b, ?_, he⟩, h.above, h.hit⟩
  rw [Store.mem_storedBlocks] at hb ⊢
  rwa [← hblocks]

/-- After a rollback the others are still there. -/
theorem Concerns.of_rolledBack (r : Store.RolledBack E s s')
    (h : Concerns E addresses since s' height e) : Concerns E addresses since s height e := by
  obtain ⟨b, hb, he⟩ := h.stored
  refine ⟨⟨b, ?_, he⟩, h.above, h.hit⟩
  obtain ⟨record, hrecord, hdecode⟩ := Store.mem_storedBlocks.mp hb
  refine Store.mem_storedBlocks.mpr ⟨record, ?_, hdecode⟩
  rw [r.chain.1, OrderedMap.getElem?_erase_eq] at hrecord
  split_ifs at hrecord with hlast
  exact hrecord

/-- What is ahead in the index of a wallet is what comes next, or it stays ahead. -/
theorem Concerns.next {tip : Nat} {a : Text} {cursor : Option (Text × Nat × UInt32)}
    (hc : Concerns E addresses since s height e) (hlisted : Chain.Listed E s)
    (ha : a ∈ touched E e.1) (htip : height ≤ tip)
    (hahead : OrderedMap.ahead cursor (a, height, UInt32.ofNat e.2) = true) :
    ∃ n, nextIndexed s a since tip cursor = some n ∧ (some n.2 = e.1.id ∨
      OrderedMap.ahead (some n.1) (a, height, UInt32.ofNat e.2) = true) := by
  obtain ⟨id, hid⟩ := hc.id hlisted
  have hmem := hc.indexed hlisted hid ha
  obtain ⟨n, hn, hcase⟩ := OrderedMap.nextEntry_of_mem
    (p := fun e => e.1.1 = a && decide (since < e.1.2.1) && decide (e.1.2.1 ≤ tip)) hmem
    (by simp [hc.above, htip]) hahead
  refine ⟨n, hn, ?_⟩
  rcases hcase with rfl | hstill
  · exact .inl hid.symm
  · exact .inr hstill

end Index

/-- An announced transaction that touches a subscribed wallet gives a frame. -/
theorem blockFrames_mem {E : Env} {addresses : List Text} {b : Block} {tx tx' : Transaction}
    (htx : tx ∈ b.transactions) (hmark : Store.mark E tx = Store.mark E tx')
    (hhit : ∃ a ∈ touched E tx', a ∈ addresses) :
    ∃ f ∈ blockFrames E addresses b, f.tx.id = tx'.id := by
  obtain ⟨hid, htouched⟩ := Prod.mk.inj hmark
  obtain ⟨a, ha, hmine⟩ := hhit
  have hne : (hits E addresses tx).isEmpty = false := by
    rw [List.isEmpty_eq_false_iff_exists_mem]
    refine ⟨a, List.mem_filter.mpr ⟨?_, by simpa using hmine⟩⟩
    rw [htouched]
    exact ha
  refine ⟨⟨hits E addresses tx, b.height, false, tx⟩, ?_, hid⟩
  refine List.mem_filterMap.mpr ⟨tx, htx, ?_⟩
  simp only [hne, Bool.false_eq_true, if_false]

namespace WalletSession

/-- What the subscription has yet to send, as far as it has come. -/
def Pending (E : Env) (t : WalletSession) (height : Nat) (e : Transaction × Nat) : Prop :=
  match t.phase with
  | .idle => True
  | .scanning tip todo cursor found =>
      (∃ f ∈ found, some f.2 = e.1.id) ∨ height ≤ tip ∧ ∃ a ∈ touched E e.1,
        a ∈ todo.tail ∨ a ∈ todo.head? ∧
          OrderedMap.ahead cursor (a, height, UInt32.ofNat e.2) = true
  | .replaying todo resync => resync = true ∨ ∃ f ∈ todo, some f.2 = e.1.id
  | .live => False

def Sent (t : WalletSession) (tx : Transaction) : Prop := ∃ f ∈ t.sent, f.tx.id = tx.id

/-- A frame of the transaction has been sent, or will be, or the wallet has been told to resync. -/
def Promised (E : Env) (t : WalletSession) (height : Nat) (e : Transaction × Nat) : Prop :=
  t.resync = true ∨ t.Sent e.1 ∨
    (∃ b, .applied b ∈ t.queue ∧ Store.mark E e.1 ∈ b.transactions.map (Store.mark E)) ∨
    t.Pending E height e

/-- The indexes of the node are exact, and nothing that the subscription is about is lost. -/
structure Kept (E : Env) (addresses : List Text) (since : Nat) (t : WalletSession) : Prop where
  listed : Chain.Listed E t.store
  promised : ∀ height e, Concerns E addresses since t.store height e → t.Promised E height e

variable {E : Env} {addresses : List Text} {since : Nat} {t t' : WalletSession}

theorem Kept.apply (k : Kept E addresses since t) {blocks : List Block} {force : Bool}
    (hgood : t.Sound E (.apply blocks force))
    (h : t.step E addresses since (.apply blocks force) = some t') :
    Kept E addresses since t' := by
  obtain ⟨hannounces, hindexable⟩ := hgood
  unfold step at h
  simp only at h
  split_ifs at h with hlinked
  obtain ⟨hchain, hpos⟩ := hlinked
  rcases hannounces.cases with ⟨-, e, he⟩ | ⟨prepared, s', hprepared, hcommit, hok, ⟨c⟩⟩
  · rw [he] at h
    obtain rfl := Option.some.inj h
    exact ⟨k.listed, k.promised⟩
  · obtain ⟨first, rest, rfl⟩ := Chain.prepared_ne_nil hcommit
    have hgrown := Chain.grown_of_committed c hprepared hchain hpos
    have hnew := hindexable (first :: rest) hprepared
    have hlisted := Chain.committed_listed c hprepared hnew hchain hgrown.above k.listed
    have hblocks : committedBlocks E t.store blocks force =
        (first :: rest).map fun p => p.1 := by
      unfold committedBlocks
      simp only [hprepared, hcommit]
    rw [hblocks] at h
    generalize t.store.applyLocked E blocks force = o at h hok c hgrown hlisted
    obtain ⟨store, outcome⟩ := o
    simp only at hok
    rw [hok] at h
    obtain rfl := Option.some.inj h
    refine ⟨hlisted, ?_⟩
    intro height e hc
    obtain ⟨b, hb, he⟩ := hc.stored
    have hback : ∀ p ∈ first :: rest, Store.ReadsBack E p.1 :=
      fun p hp => hnew.back p.1 (List.mem_map_of_mem hp)
    rcases Chain.stored_of_committed hgrown hprepared hback hb with hold | ⟨p, hp, hmarks⟩
    · rcases k.promised height e ⟨⟨b, hold, he⟩, hc.above, hc.hit⟩ with
        hr | hs | ⟨b, hb, hm⟩ | hpending
      · exact .inl hr
      · exact .inr (.inl hs)
      · exact .inr (.inr (.inl ⟨b, List.mem_append_left _ hb, hm⟩))
      · exact .inr (.inr (.inr hpending))
    · refine .inr (.inr (.inl ⟨p.1, ?_, ?_⟩))
      · refine List.mem_append_right _ (List.mem_map_of_mem (f := ChainEvent.applied) ?_)
        exact List.mem_map_of_mem (f := fun p : Block × List Bytes => p.1) hp
      · rw [← hmarks]
        exact List.mem_map_of_mem (List.fst_mem_of_mem_zipIdx he)

theorem Kept.rollback (k : Kept E addresses since t)
    (h : t.step E addresses since .rollback = some t') : Kept E addresses since t' := by
  unfold step at h
  simp only at h
  cases hback : t.store.rollbackLastBlock E with
  | mk store outcome =>
      rw [hback] at h
      cases outcome with
      | error e =>
          obtain rfl := Option.some.inj h
          obtain ⟨certs, rfl⟩ := Store.rollbackLastBlock_error hback
          exact ⟨k.listed.congr rfl rfl rfl rfl rfl rfl,
            fun height e hc => k.promised height e (hc.congr rfl)⟩
      | ok tip =>
          obtain rfl := Option.some.inj h
          obtain ⟨-, ⟨r⟩⟩ := Store.rollbackLastBlock_eq_ok hback
          have r : Store.RolledBack ⟨E.prim, E.network, E.nowMs⟩ t.store store := r
          have hlisted := Chain.rollback_listed r (k.listed.atTime 0)
          refine ⟨hlisted.atTime E.nowMs, ?_⟩
          intro height e hc
          rcases k.promised height e (hc.of_rolledBack r) with hr | hs | ⟨b, hb, hm⟩ | hp
          · exact .inl hr
          · exact .inr (.inl hs)
          · exact .inr (.inr (.inl ⟨b, List.mem_append_left _ hb, hm⟩))
          · exact .inr (.inr (.inr hp))

theorem Kept.subscribe (k : Kept E addresses since t)
    (h : t.step E addresses since .subscribe = some t') : Kept E addresses since t' := by
  unfold step at h
  simp only at h
  split at h
  · split_ifs at h with hbehind
    · obtain rfl := Option.some.inj h
      refine ⟨k.listed, ?_⟩
      intro height e hc
      obtain ⟨a, ha, hmine⟩ := hc.hit
      refine .inr (.inr (.inr (.inr ⟨(hc.below k.listed).2, a, ha, ?_⟩)))
      show a ∈ addresses.tail ∨ a ∈ addresses.head? ∧ _
      cases addresses with
      | nil => cases hmine
      | cons b rest =>
          rcases List.mem_cons.mp hmine with rfl | hrest
          · exact .inr ⟨rfl, rfl⟩
          · exact .inl hrest
    · -- nothing is stored above `since`
      obtain rfl := Option.some.inj h
      refine ⟨k.listed, ?_⟩
      intro height e hc
      have hbelow := (hc.below k.listed).2
      have habove := hc.above
      exact absurd (lt_of_lt_of_le habove hbelow) hbehind
  · cases h

theorem mem_inOrder {found : List IndexEntry} {f : IndexEntry} : f ∈ inOrder found ↔ f ∈ found :=
  (List.perm_insertionSort _ found).mem_iff

/-- A session that only gets on with its subscription keeps its promises when it keeps the
pending ones. -/
theorem Kept.promised_of_pending (k : Kept E addresses since t) {height : Nat}
    {e : Transaction × Nat} (hc : Concerns E addresses since t.store height e)
    {phase : SessionPhase}
    (h : Pending E t height e → Pending E { t with phase } height e) :
    Promised E { t with phase } height e := by
  rcases k.promised height e hc with hr | hs | hq | hp
  · exact .inl hr
  · exact .inr (.inl hs)
  · exact .inr (.inr (.inl hq))
  · exact .inr (.inr (.inr (h hp)))

section Scan

variable {tip : Nat} {a : Text} {rest : List Text} {cursor : Option (Text × Nat × UInt32)}
  {found : List IndexEntry} {height : Nat} {e : Transaction × Nat}

/-- A wallet has been walked through. -/
theorem Pending.wallet_done (hlisted : Chain.Listed E t.store)
    (hphase : t.phase = .scanning tip (a :: rest) cursor found)
    (hnext : nextIndexed t.store a since tip cursor = none)
    (hc : Concerns E addresses since t.store height e) (h : Pending E t height e) :
    Pending E { t with phase := .scanning tip rest none found } height e := by
  unfold Pending at h
  rw [hphase] at h
  rcases h with hfound | ⟨htip, x, hx, hlater | ⟨hfirst, hahead⟩⟩
  · exact .inl hfound
  · refine .inr ⟨htip, x, hx, ?_⟩
    cases rest with
    | nil => cases hlater
    | cons b others =>
        rcases List.mem_cons.mp hlater with rfl | hothers
        · exact .inr ⟨rfl, rfl⟩
        · exact .inl hothers
  · obtain rfl := Option.some.inj hfirst
    obtain ⟨n, hn, -⟩ := hc.next hlisted hx htip hahead
    rw [hnext] at hn
    cases hn

/-- The walk comes to an entry. -/
theorem Pending.entry_met (hlisted : Chain.Listed E t.store)
    (hphase : t.phase = .scanning tip (a :: rest) cursor found) {n : IndexEntry}
    (hnext : nextIndexed t.store a since tip cursor = some n)
    (hc : Concerns E addresses since t.store height e) (h : Pending E t height e) :
    some n.2 = e.1.id ∨
      Pending E { t with phase := .scanning tip (a :: rest) (some n.1) found } height e := by
  unfold Pending at h
  rw [hphase] at h
  rcases h with hfound | ⟨htip, x, hx, hlater | ⟨hfirst, hahead⟩⟩
  · exact .inr (.inl hfound)
  · exact .inr (.inr ⟨htip, x, hx, .inl hlater⟩)
  · obtain rfl := Option.some.inj hfirst
    obtain ⟨m, hm, hcase⟩ := hc.next hlisted hx htip hahead
    rw [hnext] at hm
    obtain rfl := Option.some.inj hm
    rcases hcase with hmet | hstill
    · exact .inl hmet
    · exact .inr (.inr ⟨htip, _, hx, .inr ⟨rfl, hstill⟩⟩)

end Scan

theorem Kept.advance (k : Kept E addresses since t)
    (h : t.step E addresses since .advance = some t') : Kept E addresses since t' := by
  unfold step WalletSession.advance at h
  simp only at h
  split at h
  · -- every wallet has been walked through
    rename_i tip cursor found hphase
    obtain rfl := Option.some.inj h
    refine ⟨k.listed, fun height e hc => k.promised_of_pending hc fun hp => ?_⟩
    unfold Pending at hp
    rw [hphase] at hp
    rcases hp with ⟨f, hf, hid⟩ | ⟨-, x, -, hnone | ⟨hnone, -⟩⟩
    · exact .inr ⟨f, mem_inOrder.mpr hf, hid⟩
    · cases hnone
    · cases hnone
  · rename_i tip a rest cursor found hphase
    cases hnext : nextIndexed t.store a since tip cursor with
    | none =>
        simp only [hnext] at h
        obtain rfl := Option.some.inj h
        exact ⟨k.listed, fun height e hc => k.promised_of_pending hc fun hp =>
          Pending.wallet_done k.listed hphase hnext hc hp⟩
    | some n =>
        simp only [hnext] at h
        split_ifs at h with hseen hfull
        · obtain rfl := Option.some.inj h
          refine ⟨k.listed, fun height e hc => k.promised_of_pending hc fun hp => ?_⟩
          rcases Pending.entry_met k.listed hphase hnext hc hp with hmet | hlater
          · obtain ⟨f, hf, hsame⟩ := List.mem_map.mp hseen
            exact .inl ⟨f, hf, by rw [hsame, hmet]⟩
          · exact hlater
        · obtain rfl := Option.some.inj h
          exact ⟨k.listed, fun height e hc => k.promised_of_pending hc fun _ => .inl rfl⟩
        · obtain rfl := Option.some.inj h
          refine ⟨k.listed, fun height e hc => k.promised_of_pending hc fun hp => ?_⟩
          rcases Pending.entry_met k.listed hphase hnext hc hp with hmet | ⟨f, hf, hid⟩ | hlater
          · exact .inl ⟨n, List.mem_append_right _ (List.mem_singleton.mpr rfl), hmet⟩
          · exact .inl ⟨f, List.mem_append_left _ hf, hid⟩
          · exact .inr hlater
  · -- the replay is over
    rename_i resync hphase
    obtain rfl := Option.some.inj h
    refine ⟨k.listed, fun height e hc => ?_⟩
    rcases k.promised height e hc with hr | hs | hq | hp
    · refine .inl ?_
      show (t.resync || resync) = true
      rw [hr, Bool.true_or]
    · exact .inr (.inl hs)
    · exact .inr (.inr (.inl hq))
    · unfold Pending at hp
      rw [hphase] at hp
      rcases hp with rfl | ⟨f, hf, -⟩
      · refine .inl ?_
        show (t.resync || true) = true
        rw [Bool.or_true]
      · cases hf
  · rename_i f rest resync hphase
    have hrest : ∀ height e, Pending E t height e →
        some f.2 = e.1.id ∨ Pending E { t with phase := .replaying rest resync } height e := by
      intro height e hp
      unfold Pending at hp
      rw [hphase] at hp
      rcases hp with hr | ⟨g, hg, hid⟩
      · exact .inr (.inl hr)
      · rcases List.mem_cons.mp hg with rfl | hg
        · exact .inl hid
        · exact .inr (.inr ⟨g, hg, hid⟩)
    split at h
    · rename_i tx htx
      obtain rfl := Option.some.inj h
      refine ⟨k.listed, fun height e hc => ?_⟩
      rcases k.promised height e hc with hr | ⟨g, hg, hid⟩ | hq | hp
      · exact .inl hr
      · exact .inr (.inl ⟨g, List.mem_append_left _ hg, hid⟩)
      · exact .inr (.inr (.inl hq))
      · rcases hrest height e hp with hmet | hlater
        · obtain ⟨tx', htx', hid'⟩ := hc.found k.listed hmet.symm
          rw [htx] at htx'
          obtain rfl := Option.some.inj (Except.ok.inj htx')
          refine .inr (.inl ⟨_, List.mem_append_right _ (List.mem_singleton.mpr rfl), ?_⟩)
          rw [← hmet]
          exact hid'
        · exact .inr (.inr (.inr hlater))
    · -- the transaction has been rolled back meanwhile
      rename_i hnone
      obtain rfl := Option.some.inj h
      refine ⟨k.listed, fun height e hc => k.promised_of_pending hc fun hp => ?_⟩
      rcases hrest height e hp with hmet | hlater
      · obtain ⟨tx, htx, -⟩ := hc.found k.listed hmet.symm
        rw [hnone] at htx
        cases htx
      · exact hlater
    · cases h
  · cases h

theorem Kept.handle (k : Kept E addresses since t)
    (h : t.step E addresses since .handle = some t') : Kept E addresses since t' := by
  unfold step WalletSession.handle at h
  simp only at h
  split at h
  · rename_i hphase _
    obtain rfl := Option.some.inj h
    refine ⟨k.listed, fun height e _ => .inr (.inr (.inr ?_))⟩
    unfold Pending
    rw [hphase]
    trivial
  · rename_i b rest hphase hqueue
    obtain rfl := Option.some.inj h
    refine ⟨k.listed, ?_⟩
    intro height e hc
    rcases k.promised height e hc with hr | ⟨f, hf, hid⟩ | ⟨d, hd, hm⟩ | hpending
    · exact .inl hr
    · exact .inr (.inl ⟨f, List.mem_append_left _ hf, hid⟩)
    · rw [hqueue] at hd
      rcases List.mem_cons.mp hd with hsame | hlater
      · obtain rfl := ChainEvent.applied.inj hsame
        obtain ⟨tx, htx, hmark⟩ := List.mem_map.mp hm
        obtain ⟨f, hf, hfid⟩ := blockFrames_mem htx hmark hc.hit
        exact .inr (.inl ⟨f, List.mem_append_right _ hf, hfid⟩)
      · exact .inr (.inr (.inl ⟨d, hlater, hm⟩))
    · exact .inr (.inr (.inr hpending))
  · rename_i n rest hphase hqueue
    obtain rfl := Option.some.inj h
    refine ⟨k.listed, ?_⟩
    intro height e hc
    rcases k.promised height e hc with hr | hs | ⟨d, hd, hm⟩ | hpending
    · exact .inl hr
    · exact .inr (.inl hs)
    · rw [hqueue] at hd
      rcases List.mem_cons.mp hd with hother | hlater
      · cases hother
      · exact .inr (.inr (.inl ⟨d, hlater, hm⟩))
    · exact .inr (.inr (.inr hpending))
  · cases h

theorem Kept.lag (k : Kept E addresses since t) {count : Nat}
    (h : t.step E addresses since (.lag count) = some t') : Kept E addresses since t' := by
  unfold step at h
  simp only at h
  split at h
  · rename_i hphase
    obtain rfl := Option.some.inj h
    refine ⟨k.listed, fun height e _ => .inr (.inr (.inr ?_))⟩
    unfold Pending
    rw [hphase]
    trivial
  · obtain rfl := Option.some.inj h
    exact ⟨k.listed, fun height e _ => .inl rfl⟩
  · cases h

end WalletSession

/-- Once a subscribed session has come to all events, every transaction of a stored block above
`since` that touches a subscribed wallet has been sent, or a resync frame has. -/
theorem wallet_stream_complete (E : Env) (addresses : List Text) (since : Nat)
    {t : WalletSession}
    (h : Reaches (WalletSession.step E addresses since) (WalletSession.Sound E) { store := {} } t)
    (hlive : t.phase = .live) (hquiet : t.queue = []) :
    t.resync = true ∨ ∀ height b, (height, b) ∈ t.store.storedBlocks E → since < height →
      ∀ tx ∈ b.transactions, (∃ a ∈ touched E tx, a ∈ addresses) → t.Sent tx := by
  have k : WalletSession.Kept E addresses since t := by
    refine h.invariant (I := WalletSession.Kept E addresses since) ⟨?_, ?_⟩ ?_
    · exact Chain.listed_of_empty E rfl rfl rfl rfl rfl
    · intro height e hc
      exact .inr (.inr (.inr trivial))
    · intro t a u k hgood hnext
      cases a with
      | apply blocks force => exact k.apply hgood hnext
      | rollback => exact k.rollback hnext
      | subscribe => exact k.subscribe hnext
      | advance => exact k.advance hnext
      | handle => exact k.handle hnext
      | lag count => exact k.lag hnext
  by_cases hresync : t.resync = true
  · exact .inl hresync
  · right
    intro height b hb habove tx htx hhit
    obtain ⟨i, hi⟩ := List.getElem?_of_mem htx
    have he : (tx, i) ∈ b.transactions.zipIdx := List.mem_zipIdx_iff_getElem?.mpr hi
    rcases k.promised height (tx, i) ⟨⟨b, hb, he⟩, habove, hhit⟩ with hr | hs | ⟨b, hb, -⟩ | hp
    · exact absurd hr hresync
    · exact hs
    · rw [hquiet] at hb
      cases hb
    · unfold WalletSession.Pending at hp
      rw [hlive] at hp
      cases hp

section Sample

open Reference

def replayEnv : Env := ⟨primitives, network {}, 24000⟩

/-- A node that has applied `genesis` and then `placedBlock`, with a session. -/
def genesisSession : Option WalletSession :=
  WalletSession.step replayEnv [second.address] 1 { store := {} } (.apply [genesis] true)

def placedSession : Option WalletSession :=
  genesisSession.bind fun t =>
    t.step replayEnv [second.address] 1 (.apply [placedBlock] true)

/-- The session subscribes, walks through the index, replays the transfer and then comes to the
two events. -/
def subscribing : List SessionAction :=
  [.subscribe, .advance, .advance, .advance, .advance, .advance, .handle, .handle]

/-- Both blocks are announced and read back, and where the session ends. -/
theorem placedSession_steps :
    ((({} : Store).applyLocked replayEnv [genesis] true).2.toOption = some () ∧
      ∀ t ∈ genesisSession,
        (t.store.applyLocked replayEnv [placedBlock] true).2.toOption = some () ∧
          t.store.txs.toList = []) ∧
    (Chain.RoundTrips replayEnv [genesis] ∧ Chain.RoundTrips replayEnv [placedBlock]) ∧
    (placedSession.bind fun t =>
      subscribing.foldlM (WalletSession.step replayEnv [second.address] 1) t).isSome ∧
    ∀ u ∈ placedSession.bind fun t =>
      subscribing.foldlM (WalletSession.step replayEnv [second.address] 1) t,
      u.resync = false ∧ u.sent.length = 2 ∧ u.queue.length = 0 ∧
        (match u.phase with | .live => true | _ => false) = true := by
  decide +kernel

/-- The transfer is sent twice: by the replay and with its event. -/
theorem wallet_stream_complete_placed :
    ∃ t, Reaches (WalletSession.step replayEnv [second.address] 1)
        (WalletSession.Sound replayEnv) { store := {} } t ∧ t.sent.length = 2 ∧
      ∀ height b, (height, b) ∈ t.store.storedBlocks replayEnv → 1 < height →
        ∀ tx ∈ b.transactions, (∃ a ∈ touched replayEnv tx, a ∈ [second.address]) →
          t.Sent tx := by
  obtain ⟨⟨hfirst, hsecond⟩, ⟨hgenesis, hplacedBlock⟩, hsome, hend⟩ := placedSession_steps
  obtain ⟨v, hv⟩ := Option.isSome_iff_exists.mp hsome
  obtain ⟨hresync, hsent, hqueue, hphase⟩ := hend v hv
  obtain ⟨u, hu, hrest⟩ := Option.bind_eq_some_iff.mp hv
  obtain ⟨t, ht, hnext⟩ := Option.bind_eq_some_iff.mp hu
  have hstart : Reaches (WalletSession.step replayEnv [second.address] 1)
      (WalletSession.Sound replayEnv) { store := {} } t := by
    refine .next (.apply [genesis] true) .start ⟨.of_ok hfirst, ?_⟩ ht
    exact Chain.indexable_of_roundTrip (by simp) hgenesis
  have hplaced : Reaches (WalletSession.step replayEnv [second.address] 1)
      (WalletSession.Sound replayEnv) { store := {} } u := by
    obtain ⟨hok, hnew⟩ := hsecond t ht
    refine .next (.apply [placedBlock] true) hstart ⟨.of_ok hok, ?_⟩ hnext
    exact Chain.indexable_of_roundTrip hnew hplacedBlock
  have hreach : Reaches (WalletSession.step replayEnv [second.address] 1)
      (WalletSession.Sound replayEnv) { store := {} } v := hplaced.trans (.of_foldlM ?_ hrest)
  · refine ⟨v, hreach, hsent, ?_⟩
    have hlive : v.phase = .live := by
      revert hphase
      cases v.phase <;> simp
    rcases wallet_stream_complete replayEnv [second.address] 1 hreach hlive
      (List.eq_nil_of_length_eq_zero hqueue) with hr | hall
    · rw [hresync] at hr
      cases hr
    · exact hall
  · intro w a ha
    simp only [subscribing, List.mem_cons, List.not_mem_nil, or_false] at ha
    rcases ha with rfl | rfl | rfl | rfl | rfl | rfl | rfl | rfl <;> trivial

/-- A block that comes two slots late, with a transfer. -/
def overdueBlock : Block :=
  first.forge 2 24 (genesis.id.getD "") 0 [transfer first second 1 5]

/-- The bookkeeping about the missed slot fails, so the committed block is not announced: the
session sends nothing of it and no resync frame. -/
theorem transfer_unsent :
    ∃ t, [SessionAction.apply [genesis] true, .handle, .subscribe,
          .apply [overdueBlock] true].foldlM
        (WalletSession.step replayEnv [second.address] 1) { store := {} } = some t ∧
      (t.phase = .live ∧ t.queue = []) ∧ t.resync = false ∧
      ∃ height b, (height, b) ∈ t.store.storedBlocks replayEnv ∧ 1 < height ∧
        ∃ tx ∈ b.transactions, (∃ a ∈ touched replayEnv tx, a ∈ [second.address]) ∧
          ¬ t.Sent tx := by
  have hlost : ([SessionAction.apply [genesis] true, .handle, .subscribe,
      .apply [overdueBlock] true].foldlM
        (WalletSession.step replayEnv [second.address] 1) { store := {} }).any fun t =>
      (match t.phase with | .live => true | _ => false) && t.queue.isEmpty && !t.resync &&
        t.sent.isEmpty && (t.store.storedBlocks replayEnv).any fun e =>
          decide (1 < e.1) && e.2.transactions.any fun tx =>
            (touched replayEnv tx).any fun a => decide (a ∈ [second.address]) := by
    decide +kernel
  obtain ⟨t, ht, hfacts⟩ := (Option.any_eq_true _ _).mp hlost
  simp only [Bool.and_eq_true, List.isEmpty_iff, Bool.not_eq_true', List.any_eq_true,
    decide_eq_true_eq] at hfacts
  obtain ⟨⟨⟨⟨hphase, hqueue⟩, hresync⟩, hsent⟩, e, he, habove, tx, htx, a, ha, hmine⟩ := hfacts
  refine ⟨t, ht, ⟨?_, hqueue⟩, hresync, e.1, e.2, he, habove, tx, htx, ⟨a, ha, hmine⟩, ?_⟩
  · revert hphase
    cases t.phase <;> simp
  · rintro ⟨f, hf, -⟩
    rw [hsent] at hf
    cases hf

end Sample

end P2p

end SthCore
