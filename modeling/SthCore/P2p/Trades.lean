import SthCore.Chain.Batches
import SthCore.Chain.Growth
import SthCore.Lib.Runs
import SthCore.Storage.Trades

/-!
The trade frames of an events session.  An applied block announces its
transactions, and the session comes to them one by one: it looks the trade of a
fill up among the newest trades of the token at that moment.
-/

namespace SthCore

open SthCore.Lib

namespace P2p

/-- Whether a session that listens to `tokens` listens to this one; an empty list is every token. -/
def wants (tokens : List Text) (id : Text) : Bool := tokens.isEmpty || tokens.contains id

def wanted (tokens : List Text) (trades : List TokenTrade) : List TokenTrade :=
  trades.filter fun t => wants tokens t.tokenId

/-- The trade frame of `on_dex_tx`. -/
def tradeFrame (tokens : List Text) (s : Store) (tx : Transaction) : Option TokenTrade :=
  match tx.tokenType, tx.tokenAsset with
  | some .buy, some a =>
      if wants tokens a.id then
        ((s.tokenTrades a.id).take 64).find? fun t => some t.txId = tx.id
      else none
  | _, _ => none

/-- The node and one session.  `queue` are the announced transactions that the session has not
come to, each with the trade that its block recorded, and `applied` are all recorded trades. -/
structure TradeSession where
  store : Store
  queue : Fills := []
  sent : List TokenTrade := []
  applied : List TokenTrade := []

inductive TradeAction
  | apply (blocks : List Block) (force : Bool)
  | handle

/-- The transactions of a sub-batch that is committed. -/
def committedFills (E : Env) (s : Store) (blocks : List Block) (force : Bool) : Fills :=
  match blocks.mapM (prepareBlock E) with
  | .error _ => []
  | .ok prepared =>
      match s.commitBlocks E prepared (force || s.undoEnabled) with
      | .error _ => []
      | .ok _ => batchFills E s (prepared.map fun p => p.1) (prepared.map fun p => p.1) ∅

namespace TradeSession

/-- A sub-batch is applied, or the session comes to the next transaction. -/
def step (E : Env) (tokens : List Text) (t : TradeSession) : TradeAction → Option TradeSession
  | .apply blocks force =>
      if Chain.Successive blocks ∧ ∀ b ∈ blocks, 0 < b.height then
        let fills := committedFills E t.store blocks force
        match t.store.applyLocked E blocks force with
        | (store, .ok _) =>
            some { t with store, queue := t.queue ++ fills, applied := t.applied ++ fills.trades }
        | (store, .error _) => some { t with store, applied := t.applied ++ fills.trades }
      else none
  | .handle =>
      match t.queue with
      | [] => none
      | p :: rest =>
          some { t with queue := rest
                        sent := t.sent ++ (tradeFrame tokens t.store p.1).toList }

end TradeSession

/-- What `apply_locked` does after its database transaction does not panic. -/
def Announces (E : Env) (s : Store) (blocks : List Block) (force : Bool) : Prop :=
  ∀ prepared s', blocks.mapM (prepareBlock E) = .ok prepared →
    s.commitBlocks E prepared (force || s.undoEnabled) = .ok s' →
    (s'.afterCommit E (prepared.map fun p => p.1)).2 = .ok ()

/-- Fewer than 64 trades of the token are newer than a trade, and none of them has its
transaction id. -/
def Recent (s : Store) (t : TokenTrade) : Prop :=
  ∀ newer older, s.tokenTrades t.tokenId = newer ++ t :: older →
    newer.length < 64 ∧ ∀ u ∈ newer, u.txId ≠ t.txId

namespace TradeSession

/-- Sub-batches announce their transactions and record their trades under different keys, and the
session comes to a fill while its trade is a recent one. -/
def Timely (E : Env) (tokens : List Text) (t : TradeSession) : TradeAction → Prop
  | .apply blocks force =>
      Announces E t.store blocks force ∧
        ((committedFills E t.store blocks force).trades.map TokenTrade.key).Nodup
  | .handle => ∀ p ∈ t.queue.head?, ∀ f ∈ p.2, wants tokens f.tokenId → Recent t.store f

/-- What a session owes: the announced fills are stored below the tip, and together with the sent
ones they are the applied ones. -/
structure Fed (tokens : List Text) (t : TradeSession) : Prop where
  stored : ∀ p ∈ t.queue, ∀ f ∈ p.2, t.store.trades[f.key]? = some f ∧
    0 < f.height ∧ f.height ≤ t.store.lastHeight
  records : ∀ p ∈ t.queue, (∃ height, Accumulate.Records height p.1 p.2) ∧ p.1.id.isSome
  accounted : t.sent ++ wanted tokens t.queue.trades = wanted tokens t.applied

end TradeSession

theorem wanted_append (tokens : List Text) (l l' : List TokenTrade) :
    wanted tokens (l ++ l') = wanted tokens l ++ wanted tokens l' := by
  unfold wanted
  rw [List.filter_append]

/-- A trade among the 64 newest is found under its transaction id. -/
theorem tradeFrame_eq_some {tokens : List Text} {s : Store} {tx : Transaction} {f : TokenTrade}
    {height : Nat} (hrecords : Accumulate.Records height tx (some f)) (hid : tx.id.isSome)
    (hstored : s.trades[f.key]? = some f) (hwants : wants tokens f.tokenId)
    (hrecent : Recent s f) : tradeFrame tokens s tx = some f := by
  obtain ⟨htype, ⟨a, ha, hid'⟩, htx, -⟩ := hrecords
  have hmem : f ∈ s.tokenTrades f.tokenId := by
    unfold Store.tokenTrades
    rw [List.mem_reverse, List.mem_map]
    refine ⟨(f.key, f), List.mem_filter.mpr ⟨?_, ?_⟩, rfl⟩
    · exact Std.ExtTreeMap.mem_toList_iff_getElem?_eq_some.mpr hstored
    · simp [TokenTrade.key]
  obtain ⟨newer, older, hsplit⟩ := List.append_of_mem hmem
  obtain ⟨hfew, hother⟩ := hrecent newer older hsplit
  obtain ⟨id, hid⟩ := Option.isSome_iff_exists.mp hid
  have hfid : f.txId = id := by rw [htx, hid, Option.getD_some]
  have hnone : (newer.find? fun t => decide (some t.txId = tx.id)) = none := by
    rw [List.find?_eq_none]
    intro u hu
    rw [hid, decide_eq_true_eq, Option.some.injEq, ← hfid]
    exact hother u hu
  have htake : (newer ++ f :: older).take 64 =
      newer ++ f :: older.take (64 - newer.length - 1) := by
    rw [List.take_append, List.take_of_length_le (by omega)]
    obtain ⟨n, hn⟩ : ∃ n, 64 - newer.length = n + 1 := ⟨63 - newer.length, by omega⟩
    rw [hn, List.take_succ_cons, Nat.add_sub_cancel]
  unfold tradeFrame
  simp only [htype, ha, hid', if_pos hwants, hsplit, htake]
  rw [List.find?_append, hnone, Option.none_or, List.find?_cons_of_pos]
  rw [hid, hfid, decide_eq_true_eq]

/-- Another transaction, and the fill of a token that nobody asked for, give no frame. -/
theorem tradeFrame_eq_none {tokens : List Text} {s : Store} {tx : Transaction}
    {fill : Option TokenTrade} {height : Nat} (hrecords : Accumulate.Records height tx fill)
    (hunwanted : ∀ f ∈ fill, ¬ wants tokens f.tokenId) : tradeFrame tokens s tx = none := by
  unfold tradeFrame
  split
  · rename_i a htype hasset
    cases fill with
    | none => exact absurd ⟨htype, by rw [hasset]; rfl⟩ hrecords
    | some f =>
        obtain ⟨-, ⟨b, hb, hid⟩, -⟩ := hrecords
        obtain rfl : a = b := Option.some.inj (hasset.symm.trans hb)
        rw [if_neg]
        rw [hid]
        exact hunwanted f rfl
  · rfl

theorem committedFills_of_refused {E : Env} {s : Store} {blocks : List Block} {force : Bool}
    (h : ¬ s.Commits E blocks force) : committedFills E s blocks force = [] := by
  unfold committedFills
  split
  · rfl
  · rename_i prepared hprepared
    split
    · rfl
    · rename_i s' hcommit
      exact absurd ⟨prepared, s', hprepared, hcommit⟩ h

/-- A sub-batch is refused, or it is committed and announced. -/
theorem Announces.cases {E : Env} {s : Store} {blocks : List Block} {force : Bool}
    (h : Announces E s blocks force) :
    (¬ s.Commits E blocks force ∧ ∃ e, s.applyLocked E blocks force = (s, .error e)) ∨
    ∃ prepared s', blocks.mapM (prepareBlock E) = .ok prepared ∧
      s.commitBlocks E prepared (force || s.undoEnabled) = .ok s' ∧
      (s.applyLocked E blocks force).2 = .ok () ∧
      Nonempty (Store.Committed E s prepared (s.applyLocked E blocks force).1) := by
  by_cases hcommits : s.Commits E blocks force
  · obtain ⟨prepared, s', hprepared, hcommit⟩ := hcommits
    obtain ⟨c, -⟩ := Store.applyLocked_committed hprepared hcommit
    refine .inr ⟨prepared, s', hprepared, hcommit, ?_, ⟨c⟩⟩
    unfold Store.applyLocked
    simp only [hprepared, hcommit]
    exact h prepared s' hprepared hcommit
  · exact .inl ⟨hcommits, Store.applyLocked_refused hcommits⟩

namespace TradeSession

variable {E : Env} {tokens : List Text} {t t' : TradeSession}

theorem Fed.handle (k : Fed tokens t) (hgood : t.Timely E tokens .handle)
    (h : t.step E tokens .handle = some t') : Fed tokens t' := by
  unfold step at h
  cases hqueue : t.queue with
  | nil =>
      simp only [hqueue] at h
      cases h
  | cons p rest =>
      simp only [hqueue] at h
      obtain rfl := Option.some.inj h
      have hmem : p ∈ t.queue := by
        rw [hqueue]
        exact List.mem_cons_self
      have hlater : ∀ q ∈ rest, q ∈ t.queue := by
        intro q hq
        rw [hqueue]
        exact List.mem_cons_of_mem _ hq
      refine ⟨fun q hq => k.stored q (hlater q hq), fun q hq => k.records q (hlater q hq), ?_⟩
      have haccounted := k.accounted
      rw [hqueue] at haccounted
      obtain ⟨⟨height, hrecords⟩, hid⟩ := k.records p hmem
      have hframe : (tradeFrame tokens t.store p.1).toList = wanted tokens p.2.toList := by
        cases hp : p.2 with
        | none =>
            rw [hp] at hrecords
            rw [tradeFrame_eq_none hrecords (by rintro f ⟨⟩)]
            rfl
        | some f =>
            rw [hp] at hrecords
            by_cases hwants : wants tokens f.tokenId
            · have hrecent := hgood p (by rw [hqueue]; rfl) f hp hwants
              rw [tradeFrame_eq_some hrecords hid (k.stored p hmem f hp).1 hwants hrecent]
              simp [wanted, hwants]
            · rw [tradeFrame_eq_none hrecords]
              · simp [wanted, hwants]
              · intro g hg
                obtain rfl := Option.some.inj hg
                exact hwants
      have hsplit : Fills.trades (p :: rest) = p.2.toList ++ Fills.trades rest := by
        unfold Fills.trades
        cases hp : p.2 <;> simp [hp]
      show (t.sent ++ (tradeFrame tokens t.store p.1).toList) ++ wanted tokens (Fills.trades rest) = _
      rw [hframe, List.append_assoc, ← wanted_append, ← hsplit]
      exact haccounted

theorem Fed.apply (k : Fed tokens t) {blocks : List Block} {force : Bool}
    (hgood : t.Timely E tokens (.apply blocks force))
    (h : t.step E tokens (.apply blocks force) = some t') : Fed tokens t' := by
  obtain ⟨hannounces, hkeys⟩ := hgood
  unfold step at h
  simp only at h
  split_ifs at h with hlinked
  obtain ⟨hchain, hpos⟩ := hlinked
  rcases hannounces.cases with
    ⟨hrefused, e, he⟩ | ⟨prepared, s', hprepared, hcommit, hok, ⟨c⟩⟩
  · rw [he, committedFills_of_refused hrefused] at h
    obtain rfl := Option.some.inj h
    refine ⟨k.stored, k.records, ?_⟩
    show _ = wanted tokens (t.applied ++ [])
    rw [List.append_nil]
    exact k.accounted
  · obtain ⟨first, rest, rfl⟩ := Chain.prepared_ne_nil hcommit
    have hfills : committedFills E t.store blocks force =
        batchFills E t.store ((first :: rest).map fun p => p.1)
          ((first :: rest).map fun p => p.1) ∅ := by
      unfold committedFills
      simp only [hprepared, hcommit]
    have hgrown := Chain.grown_of_committed c hprepared hchain hpos
    obtain ⟨written, htrades, hperm⟩ := c.trades
    rw [← hfills] at hperm
    have hrecorded := batchFills_records c.deltas
    rw [← hfills] at hrecorded
    have hnodup : (written.map TokenTrade.key).Nodup :=
      ((hperm.map TokenTrade.key).nodup_iff).mpr hkeys
    -- a recorded trade lies at the height of its block
    have hheight : ∀ f ∈ written, ∃ p ∈ first :: rest, f.height = p.1.height := by
      intro f hf
      obtain ⟨q, hq, hqf⟩ := List.mem_filterMap.mp (hperm.mem_iff.mp hf)
      obtain ⟨b, hb, hrecords, -⟩ := hrecorded q hq
      rw [hqf] at hrecords
      obtain ⟨p, hp, rfl⟩ := List.mem_map.mp hb
      exact ⟨p, hp, hrecords.2.2.2⟩
    generalize hresult : t.store.applyLocked E blocks force = o at h hok c hgrown htrades
    obtain ⟨store, outcome⟩ := o
    simp only at hok
    rw [hok] at h
    obtain rfl := Option.some.inj h
    refine ⟨?_, ?_, ?_⟩
    · intro p hp f hf
      rcases List.mem_append.mp hp with hp | hp
      · obtain ⟨hstored, hlow, hhigh⟩ := k.stored p hp f hf
        refine ⟨?_, hlow, hhigh.trans hgrown.up⟩
        show store.trades[f.key]? = some f
        rw [htrades, Store.putTrades_of_not_mem ?_, hstored]
        intro hmem
        obtain ⟨g, hg, hkey⟩ := List.mem_map.mp hmem
        obtain ⟨q, hq, hgheight⟩ := hheight g hg
        have habove := hgrown.above q hq
        have hsame : g.height = f.height := congrArg (fun k => k.2.1) hkey
        omega
      · have hf' : f ∈ written := hperm.mem_iff.mpr (List.mem_filterMap.mpr ⟨p, hp, hf⟩)
        obtain ⟨q, hq, hfheight⟩ := hheight f hf'
        have habove := hgrown.above q hq
        refine ⟨?_, by omega, ?_⟩
        · show store.trades[f.key]? = some f
          rw [htrades]
          exact Store.putTrades_of_mem hnodup hf' _
        · rw [hfheight]
          exact (hgrown.written q hq).2
    · intro p hp
      rcases List.mem_append.mp hp with hp | hp
      · exact k.records p hp
      · obtain ⟨b, hb, hrecords, htx⟩ := hrecorded p hp
        refine ⟨⟨b.height, hrecords⟩, ?_⟩
        obtain ⟨q, hq, rfl⟩ := List.mem_map.mp hb
        obtain ⟨own, -, hown⟩ := mapM_ok_mem hprepared q hq
        exact Chain.prepareBlock_ids hown p.1 htx
    · show t.sent ++ wanted tokens (Fills.trades (t.queue ++ _)) = wanted tokens (t.applied ++ _)
      rw [Fills.trades_append, wanted_append, wanted_append, ← List.append_assoc, k.accounted]

end TradeSession

/-- Every fill of a token that the session listens to gives one frame, with the trade that its
block recorded, as long as the session comes to it while the trade is a recent one. -/
theorem trades_complete (E : Env) (tokens : List Text) (s₀ : Store) {t : TradeSession}
    (h : Reaches (TradeSession.step E tokens) (TradeSession.Timely E tokens) { store := s₀ } t) :
    t.sent ++ wanted tokens t.queue.trades = wanted tokens t.applied ∧
      (t.queue = [] → t.sent = wanted tokens t.applied) := by
  have k : TradeSession.Fed tokens t := by
    refine h.invariant (I := TradeSession.Fed tokens) ⟨?_, ?_, rfl⟩ ?_
    · exact fun p hp => absurd hp List.not_mem_nil
    · exact fun p hp => absurd hp List.not_mem_nil
    · intro t a u k hgood hnext
      cases a with
      | apply blocks force => exact k.apply hgood hnext
      | handle => exact k.handle hgood hnext
  refine ⟨k.accounted, fun hempty => ?_⟩
  have haccounted := k.accounted
  rw [hempty] at haccounted
  simpa [Fills.trades, wanted] using haccounted

theorem Announces.of_ok {E : Env} {s : Store} {blocks : List Block} {force : Bool}
    (h : (s.applyLocked E blocks force).2.toOption = some ()) : Announces E s blocks force := by
  intro prepared s' hprepared hcommit
  unfold Store.applyLocked at h
  simp only [hprepared, hcommit] at h
  cases hafter : (s'.afterCommit E (prepared.map fun p => p.1)).2 with
  | error e =>
      rw [hafter] at h
      cases h
  | ok _ => rfl

section Sample

open Reference

def tradedToken : Text := Hex.encode (beBytes 32 7)

/-- An order of the second key pair for 100 pieces at a price of 1. -/
def openOrder : TokenOrder :=
  { id := Hex.encode (beBytes 32 8), tokenId := tradedToken, seller := second.address,
    amount := 100, filled := 0, price := 1, height := 1 }

def marketStore : Store :=
  { orders := (∅ : OrderedMap Text TokenOrder).insert openOrder.id openOrder }

/-- The first key pair buys one piece. -/
def pieceBought (n : Nat) : Transaction :=
  { type := 6, typeGroup := typeGroupToken, nonce := some (UInt64.ofNat (n + 1)),
    senderPublicKey := first.publicKey, fee := 10, id := some (Hex.encode (beBytes 32 n)),
    asset := some { token := some { id := tradedToken, orderId := some openOrder.id,
                                    amount := some 1 } } }

def buyingBlock (n : Nat) : Block :=
  first.forge 1 0 (Hex.encode (beBytes 32 0)) 0 ((List.range n).map pieceBought)

def tradeEnv : Env := ⟨primitives, network {}, 0⟩

/-- The session after a block of `n` fills. -/
def announced (n : Nat) : Option TradeSession :=
  TradeSession.step tradeEnv [] { store := marketStore } (.apply [buyingBlock n] true)

/-- What one fill leaves in the queue and in the store, and what is left after it is handled. -/
theorem announced_steps :
    ((announced 1).bind fun t => t.step tradeEnv [] .handle).isSome ∧
    (marketStore.applyLocked tradeEnv [buyingBlock 1] true).2.toOption = some () ∧
    ((committedFills tradeEnv marketStore [buyingBlock 1] true).trades.map
      TokenTrade.key).Nodup ∧
    (∀ t ∈ announced 1, ∀ p ∈ t.queue, ∀ f ∈ p.2,
      (t.store.tokenTrades f.tokenId).length = 1) ∧
    ∀ t ∈ (announced 1).bind fun t => t.step tradeEnv [] .handle,
      t.queue.length = 0 ∧ t.applied.length = 1 := by
  decide +kernel

/-- One fill gives one frame. -/
theorem trades_complete_single :
    ∃ t, Reaches (TradeSession.step tradeEnv []) (TradeSession.Timely tradeEnv [])
        { store := marketStore } t ∧
      t.applied.length = 1 ∧ t.sent = wanted [] t.applied := by
  obtain ⟨hsome, happlies, hkeys, hfew, hcounts⟩ := announced_steps
  have hannounces : Announces tradeEnv marketStore [buyingBlock 1] true := .of_ok happlies
  obtain ⟨u, hu⟩ := Option.isSome_iff_exists.mp hsome
  obtain ⟨t, ht, hnext⟩ := Option.bind_eq_some_iff.mp hu
  obtain ⟨hqueue, happlied⟩ := hcounts u hu
  have hrecent : t.Timely tradeEnv [] .handle := by
    intro p hp f hf _ newer older hsplit
    have hlength := hfew t ht p (List.mem_of_mem_head? hp) f hf
    rw [hsplit, List.length_append, List.length_cons] at hlength
    obtain rfl : newer = [] := List.eq_nil_of_length_eq_zero (by omega)
    exact ⟨by decide, fun u hu => absurd hu List.not_mem_nil⟩
  have hreach : Reaches (TradeSession.step tradeEnv []) (TradeSession.Timely tradeEnv [])
      { store := marketStore } u :=
    .next .handle (.next (.apply [buyingBlock 1] true) .start ⟨hannounces, hkeys⟩ ht) hrecent hnext
  exact ⟨u, hreach, happlied,
    (trades_complete tradeEnv [] marketStore hreach).2 (List.eq_nil_of_length_eq_zero hqueue)⟩

/-- A block with 65 fills of one order: the session sends nothing for the first one. -/
theorem trade_missed :
    ∃ t, [TradeAction.apply [buyingBlock 65] true, .handle].foldlM
        (TradeSession.step tradeEnv []) { store := marketStore } = some t ∧
      t.applied.length = 65 ∧ t.queue.length = 64 ∧ t.sent = [] := by
  have hmissed : ([TradeAction.apply [buyingBlock 65] true, .handle].foldlM
      (TradeSession.step tradeEnv []) { store := marketStore }).any fun t =>
        t.applied.length == 65 && t.queue.length == 64 && t.sent.isEmpty := by
    decide +kernel
  cases hrun : [TradeAction.apply [buyingBlock 65] true, .handle].foldlM
      (TradeSession.step tradeEnv []) { store := marketStore } with
  | none =>
      rw [hrun] at hmissed
      cases hmissed
  | some t =>
      rw [hrun] at hmissed
      refine ⟨t, rfl, ?_⟩
      simpa [and_assoc] using hmissed

end Sample

end P2p

end SthCore
