import SthCore.Lib.Collected
import SthCore.Mempool.Accounting

/-!
The limits of the pool on its peers: the gate in front of a batch, and the count
of invalid transactions behind it.  The count is taken from the answer, which
keeps one reason for an id.  Times are in nanoseconds.
-/

namespace SthCore

open SthCore.Lib

/-- `mempool.antispam` with the part that judges a peer. -/
structure PeerConfig extends AntiSpamConfig where
  peerTxPerMin : UInt32 := 600
  peerInvalidPerMin : UInt32 := 20
  banSecs : Nat := 3600
  denyPeers : List Text := []

/-- Where a batch of transactions came from. -/
inductive TxOrigin
  | local
  | legacyPeer (address : Text)
  | irohPeer (id : Text)
  deriving DecidableEq

def TxOrigin.peer : TxOrigin → Option Text
  | .local => none
  | .legacyPeer p | .irohPeer p => some p

structure PeerWindow where
  started : Nat
  accepted : UInt32 := 0
  invalid : UInt32 := 0
  bannedUntil : Option Nat := none
  dropped : UInt64 := 0
  bans : UInt32 := 0

/-- `Duration::from_secs`. -/
def seconds (n : Nat) : Nat := n * 1000000000

/-- A minute later the counts start over. -/
def PeerWindow.roll (w : PeerWindow) (now : Nat) : PeerWindow :=
  if seconds 60 ≤ now - w.started then { w with started := now, accepted := 0, invalid := 0 } else w

inductive Gate
  /-- The first so many transactions of the batch. -/
  | allow (count : Nat)
  | denied
  | banned
  deriving DecidableEq

structure AntiSpam where
  cfg : PeerConfig := {}
  peers : OrderedMap Text PeerWindow := ∅

namespace AntiSpam

variable {a : AntiSpam} {origin : TxOrigin} {peer : Text} {n now later : Nat}

/-- The peer that is judged: none for the node's own clients, or when the module is off. -/
def judged (a : AntiSpam) (origin : TxOrigin) : Option Text :=
  origin.peer.filter fun _ => a.cfg.enabled

/-- The gate in front of a batch of `n` transactions. -/
def gate (a : AntiSpam) (origin : TxOrigin) (n now : Nat) : Gate × AntiSpam :=
  match a.judged origin with
  | none => (.allow n, a)
  | some peer =>
      if peer ∈ a.cfg.denyPeers then (.denied, a)
      else
        let w := a.peers[peer]?.getD { started := now }
        if w.bannedUntil.any fun t => decide (now < t) then
          let w := { w with dropped := w.dropped + UInt64.ofNat n }
          (.banned, { a with peers := a.peers.insert peer w })
        else
          let w := { w with bannedUntil := none }.roll now
          let budget := a.cfg.peerTxPerMin.toNat - w.accepted.toNat
          let allowed := min n budget
          let w := { w with accepted := w.accepted + UInt32.ofNat allowed }
          let w := { w with dropped := w.dropped + UInt64.ofNat (n - allowed) }
          (.allow allowed, { a with peers := a.peers.insert peer w })

/-- Whether a refusal counts against the peer. -/
def countsAsInvalid (code : String) : Bool :=
  code == "ERR_BAD_DATA" || code == "ERR_WRONG_NETWORK" || code == "ERR_UNKNOWN"

/-- Book the invalid transactions of a peer; the answer is whether this has banned it. -/
def noteInvalid (a : AntiSpam) (origin : TxOrigin) (invalid : UInt32) (now : Nat) :
    Bool × AntiSpam :=
  if invalid = 0 then (false, a)
  else
    match a.judged origin with
    | none => (false, a)
    | some peer =>
        let w := (a.peers[peer]?.getD { started := now }).roll now
        let w := { w with invalid := w.invalid + invalid }
        if a.cfg.peerInvalidPerMin ≤ w.invalid ∧ w.bannedUntil.all fun t => decide (t ≤ now) then
          let w := { w with bannedUntil := some (now + seconds a.cfg.banSecs), bans := w.bans + 1 }
          (true, { a with peers := a.peers.insert peer w })
        else (false, { a with peers := a.peers.insert peer w })

/-- The invalid count of a peer as `noteInvalid` finds it. -/
def invalidCount (a : AntiSpam) (peer : Text) (now : Nat) : UInt32 :=
  ((a.peers[peer]?.getD { started := now }).roll now).invalid

end AntiSpam

namespace PoolConfig

variable (C : PoolConfig)

/-- `add_many_from`: the gate is asked at one time and told at another. -/
def addManyFrom (E : Env) (s : Store) (a : AntiSpam) (origin : TxOrigin) (now later : Nat)
    (p : Pool) (incoming : List Transaction) : Pool × PoolResponse × AntiSpam :=
  match a.gate origin incoming.length now with
  | (.allow n, a) =>
      let (p, resp) := C.addMany E s p (incoming.take n)
      let invalid := OrderedMap.countValues (fun e => AntiSpam.countsAsInvalid e.type) resp.errors
      (p, resp, (a.noteInvalid origin (UInt32.ofNat invalid) later).2)
  | (_, a) => (p, {}, a)

/-- The refusals of a batch in order: the id that each is reported under, and the reason. -/
def rejections (E : Env) (s : Store) (p : Pool) : List Transaction → List (Text × PoolError)
  | [] => []
  | tx :: rest =>
      (match C.examine E s p tx with
        | .error e => [e]
        | .ok _ => []) ++
        rejections E s (C.addOne E s s.lastHeight (p, {}) tx).1 rest

/-- How many transactions of a batch are refused with a reason that counts. -/
def counted (E : Env) (s : Store) (p : Pool) (batch : List Transaction) : Nat :=
  (C.rejections E s p batch).countP fun e => AntiSpam.countsAsInvalid e.2.type

end PoolConfig

namespace AntiSpam

variable {a : AntiSpam} {origin : TxOrigin} {peer : Text} {n now later : Nat}

theorem roll_later {w : PeerWindow} (h : now ≤ later) :
    ((w.roll now).roll later).invalid = (w.roll later).invalid := by
  unfold PeerWindow.roll
  by_cases hnow : seconds 60 ≤ now - w.started
  · have hlater : seconds 60 ≤ later - w.started := by omega
    rw [if_pos hnow, if_pos hlater]
    split_ifs
    · rfl
    · rfl
  · rw [if_neg hnow]

/-- A window that has just been rolled is not rolled again. -/
theorem roll_young (w : PeerWindow) (now : Nat) : ¬ seconds 60 ≤ now - (w.roll now).started := by
  unfold PeerWindow.roll
  split_ifs with hold
  · dsimp only
    rw [Nat.sub_self]
    decide
  · exact hold

theorem roll_zero {w : PeerWindow} (h : w.invalid = 0) : (w.roll now).invalid = 0 := by
  unfold PeerWindow.roll
  split_ifs
  · rfl
  · exact h

/-- Rolling looks at the start and the counts only. -/
theorem roll_invalid_congr {w w' : PeerWindow} (hstarted : w'.started = w.started)
    (hinvalid : w'.invalid = w.invalid) : (w'.roll now).invalid = (w.roll now).invalid := by
  unfold PeerWindow.roll
  rw [hstarted]
  split_ifs
  · rfl
  · exact hinvalid

theorem invalidCount_insert {cfg : PeerConfig} {w : PeerWindow} :
    invalidCount ⟨cfg, a.peers.insert peer w⟩ peer now = (w.roll now).invalid := by
  unfold invalidCount
  rw [OrderedMap.getElem?_insert_eq, if_pos rfl]
  rfl

/-- A peer without a window has no invalid transactions, whenever its window starts. -/
theorem invalidCount_eq (t : Nat) :
    ((a.peers[peer]?.getD { started := t }).roll now).invalid = a.invalidCount peer now := by
  unfold invalidCount
  cases a.peers[peer]? with
  | none => exact (roll_zero rfl).trans (roll_zero rfl).symm
  | some w => rfl

theorem judged_eq (hpeer : origin.peer = some peer) :
    a.judged origin = if a.cfg.enabled then some peer else none := by
  unfold judged
  rw [hpeer]
  cases a.cfg.enabled with
  | false => rfl
  | true => rfl

/-- The gate leaves the count of invalid transactions alone. -/
theorem gate_spec {g : Gate} {b : AntiSpam} (hpeer : origin.peer = some peer) (hle : now ≤ later)
    (h : a.gate origin n now = (g, b)) :
    b.cfg = a.cfg ∧ b.invalidCount peer later = a.invalidCount peer later := by
  unfold gate at h
  rw [judged_eq hpeer] at h
  cases henabled : a.cfg.enabled with
  | false =>
      rw [henabled] at h
      cases h
      exact ⟨rfl, rfl⟩
  | true =>
      rw [henabled, if_pos rfl] at h
      have hold : ((a.peers[peer]?.getD { started := now }).roll later).invalid =
          a.invalidCount peer later := invalidCount_eq now
      dsimp only at h
      generalize a.peers[peer]?.getD { started := now } = w at h hold
      split_ifs at h with hdeny hban
      · cases h
        exact ⟨rfl, rfl⟩
      · cases h
        refine ⟨rfl, ?_⟩
        rw [invalidCount_insert, ← hold]
        exact roll_invalid_congr rfl rfl
      · cases h
        refine ⟨rfl, ?_⟩
        have hrolled := roll_later (w := { w with bannedUntil := none }) hle
        rw [invalidCount_insert, ← hold]
        refine Eq.trans ?_ (hrolled.trans (roll_invalid_congr rfl rfl))
        exact roll_invalid_congr rfl rfl

/-- The count goes up by what is booked. -/
theorem noteInvalid_count {invalid : UInt32} (hpeer : origin.peer = some peer) :
    (a.noteInvalid origin invalid now).2.invalidCount peer now =
      a.invalidCount peer now + if a.cfg.enabled then invalid else 0 := by
  unfold noteInvalid
  by_cases hzero : invalid = 0
  · rw [if_pos hzero, hzero, ite_self, UInt32.add_zero]
  · rw [if_neg hzero, judged_eq hpeer]
    cases a.cfg.enabled with
    | false => exact (UInt32.add_zero _).symm
    | true =>
        rw [if_pos rfl, if_pos rfl]
        dsimp only
        have hbooked : ∀ w : PeerWindow,
            w.started = ((a.peers[peer]?.getD { started := now }).roll now).started →
            w.invalid = ((a.peers[peer]?.getD { started := now }).roll now).invalid + invalid →
            (w.roll now).invalid = a.invalidCount peer now + invalid := by
          intro w hstarted hinvalid
          have hyoung := roll_young (a.peers[peer]?.getD { started := now }) now
          rw [← hstarted] at hyoung
          rw [invalidCount_eq] at hinvalid
          unfold PeerWindow.roll
          rw [if_neg hyoung]
          exact hinvalid
        split_ifs
        · rw [invalidCount_insert]
          exact hbooked _ rfl rfl
        · rw [invalidCount_insert]
          exact hbooked _ rfl rfl

end AntiSpam

namespace PoolConfig

variable {C : PoolConfig} {E : Env} {s : Store} {p : Pool}

theorem addOne_error {tip : Nat} {resp : PoolResponse} {tx : Transaction} {e : Text × PoolError}
    (h : C.examine E s p tx = .error e) : C.addOne E s tip (p, resp) tx =
      (p, { resp with invalid := resp.invalid ++ [e.1], errors := resp.errors.insert e.1 e.2 }) := by
  unfold addOne
  dsimp only
  rw [h]

theorem addOne_ok (tip : Nat) (resp : PoolResponse) {tx : Transaction} {t : Newcomer × Admit}
    (h : C.examine E s p tx = .ok t) : ∃ resp', resp'.errors = resp.errors ∧
      C.addOne E s tip (p, resp) tx = (C.insert E tip p t.1 t.2, resp') := by
  unfold addOne
  dsimp only
  rw [h]
  refine ⟨_, ?_, rfl⟩
  rfl

/-- The reasons in the answer are the refusals, collected by their ids. -/
theorem addMany_errors (batch : List Transaction) :
    (C.addMany E s p batch).2.errors = OrderedMap.collect (C.rejections E s p batch) := by
  have hfold : ∀ (batch : List Transaction) (p : Pool) (resp : PoolResponse),
      (batch.foldl (C.addOne E s s.lastHeight) (p, resp)).2.errors =
        (C.rejections E s p batch).foldl (fun m e => m.insert e.1 e.2) resp.errors := by
    intro batch
    induction batch with
    | nil => exact fun _ _ => rfl
    | cons tx rest ih =>
        intro p resp
        rw [List.foldl_cons]
        unfold rejections
        cases h : C.examine E s p tx with
        | error e =>
            rw [addOne_error h, addOne_error h, ih]
            rfl
        | ok t =>
            obtain ⟨resp', herrors, hadd⟩ :=
              addOne_ok s.lastHeight resp h
            obtain ⟨_, -, hpool⟩ := addOne_ok s.lastHeight {} h
            rw [hadd, hpool, ih, herrors]
            rfl
  exact hfold batch p {}

/-- The count of a peer goes up by the number of its transactions that are refused with a reason
that counts exactly when there are none of them, or when the module is on, no such refusal is
replaced by a later one under its id, and the count does not overflow. -/
theorem invalid_counted_iff (C : PoolConfig) (E : Env) (s : Store) (p : Pool) (a : AntiSpam)
    {origin : TxOrigin} {peer : Text} {incoming : List Transaction} {now later n : Nat}
    (hpeer : origin.peer = some peer) (hle : now ≤ later)
    (hgate : (a.gate origin incoming.length now).1 = .allow n) :
    ((C.addManyFrom E s a origin now later p incoming).2.2.invalidCount peer later).toNat =
        (a.invalidCount peer later).toNat + C.counted E s p (incoming.take n) ↔
      C.counted E s p (incoming.take n) = 0 ∨
      (a.cfg.enabled = true ∧
        OrderedMap.Unreplaced (fun e => AntiSpam.countsAsInvalid e.type)
          (C.rejections E s p (incoming.take n)) ∧
        (a.invalidCount peer later).toNat + C.counted E s p (incoming.take n) < 2 ^ 32) := by
  cases hpair : a.gate origin incoming.length now with
  | mk g b =>
      rw [hpair] at hgate
      obtain rfl : g = .allow n := hgate
      obtain ⟨hcfg, hcount⟩ := AntiSpam.gate_spec hpeer hle hpair
      have hle' := OrderedMap.countValues_collect_le
        (fun e : PoolError => AntiSpam.countsAsInvalid e.type) (C.rejections E s p (incoming.take n))
      have hiff : OrderedMap.countValues (fun e : PoolError => AntiSpam.countsAsInvalid e.type)
          (OrderedMap.collect (C.rejections E s p (incoming.take n))) = _ ↔ _ :=
        OrderedMap.countValues_collect_eq_iff
      rw [← hiff]
      have hresult : (C.addManyFrom E s a origin now later p incoming).2.2.invalidCount peer later =
          a.invalidCount peer later + if a.cfg.enabled then UInt32.ofNat (OrderedMap.countValues
            (fun e => AntiSpam.countsAsInvalid e.type)
            (OrderedMap.collect (C.rejections E s p (incoming.take n)))) else 0 := by
        unfold addManyFrom
        rw [hpair]
        dsimp only
        rw [AntiSpam.noteInvalid_count hpeer, hcount, hcfg, addMany_errors]
      rw [hresult]
      unfold counted at *
      generalize OrderedMap.countValues (fun e : PoolError => AntiSpam.countsAsInvalid e.type)
        (OrderedMap.collect (C.rejections E s p (incoming.take n))) = found at *
      generalize (C.rejections E s p (incoming.take n)).countP
        (fun e => AntiSpam.countsAsInvalid e.2.type) = total at *
      generalize a.invalidCount peer later = old at *
      have hold := old.toNat_lt
      cases a.cfg.enabled with
      | false =>
          rw [if_neg Bool.false_ne_true, UInt32.add_zero]
          simp only [Bool.false_eq_true, false_and, or_false]
          omega
      | true =>
          rw [if_pos rfl, UInt32.toNat_add, UInt32.toNat_ofNat']
          simp only [true_and]
          omega

end PoolConfig

open Reference

/-- Two transactions of a peer under one id that is not theirs. -/
def mislabelled : List Transaction :=
  [{ transfer first second 1 5 with id := some "00" },
    { transfer first second 2 5 with id := some "00" }]

theorem invalid_counted_iff_mislabelled :
    ((poolConfig.addManyFrom poolEnv purseStore {} (.irohPeer "peer") 0 0 {}
        mislabelled).2.2.invalidCount "peer" 0).toNat =
        (({} : AntiSpam).invalidCount "peer" 0).toNat +
          poolConfig.counted poolEnv purseStore {} (mislabelled.take 2) ↔
      poolConfig.counted poolEnv purseStore {} (mislabelled.take 2) = 0 ∨
      (({} : AntiSpam).cfg.enabled = true ∧
        OrderedMap.Unreplaced (fun e => AntiSpam.countsAsInvalid e.type)
          (poolConfig.rejections poolEnv purseStore {} (mislabelled.take 2)) ∧
        (({} : AntiSpam).invalidCount "peer" 0).toNat +
          poolConfig.counted poolEnv purseStore {} (mislabelled.take 2) < 2 ^ 32) :=
  PoolConfig.invalid_counted_iff poolConfig poolEnv purseStore {} {} rfl (Nat.le_refl 0)
    (by decide +kernel)

/-- Two invalid transactions, and the count goes up by one. -/
theorem mislabelled_counted_once :
    (({} : AntiSpam).gate (.irohPeer "peer") 2 0).1 = .allow 2 ∧
    poolConfig.counted poolEnv purseStore {} mislabelled = 2 ∧
    (({} : AntiSpam).invalidCount "peer" 0).toNat = 0 ∧
    ((poolConfig.addManyFrom poolEnv purseStore {} (.irohPeer "peer") 0 0 {}
      mislabelled).2.2.invalidCount "peer" 0).toNat = 1 := by
  decide +kernel

end SthCore
