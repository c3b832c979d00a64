import SthCore.Lib.Runs
import SthCore.Lib.Tally
import SthCore.Mempool.AntiSpam

/-!
The limits on a peer over whole runs: what the gate admits of its transactions
in a minute, and how long a ban lasts.  Times are in nanoseconds.
-/

namespace SthCore

open SthCore.Lib

/-- `gc`: forget idle windows. -/
def AntiSpam.gc (a : AntiSpam) (now : Nat) : AntiSpam :=
  { a with peers := a.peers.filter fun _ w =>
      w.bannedUntil.any (fun t => decide (now < t)) || decide (now - w.started < seconds 600) }

inductive PeerCall
  | gate (origin : TxOrigin) (n : Nat)
  | noteInvalid (origin : TxOrigin) (invalid : UInt32)
  | gc

/-- The limits on peers with what they have answered so far: what was admitted of a peer at what
time, and when it was banned. -/
structure PeerRun where
  limits : AntiSpam
  clock : Nat := 0
  admitted : List (Text × Nat × Nat) := []
  bans : List (Text × Nat) := []

namespace PeerRun

/-- What the gate has admitted of a batch. -/
def admission (origin : TxOrigin) (now : Nat) : Gate → List (Text × Nat × Nat)
  | .allow n => (origin.peer.map fun peer => (peer, now, n)).toList
  | _ => []

def step (r : PeerRun) (call : PeerCall × Nat) : PeerRun :=
  match call with
  | (.gate origin n, now) =>
      let (g, limits) := r.limits.gate origin n now
      { r with limits, clock := now, admitted := r.admitted ++ admission origin now g }
  | (.noteInvalid origin invalid, now) =>
      let (banned, limits) := r.limits.noteInvalid origin invalid now
      { r with
        limits, clock := now,
        bans := r.bans ++ if banned then (origin.peer.map fun peer => (peer, now)).toList else [] }
  | (.gc, now) => { r with limits := r.limits.gc now, clock := now }

def start (cfg : PeerConfig) : PeerRun where
  limits := { cfg }

/-- A run of calls whose times do not go back. -/
def Reached (cfg : PeerConfig) : PeerRun → Prop :=
  Reaches (fun r call => some (r.step call)) (fun r call => r.clock ≤ call.2) (start cfg)

variable {cfg : PeerConfig} {r : PeerRun} {w : PeerWindow} {peer : Text} {now : Nat}

/-- What was admitted of one peer. -/
def admittedOf (r : PeerRun) (peer : Text) : List (Nat × Nat) :=
  (r.admitted.filter fun e => e.1 == peer).map Prod.snd

/-- Whether a ban of the peer is in force. -/
def Banned (cfg : PeerConfig) (r : PeerRun) (peer : Text) (now : Nat) : Prop :=
  ∃ start, (peer, start) ∈ r.bans ∧ now < start + seconds cfg.banSecs

/-- What the window of a peer says about what was admitted and about its bans. -/
structure Holds (cfg : PeerConfig) (peer : Text) (r : PeerRun) (w : PeerWindow) : Prop where
  begun : w.started ≤ r.clock
  metered : Metered (seconds 60) cfg.peerTxPerMin.toNat (r.admittedOf peer) w.started
    w.accepted.toNat
  banned : ∀ now, r.clock ≤ now →
    (Banned cfg r peer now ↔ w.bannedUntil.any (fun t => decide (now < t)) = true)

/-- What is true of a peer after any calls. -/
structure Kept (cfg : PeerConfig) (peer : Text) (r : PeerRun) : Prop where
  config : r.limits.cfg = cfg
  spent : ∀ t, spentIn (r.admittedOf peer) t (t + seconds 60) ≤ 2 * cfg.peerTxPerMin.toNat
  held : ∀ w, r.limits.peers[peer]? = some w → Holds cfg peer r w
  idle : r.limits.peers[peer]? = none →
    (∀ e ∈ r.admittedOf peer, e.1 + seconds 60 ≤ r.clock) ∧
    ∀ now, r.clock ≤ now → ¬ Banned cfg r peer now

theorem any_later {expiry : Option Nat} {later : Nat} (hle : now ≤ later)
    (h : expiry.any (fun t => decide (now < t)) = false) :
    expiry.any (fun t => decide (later < t)) = false := by
  cases expiry with
  | none => rfl
  | some t =>
      have ht := of_decide_eq_false h
      exact decide_eq_false (by omega)

section Windows

variable {limits : AntiSpam} {clock : Nat} {admitted : List (Text × Nat × Nat)}
  {bans : List (Text × Nat)}

/-- Time passes. -/
theorem Holds.wait (h : Holds cfg peer ⟨limits, clock, admitted, bans⟩ w) (hle : clock ≤ now)
    (limits' : AntiSpam) : Holds cfg peer ⟨limits', now, admitted, bans⟩ w where
  begun := h.begun.trans hle
  metered := h.metered
  banned later hlater := h.banned later (hle.trans hlater)

/-- The window that a call starts from. -/
theorem Kept.window (h : Kept cfg peer ⟨limits, clock, admitted, bans⟩) (hle : clock ≤ now) :
    Holds cfg peer ⟨limits, now, admitted, bans⟩ (limits.peers[peer]?.getD { started := now }) := by
  cases hpeer : limits.peers[peer]? with
  | some w => exact (h.held w hpeer).wait hle limits
  | none =>
      obtain ⟨hold, hfree⟩ := h.idle hpeer
      refine ⟨Nat.le_refl _, .fresh (fun e he => (hold e he).trans hle) (by decide), ?_⟩
      intro later hlater
      exact iff_of_false (hfree later (hle.trans hlater)) Bool.false_ne_true

theorem Holds.roll (h : Holds cfg peer ⟨limits, now, admitted, bans⟩ w) :
    Holds cfg peer ⟨limits, now, admitted, bans⟩ (w.roll now) := by
  unfold PeerWindow.roll
  split_ifs with hpassed
  · have hbegun : w.started ≤ now := h.begun
    have hend : w.started + seconds 60 ≤ now := by omega
    exact ⟨Nat.le_refl _, h.metered.roll hend, h.banned⟩
  · exact h

/-- A call that writes the window of the peer. -/
theorem Kept.of_window
    (hspent : ∀ t, spentIn (admittedOf ⟨limits, now, admitted, bans⟩ peer) t (t + seconds 60) ≤
      2 * cfg.peerTxPerMin.toNat)
    (hw : Holds cfg peer ⟨limits, now, admitted, bans⟩ w) (hconfig : limits.cfg = cfg) :
    Kept cfg peer ⟨{ limits with peers := limits.peers.insert peer w }, now, admitted, bans⟩ where
  config := hconfig
  spent := hspent
  held v hv := by
    rw [OrderedMap.getElem?_insert_eq, if_pos rfl] at hv
    obtain rfl := Option.some.inj hv
    exact hw.wait (Nat.le_refl _) _
  idle hnone := by
    rw [OrderedMap.getElem?_insert_eq, if_pos rfl] at hnone
    cases hnone

/-- A call that is not about the peer. -/
theorem Kept.elsewhere (h : Kept cfg peer ⟨limits, clock, admitted, bans⟩) (hle : clock ≤ now)
    {limits' : AntiSpam} {admitted' : List (Text × Nat × Nat)} {bans' : List (Text × Nat)}
    (hconfig : limits'.cfg = limits.cfg) (hpeers : limits'.peers[peer]? = limits.peers[peer]?)
    (hadmitted : admitted'.filter (fun e => e.1 == peer) = admitted.filter fun e => e.1 == peer)
    (hbans : ∀ t, (peer, t) ∈ bans' ↔ (peer, t) ∈ bans) :
    Kept cfg peer ⟨limits', now, admitted', bans'⟩ := by
  have hsame : admittedOf ⟨limits', now, admitted', bans'⟩ peer =
      admittedOf ⟨limits, clock, admitted, bans⟩ peer := congrArg (List.map Prod.snd) hadmitted
  have hbanned : ∀ later, Banned cfg ⟨limits', now, admitted', bans'⟩ peer later ↔
      Banned cfg ⟨limits, clock, admitted, bans⟩ peer later := fun later =>
    exists_congr fun t => and_congr_left fun _ => hbans t
  refine ⟨hconfig.trans h.config, ?_, ?_, ?_⟩
  · rw [hsame]
    exact h.spent
  · intro w hw
    have hold := h.held w (hpeers.symm.trans hw)
    refine ⟨hold.begun.trans hle, ?_, ?_⟩
    · rw [hsame]
      exact hold.metered
    · intro later hlater
      exact (hbanned later).trans (hold.banned later (hle.trans hlater))
  · intro hnone
    obtain ⟨hgone, hfree⟩ := h.idle (hpeers.symm.trans hnone)
    refine ⟨?_, fun later hlater hban => hfree later (hle.trans hlater) ((hbanned later).mp hban)⟩
    rw [hsame]
    exact fun e he => (hgone e he).trans hle

theorem admission_elsewhere {origin : TxOrigin} {p : Text} (hpeer : origin.peer = some p)
    (hother : p ≠ peer) (g : Gate) :
    (admitted ++ admission origin now g).filter (fun e => e.1 == peer) =
      admitted.filter fun e => e.1 == peer := by
  rw [List.filter_append]
  cases g with
  | allow n =>
      unfold admission
      rw [hpeer]
      simp [hother]
  | denied => exact List.append_nil _
  | banned => exact List.append_nil _

theorem admittedOf_append {origin : TxOrigin} {n : Nat} (hpeer : origin.peer = some peer) :
    admittedOf ⟨limits, now, admitted ++ admission origin now (.allow n), bans⟩ peer =
      admittedOf ⟨limits, now, admitted, bans⟩ peer ++ [(now, n)] := by
  unfold admittedOf admission
  rw [hpeer]
  simp

end Windows

section Calls

variable {limits : AntiSpam} {clock : Nat} {admitted : List (Text × Nat × Nat)}
  {bans : List (Text × Nat)} {origin : TxOrigin} {n : Nat}

variable (limits n now) in
/-- A call about one peer leaves the windows of the others alone. -/
theorem gate_elsewhere {p : Text} (hpeer : origin.peer = some p) (hother : p ≠ peer) :
    (limits.gate origin n now).2.cfg = limits.cfg ∧
    (limits.gate origin n now).2.peers[peer]? = limits.peers[peer]? := by
  unfold AntiSpam.gate
  rw [AntiSpam.judged_eq hpeer]
  cases limits.cfg.enabled with
  | false => exact ⟨rfl, rfl⟩
  | true =>
      rw [if_pos rfl]
      dsimp only
      split_ifs
      · exact ⟨rfl, rfl⟩
      · exact ⟨rfl, (OrderedMap.getElem?_insert_eq ..).trans (if_neg hother)⟩
      · exact ⟨rfl, (OrderedMap.getElem?_insert_eq ..).trans (if_neg hother)⟩

variable (limits now) in
theorem noteInvalid_cases (invalid : UInt32) (hpeer : origin.peer = some peer) :
    limits.noteInvalid origin invalid now = (false, limits) ∨
    ∃ w w' : PeerWindow, w = (limits.peers[peer]?.getD { started := now }).roll now ∧
      w'.started = w.started ∧ w'.accepted = w.accepted ∧
      (limits.noteInvalid origin invalid now =
          (true, { limits with peers := limits.peers.insert peer w' }) ∧
        w.bannedUntil.all (fun t => decide (t ≤ now)) = true ∧
        w'.bannedUntil = some (now + seconds limits.cfg.banSecs) ∨
      limits.noteInvalid origin invalid now =
          (false, { limits with peers := limits.peers.insert peer w' }) ∧
        w'.bannedUntil = w.bannedUntil) := by
  unfold AntiSpam.noteInvalid
  by_cases hzero : invalid = 0
  · exact .inl (if_pos hzero)
  · rw [if_neg hzero, AntiSpam.judged_eq hpeer]
    cases limits.cfg.enabled with
    | false => exact .inl rfl
    | true =>
        rw [if_pos rfl]
        dsimp only
        split_ifs with hban
        · refine .inr ⟨_, _, rfl, ?_, ?_, .inl ⟨rfl, hban.2, rfl⟩⟩
          · rfl
          · rfl
        · refine .inr ⟨_, _, rfl, ?_, ?_, .inr ⟨rfl, rfl⟩⟩
          · rfl
          · rfl

variable (limits now) in
theorem noteInvalid_elsewhere {p : Text} (invalid : UInt32) (hpeer : origin.peer = some p)
    (hother : p ≠ peer) :
    (limits.noteInvalid origin invalid now).2.cfg = limits.cfg ∧
    (limits.noteInvalid origin invalid now).2.peers[peer]? = limits.peers[peer]? := by
  have hinsert : ∀ w : PeerWindow, (limits.peers.insert p w)[peer]? = limits.peers[peer]? :=
    fun w => (OrderedMap.getElem?_insert_eq ..).trans (if_neg hother)
  obtain hsame | ⟨_, w', -, -, -, ⟨hnote, -⟩ | ⟨hnote, -⟩⟩ :=
    noteInvalid_cases now limits invalid hpeer
  · rw [hsame]
    exact ⟨rfl, rfl⟩
  · rw [hnote]
    exact ⟨rfl, hinsert w'⟩
  · rw [hnote]
    exact ⟨rfl, hinsert w'⟩

theorem gate_kept (h : Kept cfg peer ⟨limits, clock, admitted, bans⟩) (hle : clock ≤ now)
    (henabled : cfg.enabled = true) :
    Kept cfg peer (step ⟨limits, clock, admitted, bans⟩ (.gate origin n, now)) := by
  show Kept cfg peer ⟨(limits.gate origin n now).2, now,
    admitted ++ admission origin now (limits.gate origin n now).1, bans⟩
  cases hpeer : origin.peer with
  | none =>
      have hjudged : limits.judged origin = none := by
        unfold AntiSpam.judged
        rw [hpeer]
        rfl
      have hgate : limits.gate origin n now = (.allow n, limits) := by
        unfold AntiSpam.gate
        rw [hjudged]
      have hnothing : admission origin now (.allow n) = [] := by
        unfold admission
        rw [hpeer]
        rfl
      rw [hgate, hnothing, List.append_nil]
      exact h.elsewhere hle rfl rfl rfl fun _ => Iff.rfl
  | some p =>
      by_cases hp : p = peer
      · subst hp
        have hw := h.window hle
        have hspent : ∀ t, spentIn (admittedOf ⟨limits, now, admitted, bans⟩ p) t (t + seconds 60) ≤
            2 * cfg.peerTxPerMin.toNat := h.spent
        obtain rfl := h.config
        unfold AntiSpam.gate
        rw [AntiSpam.judged_eq hpeer, if_pos henabled]
        dsimp only
        split_ifs with hdeny hban
        · rw [show admission origin now .denied = [] from rfl, List.append_nil]
          exact h.elsewhere hle rfl rfl rfl fun _ => Iff.rfl
        · rw [show admission origin now .banned = [] from rfl, List.append_nil]
          exact .of_window hspent ⟨hw.begun, hw.metered, hw.banned⟩ rfl
        · have hnone := Bool.eq_false_iff.mpr hban
          generalize limits.peers[p]?.getD { started := now } = w at hw hnone ⊢
          have hfree : Holds limits.cfg p ⟨limits, now, admitted, bans⟩ { w with bannedUntil := none } := by
            refine ⟨hw.begun, hw.metered, fun later hlater => ?_⟩
            rw [hw.banned later hlater, any_later hlater hnone]
            exact Iff.rfl
          have hrolled := hfree.roll
          have hyoung := AntiSpam.roll_young { w with bannedUntil := none } now
          generalize ({ w with bannedUntil := none } : PeerWindow).roll now = w at hrolled hyoung ⊢
          have hbegun : w.started ≤ now := hrolled.begun
          have hlow := hrolled.metered.le
          have hbound := limits.cfg.peerTxPerMin.toNat_lt
          generalize hallowed : min n (limits.cfg.peerTxPerMin.toNat - w.accepted.toNat) = allowed
          have hfit : w.accepted.toNat + allowed ≤ limits.cfg.peerTxPerMin.toNat := by omega
          have hcount : (w.accepted + UInt32.ofNat allowed).toNat = w.accepted.toNat + allowed := by
            rw [UInt32.toNat_add, UInt32.toNat_ofNat']
            omega
          have hmore := hrolled.metered.spend hbegun (by omega) hfit
          rw [← admittedOf_append hpeer] at hmore
          refine .of_window ?_ ⟨hrolled.begun, ?_, hrolled.banned⟩ rfl
          · rw [admittedOf_append hpeer] at hmore ⊢
            exact spentIn_le_concat hspent hmore hbegun
          · show Metered _ _ _ _ (w.accepted + UInt32.ofNat _).toNat
            rw [hcount]
            exact hmore
      · obtain ⟨hconfig, hpeers⟩ := gate_elsewhere now limits n hpeer hp
        exact h.elsewhere hle hconfig hpeers (admission_elsewhere hpeer hp _) fun _ => Iff.rfl

theorem mem_bans {p : Text} {t : Nat} (banned : Bool) (hpeer : origin.peer = some p) :
    (peer, t) ∈ bans ++ (if banned then (origin.peer.map fun q => (q, now)).toList else []) ↔
      (peer, t) ∈ bans ∨ banned = true ∧ peer = p ∧ t = now := by
  rw [hpeer, List.mem_append]
  cases banned with
  | false => simp
  | true => simp

theorem all_ended {expiry : Option Nat} {later : Nat} (hle : now ≤ later)
    (h : expiry.all (fun t => decide (t ≤ now)) = true) :
    expiry.any (fun t => decide (later < t)) = false := by
  cases expiry with
  | none => rfl
  | some t =>
      have ht := of_decide_eq_true h
      exact decide_eq_false (by omega)

theorem noteInvalid_kept {invalid : UInt32}
    (h : Kept cfg peer ⟨limits, clock, admitted, bans⟩) (hle : clock ≤ now) :
    Kept cfg peer (step ⟨limits, clock, admitted, bans⟩ (.noteInvalid origin invalid, now)) := by
  show Kept cfg peer ⟨(limits.noteInvalid origin invalid now).2, now, admitted,
    bans ++ if (limits.noteInvalid origin invalid now).1 then
      (origin.peer.map fun q => (q, now)).toList else []⟩
  cases hpeer : origin.peer with
  | none =>
      have hjudged : limits.judged origin = none := by
        unfold AntiSpam.judged
        rw [hpeer]
        rfl
      have hnote : limits.noteInvalid origin invalid now = (false, limits) := by
        unfold AntiSpam.noteInvalid
        rw [hjudged, ite_self]
      rw [hnote, if_neg Bool.false_ne_true, List.append_nil]
      exact h.elsewhere hle rfl rfl rfl fun _ => Iff.rfl
  | some p =>
      rw [← hpeer]
      by_cases hp : p = peer
      · subst hp
        have hrolled := (h.window hle).roll
        have hspent : ∀ t, spentIn (admittedOf ⟨limits, now, admitted, bans⟩ p) t (t + seconds 60) ≤
            2 * cfg.peerTxPerMin.toNat := h.spent
        obtain hsame | ⟨w, w', hw, hstarted, haccepted, ⟨hnote, hended, hnew⟩ | ⟨hnote, hnew⟩⟩ :=
          noteInvalid_cases now limits invalid hpeer
        · rw [hsame, if_neg Bool.false_ne_true, List.append_nil]
          exact h.elsewhere hle rfl rfl rfl fun _ => Iff.rfl
        · rw [hnote, if_pos rfl]
          rw [← hw] at hrolled
          refine .of_window hspent ⟨hstarted.trans_le hrolled.begun, ?_, ?_⟩ h.config
          · rw [hstarted, haccepted]
            exact hrolled.metered
          · intro later hlater
            have hfree := (hrolled.banned later hlater).not.mpr
              (Bool.eq_false_iff.mp (all_ended hlater hended))
            have hlimits : limits.cfg = cfg := h.config
            rw [hnew, hlimits, Option.any_some, decide_eq_true_iff]
            constructor
            · rintro ⟨start, hstart, hin⟩
              rcases (mem_bans true hpeer).mp hstart with hbefore | ⟨-, -, rfl⟩
              · exact absurd ⟨start, hbefore, hin⟩ hfree
              · exact hin
            · intro hin
              exact ⟨now, (mem_bans true hpeer).mpr (.inr ⟨rfl, rfl, rfl⟩), hin⟩
        · rw [hnote, if_neg Bool.false_ne_true, List.append_nil]
          rw [← hw] at hrolled
          refine .of_window hspent ⟨hstarted.trans_le hrolled.begun, ?_, ?_⟩ h.config
          · rw [hstarted, haccepted]
            exact hrolled.metered
          · rw [hnew]
            exact hrolled.banned
      · obtain ⟨hconfig, hpeers⟩ :=
          noteInvalid_elsewhere now limits invalid hpeer hp
        refine h.elsewhere hle hconfig hpeers rfl fun t => ?_
        rw [mem_bans _ hpeer]
        exact or_iff_left fun hnew => hp hnew.2.1.symm

theorem gc_kept (h : Kept cfg peer ⟨limits, clock, admitted, bans⟩) (hle : clock ≤ now) :
    Kept cfg peer (step ⟨limits, clock, admitted, bans⟩ (.gc, now)) := by
  show Kept cfg peer ⟨limits.gc now, now, admitted, bans⟩
  have hlookup : (limits.gc now).peers[peer]? = limits.peers[peer]?.filter fun w =>
      w.bannedUntil.any (fun t => decide (now < t)) || decide (now - w.started < seconds 600) :=
    Std.ExtTreeMap.getElem?_filter' ..
  cases hpeer : limits.peers[peer]? with
  | none =>
      rw [hpeer] at hlookup
      exact h.elsewhere hle rfl (hlookup.trans hpeer.symm) rfl fun _ => Iff.rfl
  | some w =>
      rw [hpeer] at hlookup
      have hw := (h.held w hpeer).wait hle (limits.gc now)
      cases hkeep : w.bannedUntil.any (fun t => decide (now < t)) ||
          decide (now - w.started < seconds 600) with
      | true =>
          rw [Option.filter_some, if_pos hkeep] at hlookup
          exact h.elsewhere hle rfl (hlookup.trans hpeer.symm) rfl fun _ => Iff.rfl
      | false =>
          rw [Option.filter_some, if_neg (Bool.eq_false_iff.mp hkeep)] at hlookup
          obtain ⟨hfree, hidle⟩ := Bool.or_eq_false_iff.mp hkeep
          refine ⟨h.config, h.spent, ?_, fun _ => ⟨fun e he => ?_, fun later hlater => ?_⟩⟩
          · intro v hv
            cases hlookup.symm.trans hv
          · have hinside := hw.metered.inside e he
            have hlong := of_decide_eq_false hidle
            show e.1 + seconds 60 ≤ now
            unfold seconds at *
            omega
          · rw [hw.banned later hlater, any_later hlater hfree]
            exact Bool.false_ne_true

end Calls

/-- One call keeps it. -/
theorem step_kept {call : PeerCall × Nat} (henabled : cfg.enabled = true) (h : Kept cfg peer r)
    (hle : r.clock ≤ call.2) : Kept cfg peer (r.step call) := by
  obtain ⟨limits, clock, admitted, bans⟩ := r
  obtain ⟨call, now⟩ := call
  cases call with
  | gate origin n => exact gate_kept h hle henabled
  | noteInvalid origin invalid => exact noteInvalid_kept h hle
  | gc => exact gc_kept h hle

/-- Any calls keep it. -/
theorem reached_kept (henabled : cfg.enabled = true) (hrun : Reached cfg r) (peer : Text) :
    Kept cfg peer r := by
  refine hrun.invariant ⟨rfl, fun t => Nat.zero_le _, ?_, ?_⟩ ?_
  · intro w hw
    cases (Std.ExtTreeMap.getElem?_empty (a := peer)).symm.trans hw
  · rintro -
    refine ⟨fun e he => absurd he List.not_mem_nil, ?_⟩
    rintro now - ⟨start, hstart, -⟩
    exact List.not_mem_nil hstart
  · intro r call r' hr hle hstep
    cases hstep
    exact step_kept henabled hr hle

/-- However the calls fall, the gate admits in no minute more than twice the budget of a minute
from one peer. -/
theorem admitted_in_minute (henabled : cfg.enabled = true) (hrun : Reached cfg r) (peer : Text)
    (start : Nat) :
    spentIn (r.admittedOf peer) start (start + seconds 60) ≤ 2 * cfg.peerTxPerMin.toNat :=
  (reached_kept henabled hrun peer).spent start

theorem admitted_in_minute_burst :
    spentIn (((start {}).step (.gate (.legacyPeer ⟨['p']⟩) 700, 5)).admittedOf ⟨['p']⟩) 0
      (0 + seconds 60) ≤ 2 * 600 :=
  admitted_in_minute (r := (start {}).step (.gate (.legacyPeer ⟨['p']⟩) 700, 5)) rfl
    (.next (.gate (.legacyPeer ⟨['p']⟩) 700, 5) .start (Nat.zero_le _) rfl) ⟨['p']⟩ 0

/-- The gate turns a peer away exactly while a ban that was noted is in force. -/
theorem gate_banned_iff {origin : TxOrigin} (henabled : cfg.enabled = true) (hrun : Reached cfg r)
    (hpeer : origin.peer = some peer) (hallowed : peer ∉ cfg.denyPeers) (n : Nat)
    (hle : r.clock ≤ now) :
    (r.limits.gate origin n now).1 = .banned ↔ Banned cfg r peer now := by
  have hkept := reached_kept henabled hrun peer
  obtain ⟨limits, clock, admitted, bans⟩ := r
  have hw := hkept.window hle
  obtain rfl := hkept.config
  have hbanned := hw.banned now (Nat.le_refl _)
  refine Iff.trans ?_ (hbanned.symm.trans Iff.rfl)
  unfold AntiSpam.gate
  rw [AntiSpam.judged_eq hpeer, if_pos henabled]
  dsimp only
  rw [if_neg hallowed]
  split_ifs with hban
  · exact iff_of_true rfl hban
  · exact iff_of_false id hban

theorem gate_banned_iff_invalid :
    (((start {}).step (.noteInvalid (.irohPeer ⟨['p']⟩) 25, 7)).limits.gate (.irohPeer ⟨['p']⟩) 3
        (seconds 60)).1 = .banned ↔
      Banned {} ((start {}).step (.noteInvalid (.irohPeer ⟨['p']⟩) 25, 7)) ⟨['p']⟩ (seconds 60) :=
  gate_banned_iff (r := (start {}).step (.noteInvalid (.irohPeer ⟨['p']⟩) 25, 7)) rfl
    (.next (.noteInvalid (.irohPeer ⟨['p']⟩) 25, 7) .start (Nat.zero_le _) rfl) rfl
    List.not_mem_nil 3 (by decide)

end PeerRun

end SthCore
