import SthCore.Chain.Linkage
import SthCore.Lib.Runs

/-!
Catching up with the best known height: workers fetch ranges of blocks, and the
loop applies the replies in height order.  The chain belongs to every intake
path, so it may change between any two steps.
-/

namespace SthCore

open SthCore.Lib

namespace P2p

def maxBlocksPerRequest : Nat := 400

structure P2pOptions where
  verify : Bool := true
  parallel : Nat := 4

/-- Heights that may be handed out above the tip. -/
def P2pOptions.window (opts : P2pOptions) : Nat := max opts.parallel 1 * 3 * maxBlocksPerRequest

/-- What the workers share.  A range `(a, b)` stands for the heights `a + 1` to `b`. -/
structure Scheduler where
  nextFrom : Nat
  target : Nat
  windowEnd : Nat
  retry : OrderedMap (Nat × Nat) Unit := ∅

namespace Scheduler

def requeue (s : Scheduler) (range : Nat × Nat) : Scheduler :=
  { s with retry := s.retry.insert range () }

/-- The next range of a worker, retries first. -/
def next (s : Scheduler) : Option ((Nat × Nat) × Scheduler) :=
  match s.retry.toList.head? with
  | some (range, _) => some (range, { s with retry := s.retry.erase range })
  | none =>
      if s.nextFrom < s.target ∧ s.nextFrom < s.windowEnd then
        let upTo := min (s.nextFrom + maxBlocksPerRequest) s.target
        some ((s.nextFrom, upTo), { s with nextFrom := upTo })
      else none

/-- Every range is forgotten; the next one starts at `height`. -/
def restart (s : Scheduler) (height : Nat) : Scheduler :=
  { s with retry := ∅, nextFrom := height }

end Scheduler

/-- Blocks that wait for their turn; a reply without blocks never waits. -/
structure Reply where
  first : Block
  rest : List Block

namespace Reply

def blocks (r : Reply) : List Block := r.first :: r.rest

/-- Height of the last block. -/
def last (r : Reply) : Nat := (r.blocks.getLast (List.cons_ne_nil _ _)).height

end Reply

/-- The answer of a worker for a range. -/
structure Fetched where
  fromHeight : Nat
  toHeight : Nat
  blocks : Option (List Block)

/-- The blocks, if they start where the range does. -/
def Fetched.reply (f : Fetched) : Option Reply :=
  match f.blocks with
  | some (first :: rest) => if first.height = f.fromHeight + 1 then some ⟨first, rest⟩ else none
  | _ => none

/-- The state of `catch_up`; `inFlight` has the ranges whose answer the loop has not read. -/
structure CatchUp where
  store : Store
  tip : Sync.ChainTip
  sched : Scheduler
  inFlight : List (Nat × Nat) := []
  pending : OrderedMap Nat Reply := ∅
  forkDepth : Nat := 1
  lastForkHeight : Nat := 0
  /-- The loop waits for an answer. -/
  receiving : Bool := false

/-- What happens next: the workers and the other intake paths act at any point of the loop. -/
inductive Action where
  /-- A worker takes a range; without an idle peer it puts it back. -/
  | take (idle : Bool)
  | reply (f : Fetched)
  /-- The reply at the tip is applied.  Other paths may change the chain between its checks and
  its write, and before the tip is read again. -/
  | apply (now : Int) (meanwhile after : Store → Store)
  /-- The best height of the peer table is read. -/
  | refresh (best : Nat)
  /-- Another intake path changes the chain. -/
  | intake (change : Store → Store)

namespace CatchUp

/-- The state before the loop; nothing to do when the chain has the best known height. -/
def start (E : Env) (opts : P2pOptions) (s : Store) (best : Nat) : Option CatchUp :=
  match readTip E s with
  | .error _ => none
  | .ok tip =>
      if best ≤ tip.height then none
      else some {
        store := { s with undoEnabled := decide (best - tip.height ≤ 2 * undoDepth) }
        tip
        sched := { nextFrom := tip.height, target := best, windowEnd := tip.height + opts.window } }

def requeue (n : CatchUp) (range : Nat × Nat) : CatchUp :=
  { n with sched := n.sched.requeue range }

def take (n : CatchUp) (idle : Bool) : Option CatchUp :=
  match n.sched.next with
  | none => none
  | some (range, sched) =>
      if idle then some { n with sched, inFlight := range :: n.inFlight }
      else some { n with sched := sched.requeue range }

/-- An answer that the loop has read. -/
def receive (n : CatchUp) (f : Fetched) : CatchUp :=
  match f.reply with
  | some r =>
      let n := if n.tip.height ≤ f.fromHeight then
        { n with pending := n.pending.insert f.fromHeight r } else n
      -- a short reply: the tail of the range goes back to the queue
      if r.last < f.toHeight ∧ n.tip.height ≤ r.last then n.requeue (r.last, f.toHeight) else n
  | none =>
      if n.tip.height ≤ f.fromHeight then n.requeue (f.fromHeight, f.toHeight) else n

/-- The reply sits on another branch than the tip. -/
def forked (n : CatchUp) (r : Reply) : Bool :=
  decide (r.first.height = n.tip.height + 1) && n.tip.id.any fun id => r.first.previousBlock ≠ id

def rollback (E : Env) (n : CatchUp) (after : Store → Store) : Option CatchUp :=
  let store := after (n.store.rollbackTo E (max (n.tip.height - n.forkDepth) 1)).1
  match readTip E store with
  | .error _ => none
  | .ok tip => some { n with
      store, tip
      forkDepth := min (n.forkDepth * 3) undoDepth
      lastForkHeight := n.tip.height
      pending := ∅
      sched := n.sched.restart tip.height }

/-- `sync::apply_blocks`, with the chain of its checks and that of its write. -/
def applyReply (E : Env) (verify : Bool) (n : CatchUp) (r : Reply) (meanwhile : Store → Store) :
    Store × Except Error Sync.ChainTip :=
  match Sync.checkBlocks E n.store r.blocks n.tip verify with
  | .error e => (meanwhile n.store, .error e)
  | .ok tip =>
      let o := (meanwhile n.store).applyBlocks E r.blocks
      (o.1, o.2.map fun _ => tip)

def advance (n : CatchUp) (tip : Sync.ChainTip) : CatchUp :=
  { n with tip, forkDepth := if tip.height > n.lastForkHeight + 10 then 1 else n.forkDepth }

/-- Another path applied these heights: the tip is read again, and replies below it go. -/
def resync (E : Env) (n : CatchUp) : Option CatchUp :=
  match readTip E n.store with
  | .error _ => none
  | .ok tip => some { n with tip, pending := n.pending.filter fun h _ => decide (tip.height ≤ h) }

/-- The blocks were rejected: their range is fetched again. -/
def reject (n : CatchUp) : CatchUp :=
  { n with pending := ∅, sched := n.sched.restart n.tip.height }

/-- One turn of the loop over the replies that sit on the tip. -/
def applyNext (E : Env) (verify : Bool) (n : CatchUp) (meanwhile after : Store → Store) :
    Option CatchUp :=
  match n.pending[n.tip.height]? with
  | none => none
  | some r =>
      let n := { n with pending := n.pending.erase n.tip.height }
      if n.forked r then n.rollback E after
      else match n.applyReply E verify r meanwhile with
        | (store, .ok tip) => some ({ n with store }.advance tip)
        | (store, .error (.staleTip _)) => { n with store := after store }.resync E
        | (store, .error _) => some { n with store }.reject

/-- The target grows with the best known height; at the target the loop ends. -/
def refresh (opts : P2pOptions) (n : CatchUp) (best : Nat) : Option CatchUp :=
  let target := max n.sched.target best
  if target ≤ n.tip.height then none
  else some { n with
    sched := { n.sched with target, windowEnd := n.tip.height + opts.window }
    receiving := true }

def step (E : Env) (opts : P2pOptions) (n : CatchUp) : Action → Option CatchUp
  | .take idle => n.take idle
  | .reply f =>
      if n.receiving ∧ (f.fromHeight, f.toHeight) ∈ n.inFlight then
        some ({ n with
          inFlight := n.inFlight.erase (f.fromHeight, f.toHeight), receiving := false }.receive f)
      else none
  | .apply now meanwhile after =>
      if n.receiving then none
      else n.applyNext { E with nowMs := now } opts.verify meanwhile after
  | .refresh best =>
      if n.receiving ∨ (n.pending[n.tip.height]?).isSome then none else n.refresh opts best
  | .intake change => some { n with store := change n.store }

/-! ### Coverage -/

/-- A range that waits as a reply, for another try, or for its answer. -/
inductive Holds (n : CatchUp) : Nat × Nat → Prop
  | pending {height : Nat} {r : Reply} (h : n.pending[height]? = some r) : Holds n (height, r.last)
  | retry {range : Nat × Nat} (h : range ∈ n.sched.retry) : Holds n range
  | inFlight {range : Nat × Nat} (h : range ∈ n.inFlight) : Holds n range

/-- A height of some range, or one that is still to be handed out. -/
def Covered (n : CatchUp) (height : Nat) : Prop :=
  (∃ range, n.Holds range ∧ range.1 < height ∧ height ≤ range.2) ∨ n.sched.nextFrom ≤ height

/-- The block above the tip is on its way, or a worker can fetch it. -/
def CanProgress (n : CatchUp) : Prop :=
  (∃ range, (range ∈ n.inFlight ∨ range ∈ n.sched.retry) ∧
    range.1 ≤ n.tip.height ∧ n.tip.height < range.2) ∨
  n.sched.nextFrom ≤ n.tip.height ∧ n.sched.nextFrom < n.sched.target ∧
    n.sched.nextFrom < n.sched.windowEnd

/-- The tip moves to `height`, and no reply has blocks on both sides of it. -/
def MovesTo (n : CatchUp) (height : Nat) : Prop :=
  n.tip.height < height ∧
    ∀ start r, n.pending[start]? = some r → start < height → r.last ≤ height

/-- What a step must not meet: a reply or a range that reaches across the tip, a tip that does
not move up, a reply that ends below the tip, and one in the place of a longer one. -/
def Orderly (E : Env) (opts : P2pOptions) (n : CatchUp) : Action → Prop
  | .reply f =>
      (n.tip.height ≤ f.fromHeight ∨ f.toHeight ≤ n.tip.height) ∧
      ∀ r, f.reply = some r → n.tip.height ≤ f.fromHeight →
        n.tip.height ≤ r.last ∧
        ∀ old, n.pending[f.fromHeight]? = some old → old.last ≤ max r.last f.toHeight
  | .apply now meanwhile after =>
      ∀ r, n.pending[n.tip.height]? = some r → n.forked r = false →
        match n.applyReply { E with nowMs := now } opts.verify r meanwhile with
        | (_, .ok _) => n.MovesTo r.last
        | (store, .error (.staleTip _)) =>
            ∀ tip, readTip { E with nowMs := now } (after store) = .ok tip → n.MovesTo tip.height
        | (_, .error _) => True
  | _ => True

end CatchUp

theorem Scheduler.mem_requeue {s : Scheduler} {range other : Nat × Nat} :
    other ∈ (s.requeue range).retry ↔ range = other ∨ other ∈ s.retry := by
  unfold requeue
  rw [Std.ExtTreeMap.mem_insert, Std.LawfulEqCmp.compare_eq_iff_eq]

/-- Nothing that is queued or still to come gets lost when a range is handed out. -/
theorem Scheduler.next_ok {s s' : Scheduler} {range : Nat × Nat} (h : s.next = some (range, s')) :
    s'.target = s.target ∧ s'.windowEnd = s.windowEnd ∧
    s'.nextFrom ≤ max s.nextFrom s.target ∧
    (∀ other ∈ s.retry, range = other ∨ other ∈ s'.retry) ∧
    ∀ height, s.nextFrom < height → range.1 < height ∧ height ≤ range.2 ∨ s'.nextFrom < height := by
  unfold next at h
  split at h
  · rename_i first _ _
    obtain ⟨rfl, rfl⟩ := Prod.mk.inj (Option.some.inj h)
    refine ⟨rfl, rfl, le_max_left _ _, ?_, fun height hheight => .inr hheight⟩
    intro other hother
    rw [Std.ExtTreeMap.mem_erase]
    by_cases heq : first = other
    · exact .inl heq
    · exact .inr ⟨by simpa using heq, hother⟩
  · rename_i hempty
    rw [List.head?_eq_none_iff, Std.ExtTreeMap.toList_eq_nil_iff] at hempty
    split_ifs at h with hroom
    obtain ⟨rfl, rfl⟩ := Prod.mk.inj (Option.some.inj h)
    refine ⟨rfl, rfl, ?_, ?_, ?_⟩
    · exact (min_le_right _ _).trans (le_max_right _ _)
    · intro other hother
      rw [hempty] at hother
      exact absurd hother Std.ExtTreeMap.not_mem_empty
    · intro height hheight
      rcases Nat.lt_or_ge (min (s.nextFrom + maxBlocksPerRequest) s.target) height with hlt | hge
      · exact .inr hlt
      · exact .inl ⟨hheight, hge⟩

end P2p

open Sync in
/-- The tip after linked blocks has the height of the last one. -/
theorem foldlM_link_last {E : Env} {tip tip' : ChainTip} {first : Block} {rest : List Block}
    (h : (first :: rest).foldlM (link E) tip = .ok tip') :
    tip'.height = ((first :: rest).getLast (List.cons_ne_nil _ _)).height := by
  induction rest generalizing first tip with
  | nil =>
      obtain ⟨tip₁, hfirst, hrest⟩ := foldlM_cons_ok.mp h
      obtain ⟨-, -, -, id, -, rfl⟩ := link_eq_ok.mp hfirst
      rw [List.foldlM_nil, pure_eq_ok] at hrest
      rw [← hrest]
      rfl
  | cons second rest ih =>
      obtain ⟨tip₁, -, hrest⟩ := foldlM_cons_ok.mp h
      rw [List.getLast_cons_cons]
      exact ih hrest

namespace P2p

namespace CatchUp

variable {E : Env} {opts : P2pOptions} {n n' : CatchUp}

theorem applyReply_last {verify : Bool} {r : Reply} {meanwhile : Store → Store} {s : Store}
    {tip : Sync.ChainTip} (h : n.applyReply E verify r meanwhile = (s, .ok tip)) :
    tip.height = r.last := by
  unfold applyReply at h
  split at h
  · cases (Prod.mk.inj h).2
  · rename_i tip₁ hcheck
    obtain ⟨_, -, htip⟩ := map_eq_ok.mp (Prod.mk.inj h).2
    unfold Sync.checkBlocks at hcheck
    obtain ⟨tip₂, hlink, hcheck⟩ := bind_eq_ok.mp hcheck
    obtain ⟨_, -, hcheck⟩ := bind_eq_ok.mp hcheck
    have hsame : tip₂ = tip₁ := by
      cases verify with
      | false => simpa using hcheck
      | true =>
          simp only [if_true] at hcheck
          obtain ⟨_, -, hcheck⟩ := bind_eq_ok.mp hcheck
          simpa using hcheck
    rw [← htip, ← hsame]
    exact foldlM_link_last hlink

/-- A height that some range has, or that comes after every range so far. -/
def Kept (n : CatchUp) (height : Nat) : Prop :=
  (∃ range, n.Holds range ∧ range.1 < height ∧ height ≤ range.2) ∨ n.sched.nextFrom < height

/-- What every state of an orderly run has. -/
structure Steady (opts : P2pOptions) (n : CatchUp) : Prop where
  kept : ∀ height, n.tip.height < height → height ≤ n.sched.target → n.Kept height
  settled : ∀ start r, n.pending[start]? = some r → start < n.tip.height → r.last ≤ n.tip.height
  next : n.sched.nextFrom ≤ max n.tip.height n.sched.target
  waiting : n.receiving = true → n.pending[n.tip.height]? = none ∧
    n.sched.windowEnd = n.tip.height + opts.window ∧ n.tip.height < n.sched.target

theorem Kept.covered {height : Nat} (h : n.Kept height) : n.Covered height :=
  h.imp_right Nat.le_of_lt

/-- A height stays kept when every range with it stays. -/
theorem Kept.mono {height : Nat} (h : n.Kept height)
    (hnext : n'.sched.nextFrom ≤ n.sched.nextFrom)
    (hholds : ∀ range, n.Holds range → range.1 < height → height ≤ range.2 → n'.Holds range) :
    n'.Kept height := by
  rcases h with ⟨range, hrange, hlow, hhigh⟩ | hlater
  · exact .inl ⟨range, hholds range hrange hlow hhigh, hlow, hhigh⟩
  · exact .inr (by omega)

theorem steady_start {s : Store} {best : Nat} (h : start E opts s best = some n) :
    n.Steady opts := by
  unfold start at h
  split at h
  · cases h
  · rename_i tip _
    split_ifs at h with hbest
    obtain rfl := Option.some.inj h
    constructor
    · exact fun height hheight _ => .inr hheight
    · intro start r hr
      exact absurd hr (by simp)
    · exact le_max_left _ _
    · intro hwaiting
      cases hwaiting

theorem steady_take {idle : Bool} (h : n.Steady opts) (htake : n.take idle = some n') :
    n'.Steady opts := by
  unfold take at htake
  split at htake
  · cases htake
  · rename_i range sched hnext
    obtain ⟨htarget, hwindow, hbound, hretry, hlater⟩ := Scheduler.next_ok hnext
    have hkept : ∀ m : CatchUp, m.pending = n.pending → m.sched.nextFrom = sched.nextFrom →
        (∀ other, other ∈ sched.retry → m.Holds other) →
        (∀ other ∈ n.inFlight, m.Holds other) → m.Holds range →
        ∀ height, n.Kept height → m.Kept height := by
      intro m hpending hfrom hqueued hflying htaken height hheight
      rcases hheight with ⟨other, hother, hin⟩ | hafter
      · refine .inl ⟨other, ?_, hin⟩
        cases hother with
        | pending hr => exact .pending (hpending ▸ hr)
        | retry hr =>
            rcases hretry other hr with rfl | hr
            · exact htaken
            · exact hqueued other hr
        | inFlight hr => exact hflying other hr
      · rcases hlater height hafter with hin | hafter
        · exact .inl ⟨range, htaken, hin⟩
        · exact .inr (hfrom ▸ hafter)
    have hnext' : sched.nextFrom ≤ max n.tip.height n.sched.target := by
      have := h.next
      omega
    split_ifs at htake
    all_goals obtain rfl := Option.some.inj htake
    · constructor
      · intro height hlow hhigh
        refine hkept { n with sched, inFlight := range :: n.inFlight } rfl rfl
          (fun other hother => .retry hother) ?_ (.inFlight List.mem_cons_self) height
          (h.kept height hlow (htarget ▸ hhigh))
        exact fun other hother => .inFlight (List.mem_cons_of_mem _ hother)
      · exact h.settled
      · simpa [htarget] using hnext'
      · simpa [htarget, hwindow] using h.waiting
    · constructor
      · intro height hlow hhigh
        have hqueue : ∀ other, range = other ∨ other ∈ sched.retry →
            Holds { n with sched := sched.requeue range } other :=
          fun other hother => .retry (Scheduler.mem_requeue.mpr hother)
        exact hkept { n with sched := sched.requeue range } rfl rfl
          (fun other hother => hqueue other (.inr hother))
          (fun other hother => .inFlight hother) (hqueue range (.inl rfl)) height
          (h.kept height hlow (by simpa [Scheduler.requeue, htarget] using hhigh))
      · exact h.settled
      · simpa [Scheduler.requeue, htarget] using hnext'
      · simpa [Scheduler.requeue, htarget, hwindow] using h.waiting

/-- A range goes back to the queue. -/
theorem holds_requeue {range other : Nat × Nat} (h : n.Holds other ∨ range = other) :
    (n.requeue range).Holds other := by
  rcases h with h | rfl
  · cases h with
    | pending hr => exact .pending hr
    | retry hr => exact .retry (Scheduler.mem_requeue.mpr (.inr hr))
    | inFlight hr => exact .inFlight hr
  · exact .retry (Scheduler.mem_requeue.mpr (.inl rfl))

@[simp] theorem tip_requeue (range : Nat × Nat) : (n.requeue range).tip = n.tip := rfl

@[simp] theorem pending_requeue (range : Nat × Nat) : (n.requeue range).pending = n.pending := rfl

@[simp] theorem target_requeue (range : Nat × Nat) :
    (n.requeue range).sched.target = n.sched.target := rfl

@[simp] theorem nextFrom_requeue (range : Nat × Nat) :
    (n.requeue range).sched.nextFrom = n.sched.nextFrom := rfl

/-- The reply at hand takes the place of a shorter one, and its tail goes back to the queue. -/
theorem receive_some {f : Fetched} {r : Reply} (hreply : f.reply = some r)
    (hlow : n.tip.height ≤ f.fromHeight) (hlast : n.tip.height ≤ r.last)
    (hold : ∀ old, n.pending[f.fromHeight]? = some old → old.last ≤ max r.last f.toHeight) :
    (∀ height, f.fromHeight < height → height ≤ max r.last f.toHeight →
      (n.receive f).Kept height) ∧
    ∀ height, n.Kept height → (n.receive f).Kept height := by
  set m : CatchUp := { n with pending := n.pending.insert f.fromHeight r } with hm
  have hreceive : n.receive f =
      if r.last < f.toHeight then m.requeue (r.last, f.toHeight) else m := by
    unfold receive
    rw [hreply]
    simp [hlow, hlast, hm]
  have hholds : ∀ range, m.Holds range → (n.receive f).Holds range := by
    intro range hrange
    rw [hreceive]
    split_ifs
    · exact holds_requeue (.inl hrange)
    · exact hrange
  have hnew : ∀ height, f.fromHeight < height → height ≤ max r.last f.toHeight →
      (n.receive f).Kept height := by
    intro height hfrom hmax
    rcases Nat.lt_or_ge r.last height with hlt | hge
    · refine .inl ⟨(r.last, f.toHeight), ?_, hlt, by omega⟩
      rw [hreceive, if_pos (by omega)]
      exact holds_requeue (.inr rfl)
    · refine .inl ⟨(f.fromHeight, r.last), hholds _ (.pending ?_), hfrom, hge⟩
      simp [hm]
  refine ⟨hnew, ?_⟩
  rintro height (⟨range, hrange, hin⟩ | hafter)
  · cases hrange with
    | @pending start old hr =>
        by_cases hsame : f.fromHeight = start
        · subst hsame
          have := hold old hr
          exact hnew height hin.1 (hin.2.trans this)
        · refine .inl ⟨_, hholds _ (.pending (r := old) ?_), hin⟩
          rw [hm, OrderedMap.getElem?_insert_eq, if_neg hsame]
          exact hr
    | retry hr => exact .inl ⟨range, hholds _ (.retry hr), hin⟩
    | inFlight hr => exact .inl ⟨range, hholds _ (.inFlight hr), hin⟩
  · refine .inr ?_
    rw [hreceive]
    split_ifs <;> exact hafter

theorem receive_frame (n : CatchUp) (f : Fetched) :
    (n.receive f).tip = n.tip ∧ (n.receive f).sched.target = n.sched.target ∧
    (n.receive f).sched.nextFrom = n.sched.nextFrom ∧
    (n.receive f).receiving = n.receiving ∧
    ∀ start r, (n.receive f).pending[start]? = some r → start < n.tip.height →
      n.pending[start]? = some r := by
  unfold receive
  cases hreply : f.reply with
  | none => split_ifs <;> exact ⟨rfl, rfl, rfl, rfl, fun _ _ hr _ => hr⟩
  | some first =>
      have hinsert : n.tip.height ≤ f.fromHeight → ∀ start r,
          (n.pending.insert f.fromHeight first)[start]? = some r → start < n.tip.height →
          n.pending[start]? = some r := by
        intro hlow start r hr hstart
        rwa [OrderedMap.getElem?_insert_eq, if_neg (by omega)] at hr
      simp only
      split_ifs with hlow
      · exact ⟨rfl, rfl, rfl, rfl, hinsert hlow⟩
      · exact ⟨rfl, rfl, rfl, rfl, hinsert hlow⟩
      · exact ⟨rfl, rfl, rfl, rfl, fun _ _ hr _ => hr⟩
      · exact ⟨rfl, rfl, rfl, rfl, fun _ _ hr _ => hr⟩

/-- An answer that brings nothing to apply: its range is queued again, or is not needed. -/
theorem receive_kept {f : Fetched} {height : Nat}
    (hnone : f.reply = none ∨ f.fromHeight < n.tip.height)
    (hneed : n.tip.height ≤ f.fromHeight ∨ f.toHeight ≤ n.tip.height)
    (hheight : n.tip.height < height) :
    (f.fromHeight < height → height ≤ f.toHeight → (n.receive f).Kept height) ∧
    (n.Kept height → (n.receive f).Kept height) := by
  have hholds : ∀ range, n.Holds range → (n.receive f).Holds range := by
    intro range hrange
    unfold receive
    rcases hnone with hnone | hlow
    · rw [hnone]
      split
      · contradiction
      · split_ifs
        · exact holds_requeue (.inl hrange)
        · exact hrange
    · have hlow' : ¬ n.tip.height ≤ f.fromHeight := by omega
      simp only [hlow', if_false]
      split
      · split_ifs
        · exact holds_requeue (.inl hrange)
        · exact hrange
      · exact hrange
  obtain ⟨-, -, hnext, -, -⟩ := receive_frame n f
  constructor
  · intro hfrom hto
    rcases hneed with hlow | hhigh
    · rcases hnone with hnone | hbelow
      · refine .inl ⟨(f.fromHeight, f.toHeight), ?_, hfrom, hto⟩
        unfold receive
        rw [hnone]
        simp only [hlow, if_true]
        exact holds_requeue (.inr rfl)
      · omega
    · omega
  · exact fun hkept => hkept.mono hnext.le fun range hrange _ _ => hholds range hrange

theorem steady_reply {f : Fetched} (h : n.Steady opts)
    (horderly : n.Orderly E opts (.reply f)) :
    ({ n with inFlight := n.inFlight.erase (f.fromHeight, f.toHeight), receiving := false }.receive
      f).Steady opts := by
  obtain ⟨hneed, hgood⟩ := horderly
  set m : CatchUp :=
    { n with inFlight := n.inFlight.erase (f.fromHeight, f.toHeight), receiving := false } with hm
  obtain ⟨htip, htarget, hnext, hwaiting, hpending⟩ := receive_frame m f
  -- only the range of the answer is no longer in flight
  have hrest : ∀ height, n.Kept height →
      m.Kept height ∨ f.fromHeight < height ∧ height ≤ f.toHeight := by
    rintro height (⟨range, hrange, hin⟩ | hafter)
    · cases hrange with
      | pending hr => exact .inl (.inl ⟨_, .pending (n := m) hr, hin⟩)
      | retry hr => exact .inl (.inl ⟨_, .retry (n := m) hr, hin⟩)
      | inFlight hr =>
          by_cases hsame : range = (f.fromHeight, f.toHeight)
          · rw [hsame] at hin
            exact .inr hin
          · exact .inl (.inl ⟨_, .inFlight (n := m) ((List.mem_erase_of_ne hsame).mpr hr), hin⟩)
    · exact .inl (.inr hafter)
  have hreceived : ∀ height, n.tip.height < height →
      (f.fromHeight < height → height ≤ f.toHeight → (m.receive f).Kept height) ∧
      (m.Kept height → (m.receive f).Kept height) := by
    intro height hheight
    cases hreply : f.reply with
    | none => exact receive_kept (.inl hreply) hneed hheight
    | some r =>
        rcases Nat.lt_or_ge f.fromHeight n.tip.height with hbelow | hlow
        · exact receive_kept (.inr hbelow) hneed hheight
        · obtain ⟨hlast, hold⟩ := hgood r hreply hlow
          obtain ⟨hnew, hkept⟩ := receive_some (n := m) hreply hlow hlast hold
          exact ⟨fun hfrom hto => hnew height hfrom (hto.trans (le_max_right _ _)), hkept height⟩
  constructor
  · intro height hlow hhigh
    rw [htip] at hlow
    rw [htarget] at hhigh
    rcases hrest height (h.kept height hlow hhigh) with hkept | ⟨hfrom, hto⟩
    · exact (hreceived height hlow).2 hkept
    · exact (hreceived height hlow).1 hfrom hto
  · intro start r hr hstart
    rw [htip] at hstart ⊢
    exact h.settled start r (hpending start r hr hstart) hstart
  · rw [htip, htarget, hnext]
    exact h.next
  · rw [hwaiting]
    intro hfalse
    cases hfalse

/-- Every height above the tip is still to be handed out. -/
theorem steady_restart (hnext : n.sched.nextFrom = n.tip.height)
    (hpending : n.pending = ∅) (hwaiting : n.receiving = false) : n.Steady opts := by
  constructor
  · exact fun height hheight _ => .inr (hnext ▸ hheight)
  · intro start r hr
    rw [hpending] at hr
    exact absurd hr (by simp)
  · rw [hnext]
    exact le_max_left _ _
  · intro htrue
    rw [hwaiting] at htrue
    cases htrue

/-- The tip moves up; replies from the new tip on stay, and those below it have no block above. -/
theorem steady_advance (h : n.Steady opts) (hmoves : n.MovesTo n'.tip.height)
    (hpending : ∀ (start : Nat) (r' : Reply), n'.pending[start]? = some r' →
      n.pending[start]? = some r')
    (hkeep : ∀ (start : Nat) (r' : Reply), n.pending[start]? = some r' → n'.tip.height ≤ start →
      n'.pending[start]? = some r')
    (hsched : n'.sched = n.sched) (hflight : n'.inFlight = n.inFlight)
    (hwaiting : n'.receiving = false) : n'.Steady opts := by
  obtain ⟨hup, hnone⟩ := hmoves
  constructor
  · intro height hlow hhigh
    refine (h.kept height (by omega) (hsched ▸ hhigh)).mono (by rw [hsched]) ?_
    intro range hrange _ hin
    cases hrange with
    | @pending start r' hr' =>
        rcases Nat.lt_or_ge start n'.tip.height with hbelow | habove
        · have := hnone start r' hr' hbelow
          change height ≤ r'.last at hin
          omega
        · exact .pending (hkeep start r' hr' habove)
    | retry hr' => exact .retry (hsched ▸ hr')
    | inFlight hr' => exact .inFlight (hflight ▸ hr')
  · exact fun start r' hr' hstart => hnone start r' (hpending start r' hr') hstart
  · have := h.next
    rw [hsched]
    omega
  · intro htrue
    rw [hwaiting] at htrue
    cases htrue

theorem rollback_restarts {after : Store → Store} (h : n.rollback E after = some n') :
    n'.sched.nextFrom = n'.tip.height ∧ n'.pending = ∅ ∧ n'.receiving = n.receiving := by
  unfold rollback at h
  dsimp only at h
  split at h
  · cases h
  · obtain rfl := Option.some.inj h
    exact ⟨rfl, rfl, rfl⟩

theorem steady_applyNext {now : Int} {meanwhile after : Store → Store} (h : n.Steady opts)
    (hreceiving : n.receiving = false)
    (horderly : n.Orderly E opts (.apply now meanwhile after))
    (happly : n.applyNext { E with nowMs := now } opts.verify meanwhile after = some n') :
    n'.Steady opts := by
  unfold applyNext at happly
  split at happly
  · cases happly
  · rename_i r hr
    have hgood := horderly r hr
    have herase : ∀ (start : Nat) (r' : Reply),
        (n.pending.erase n.tip.height)[start]? = some r' → n.pending[start]? = some r' := by
      intro start r' hr'
      rw [OrderedMap.getElem?_erase_eq] at hr'
      split_ifs at hr'
      exact hr'
    have hkeep : ∀ (start : Nat) (r' : Reply), n.pending[start]? = some r' →
        n.tip.height < start → (n.pending.erase n.tip.height)[start]? = some r' := by
      intro start r' hr' hlt
      rwa [OrderedMap.getElem?_erase_eq, if_neg (by omega)]
    simp only at happly
    split_ifs at happly with hforked
    · obtain ⟨hnext, hpending, hwaiting⟩ := rollback_restarts happly
      exact steady_restart hnext hpending (hwaiting.trans hreceiving)
    · have hgood := hgood (eq_false_of_ne_true hforked)
      split at happly
      · rename_i store tip hresult
        change n.applyReply { E with nowMs := now } opts.verify r meanwhile = _ at hresult
        rw [hresult] at hgood
        obtain rfl := Option.some.inj happly
        have hlast := applyReply_last hresult
        refine steady_advance h (hlast ▸ hgood) herase ?_ rfl rfl hreceiving
        intro start r' hr' habove
        have hup := hgood.1
        change tip.height ≤ start at habove
        exact hkeep start r' hr' (by omega)
      · rename_i store message hresult
        change n.applyReply { E with nowMs := now } opts.verify r meanwhile = _ at hresult
        rw [hresult] at hgood
        unfold resync at happly
        split at happly
        · cases happly
        · rename_i tip htip
          obtain rfl := Option.some.inj happly
          have hmoves := hgood tip htip
          refine steady_advance h hmoves ?_ ?_ rfl rfl hreceiving
          · intro start r' hr'
            rw [Std.ExtTreeMap.getElem?_filter', Option.filter_eq_some_iff] at hr'
            exact herase start r' hr'.1
          · intro start r' hr' habove
            have hup := hmoves.1
            change tip.height ≤ start at habove
            rw [Std.ExtTreeMap.getElem?_filter', Option.filter_eq_some_iff]
            exact ⟨hkeep start r' hr' (by omega), by simpa using habove⟩
      · obtain rfl := Option.some.inj happly
        exact steady_restart rfl rfl hreceiving

theorem steady_refresh {best : Nat} (h : n.Steady opts)
    (hempty : n.pending[n.tip.height]? = none) (hrefresh : n.refresh opts best = some n') :
    n'.Steady opts := by
  unfold refresh at hrefresh
  simp only at hrefresh
  split_ifs at hrefresh with hdone
  obtain rfl := Option.some.inj hrefresh
  have hnext := h.next
  constructor
  · intro height hlow hhigh
    change n.tip.height < height at hlow
    rcases Nat.lt_or_ge n.sched.target height with hlater | hold
    · refine .inr ?_
      change n.sched.nextFrom < height
      omega
    · refine (h.kept height hlow hold).mono le_rfl ?_
      intro range hrange _ _
      cases hrange with
      | pending hr => exact .pending hr
      | retry hr => exact .retry hr
      | inFlight hr => exact .inFlight hr
  · exact h.settled
  · change n.sched.nextFrom ≤ max n.tip.height (max n.sched.target best)
    omega
  · exact fun _ => ⟨hempty, rfl, Nat.lt_of_not_le hdone⟩

theorem steady_step {a : Action} (h : n.Steady opts) (horderly : n.Orderly E opts a)
    (hstep : n.step E opts a = some n') : n'.Steady opts := by
  cases a with
  | take idle => exact steady_take h hstep
  | reply f =>
      simp only [step] at hstep
      split_ifs at hstep
      obtain rfl := Option.some.inj hstep
      exact steady_reply h horderly
  | apply now meanwhile after =>
      simp only [step] at hstep
      split_ifs at hstep with hreceiving
      exact steady_applyNext h (by simpa using hreceiving) horderly hstep
  | refresh best =>
      simp only [step] at hstep
      split_ifs at hstep with hbusy
      exact steady_refresh h (by simpa using (not_or.mp hbusy).2) hstep
  | intake change =>
      obtain rfl := Option.some.inj hstep
      refine ⟨?_, h.settled, h.next, h.waiting⟩
      intro height hlow hhigh
      refine (h.kept height hlow hhigh).mono le_rfl ?_
      intro range hrange _ _
      cases hrange with
      | pending hr => exact .pending hr
      | retry hr => exact .retry hr
      | inFlight hr => exact .inFlight hr

/-- While the loop waits for an answer, the next block is on its way or can be fetched. -/
theorem Steady.canProgress (h : n.Steady opts) (hreceiving : n.receiving = true) :
    n.CanProgress := by
  obtain ⟨hempty, hwindow, htarget⟩ := h.waiting hreceiving
  rcases h.kept (n.tip.height + 1) (by omega) (by omega) with ⟨range, hrange, hlow, hhigh⟩ | hnext
  · cases hrange with
    | @pending start r hr =>
        change start < n.tip.height + 1 at hlow
        change n.tip.height + 1 ≤ r.last at hhigh
        rcases Nat.lt_or_ge start n.tip.height with hbelow | habove
        · have := h.settled start r hr hbelow
          omega
        · obtain rfl : start = n.tip.height := by omega
          rw [hempty] at hr
          cases hr
    | retry hr => exact .inl ⟨range, .inr hr, by omega, hhigh⟩
    | inFlight hr => exact .inl ⟨range, .inl hr, by omega, hhigh⟩
  · refine .inr ⟨by omega, by omega, ?_⟩
    have hpos : 0 < opts.window := by
      unfold P2pOptions.window maxBlocksPerRequest
      omega
    omega

end CatchUp

open CatchUp

/-- In every orderly run no height up to the target is lost, and the loop never waits in vain. -/
theorem catchUp_covers (E : Env) (opts : P2pOptions) (s : Store) (best : Nat) (n₀ n : CatchUp)
    (hstart : CatchUp.start E opts s best = some n₀)
    (hrun : Reaches (CatchUp.step E opts) (CatchUp.Orderly E opts) n₀ n) :
    (∀ height, n.tip.height < height → height ≤ n.sched.target → n.Covered height) ∧
    (n.receiving = true → n.CanProgress) := by
  have hsteady : n.Steady opts :=
    hrun.invariant (steady_start hstart) fun _ _ _ h hgood hstep => steady_step h hgood hstep
  exact ⟨fun height hlow hhigh => (hsteady.kept height hlow hhigh).covered, hsteady.canProgress⟩

open Reference

/-- A block on `childBlock`. -/
def grandchildBlock : Block := first.forge 4 24 (childBlock.id.getD "") 0 []

/-- The loop on the first block with three blocks to fetch, after some actions. -/
def caughtUp (actions : List Action) : Option CatchUp :=
  (CatchUp.start linkEnv {} genesisStore 4).bind fun n =>
    actions.foldlM (CatchUp.step linkEnv {}) n

theorem catchUp_covers_short :
    ∃ n : CatchUp, n.tip.height = 1 ∧ n.sched.target = 4 ∧ n.Covered 2 ∧ n.Covered 4 := by
  set short : Fetched := ⟨1, 4, some [ownBlock]⟩ with hshort
  have hstates : (caughtUp [.refresh 4, .take true]).any (fun n =>
      decide (n.tip.height = 1 ∧ n.pending.isEmpty) &&
        (n.step linkEnv {} (.reply short)).any fun m =>
          decide (m.tip.height = 1 ∧ m.sched.target = 4)) = true := by
    decide +kernel
  obtain ⟨n, hn, hfacts⟩ := (Option.any_eq_true _ _).mp hstates
  obtain ⟨hbefore, hafter⟩ := Bool.and_eq_true_iff.mp hfacts
  obtain ⟨htip, hempty⟩ := of_decide_eq_true hbefore
  obtain ⟨m, hm, hafter⟩ := (Option.any_eq_true _ _).mp hafter
  obtain ⟨htip', htarget⟩ := of_decide_eq_true hafter
  obtain ⟨n₀, hstart, hn⟩ := Option.bind_eq_some_iff.mp hn
  rw [List.foldlM_cons] at hn
  obtain ⟨n₁, hrefresh, hn⟩ := Option.bind_eq_some_iff.mp hn
  rw [List.foldlM_cons] at hn
  obtain ⟨n₂, htake, hn⟩ := Option.bind_eq_some_iff.mp hn
  rw [List.foldlM_nil] at hn
  obtain rfl := Option.some.inj hn
  have hrun : Reaches (CatchUp.step linkEnv {}) (CatchUp.Orderly linkEnv {}) n₀ n₂ :=
    .next (.take true) (.next (.refresh 4) .start trivial hrefresh) trivial htake
  have horderly : n₂.Orderly linkEnv {} (.reply short) := by
    refine ⟨.inl htip.le, ?_⟩
    intro r hr _
    have hlast : (short.reply.map Reply.last) = some 2 := by decide +kernel
    rw [hr] at hlast
    have htwo : r.last = 2 := Option.some.inj hlast
    refine ⟨by omega, ?_⟩
    intro old hold
    rw [Std.ExtTreeMap.isEmpty_iff.mp hempty] at hold
    exact absurd hold (by simp)
  have hcovers := (catchUp_covers linkEnv {} genesisStore 4 n₀ m hstart
    (.next _ hrun horderly hm)).1
  exact ⟨m, htip', htarget, hcovers 2 (by omega) (by omega), hcovers 4 (by omega) (by omega)⟩

/-- Another path applies the first block of a range that is in flight: the reply is stale, and the
rest of the range belongs to nobody any more. -/
theorem lost_height :
    ∃ n₀ n, CatchUp.start linkEnv {} genesisStore 4 = some n₀ ∧
      Reaches (CatchUp.step linkEnv {}) (fun _ _ => True) n₀ n ∧
      ¬ ∀ height, n.tip.height < height → height ≤ n.sched.target → n.Covered height := by
  have hlost : (caughtUp [.refresh 4, .take true,
      .intake fun s => (s.applyBlocks linkEnv [ownBlock]).1,
      .reply ⟨1, 4, some [ownBlock, childBlock, grandchildBlock]⟩, .apply 24000 id id]).any
      (fun n => decide (n.tip.height = 2 ∧ n.sched.target = 4 ∧ n.sched.nextFrom = 4 ∧
        n.pending.isEmpty ∧ n.sched.retry.isEmpty ∧ n.inFlight = [])) = true := by
    decide +kernel
  obtain ⟨n, hn, hfacts⟩ := (Option.any_eq_true _ _).mp hlost
  obtain ⟨htip, htarget, hnext, hpending, hretry, hflight⟩ := of_decide_eq_true hfacts
  obtain ⟨n₀, hstart, hn⟩ := Option.bind_eq_some_iff.mp hn
  refine ⟨n₀, n, hstart, .of_foldlM (fun _ _ _ => trivial) hn, ?_⟩
  intro hcovered
  rcases hcovered 3 (by omega) (by omega) with ⟨range, hrange, -⟩ | hlater
  · cases hrange with
    | pending hr =>
        rw [Std.ExtTreeMap.isEmpty_iff.mp hpending] at hr
        exact absurd hr (by simp)
    | retry hr =>
        rw [Std.ExtTreeMap.isEmpty_iff.mp hretry] at hr
        exact absurd hr Std.ExtTreeMap.not_mem_empty
    | inFlight hr =>
        rw [hflight] at hr
        cases hr
  · omega

end P2p

end SthCore
