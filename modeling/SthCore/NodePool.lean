import SthCore.Lib.Spacing
import SthCore.Lib.Text

/-!
The pool of legacy nodes: request slots are handed out ahead of time, spaced on
every node and bounded in a sliding window.  Times are in nanoseconds.
-/

namespace SthCore

open SthCore.Lib

def millis (n : Nat) : Nat := n * 1000000

def oneSecond : Nat := millis 1000

structure RateLimitConfig where
  perNodeRps : Nat := 4
  windowLimit : Nat := 250
  window : Nat := 60 * oneSecond
  banOn429 : Nat := 60 * oneSecond
  maxFailures : Nat := 5
  banOnFailures : Nat := 30 * oneSecond

/-- The distance of two slots of a node. -/
def RateLimitConfig.spacing (cfg : RateLimitConfig) : Nat :=
  millis (1000 / max cfg.perNodeRps 1)

structure NodeState where
  url : Text
  host : Text
  /-- Slots inside the sliding window, those of the future included. -/
  window : List Nat := []
  /-- Earliest time at which the next request may be sent. -/
  nextSlot : Nat
  parkedUntil : Option Nat := none
  failures : Nat := 0

namespace NodeState

def prune (now window : Nat) (n : NodeState) : NodeState :=
  { n with window := n.window.dropWhile fun front => decide (window ≤ now - front) }

def parked (now : Nat) (n : NodeState) : Bool := n.parkedUntil.any fun t => decide (now < t)

/-- Whether `acquire` passes over the node. -/
def skipped (cfg : RateLimitConfig) (now : Nat) (n : NodeState) : Bool :=
  n.parked now || decide (cfg.windowLimit ≤ n.window.length)

/-- One more failure, which parks the node when it is one too many. -/
def failed (cfg : RateLimitConfig) (now : Nat) (n : NodeState) : NodeState :=
  if cfg.maxFailures ≤ n.failures + 1 then
    { n with parkedUntil := some (now + cfg.banOnFailures), failures := 0 }
  else { n with failures := n.failures + 1 }

end NodeState

/-- `trim_start_matches` of a text, with a bound on the number of matches. -/
def trimStartMatches (pattern : List Char) : Nat → List Char → List Char
  | 0, text => text
  | fuel + 1, text =>
      if pattern.isPrefixOf text then trimStartMatches pattern fuel (text.drop pattern.length)
      else text

def trimEndSlash (text : List Char) : List Char := text.rdropWhile (· == '/')

def hostOf (url : Text) : Text :=
  let text := url.toList
  let text := trimStartMatches "https://".toList text.length text
  let text := trimStartMatches "http://".toList text.length text
  ⟨(trimEndSlash text).takeWhile (· != '/')⟩

/-- A reserved slot on one node. -/
structure Lease where
  index : Nat
  url : Text
  host : Text
  slot : Nat

structure NodePool where
  nodes : List NodeState
  lastUsed : Nat := 0

structure PoolStatus where
  host : Text
  requestsInWindow : Nat
  parkedNodes : Nat

namespace NodePool

variable {cfg : RateLimitConfig} {now : Nat}

def new (urls : List Text) (now : Nat) : NodePool where
  nodes := urls.map fun u => { url := ⟨trimEndSlash u.toList⟩, host := hostOf u, nextSlot := now }

/-- The node with the earliest slot, the first one of several. -/
def best (cfg : RateLimitConfig) (now : Nat) (nodes : List NodeState) : Option (Nat × Nat) :=
  nodes.zipIdx.foldl (fun best (n, i) =>
    if n.skipped cfg now then best
    else
      let slot := max n.nextSlot now
      if best.all fun (_, s) => decide (slot < s) then some (i, slot) else best) none

/-- When a node that is passed over may come back. -/
def releases (cfg : RateLimitConfig) (n : NodeState) : List Nat :=
  n.parkedUntil.toList ++
    if cfg.windowLimit ≤ n.window.length then (n.window.head?.map (· + cfg.window)).toList else []

/-- How long `acquire` sleeps when no node has a slot. -/
def wait (cfg : RateLimitConfig) (now : Nat) (nodes : List NodeState) : Nat :=
  max (((nodes.flatMap (releases cfg)).min?.map (· - now)).getD oneSecond) (millis 50)

/-- One round of the loop of `acquire`: a slot, or the time to sleep. -/
def acquire (cfg : RateLimitConfig) (now : Nat) (pool : NodePool) : (Lease ⊕ Nat) × NodePool :=
  let nodes := pool.nodes.map (·.prune now cfg.window)
  match (best cfg now nodes).bind fun (i, slot) => nodes[i]?.map fun n => (i, n, slot) with
  | some (i, n, slot) =>
      (.inl ⟨i, n.url, n.host, slot⟩,
        { nodes := nodes.set i
            { n with nextSlot := slot + cfg.spacing, window := n.window ++ [slot] },
          lastUsed := i })
  | none => (.inr (wait cfg now nodes), { pool with nodes := nodes })

def nextFreeHost (now : Nat) (nodes : List NodeState) (after : Nat) : Option Text :=
  ((List.range' 1 nodes.length).filterMap fun k => nodes[(after + k) % nodes.length]?).find?
    (fun n => !n.parked now) |>.map (·.host)

def reportSuccess (lease : Lease) (pool : NodePool) : NodePool :=
  { pool with nodes := pool.nodes.modify lease.index fun n => { n with failures := 0 } }

def reportRateLimited (cfg : RateLimitConfig) (now : Nat) (lease : Lease) (pool : NodePool) :
    Option Text × NodePool :=
  let nodes := pool.nodes.modify lease.index fun n =>
    { n with parkedUntil := some (now + cfg.banOn429), failures := 0 }
  (nextFreeHost now nodes lease.index, { pool with nodes := nodes })

def reportFailure (cfg : RateLimitConfig) (now : Nat) (lease : Lease) (pool : NodePool) :
    (Nat × Option Text) × NodePool :=
  let nodes := pool.nodes.modify lease.index (·.failed cfg now)
  (match pool.nodes[lease.index]? with
    | none => (0, none)
    | some n =>
        if cfg.maxFailures ≤ n.failures + 1 then
          (cfg.maxFailures, nextFreeHost now nodes lease.index)
        else (n.failures + 1, none),
    { pool with nodes := nodes })

def status (cfg : RateLimitConfig) (now : Nat) (pool : NodePool) : PoolStatus × NodePool :=
  let nodes := pool.nodes.map (·.prune now cfg.window)
  let parked := nodes.countP (·.parked now)
  (match nodes[pool.lastUsed]? with
    | some n => ⟨n.host, n.window.length, parked⟩
    | none => ⟨"-", 0, parked⟩,
    { pool with nodes := nodes })

end NodePool

/-- The calls of the users of a pool; a lease may be reported at any time, and more than once. -/
inductive PoolCall
  | acquire
  | success (lease : Lease)
  | rateLimited (lease : Lease)
  | failure (lease : Lease)
  | status

/-- A pool in use.  `leases` are the slots that have been granted. -/
structure PoolRun where
  pool : NodePool
  now : Nat
  leases : List Lease := []

namespace PoolRun

def start (urls : List Text) (now : Nat) : PoolRun where
  pool := NodePool.new urls now
  now := now

def step (cfg : RateLimitConfig) (now : Nat) (call : PoolCall) (r : PoolRun) : PoolRun :=
  match call with
  | .acquire =>
      let (answer, pool) := r.pool.acquire cfg now
      { pool := pool, now := now, leases := r.leases ++ (answer.getLeft?).toList }
  | .success lease => { r with now := now, pool := r.pool.reportSuccess lease }
  | .rateLimited lease => { r with now := now, pool := (r.pool.reportRateLimited cfg now lease).2 }
  | .failure lease => { r with now := now, pool := (r.pool.reportFailure cfg now lease).2 }
  | .status => { r with now := now, pool := (r.pool.status cfg now).2 }

/-- The runs of a pool, over time that does not go back. -/
inductive Reaches (cfg : RateLimitConfig) (urls : List Text) : PoolRun → Prop
  | start (now : Nat) : Reaches cfg urls (start urls now)
  | step {r : PoolRun} {now : Nat} (h : Reaches cfg urls r) (later : r.now ≤ now)
      (call : PoolCall) : Reaches cfg urls (r.step cfg now call)

/-- The slots that have been granted on a node. -/
def slotsOf (r : PoolRun) (index : Nat) : List Nat :=
  (r.leases.filter (·.index == index)).map (·.slot)

/-- How many slots of a node lie in the half-open interval of a length from `t` on. -/
def slotsWithin (r : PoolRun) (index t length : Nat) : Nat :=
  ((r.slotsOf index).filter fun s => decide (t ≤ s ∧ s < t + length)).length

/-- Both budgets of every node hold. -/
def Budgeted (cfg : RateLimitConfig) (r : PoolRun) : Prop :=
  ∀ index t, r.slotsWithin index t cfg.window ≤ cfg.windowLimit ∧
    r.slotsWithin index t oneSecond ≤ cfg.perNodeRps

end PoolRun

namespace NodeState

variable {cfg : RateLimitConfig} {now now' : Nat} {slots : List Nat} {m n : NodeState}

/-- What a node keeps of the slots that have been granted on it: those it has dropped are a window
old, and the slots are spaced as the budgets ask for. -/
structure Kept (cfg : RateLimitConfig) (now : Nat) (slots : List Nat) (n : NodeState) : Prop where
  split : ∃ old, slots = old ++ n.window ∧ ∀ s ∈ old, cfg.window ≤ now - s
  next : ∀ i s, i + 1 = slots.length → slots[i]? = some s → s + cfg.spacing ≤ n.nextSlot
  spaced : Spaced 1 cfg.spacing slots
  windowed : Spaced cfg.windowLimit cfg.window slots

namespace Kept

theorem congr (h : n.Kept cfg now slots) (hwindow : m.window = n.window)
    (hnext : m.nextSlot = n.nextSlot) : m.Kept cfg now slots where
  split := hwindow ▸ h.split
  next := hnext ▸ h.next
  spaced := h.spaced
  windowed := h.windowed

theorem later (h : n.Kept cfg now slots) (hle : now ≤ now') : n.Kept cfg now' slots where
  split := by
    obtain ⟨old, hsplit, hold⟩ := h.split
    refine ⟨old, hsplit, fun s hs => ?_⟩
    have hage := hold s hs
    omega
  next := h.next
  spaced := h.spaced
  windowed := h.windowed

theorem prune (h : n.Kept cfg now slots) : (n.prune now cfg.window).Kept cfg now slots where
  split := by
    obtain ⟨old, hsplit, hold⟩ := h.split
    refine ⟨old ++ n.window.takeWhile fun front => decide (cfg.window ≤ now - front), ?_, ?_⟩
    · rw [List.append_assoc, hsplit]
      exact congrArg _ List.takeWhile_append_dropWhile.symm
    · intro s hs
      rcases List.mem_append.mp hs with hs | hs
      · exact hold s hs
      · have hdropped := List.mem_takeWhile_imp hs
        exact of_decide_eq_true hdropped
  next := h.next
  spaced := h.spaced
  windowed := h.windowed

/-- The slot that a node grants lies behind the others as the budgets ask for. -/
theorem grant (h : n.Kept cfg now slots) (hfree : n.window.length < cfg.windowLimit) :
    ({ n with nextSlot := max n.nextSlot now + cfg.spacing,
              window := n.window ++ [max n.nextSlot now] } : NodeState).Kept cfg now
      (slots ++ [max n.nextSlot now]) := by
  obtain ⟨old, hsplit, hold⟩ := h.split
  have hspaced : Spaced 1 cfg.spacing (slots ++ [max n.nextSlot now]) :=
    h.spaced.concat Nat.one_pos fun i s hi hs => (h.next i s hi hs).trans (Nat.le_max_left _ _)
  refine ⟨⟨old, ?_, hold⟩, ?_, hspaced, ?_⟩
  · rw [hsplit, List.append_assoc]
  · intro i s hi hs
    have hlast : i = slots.length := by
      rw [List.length_append, List.length_singleton] at hi
      omega
    rw [hlast, List.getElem?_append_right le_rfl, Nat.sub_self] at hs
    rw [← Option.some.inj hs]
  · refine h.windowed.concat (Nat.zero_lt_of_lt hfree) fun i s hi hs => ?_
    have hmem : s ∈ slots := List.mem_of_getElem? hs
    have hage : cfg.window ≤ now - s := by
      -- the window holds less than its limit, so that this slot has left it
      have hlength := congrArg List.length hsplit
      rw [List.length_append] at hlength
      rw [hsplit, List.getElem?_append_left (by omega)] at hs
      exact hold s (List.mem_of_getElem? hs)
    have hbehind : s ≤ max n.nextSlot now :=
      (List.pairwise_append.mp hspaced.pairwise).2.2 s hmem _ (List.mem_singleton_self _)
    omega

end Kept

end NodeState

namespace NodePool

variable {cfg : RateLimitConfig} {now : Nat} {nodes : List NodeState}

/-- The node that `acquire` picks is not passed over, and its slot is the next one. -/
theorem best_spec {i slot : Nat} (h : best cfg now nodes = some (i, slot)) :
    ∃ n, nodes[i]? = some n ∧ n.skipped cfg now = false ∧ slot = max n.nextSlot now := by
  have hfold : ∀ (rest : List (NodeState × Nat)) (found : Option (Nat × Nat)),
      (∀ e ∈ rest, nodes[e.2]? = some e.1) →
      (∀ j s, found = some (j, s) →
        ∃ n, nodes[j]? = some n ∧ n.skipped cfg now = false ∧ s = max n.nextSlot now) →
      ∀ j s, rest.foldl (fun best (n, i) =>
        if n.skipped cfg now then best
        else
          let slot := max n.nextSlot now
          if best.all fun (_, s) => decide (slot < s) then some (i, slot) else best) found =
          some (j, s) →
        ∃ n, nodes[j]? = some n ∧ n.skipped cfg now = false ∧ s = max n.nextSlot now := by
    intro rest
    induction rest with
    | nil =>
        intro found _ hfound j s hj
        exact hfound j s hj
    | cons e rest ih =>
        intro found hrest hfound j s hj
        refine ih _ (fun e' he' => hrest e' (List.mem_cons_of_mem _ he')) ?_ j s hj
        intro k t hk
        dsimp only at hk
        split_ifs at hk with hskipped hbest
        · exact hfound k t hk
        · cases hk
          rw [Bool.not_eq_true] at hskipped
          exact ⟨e.1, hrest e List.mem_cons_self, hskipped, rfl⟩
        · exact hfound k t hk
  refine hfold nodes.zipIdx none ?_ ?_ i slot h
  · rintro ⟨n, j⟩ he
    exact List.mem_zipIdx_iff_getElem?.mp he
  · intro j s hj
    cases hj

/-- What one round of `acquire` does to the nodes. -/
theorem acquire_cases (cfg : RateLimitConfig) (now : Nat) (pool : NodePool) :
    (∃ i n, (pool.nodes.map (·.prune now cfg.window))[i]? = some n ∧ n.skipped cfg now = false ∧
      pool.acquire cfg now = (.inl ⟨i, n.url, n.host, max n.nextSlot now⟩,
        { nodes := (pool.nodes.map (·.prune now cfg.window)).set i
            { n with nextSlot := max n.nextSlot now + cfg.spacing,
                     window := n.window ++ [max n.nextSlot now] },
          lastUsed := i })) ∨
    (∃ sleep, pool.acquire cfg now =
      (.inr sleep, { pool with nodes := pool.nodes.map (·.prune now cfg.window) })) := by
  unfold acquire
  dsimp only
  cases hbest : best cfg now (pool.nodes.map (·.prune now cfg.window)) with
  | none => exact .inr ⟨_, rfl⟩
  | some found =>
      obtain ⟨n, hn, hskipped, hslot⟩ := best_spec hbest
      left
      refine ⟨found.1, n, hn, hskipped, ?_⟩
      simp only [Option.bind_some, hn, Option.map_some, hslot]

end NodePool

namespace PoolRun

variable {cfg : RateLimitConfig} {urls : List Text} {r : PoolRun} {now : Nat}

/-- Every node keeps what has been granted on it. -/
structure Kept (cfg : RateLimitConfig) (r : PoolRun) : Prop where
  nodes : ∀ (i : Nat) (n : NodeState), r.pool.nodes[i]? = some n → n.Kept cfg r.now (r.slotsOf i)
  bounded : ∀ lease ∈ r.leases, lease.index < r.pool.nodes.length
  none : cfg.windowLimit = 0 → r.leases = []

theorem kept_start (urls : List Text) (now : Nat) : (start urls now).Kept cfg where
  nodes i n hn := by
    obtain ⟨u, -, rfl⟩ := List.mem_map.mp (List.mem_of_getElem? hn)
    refine ⟨⟨[], rfl, List.forall_mem_nil _⟩, ?_, Spaced.nil _ _, Spaced.nil _ _⟩
    intro i s _ hs
    cases hs
  bounded := List.forall_mem_nil _
  none _ := rfl

/-- A call that grants no slot. -/
theorem Kept.frame (h : r.Kept cfg) {pool : NodePool}
    (hlength : pool.nodes.length = r.pool.nodes.length)
    (hnodes : ∀ (i : Nat) (m : NodeState), pool.nodes[i]? = some m → m.Kept cfg now (r.slotsOf i)) :
    ({ r with now := now, pool := pool } : PoolRun).Kept cfg where
  nodes := hnodes
  bounded lease hlease := hlength ▸ h.bounded lease hlease
  none := h.none

/-- A call that rewrites one node, but neither its window nor its next slot. -/
theorem Kept.rewrite (h : r.Kept cfg) (hlater : r.now ≤ now) {index : Nat} {lastUsed : Nat}
    {f : NodeState → NodeState} (hf : ∀ n, (f n).window = n.window ∧ (f n).nextSlot = n.nextSlot) :
    ({ r with now := now, pool := ⟨r.pool.nodes.modify index f, lastUsed⟩ } : PoolRun).Kept cfg := by
  refine h.frame (List.length_modify f _ _) fun i m hm => ?_
  rw [List.getElem?_modify] at hm
  obtain ⟨n, hn, rfl⟩ := Option.map_eq_some_iff.mp hm
  have hkept := (h.nodes i n hn).later hlater
  split_ifs
  · exact hkept.congr (hf n).1 (hf n).2
  · exact hkept

theorem Kept.prune (h : r.Kept cfg) (hlater : r.now ≤ now) :
    ∀ (i : Nat) (n : NodeState), (r.pool.nodes.map (·.prune now cfg.window))[i]? = some n →
      n.Kept cfg now (r.slotsOf i) := by
  intro i n hn
  rw [List.getElem?_map, Option.map_eq_some_iff] at hn
  obtain ⟨m, hm, rfl⟩ := hn
  exact ((h.nodes i m hm).later hlater).prune

theorem slotsOf_granted (r : PoolRun) (pool : NodePool) (now i : Nat) (lease : Lease) :
    ({ pool := pool, now := now, leases := r.leases ++ [lease] } : PoolRun).slotsOf i =
      if lease.index = i then r.slotsOf i ++ [lease.slot] else r.slotsOf i := by
  unfold slotsOf
  rw [List.filter_append, List.map_append]
  by_cases hi : lease.index = i
  · rw [if_pos hi, List.filter_cons_of_pos (by rw [beq_iff_eq]; exact hi), List.filter_nil,
      List.map_singleton]
  · rw [if_neg hi, List.filter_cons_of_neg (by rw [beq_iff_eq]; exact hi), List.filter_nil,
      List.map_nil, List.append_nil]

theorem Kept.acquire (h : r.Kept cfg) (hlater : r.now ≤ now) : (r.step cfg now .acquire).Kept cfg := by
  have hpruned := h.prune hlater
  unfold step
  rcases NodePool.acquire_cases cfg now r.pool with ⟨i, n, hn, hskipped, hgrant⟩ | ⟨sleep, hwait⟩
  · rw [hgrant]
    have hi := (List.getElem?_eq_some_iff.mp hn).1
    have hfree : n.window.length < cfg.windowLimit := by
      unfold NodeState.skipped at hskipped
      rw [Bool.or_eq_false_iff, decide_eq_false_iff_not, not_le] at hskipped
      exact hskipped.2
    constructor
    · intro j m hm
      dsimp only [Sum.getLeft?, Option.toList_some] at hm ⊢
      rw [slotsOf_granted]
      dsimp only
      by_cases hij : i = j
      · subst hij
        rw [List.getElem?_set_self hi] at hm
        obtain rfl := Option.some.inj hm
        rw [if_pos rfl]
        exact (hpruned i n hn).grant hfree
      · rw [List.getElem?_set_ne hij] at hm
        rw [if_neg hij]
        exact hpruned j m hm
    · intro lease hlease
      rw [List.length_map] at hi
      dsimp only
      rw [List.length_set, List.length_map]
      rcases List.mem_append.mp hlease with hlease | hlease
      · exact h.bounded lease hlease
      · rw [List.mem_singleton.mp hlease]
        exact hi
    · intro hlimit
      exact absurd hfree (by rw [hlimit]; exact Nat.not_lt_zero _)
  · rw [hwait]
    constructor
    · intro j m hm
      have hslots : ∀ pool, ({ pool := pool, now := now, leases := r.leases ++ [] } : PoolRun).slotsOf j =
          r.slotsOf j := by
        intro pool
        unfold slotsOf
        rw [List.append_nil]
      exact (hslots _).symm ▸ hpruned j m hm
    · intro lease hlease
      dsimp only [Sum.getLeft?, Option.toList_none] at hlease ⊢
      rw [List.append_nil] at hlease
      rw [List.length_map]
      exact h.bounded lease hlease
    · intro hlimit
      exact (List.append_nil _).trans (h.none hlimit)

theorem Kept.step (h : r.Kept cfg) (hlater : r.now ≤ now) (call : PoolCall) :
    (r.step cfg now call).Kept cfg := by
  cases call with
  | acquire => exact h.acquire hlater
  | success lease => exact h.rewrite hlater fun n => ⟨rfl, rfl⟩
  | rateLimited lease => exact h.rewrite hlater fun n => ⟨rfl, rfl⟩
  | failure lease =>
      refine h.rewrite hlater fun n => ?_
      unfold NodeState.failed
      split_ifs
      · exact ⟨rfl, rfl⟩
      · exact ⟨rfl, rfl⟩
  | status => exact h.frame (List.length_map _) (h.prune hlater)

theorem kept_of_reaches (h : Reaches cfg urls r) : r.Kept cfg := by
  induction h with
  | start now => exact kept_start urls now
  | step _ hlater call ih => exact ih.step hlater call

theorem Kept.spaced (h : r.Kept cfg) (i : Nat) :
    Spaced 1 cfg.spacing (r.slotsOf i) ∧ Spaced cfg.windowLimit cfg.window (r.slotsOf i) := by
  by_cases hi : i < r.pool.nodes.length
  · have hkept := h.nodes i _ (List.getElem?_eq_getElem hi)
    exact ⟨hkept.spaced, hkept.windowed⟩
  · have hnone : r.slotsOf i = [] := by
      unfold slotsOf
      rw [List.filter_eq_nil_iff.mpr ?_, List.map_nil]
      intro lease hlease hindex
      have hbound := h.bounded lease hlease
      rw [beq_iff_eq.mp hindex] at hbound
      exact hi hbound
    rw [hnone]
    exact ⟨Spaced.nil _ _, Spaced.nil _ _⟩

/-- The sliding window of a node is never overdrawn. -/
theorem slotsWithin_window (h : Reaches cfg urls r) (i t : Nat) :
    r.slotsWithin i t cfg.window ≤ cfg.windowLimit := by
  have hspaced := (kept_of_reaches h).spaced i
  exact hspaced.2.count_le hspaced.1.pairwise t

/-- The rate of a node is kept when the closest slots allow no more. -/
theorem slotsWithin_second (h : Reaches cfg urls r)
    (hrate : oneSecond ≤ closest cfg.windowLimit cfg.window cfg.spacing cfg.perNodeRps) (i t : Nat) :
    r.slotsWithin i t oneSecond ≤ cfg.perNodeRps := by
  have hspaced := (kept_of_reaches h).spaced i
  exact ((hspaced.1.closest hspaced.2 _).mono hrate).count_le hspaced.1.pairwise t

section Fastest

/-- The time of the slot with a number, when a single node is asked as fast as it grants. -/
def fastest (cfg : RateLimitConfig) (k : Nat) : Nat :=
  closest cfg.windowLimit cfg.window cfg.spacing k

/-- A pool of one node that has granted `k` slots as fast as it can. -/
structure Fast (cfg : RateLimitConfig) (k : Nat) (r : PoolRun) (n : NodeState) : Prop where
  single : r.pool.nodes = [n]
  free : n.parkedUntil = none
  next : n.nextSlot ≤ fastest cfg k
  window : n.window <:+ (List.range k).map (fastest cfg)
  time : r.now ≤ fastest cfg k
  slots : r.slotsOf 0 = (List.range k).map (fastest cfg)

theorem fastest_mono {k l : Nat} (hlimit : 0 < cfg.windowLimit) (h : k ≤ l) :
    fastest cfg k ≤ fastest cfg l := by
  induction h with
  | refl => exact le_rfl
  | step _ ih => exact (ih.trans (Nat.le_add_right _ _)).trans (closest_succ _ _ _ _ hlimit)

/-- After the slots of the past are dropped, the window of the node has room. -/
theorem Fast.room {k : Nat} {n : NodeState} (h : Fast cfg k r n) (hlimit : 0 < cfg.windowLimit) :
    (n.prune (fastest cfg k) cfg.window).window.length < cfg.windowLimit := by
  by_contra hfull
  rw [not_lt] at hfull
  set kept := (n.prune (fastest cfg k) cfg.window).window with hkept
  have hsuffix : kept <:+ (List.range k).map (fastest cfg) :=
    (List.dropWhile_suffix _).trans h.window
  obtain ⟨old, hold⟩ := hsuffix
  have hlength := congrArg List.length hold
  rw [List.length_append, List.length_map, List.length_range] at hlength
  cases hhead : kept with
  | nil =>
      rw [hhead] at hfull
      exact absurd hlimit (Nat.not_lt.mpr hfull)
  | cons s rest =>
      -- the first slot that is kept has more than a window of slots behind it
      have hs : s = fastest cfg old.length := by
        have hget : ((List.range k).map (fastest cfg))[old.length]? = some s := by
          rw [← hold, List.getElem?_append_right le_rfl, Nat.sub_self, hhead]
          rfl
        rw [List.getElem?_map, List.getElem?_range (by rw [hhead] at hlength hfull; omega)] at hget
        exact (Option.some.inj hget).symm
      have hyoung : ¬ cfg.window ≤ fastest cfg k - s := by
        have hdropped : kept = n.window.dropWhile
            fun front => decide (cfg.window ≤ fastest cfg k - front) := rfl
        have hfirst := List.head_dropWhile_not
          (fun front => decide (cfg.window ≤ fastest cfg k - front)) (l := n.window)
          (by rw [← hdropped, hhead]; exact List.cons_ne_nil _ _)
        simp only [← hdropped, hhead, List.head_cons] at hfirst
        exact of_decide_eq_false hfirst
      have hspan : fastest cfg old.length + cfg.window ≤ fastest cfg k := by
        have hadd := closest_add cfg.windowLimit cfg.window cfg.spacing old.length hlimit
        have hle : fastest cfg (old.length + cfg.windowLimit) ≤ fastest cfg k :=
          fastest_mono hlimit (by omega)
        have hwindow : cfg.window ≤ max cfg.window (cfg.windowLimit * cfg.spacing) :=
          Nat.le_max_left _ _
        unfold fastest at hle ⊢
        omega
      rw [hs] at hyoung
      omega

theorem Fast.step {k : Nat} {n : NodeState} (h : Fast cfg k r n) (hlimit : 0 < cfg.windowLimit) :
    ∃ m, Fast cfg (k + 1) (r.step cfg (fastest cfg k) .acquire) m := by
  have hroom := h.room hlimit
  have hnow : max n.nextSlot (fastest cfg k) = fastest cfg k := Nat.max_eq_right h.next
  have hpruned : r.pool.nodes.map (·.prune (fastest cfg k) cfg.window) =
      [n.prune (fastest cfg k) cfg.window] := by
    rw [h.single]
    rfl
  have hskipped : (n.prune (fastest cfg k) cfg.window).skipped cfg (fastest cfg k) = false := by
    unfold NodeState.skipped NodeState.parked
    rw [Bool.or_eq_false_iff, decide_eq_false_iff_not, not_le]
    refine ⟨?_, hroom⟩
    change n.parkedUntil.any _ = false
    rw [h.free]
    rfl
  have hacquire : r.pool.acquire cfg (fastest cfg k) =
      (.inl ⟨0, n.url, n.host, fastest cfg k⟩,
        ⟨[{ n.prune (fastest cfg k) cfg.window with
            nextSlot := fastest cfg k + cfg.spacing,
            window := (n.prune (fastest cfg k) cfg.window).window ++ [fastest cfg k] }], 0⟩) := by
    have hbest : NodePool.best cfg (fastest cfg k) [n.prune (fastest cfg k) cfg.window] =
        some (0, fastest cfg k) := by
      unfold NodePool.best
      simp only [List.zipIdx_singleton, List.foldl_cons, List.foldl_nil, hskipped]
      change some (0, max n.nextSlot (fastest cfg k)) = _
      rw [hnow]
    unfold NodePool.acquire
    dsimp only
    rw [hpruned, hbest]
    rfl
  have hlater : fastest cfg k ≤ fastest cfg (k + 1) := fastest_mono hlimit (Nat.le_succ k)
  unfold PoolRun.step
  rw [hacquire]
  refine ⟨_, rfl, h.free, closest_succ _ _ _ _ hlimit, ?_, hlater, ?_⟩
  · obtain ⟨old, hold⟩ := (List.dropWhile_suffix
      (fun front => decide (cfg.window ≤ fastest cfg k - front))).trans h.window
    refine ⟨old, ?_⟩
    rw [List.range_succ, List.map_append, ← hold, List.append_assoc]
    rfl
  · dsimp only [Sum.getLeft?, Option.toList_some]
    rw [slotsOf_granted, if_pos rfl, h.slots, List.range_succ, List.map_append, List.map_singleton]

theorem exists_fast (hlimit : 0 < cfg.windowLimit) (k : Nat) :
    ∃ r n, Reaches cfg [""] r ∧ Fast cfg k r n := by
  induction k with
  | zero =>
      refine ⟨_, _, .start 0, rfl, rfl, Nat.zero_le _, List.suffix_rfl, Nat.zero_le _, rfl⟩
  | succ k ih =>
      obtain ⟨r, n, hr, hfast⟩ := ih
      obtain ⟨m, hm⟩ := hfast.step hlimit
      exact ⟨_, m, hr.step hfast.time .acquire, hm⟩

/-- A node that is asked as fast as it grants gets one slot more than its rate into a second,
when the closest slots allow it. -/
theorem exists_overrun (hlimit : 0 < cfg.windowLimit)
    (hrate : closest cfg.windowLimit cfg.window cfg.spacing cfg.perNodeRps < oneSecond) :
    ∃ r, Reaches cfg [""] r ∧ cfg.perNodeRps < r.slotsWithin 0 0 oneSecond := by
  obtain ⟨r, n, hr, hfast⟩ : ∃ r n, Reaches cfg [""] r ∧ Fast cfg (cfg.perNodeRps + 1) r n :=
    exists_fast hlimit _
  refine ⟨r, hr, ?_⟩
  have hall : ∀ s ∈ r.slotsOf 0, decide (0 ≤ s ∧ s < 0 + oneSecond) = true := by
    intro s hs
    rw [hfast.slots] at hs
    obtain ⟨k, hk, rfl⟩ := List.mem_map.mp hs
    have hle : fastest cfg k ≤ fastest cfg cfg.perNodeRps :=
      fastest_mono hlimit (Nat.lt_succ_iff.mp (List.mem_range.mp hk))
    rw [decide_eq_true_eq, Nat.zero_add]
    exact ⟨Nat.zero_le _, hle.trans_lt hrate⟩
  unfold slotsWithin
  rw [List.filter_eq_self.mpr hall, hfast.slots, List.length_map, List.length_range]
  exact Nat.lt_succ_self _

end Fastest

/-- The rate is kept in every run exactly when one slot more than the rate, as close as spacing and
window allow, takes at least a second. -/
theorem budgeted_iff (cfg : RateLimitConfig) :
    (∀ (urls : List Text) (r : PoolRun), Reaches cfg urls r → r.Budgeted cfg) ↔
      cfg.windowLimit = 0 ∨
        oneSecond ≤ closest cfg.windowLimit cfg.window cfg.spacing cfg.perNodeRps := by
  constructor
  · intro hall
    by_contra hnot
    rw [not_or, not_le] at hnot
    obtain ⟨r, hr, hover⟩ := exists_overrun (Nat.pos_of_ne_zero hnot.1) hnot.2
    exact hover.not_ge (hall [""] r hr 0 0).2
  · intro hcfg urls r hr i t
    refine ⟨slotsWithin_window hr i t, ?_⟩
    rcases hcfg with hnone | hrate
    · -- no slot is granted at all
      unfold slotsWithin slotsOf
      rw [(kept_of_reaches hr).none hnone]
      exact Nat.zero_le _
    · exact slotsWithin_second hr hrate i t

/-- A rate that divides the thousand milliseconds of a second is kept, whatever the window. -/
theorem budgeted_of_dvd (hdvd : cfg.perNodeRps ∣ 1000) (h : Reaches cfg urls r) :
    r.Budgeted cfg := by
  have hrate : oneSecond ≤ closest cfg.windowLimit cfg.window cfg.spacing cfg.perNodeRps := by
    refine (le_of_eq ?_).trans (mul_le_closest _ _ _ _)
    have hpos : max cfg.perNodeRps 1 = cfg.perNodeRps :=
      Nat.max_eq_left (Nat.pos_of_dvd_of_pos hdvd (by decide))
    unfold RateLimitConfig.spacing oneSecond millis
    rw [hpos, ← Nat.mul_assoc, Nat.mul_div_cancel' hdvd]
  exact fun i t => ⟨slotsWithin_window h i t, slotsWithin_second h hrate i t⟩

theorem Reaches.acquire {times : List Nat} (h : Reaches cfg urls r)
    (hsorted : (r.now :: times).IsChain (· ≤ ·)) :
    Reaches cfg urls (times.foldl (fun r now => r.step cfg now .acquire) r) := by
  induction times generalizing r with
  | nil => exact h
  | cons now times ih =>
      rw [List.isChain_cons_cons] at hsorted
      exact ih (h.step hsorted.1 .acquire) hsorted.2

/-- Three requests a second: four slots at a third of a second each are less than a second. -/
def thirds : RateLimitConfig := { perNodeRps := 3 }

def thirdsRun : PoolRun :=
  [0, millis 333, millis 666, millis 999].foldl (fun r now => r.step thirds now .acquire)
    (start ["https://node0.example"] 0)

theorem thirds_overrun : Reaches thirds ["https://node0.example"] thirdsRun ∧
    thirdsRun.slotsOf 0 = [0, millis 333, millis 666, millis 999] ∧
    thirdsRun.slotsWithin 0 0 oneSecond = 4 ∧ ¬ thirdsRun.Budgeted thirds := by
  have hcount : thirdsRun.slotsWithin 0 0 oneSecond = 4 := by decide +kernel
  refine ⟨(Reaches.start 0).acquire (by decide), by decide +kernel, hcount, fun h => ?_⟩
  have hrate := (h 0 0).2
  rw [hcount] at hrate
  exact absurd hrate (by decide)

end PoolRun

end SthCore
