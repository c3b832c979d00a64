import SthCore.Chain.Timestamps
import SthCore.Lib.Cursor
import SthCore.Storage.Listing

/-!
Fee statistics by calendar day.  Days that ended some time ago are answered
from a cache, the others from one walk over the chain.
-/

namespace SthCore

open SthCore.Lib

/-- The fees of the transactions of one kind. -/
structure FeeAgg where
  count : UInt64 := 0
  sum : UInt64 := 0
  max : UInt64 := 0
  min : UInt64 := 18446744073709551615
  deriving DecidableEq

def FeeAgg.add (a : FeeAgg) (fee : UInt64) : FeeAgg where
  count := a.count + 1
  sum := a.sum + fee
  max := if a.max ≤ fee then fee else a.max
  min := if fee < a.min then fee else a.min

/-- What a walk collects of one day. -/
structure FeeBucket where
  count : UInt64 := 0
  sum : UInt64 := 0
  blocks : OrderedMap Nat Unit := ∅
  types : OrderedMap (UInt32 × UInt16) FeeAgg := ∅

def FeeBucket.add (b : FeeBucket) (v : Visited) : FeeBucket where
  count := b.count + 1
  sum := b.sum + v.tx.fee
  blocks := b.blocks.insert v.height ()
  types := b.types.upsert (v.tx.typeGroup, v.tx.type) {} fun a => a.add v.tx.fee

/-- One day of an answer. -/
structure FeeDay where
  start : Int
  stop : Int
  count : UInt64
  sum : UInt64
  blocks : Nat
  types : List ((UInt32 × UInt16) × FeeAgg)
  deriving DecidableEq

/-- The seconds of a day. -/
def daySeconds : Int := 86400

/-- The first second of the UTC day of a unix time. -/
def dayStart (unix : Int) : Int := unix - unix % daySeconds

def Network.dayOf (N : Network) (timestamp : UInt32) : Int :=
  dayStart (N.epochToUnix timestamp)

def FeeBucket.day (b : FeeBucket) (start : Int) : FeeDay where
  start := start
  stop := start + daySeconds
  count := b.count
  sum := b.sum
  blocks := b.blocks.size
  types := b.types.toList

/-- The buckets of all days of a walk. -/
def feeBuckets (N : Network) (visited : List Visited) : OrderedMap Int FeeBucket :=
  visited.foldl (fun m v => m.upsert (N.dayOf v.timestamp) {} fun b => b.add v) ∅

/-- `u32::MAX`, the open end of a span. -/
def lastTimestamp : UInt32 := 4294967295

/-- `scan_transactions`. -/
def Store.scanTransactions (E : Env) (s : Store) (start stop : UInt32) :
    Except Error (List Visited) := do
  match ← s.heightsForTimestamps E (some start) (some stop) with
  | none => return []
  | some ends => s.visit E (s.transactionIndex none ends.1 ends.2 true) none

structure FeesAnswer where
  days : Int
  epoch : Int
  cachedDays : Nat
  data : List FeeDay
  deriving DecidableEq

/-- The days an answer is about, oldest first. -/
def wantedDays (days now : Int) : List Int :=
  (List.range days.toNat).map fun i : Nat =>
    dayStart now - (days - 1) * daySeconds + (i : Int) * daySeconds

/-- A day is closed when it ended more than ten minutes ago. -/
def closedDay (now day : Int) : Bool := day + daySeconds < now - 600

/-- The walk from the first day that is not cached. -/
def Store.missingBuckets (E : Env) (s : Store) (cache : OrderedMap Int FeeDay) (wanted : List Int) :
    Except Error (OrderedMap Int FeeBucket) :=
  match wanted.find? fun d => cache[d]?.isNone with
  | none => .ok ∅
  | some start => do
      let visited ← s.scanTransactions E
        (E.network.unixToEpoch (max start E.network.epochUnix)) lastTimestamp
      return feeBuckets E.network visited

/-- `fees_by_day`: the answer and the cache afterwards. -/
def Store.feesByDay (E : Env) (s : Store) (cache : OrderedMap Int FeeDay) (asked : Option Int)
    (now : Int) : Except Error (FeesAnswer × OrderedMap Int FeeDay) := do
  let days := max 1 (min 90 (asked.getD 7))
  let wanted := wantedDays days now
  let buckets ← s.missingBuckets E cache wanted
  let computed := fun day => (buckets[day]?.getD {}).day day
  let data := wanted.map fun day => cache[day]?.getD (computed day)
  let kept := (wanted.filter fun day => cache[day]?.isNone && closedDay now day).foldl
    (fun c day => c.insert day (computed day)) cache
  return ({ days, epoch := E.network.epochUnix, cachedDays := kept.size, data }, kept)

/-- The bucket of a day holds the visits of that day. -/
theorem feeBuckets_getD (N : Network) (visited : List Visited) (day : Int) :
    (feeBuckets N visited)[day]?.getD {} =
      (visited.filter fun v => N.dayOf v.timestamp = day).foldl FeeBucket.add {} := by
  unfold feeBuckets
  induction visited using List.reverseRecOn with
  | nil => simp
  | append_singleton rest v ih =>
      rw [List.foldl_append, List.foldl_cons, List.foldl_nil, OrderedMap.getD_upsert,
        List.filter_append, List.foldl_append]
      by_cases h : N.dayOf v.timestamp = day
      · have hone : [v].filter (fun v => decide (N.dayOf v.timestamp = day)) = [v] := by
          simp [h]
        rw [if_pos h, h, ih, hone]
        rfl
      · have hnone : [v].filter (fun v => decide (N.dayOf v.timestamp = day)) = [] := by
          simp [h]
        rw [if_neg h, ih, hnone]
        rfl

namespace Store

variable {E : Env} {s s' : Store}

/-- All transactions the index leads to, in the order of the chain. -/
def listed (E : Env) (s : Store) : List Visited := (s.indexEntries none).filterMap (s.entryAt E)

/-- The chain is stored from its first height on, reads back, and does not age backwards. -/
structure Dated (E : Env) (s : Store) : Prop extends s.Surveyed E where
  complete : s.Complete
  aged : s.Aged E

theorem blockAt_some {height : Nat} {b : Block} (h : s.blockAt E height = some b) :
    s.getBlockByHeight E height = .ok (some b) := by
  unfold blockAt at h
  cases hread : s.getBlockByHeight E height with
  | error e =>
      rw [hread] at h
      cases h
  | ok found =>
      rw [hread] at h
      rw [show found = some b from h]

theorem entryAt_some {e : TxIndexEntry} {v : Visited} (h : s.entryAt E e = some v) :
    v.height = e.height ∧ ∃ b, s.blockAt E e.height = some b ∧ b.timestamp = v.timestamp ∧
      b.transactions ≠ [] := by
  unfold entryAt at h
  obtain ⟨b, hb, h⟩ := Option.bind_eq_some_iff.mp h
  obtain ⟨tx, htx, rfl⟩ := Option.map_eq_some_iff.mp h
  refine ⟨rfl, b, hb, rfl, ?_⟩
  intro hempty
  unfold Block.txOf at htx
  simp [hempty] at htx

theorem entryAt_stamped {e : TxIndexEntry} {v : Visited} (h : s.entryAt E e = some v) :
    s.StampedAt E e.height v.timestamp := by
  obtain ⟨-, b, hb, hts, -⟩ := entryAt_some h
  exact ⟨b, blockAt_some hb, hts⟩

/-- A walk from a time on reaches the transactions from that time on. -/
theorem scanTransactions_ok (h : s.Dated E) (start : UInt32) :
    s.scanTransactions E start lastTimestamp = .ok ((s.listed E).filter fun v =>
      start ≤ v.timestamp ∧ v.timestamp < lastTimestamp) := by
  unfold scanTransactions
  by_cases htip : s.lastHeight = 0
  · have hnone : s.heightsForTimestamps E (some start) (some lastTimestamp) = .ok none := by
      unfold heightsForTimestamps
      dsimp only
      rw [if_pos htip]
    have hempty : s.listed E = [] := by
      refine List.filterMap_eq_nil_iff.mpr fun e he => ?_
      cases hv : s.entryAt E e with
      | none => rfl
      | some v =>
          have hin := h.inside e.height (entryAt_stamped hv).stored
          omega
    rw [hnone, hempty]
    rfl
  · obtain ⟨lo, hlo, -, -, hlow⟩ :=
      heightAtOrAfter_ok h.toSurveyed h.complete h.aged htip start
    obtain ⟨next, hnext, hpos, -, hhigh⟩ :=
      heightAtOrAfter_ok h.toSurveyed h.complete h.aged htip (nextSecond lastTimestamp)
    have hspan : s.heightsForTimestamps E (some start) (some lastTimestamp) =
        .ok (if lo ≤ next - 1 ∧ lo ≤ s.lastHeight then some (lo, min (next - 1) s.lastHeight)
          else none) := by
      unfold heightsForTimestamps lowerHeight upperHeight
      dsimp only
      rw [if_neg htip, hlo, ok_bind, hnext]
      rfl
    have hends : ∀ e v, s.entryAt E e = some v →
        ((lo ≤ e.height ∧ e.height ≤ min (next - 1) s.lastHeight) ↔
          (start ≤ v.timestamp ∧ v.timestamp < lastTimestamp)) := by
      intro e v hv
      have hstamp := entryAt_stamped hv
      have hin := h.inside e.height hstamp.stored
      have hstart := hlow _ _ hstamp
      have hstop : e.height < next ↔ v.timestamp < lastTimestamp := hhigh _ _ hstamp
      rw [← hstop, ← UInt32.not_lt, ← hstart]
      omega
    rw [hspan, ok_bind]
    by_cases hsome : lo ≤ next - 1 ∧ lo ≤ s.lastHeight
    · have hcut := filterMap_filter_of_iff (p := fun e : TxIndexEntry =>
        lo ≤ e.height ∧ e.height ≤ min (next - 1) s.lastHeight) (f := s.entryAt E)
        (q := fun v => start ≤ v.timestamp ∧ v.timestamp < lastTimestamp)
        (fun e v hv => by simpa using hends e v hv) (s.indexEntries none)
      rw [if_pos hsome]
      dsimp only
      rw [visit_ok h.read _ (by rintro c ⟨⟩)]
      exact congrArg Except.ok hcut
    · rw [if_neg hsome]
      have hempty : (s.listed E).filter (fun v =>
          start ≤ v.timestamp ∧ v.timestamp < lastTimestamp) = [] := by
        refine List.filter_eq_nil_iff.mpr fun v hv => ?_
        obtain ⟨e, -, hev⟩ := List.mem_filterMap.mp hv
        have hend := hends e v hev
        rw [decide_eq_true_eq, ← hend]
        omega
      rw [hempty]
      rfl

/-- The transactions of a day. -/
def dayEntries (E : Env) (s : Store) (day : Int) : List Visited :=
  (s.listed E).filter fun v => v.timestamp < lastTimestamp ∧ E.network.dayOf v.timestamp = day

/-- What a day of the chain amounts to. -/
def dayTotals (E : Env) (s : Store) (day : Int) : FeeDay :=
  ((s.dayEntries E day).foldl FeeBucket.add {}).day day

theorem wantedDays_sorted (days now : Int) : (wantedDays days now).Pairwise (· ≤ ·) := by
  unfold wantedDays
  rw [List.pairwise_map]
  refine List.pairwise_lt_range.imp ?_
  intro i j hij
  unfold daySeconds
  omega

theorem dayStart_le (unix : Int) : dayStart unix ≤ unix := by
  unfold dayStart daySeconds
  omega

/-- A walk from a day on misses nothing of the days from there on. -/
theorem dayEntries_of_scan {start day : Int} (hle : start ≤ day) :
    (((s.listed E).filter fun v =>
      E.network.unixToEpoch (max start E.network.epochUnix) ≤ v.timestamp ∧
        v.timestamp < lastTimestamp).filter fun v => E.network.dayOf v.timestamp = day) =
      s.dayEntries E day := by
  unfold dayEntries
  rw [List.filter_filter]
  refine List.filter_congr fun v _ => ?_
  rw [Bool.eq_iff_iff]
  simp only [Bool.and_eq_true, decide_eq_true_eq]
  constructor
  · rintro ⟨hday, -, hlast⟩
    exact ⟨hlast, hday⟩
  · rintro ⟨hlast, hday⟩
    refine ⟨hday, ?_, hlast⟩
    have hbefore : day ≤ E.network.epochUnix + v.timestamp.toNat := by
      rw [← hday]
      exact dayStart_le _
    have hlt := v.timestamp.toNat_lt
    unfold Network.unixToEpoch
    rw [UInt32.le_iff_toNat_le, UInt32.toNat_ofNat']
    have hsmall : (max start E.network.epochUnix - E.network.epochUnix).toNat ≤
        v.timestamp.toNat := by
      omega
    exact (Nat.mod_le _ _).trans hsmall

theorem missingBuckets_ok (h : s.Dated E) (cache : OrderedMap Int FeeDay) {wanted : List Int}
    (hsorted : wanted.Pairwise (· ≤ ·)) :
    ∃ buckets, s.missingBuckets E cache wanted = .ok buckets ∧
      ∀ day ∈ wanted, cache[day]? = none → (buckets[day]?.getD {}).day day = s.dayTotals E day := by
  unfold missingBuckets
  cases hfind : wanted.find? fun d => cache[d]?.isNone with
  | none =>
      refine ⟨∅, rfl, fun day hday hnone => ?_⟩
      have hcached := List.find?_eq_none.mp hfind day hday
      rw [hnone] at hcached
      exact absurd rfl hcached
  | some start =>
      obtain ⟨-, front, rest, hsplit, hfront⟩ := List.find?_eq_some_iff_append.mp hfind
      dsimp only
      rw [scanTransactions_ok h]
      refine ⟨_, rfl, fun day hday hnone => ?_⟩
      have hle : start ≤ day := by
        rw [hsplit] at hday hsorted
        rcases List.mem_append.mp hday with hbefore | hafter
        · have hcached := hfront day hbefore
          rw [hnone] at hcached
          cases hcached
        · rcases List.mem_cons.mp hafter with rfl | hafter
          · exact le_rfl
          · exact (List.pairwise_cons.mp (List.pairwise_append.mp hsorted).2.1).1 day hafter
      rw [feeBuckets_getD, dayEntries_of_scan hle]
      rfl

theorem get_foldl_insert {f : Int → FeeDay} {days : List Int} {cache : OrderedMap Int FeeDay}
    {day : Int} {v : FeeDay}
    (h : (days.foldl (fun kept day => kept.insert day (f day)) cache)[day]? = some v) :
    cache[day]? = some v ∨ (day ∈ days ∧ v = f day) := by
  induction days generalizing cache with
  | nil => exact .inl h
  | cons d rest ih =>
      rcases ih h with hv | ⟨hmem, hv⟩
      · rw [OrderedMap.getElem?_insert_eq] at hv
        split_ifs at hv with hsame
        · subst hsame
          injection hv with hv
          exact .inr ⟨List.mem_cons_self, hv.symm⟩
        · exact .inl hv
      · exact .inr ⟨List.mem_cons_of_mem d hmem, hv⟩

/-- On a dated chain a cached day is answered from the cache and any other day from the chain;
what is cached anew comes from the chain. -/
theorem feesByDay_ok (h : s.Dated E) (cache : OrderedMap Int FeeDay) (asked : Option Int)
    (now : Int) : ∃ answer kept, s.feesByDay E cache asked now = .ok (answer, kept) ∧
      answer.days = max 1 (min 90 (asked.getD 7)) ∧ answer.epoch = E.network.epochUnix ∧
      answer.data = (wantedDays (max 1 (min 90 (asked.getD 7))) now).map
        (fun day => cache[day]?.getD (s.dayTotals E day)) ∧
      ∀ day v, kept[day]? = some v → cache[day]? = some v ∨ v = s.dayTotals E day := by
  obtain ⟨buckets, hbuckets, htotals⟩ := missingBuckets_ok h cache
    (wantedDays_sorted (max 1 (min 90 (asked.getD 7))) now)
  unfold feesByDay
  dsimp only
  rw [hbuckets, ok_bind]
  refine ⟨_, _, rfl, rfl, rfl, ?_, ?_⟩
  · refine List.map_congr_left fun day hday => ?_
    cases hcached : cache[day]? with
    | some v => rfl
    | none => exact htotals day hday hcached
  · intro day v hv
    rcases get_foldl_insert hv with hv | ⟨hday, rfl⟩
    · exact .inl hv
    · obtain ⟨hwanted, hclosed⟩ := List.mem_filter.mp hday
      simp only [Bool.and_eq_true, Option.isNone_iff_eq_none] at hclosed
      exact .inr (htotals day hwanted hclosed.1)

/-! ## Changes of the chain -/

/-- A change that is confined to one height. -/
structure ChangedAt (height : Nat) (s s' : Store) : Prop where
  blocks : ∀ other, other ≠ height → s'.blocks[other]? = s.blocks[other]?
  list : ∀ key : Nat × UInt32, key.1 ≠ height → s'.txList[key]? = s.txList[key]?

/-- The block at a height, if any, has no transactions on a day. -/
def Quiet (E : Env) (s : Store) (height : Nat) (day : Int) : Prop :=
  ∀ b, s.blockAt E height = some b → b.transactions = [] ∨ E.network.dayOf b.timestamp ≠ day

theorem dayEntries_of_quiet {height : Nat} {day : Int} (h : s.Quiet E height day) :
    s.dayEntries E day = (((s.indexEntries none).filter fun e => e.height ≠ height).filterMap
      (s.entryAt E)).filter fun v =>
        v.timestamp < lastTimestamp ∧ E.network.dayOf v.timestamp = day := by
  have hcut := filterMap_filter_of_iff (p := fun e : TxIndexEntry => decide (e.height ≠ height))
    (q := fun v : Visited => decide (v.height ≠ height)) (f := s.entryAt E) (by
      intro e v hv
      rw [(entryAt_some hv).1]) (s.indexEntries none)
  unfold dayEntries
  rw [hcut, List.filter_filter]
  refine List.filter_congr fun v hv => ?_
  rw [Bool.eq_iff_iff]
  simp only [Bool.and_eq_true, decide_eq_true_eq]
  constructor
  · rintro ⟨hlast, hday⟩
    refine ⟨⟨hlast, hday⟩, ?_⟩
    rintro rfl
    obtain ⟨e, -, hev⟩ := List.mem_filterMap.mp hv
    obtain ⟨hheight, b, hb, hts, hne⟩ := entryAt_some hev
    rw [← hheight] at hb
    rcases h b hb with hempty | hother
    · exact hne hempty
    · rw [hts] at hother
      exact hother hday
  · rintro ⟨hday, -⟩
    exact hday

/-- A day on which a height is quiet before and after is not touched by a change there. -/
theorem ChangedAt.dayEntries {height : Nat} {day : Int} (h : ChangedAt height s s')
    (hbefore : s.Quiet E height day) (hafter : s'.Quiet E height day) :
    s'.dayEntries E day = s.dayEntries E day := by
  have hlist : (s'.indexEntries none).filter (fun e => e.height ≠ height) =
      (s.indexEntries none).filter fun e => e.height ≠ height := by
    unfold indexEntries
    have hsame : s'.txList.toList.filter (fun e => decide (e.1.1 ≠ height)) =
        s.txList.toList.filter fun e => decide (e.1.1 ≠ height) :=
      OrderedMap.filter_toList_congr fun key id hkey => by
        rw [h.list key (by simpa using hkey)]
    rw [List.filter_map, List.filter_map]
    exact congrArg (List.map _) hsame
  rw [dayEntries_of_quiet hbefore, dayEntries_of_quiet hafter, hlist]
  refine congrArg (List.filter _) (List.filterMap_congr fun e he => ?_)
  have hother : e.height ≠ height := by
    simpa using (List.mem_filter.mp he).2
  unfold entryAt blockAt getBlockByHeight
  rw [h.blocks e.height hother]

end Store

end SthCore
