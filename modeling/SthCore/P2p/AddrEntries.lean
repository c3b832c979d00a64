import SthCore.Lib.Runs
import SthCore.Lib.Submap
import SthCore.P2p.AddrBook
import SthCore.Storage.Wallet

/-!
The entries of the address book, in memory and in the database.  Every change
is saved but the time a record was last seen, so that a restart gives the book
back without the entries that are long dead.
-/

namespace SthCore

open SthCore.Lib

namespace P2p

structure AddrEntry where
  record : SignedAddr
  firstSeen : UInt64
  lastSeen : UInt64
  /-- Zero when it has never answered. -/
  lastSuccess : UInt64 := 0
  lastAttempt : UInt64 := 0
  failures : UInt32 := 0
  source : Text

namespace AddrEntry

def isTerrible (now expireSecs : UInt64) (e : AddrEntry) : Bool :=
  if e.lastSuccess = 0 then decide (3 ≤ e.failures ∧ 86400 < satSub now e.firstSeen)
  else decide (expireSecs < satSub now e.lastSuccess)

/-- The entry but for the time it was last seen. -/
def unseen (e : AddrEntry) : AddrEntry := { e with lastSeen := 0 }

end AddrEntry

structure AddrBookConfig where
  keys : EndpointKeys
  prim : Primitives
  nethash : Text
  me : Bytes
  expireDays : UInt64 := 30
  maxEntries : Nat := 2000

/-- The entries in memory by key, and those in the database by the id of their record. -/
structure AddrBook where
  entries : OrderedMap Bytes AddrEntry := ∅
  stored : OrderedMap Text AddrEntry := ∅

namespace AddrBookConfig

variable (C : AddrBookConfig)

def expireSecs : UInt64 := max C.expireDays 1 * 86400

def verify (now expireSecs : UInt64) (r : SignedAddr) : Except Error Bytes :=
  r.verify C.keys C.prim C.nethash now expireSecs

end AddrBookConfig

namespace AddrBook

/-- An entry changed in memory and saved. -/
def put (b : AddrBook) (id : Bytes) (e : AddrEntry) : AddrBook where
  entries := b.entries.insert id e
  stored := b.stored.insert e.record.id e

variable (C : AddrBookConfig)

/-- Whether the record was new or newer than ours, and the book with it. -/
def insert (b : AddrBook) (now : UInt64) (record : SignedAddr) (source : Text) :
    Except Error (Bool × AddrBook) := do
  let id ← C.verify now C.expireSecs record
  if id = C.me then return (false, b)
  else if record.addrs.isEmpty ∧ record.relay.isNone then
    throw (.sync "sthpq addr: no addresses")
  else
    match b.entries[id]? with
    | some e =>
        if record.seq ≤ e.record.seq then
          return (false, { b with entries := b.entries.insert id { e with lastSeen := now } })
        else return (true, b.put id { e with record, lastSeen := now })
    | none =>
        if max C.maxEntries 1 ≤ b.entries.size then
          throw (.sync "sthpq addr: address book full")
        else return (true, b.put id { record, firstSeen := now, lastSeen := now, source })

def mark (b : AddrBook) (now : UInt64) (id : Bytes) (success : Bool) : AddrBook :=
  match b.entries[id]? with
  | none => b
  | some e =>
      b.put id (if success then { e with lastAttempt := now, lastSuccess := now, failures := 0 }
        else { e with lastAttempt := now, failures := e.failures + 1 })

/-- Drop terrible entries. -/
def evict (b : AddrBook) (now : UInt64) : AddrBook :=
  let gone := b.entries.toList.filter fun e => e.2.isTerrible now C.expireSecs
  { entries := b.entries.eraseAll (gone.map (·.1))
    stored := b.stored.eraseAll (gone.map (·.2.record.id)) }

/-- One saved entry: a terrible one is dropped, one that does not verify is passed over. -/
def loadEntry (now : UInt64) (b : AddrBook) (e : AddrEntry) : AddrBook :=
  if e.isTerrible now C.expireSecs then { b with stored := b.stored.erase e.record.id }
  else
    match C.verify now (0xffffffffffffffff / 2) e.record with
    | .error _ => b
    | .ok id => { b with entries := b.entries.insert id e }

/-- The book of a node that starts again. -/
def load (now : UInt64) (stored : OrderedMap Text AddrEntry) : AddrBook :=
  (stored.toList.map (·.2)).foldl (loadEntry C now) { stored }

end AddrBook

inductive BookAction where
  | insert (now : UInt64) (record : SignedAddr) (source : Text)
  | mark (now : UInt64) (id : Bytes) (success : Bool)
  | evict (now : UInt64)
  | restart (now : UInt64)

def BookAction.now : BookAction → UInt64
  | .insert now .. => now
  | .mark now .. => now
  | .evict now => now
  | .restart now => now

/-- A book with the time of the last call. -/
structure TimedBook where
  book : AddrBook := {}
  clock : UInt64 := 0

namespace TimedBook

variable (C : AddrBookConfig)

def step (t : TimedBook) (a : BookAction) : Option TimedBook :=
  let book :=
    match a with
    | .insert now record source =>
        match t.book.insert C now record source with
        | .ok (_, book) => book
        | .error _ => t.book
    | .mark now id success => t.book.mark now id success
    | .evict now => t.book.evict C now
    | .restart now => AddrBook.load C now t.book.stored
  some { book, clock := a.now }

/-- Time does not go back nor reach the end of its range, and ids are the lower case hex of the
keys, as nodes write their own. -/
def Orderly (t : TimedBook) (a : BookAction) : Prop :=
  t.clock ≤ a.now ∧ a.now.toNat < 2 ^ 62 ∧
  match a with
  | .insert _ record _ => ∀ key, C.keys.parse record.id = .ok key → record.id = Hex.encode key
  | _ => True

end TimedBook

/-- A record of the owner of a key that verifies at any time after it was signed. -/
structure Genuine (C : AddrBookConfig) (clock : UInt64) (key : Bytes) (r : SignedAddr) : Prop where
  spelled : r.id = Hex.encode key
  signed : r.seq.toNat ≤ clock.toNat + 600
  shaped : ∀ now expireSecs, ¬ (now + futureSkew < r.seq ∨ r.seq + expireSecs < now) →
    C.verify now expireSecs r = .ok key

/-- What holds in every state: memory and database have the same entries, but for the time they
were last seen. -/
structure Mirrored (C : AddrBookConfig) (clock : UInt64) (b : AddrBook) : Prop where
  stored : ∀ id, (b.stored[Hex.encode id]?).map AddrEntry.unseen =
    (b.entries[id]?).map AddrEntry.unseen
  keyed : ∀ (text : Text) (e : AddrEntry), b.stored[text]? = some e →
    e.record.id = text ∧ ∃ id, text = Hex.encode id
  genuine : ∀ (id : Bytes) (e : AddrEntry), b.entries[id]? = some e →
    Genuine C clock id e.record
  others : b.entries[C.me]? = none
  size : b.entries.size ≤ max C.maxEntries 1

namespace AddrEntry

theorem unseen_record {e e' : AddrEntry} (h : e.unseen = e'.unseen) : e.record = e'.record :=
  show e.unseen.record = e'.unseen.record from h ▸ rfl

theorem unseen_isTerrible {now expireSecs : UInt64} {e e' : AddrEntry}
    (h : e.unseen = e'.unseen) : e.isTerrible now expireSecs = e'.isTerrible now expireSecs :=
  show e.unseen.isTerrible now expireSecs = e'.unseen.isTerrible now expireSecs from h ▸ rfl

end AddrEntry

namespace Genuine

variable {C : AddrBookConfig} {clock now : UInt64} {key : Bytes} {r : SignedAddr}

theorem later (h : Genuine C clock key r) (hclock : clock ≤ now) : Genuine C now key r := by
  refine ⟨h.spelled, ?_, h.shaped⟩
  have hsigned := h.signed
  rw [UInt64.le_iff_toNat_le] at hclock
  omega

theorem of_verify {expireSecs : UInt64} (hnow : now.toNat < 2 ^ 62)
    (hspelled : ∀ key, C.keys.parse r.id = .ok key → r.id = Hex.encode key)
    (h : C.verify now expireSecs r = .ok key) : Genuine C now key r := by
  have hverified := SignedAddr.verify_eq_ok.mp h
  refine ⟨hspelled key hverified.parsed, ?_, ?_⟩
  · have hwindow := (not_or.mp hverified.window).1
    rw [UInt64.not_lt, UInt64.le_iff_toNat_le, UInt64.toNat_add] at hwindow
    have hskew : futureSkew.toNat = 600 := rfl
    omega
  · intro now' expireSecs' hwindow
    exact SignedAddr.verify_eq_ok.mpr ⟨hverified.version, hverified.few, hwindow,
      hverified.shown, hverified.parsed, hverified.signed⟩

/-- A saved record still verifies when the node starts again. -/
theorem reload (h : Genuine C clock key r) (hclock : clock ≤ now) (hnow : now.toNat < 2 ^ 62) :
    C.verify now (0xffffffffffffffff / 2) r = .ok key := by
  apply h.shaped
  have hsigned := h.signed
  have hle := UInt64.le_iff_toNat_le.mp hclock
  have hskew : futureSkew.toNat = 600 := rfl
  have hhalf : (0xffffffffffffffff / 2 : UInt64).toNat = 2 ^ 63 - 1 := rfl
  rw [not_or, UInt64.not_lt, UInt64.not_lt, UInt64.le_iff_toNat_le, UInt64.le_iff_toNat_le,
    UInt64.toNat_add, UInt64.toNat_add]
  omega

end Genuine

namespace AddrBook

variable {C : AddrBookConfig} {now : UInt64} {b : AddrBook} {l : List AddrEntry}

theorem loadEntries_stored : (l.foldl (loadEntry C now) b).stored =
    b.stored.eraseAll ((l.filter fun e => e.isTerrible now C.expireSecs).map (·.record.id)) := by
  induction l generalizing b with
  | nil => rfl
  | cons e l ih =>
      rw [List.foldl_cons, ih, List.filter_cons]
      unfold loadEntry
      split_ifs with hterrible
      · rfl
      · split <;> rfl

/-- Entries of distinct records that all verify are loaded but for the terrible ones. -/
theorem loadEntries_entries (hids : (l.map (·.record.id)).Nodup)
    (hall : ∀ e ∈ l, ∃ key, e.record.id = Hex.encode key ∧
      C.verify now (0xffffffffffffffff / 2) e.record = .ok key) (id : Bytes) :
    (l.foldl (loadEntry C now) b).entries[id]? =
      ((l.find? fun e => decide (e.record.id = Hex.encode id)).filter fun e =>
        !e.isTerrible now C.expireSecs).or b.entries[id]? := by
  induction l generalizing b with
  | nil => rfl
  | cons e l ih =>
      obtain ⟨key, hspelled, hverify⟩ := hall e List.mem_cons_self
      rw [List.map_cons, List.nodup_cons] at hids
      obtain ⟨hnew, hids⟩ := hids
      rw [List.foldl_cons, ih hids fun e he => hall e (List.mem_cons_of_mem _ he), List.find?_cons]
      by_cases hkey : key = id
      · subst hkey
        have hrest : (l.find? fun e => decide (e.record.id = Hex.encode key)) = none := by
          rw [List.find?_eq_none]
          intro d hd hsame
          refine hnew (List.mem_map.mpr ⟨d, hd, ?_⟩)
          rw [hspelled]
          simpa using hsame
        rw [hrest, decide_eq_true hspelled]
        unfold loadEntry
        rw [hverify]
        split_ifs with hterrible
        · simp [Option.filter_some, hterrible]
        · simp [Option.filter_some, hterrible]
      · have hother : e.record.id ≠ Hex.encode id := by
          rw [hspelled]
          exact fun h => hkey (Hex.encode_injective h)
        rw [decide_eq_false hother]
        have hsame : (loadEntry C now b e).entries[id]? = b.entries[id]? := by
          unfold loadEntry
          rw [hverify]
          split_ifs
          · rfl
          · exact (OrderedMap.getElem?_insert_eq _ _ _ _).trans (if_neg hkey)
        rw [hsame]

/-- The database finds an entry by the id of its record. -/
theorem find?_stored {stored : OrderedMap Text AddrEntry}
    (hkeyed : ∀ (text : Text) (e : AddrEntry), stored[text]? = some e → e.record.id = text)
    (text : Text) :
    ((stored.toList.map (·.2)).find? fun e => decide (e.record.id = text)) = stored[text]? := by
  have hmem : ∀ e, e ∈ stored.toList.map (·.2) ↔ stored[e.record.id]? = some e := by
    intro e
    constructor
    · intro he
      obtain ⟨⟨key, d⟩, hd, rfl⟩ := List.mem_map.mp he
      rw [Std.ExtTreeMap.mem_toList_iff_getElem?_eq_some] at hd
      rw [hkeyed key d hd]
      exact hd
    · intro he
      exact List.mem_map.mpr
        ⟨(e.record.id, e), Std.ExtTreeMap.mem_toList_iff_getElem?_eq_some.mpr he, rfl⟩
  cases hfound : (stored.toList.map (·.2)).find? fun e => decide (e.record.id = text) with
  | none =>
      cases hstored : stored[text]? with
      | none => rfl
      | some e =>
          have hid := hkeyed text e hstored
          refine absurd (decide_eq_true hid) (List.find?_eq_none.mp hfound e ?_)
          rw [hmem, hid]
          exact hstored
  | some e =>
      have hid : e.record.id = text := by simpa using List.find?_some hfound
      rw [← hid]
      exact ((hmem e).mp (List.mem_of_find?_eq_some hfound)).symm

end AddrBook

theorem filter_unseen {now expireSecs : UInt64} {o o' : Option AddrEntry}
    (h : o.map AddrEntry.unseen = o'.map AddrEntry.unseen) :
    (o.filter fun e => !e.isTerrible now expireSecs).map AddrEntry.unseen =
      (o'.filter fun e => !e.isTerrible now expireSecs).map AddrEntry.unseen := by
  cases o with
  | none =>
      rw [Option.map_none, eq_comm, Option.map_eq_none_iff] at h
      rw [h]
  | some e =>
      rw [Option.map_some] at h
      obtain ⟨d, rfl, hunseen⟩ := Option.map_eq_some_iff.mp h.symm
      rw [Option.filter_some, Option.filter_some, AddrEntry.unseen_isTerrible hunseen]
      split_ifs
      · exact congrArg some hunseen.symm
      · rfl

namespace Mirrored

variable {C : AddrBookConfig} {clock now : UInt64} {b b' : AddrBook} {id : Bytes} {e : AddrEntry}

theorem empty (C : AddrBookConfig) : Mirrored C 0 {} := by
  refine ⟨?_, ?_, ?_, ?_, ?_⟩
  · intro id
    change ((∅ : OrderedMap Text AddrEntry)[_]?).map _ =
      ((∅ : OrderedMap Bytes AddrEntry)[_]?).map _
    simp
  · intro text e he
    change (∅ : OrderedMap Text AddrEntry)[text]? = some e at he
    simp at he
  · intro id e he
    change (∅ : OrderedMap Bytes AddrEntry)[id]? = some e at he
    simp at he
  · change (∅ : OrderedMap Bytes AddrEntry)[C.me]? = none
    simp
  · change (∅ : OrderedMap Bytes AddrEntry).size ≤ _
    simp

theorem later (h : Mirrored C clock b) (hclock : clock ≤ now) : Mirrored C now b :=
  ⟨h.stored, h.keyed, fun id e he => (h.genuine id e he).later hclock, h.others, h.size⟩

/-- An entry in the database is one in memory. -/
theorem exists_entry (h : Mirrored C clock b) {text : Text} (he : b.stored[text]? = some e) :
    ∃ id d, text = Hex.encode id ∧ b.entries[id]? = some d ∧ d.unseen = e.unseen := by
  obtain ⟨-, id, rfl⟩ := h.keyed text e he
  have hsame := h.stored id
  rw [he, Option.map_some] at hsame
  obtain ⟨d, hd, hunseen⟩ := Option.map_eq_some_iff.mp hsame.symm
  exact ⟨id, d, rfl, hd, hunseen⟩

theorem exists_stored (h : Mirrored C clock b) (he : b.entries[id]? = some e) :
    ∃ d, b.stored[Hex.encode id]? = some d ∧ d.unseen = e.unseen := by
  have hsame := h.stored id
  rw [he, Option.map_some] at hsame
  exact Option.map_eq_some_iff.mp hsame

theorem put (h : Mirrored C clock b) (hgenuine : Genuine C clock id e.record) (hme : id ≠ C.me)
    (hroom : b.entries[id]? = none → b.entries.size < max C.maxEntries 1) :
    Mirrored C clock (b.put id e) := by
  have hspelled := hgenuine.spelled
  have hentry : ∀ x, (b.put id e).entries[x]? = if id = x then some e else b.entries[x]? :=
    fun x => OrderedMap.getElem?_insert_eq _ _ _ _
  have hsaved : ∀ text, (b.put id e).stored[text]? =
      if e.record.id = text then some e else b.stored[text]? :=
    fun text => OrderedMap.getElem?_insert_eq _ _ _ _
  refine ⟨?_, ?_, ?_, ?_, ?_⟩
  · intro x
    rw [hentry, hsaved, hspelled]
    by_cases hx : id = x
    · rw [hx, if_pos rfl, if_pos rfl]
    · rw [if_neg hx, if_neg fun hsame => hx (Hex.encode_injective hsame)]
      exact h.stored x
  · intro text d hd
    rw [hsaved] at hd
    split_ifs at hd with htext
    · injection hd with hd
      subst hd
      exact ⟨htext, id, htext.symm.trans hspelled⟩
    · exact h.keyed text d hd
  · intro x d hd
    rw [hentry] at hd
    split_ifs at hd with hx
    · injection hd with hd
      subst hx hd
      exact hgenuine
    · exact h.genuine x d hd
  · rw [hentry, if_neg hme]
    exact h.others
  · change (b.entries.insert id e).size ≤ _
    rw [Std.ExtTreeMap.size_insert]
    split_ifs with hmem
    · exact h.size
    · exact hroom (Std.ExtTreeMap.getElem?_eq_none hmem)

theorem seen (h : Mirrored C clock b) (he : b.entries[id]? = some e) (lastSeen : UInt64) :
    Mirrored C clock { b with entries := b.entries.insert id { e with lastSeen } } := by
  have hentry : ∀ x, (b.entries.insert id { e with lastSeen })[x]? =
      if id = x then some { e with lastSeen } else b.entries[x]? :=
    fun x => OrderedMap.getElem?_insert_eq _ _ _ _
  refine ⟨?_, h.keyed, ?_, ?_, ?_⟩
  · intro x
    rw [h.stored, hentry]
    split_ifs with hx
    · rw [← hx, he]
      rfl
    · rfl
  · intro x d hd
    rw [hentry] at hd
    split_ifs at hd with hx
    · injection hd with hd
      subst hx hd
      exact h.genuine id e he
    · exact h.genuine x d hd
  · rw [hentry, if_neg]
    · exact h.others
    · rintro rfl
      rw [h.others] at he
      cases he
  · have hmem : id ∈ b.entries := Std.ExtTreeMap.isSome_getElem?_iff_mem.mp (by rw [he]; rfl)
    rw [Std.ExtTreeMap.size_insert]
    split_ifs with hnew
    · exact h.size
    · exact absurd hmem hnew

/-- Both sides without the entries that are terrible. -/
theorem keep (h : Mirrored C clock b)
    (hstored : ∀ text : Text, b'.stored[text]? =
      (b.stored[text]?).filter fun e => !e.isTerrible now C.expireSecs)
    (hentries : ∀ id : Bytes, (b'.entries[id]?).map AddrEntry.unseen =
      ((b.entries[id]?).filter fun e => !e.isTerrible now C.expireSecs).map AddrEntry.unseen) :
    Mirrored C clock b' := by
  have hkept : ∀ (id : Bytes) (e : AddrEntry), b'.entries[id]? = some e →
      ∃ d, b.entries[id]? = some d ∧ d.unseen = e.unseen := by
    intro id e he
    have hsame := hentries id
    rw [he, Option.map_some] at hsame
    obtain ⟨d, hd, hunseen⟩ := Option.map_eq_some_iff.mp hsame.symm
    exact ⟨d, (Option.filter_eq_some_iff.mp hd).1, hunseen⟩
  refine ⟨?_, ?_, ?_, ?_, ?_⟩
  · intro id
    rw [hstored, hentries]
    exact filter_unseen (h.stored id)
  · intro text e he
    rw [hstored] at he
    exact h.keyed text e (Option.filter_eq_some_iff.mp he).1
  · intro id e he
    obtain ⟨d, hd, hunseen⟩ := hkept id e he
    rw [← AddrEntry.unseen_record hunseen]
    exact h.genuine id d hd
  · cases hme : b'.entries[C.me]? with
    | none => rfl
    | some e =>
        obtain ⟨d, hd, -⟩ := hkept C.me e hme
        rw [h.others] at hd
        cases hd
  · refine Nat.le_trans ?_ h.size
    rw [← Std.ExtTreeMap.length_keys, ← Std.ExtTreeMap.length_keys]
    refine (Std.ExtTreeMap.nodup_keys.subperm ?_).length_le
    intro id hid
    rw [Std.ExtTreeMap.mem_keys, ← Std.ExtTreeMap.isSome_getElem?_iff_mem] at hid ⊢
    obtain ⟨e, he⟩ := Option.isSome_iff_exists.mp hid
    obtain ⟨d, hd, -⟩ := hkept id e he
    rw [hd]
    rfl

theorem evict_entries (b : AddrBook) (id : Bytes) :
    (b.evict C now).entries[id]? =
      (b.entries[id]?).filter fun e => !e.isTerrible now C.expireSecs := by
  refine OrderedMap.getElem?_eraseAll_filter ?_ id
  intro k
  constructor
  · intro hk
    obtain ⟨⟨key, e⟩, he, rfl⟩ := List.mem_map.mp hk
    obtain ⟨hmem, hterrible⟩ := List.mem_filter.mp he
    exact ⟨e, Std.ExtTreeMap.mem_toList_iff_getElem?_eq_some.mp hmem, hterrible⟩
  · rintro ⟨e, he, hterrible⟩
    refine List.mem_map.mpr ⟨(k, e), List.mem_filter.mpr ⟨?_, hterrible⟩, rfl⟩
    exact Std.ExtTreeMap.mem_toList_iff_getElem?_eq_some.mpr he

theorem evict_stored (h : Mirrored C clock b) (text : Text) :
    (b.evict C now).stored[text]? =
      (b.stored[text]?).filter fun e => !e.isTerrible now C.expireSecs := by
  refine OrderedMap.getElem?_eraseAll_filter ?_ text
  intro k
  constructor
  · intro hk
    obtain ⟨⟨key, e⟩, he, rfl⟩ := List.mem_map.mp hk
    obtain ⟨hmem, hterrible⟩ := List.mem_filter.mp he
    have hentry := Std.ExtTreeMap.mem_toList_iff_getElem?_eq_some.mp hmem
    obtain ⟨d, hd, hunseen⟩ := h.exists_stored hentry
    refine ⟨d, ?_, (AddrEntry.unseen_isTerrible hunseen).trans hterrible⟩
    rw [(h.genuine key e hentry).spelled]
    exact hd
  · rintro ⟨e, he, hterrible⟩
    obtain ⟨id, d, rfl, hd, hunseen⟩ := h.exists_entry he
    refine List.mem_map.mpr ⟨(id, d), List.mem_filter.mpr ⟨?_, ?_⟩, (h.genuine id d hd).spelled⟩
    · exact Std.ExtTreeMap.mem_toList_iff_getElem?_eq_some.mpr hd
    · exact (AddrEntry.unseen_isTerrible hunseen).trans hterrible

theorem evict (h : Mirrored C clock b) (now : UInt64) : Mirrored C clock (b.evict C now) :=
  h.keep h.evict_stored fun id => congrArg _ (evict_entries b id)

theorem load_stored (h : Mirrored C clock b) (text : Text) :
    (AddrBook.load C now b.stored).stored[text]? =
      (b.stored[text]?).filter fun e => !e.isTerrible now C.expireSecs := by
  unfold AddrBook.load
  rw [AddrBook.loadEntries_stored]
  refine OrderedMap.getElem?_eraseAll_filter ?_ text
  intro k
  constructor
  · intro hk
    obtain ⟨e, he, rfl⟩ := List.mem_map.mp hk
    obtain ⟨hmem, hterrible⟩ := List.mem_filter.mp he
    obtain ⟨⟨key, e⟩, hentry, rfl⟩ := List.mem_map.mp hmem
    rw [Std.ExtTreeMap.mem_toList_iff_getElem?_eq_some] at hentry
    refine ⟨e, ?_, hterrible⟩
    rw [(h.keyed key e hentry).1]
    exact hentry
  · rintro ⟨e, he, hterrible⟩
    refine List.mem_map.mpr ⟨e, List.mem_filter.mpr ⟨?_, hterrible⟩, (h.keyed k e he).1⟩
    exact List.mem_map.mpr
      ⟨(k, e), Std.ExtTreeMap.mem_toList_iff_getElem?_eq_some.mpr he, rfl⟩

/-- A restart reads every saved entry that is not terrible. -/
theorem load_entries (h : Mirrored C clock b) (hclock : clock ≤ now) (hnow : now.toNat < 2 ^ 62)
    (id : Bytes) : (AddrBook.load C now b.stored).entries[id]? =
      (b.stored[Hex.encode id]?).filter fun e => !e.isTerrible now C.expireSecs := by
  unfold AddrBook.load
  rw [AddrBook.loadEntries_entries, AddrBook.find?_stored fun text e he => (h.keyed text e he).1]
  · change Option.or _ (∅ : OrderedMap Bytes AddrEntry)[id]? = _
    simp
  · have hids : (b.stored.toList.map (·.2)).map (·.record.id) = b.stored.keys := by
      rw [List.map_map, ← Std.ExtTreeMap.map_fst_toList_eq_keys]
      refine List.map_congr_left fun e he => ?_
      rw [Std.ExtTreeMap.mem_toList_iff_getElem?_eq_some] at he
      exact (h.keyed e.1 e.2 he).1
    rw [hids]
    exact Std.ExtTreeMap.nodup_keys
  · intro e he
    obtain ⟨⟨text, e⟩, hentry, rfl⟩ := List.mem_map.mp he
    rw [Std.ExtTreeMap.mem_toList_iff_getElem?_eq_some] at hentry
    obtain ⟨key, d, -, hd, hunseen⟩ := h.exists_entry hentry
    have hgenuine := h.genuine key d hd
    rw [AddrEntry.unseen_record hunseen] at hgenuine
    exact ⟨key, hgenuine.spelled, hgenuine.reload hclock hnow⟩

theorem load_unseen (h : Mirrored C clock b) (hclock : clock ≤ now) (hnow : now.toNat < 2 ^ 62)
    (id : Bytes) : ((AddrBook.load C now b.stored).entries[id]?).map AddrEntry.unseen =
      ((b.entries[id]?).filter fun e => !e.isTerrible now C.expireSecs).map
        AddrEntry.unseen := by
  rw [h.load_entries hclock hnow]
  exact filter_unseen (h.stored id)

theorem load (h : Mirrored C clock b) (hclock : clock ≤ now) (hnow : now.toNat < 2 ^ 62) :
    Mirrored C clock (AddrBook.load C now b.stored) :=
  h.keep h.load_stored (h.load_unseen hclock hnow)

theorem mark (h : Mirrored C clock b) (now : UInt64) (id : Bytes) (success : Bool) :
    Mirrored C clock (b.mark now id success) := by
  unfold AddrBook.mark
  split
  · exact h
  · rename_i e he
    refine h.put ?_ ?_ ?_
    · split_ifs
      · exact h.genuine id e he
      · exact h.genuine id e he
    · rintro rfl
      rw [h.others] at he
      cases he
    · intro hnone
      rw [he] at hnone
      cases hnone

theorem insert {record : SignedAddr} {source : Text} {r : Bool × AddrBook}
    (h : Mirrored C now b) (hnow : now.toNat < 2 ^ 62)
    (hspelled : ∀ key, C.keys.parse record.id = .ok key → record.id = Hex.encode key)
    (hinsert : b.insert C now record source = .ok r) : Mirrored C now r.2 := by
  unfold AddrBook.insert at hinsert
  obtain ⟨id, hverify, hinsert⟩ := bind_eq_ok.mp hinsert
  have hgenuine := Genuine.of_verify hnow hspelled hverify
  by_cases hme : id = C.me
  · rw [if_pos hme, pure_eq_ok] at hinsert
    rw [← hinsert]
    exact h
  · rw [if_neg hme] at hinsert
    split at hinsert
    · cases hinsert
    · split at hinsert
      · rename_i e he
        split_ifs at hinsert with hold
        · rw [pure_eq_ok] at hinsert
          rw [← hinsert]
          exact h.seen he now
        · rw [pure_eq_ok] at hinsert
          rw [← hinsert]
          refine h.put hgenuine hme fun hnew => ?_
          rw [he] at hnew
          cases hnew
      · split_ifs at hinsert with hfull
        rw [pure_eq_ok] at hinsert
        rw [← hinsert]
        exact h.put hgenuine hme fun _ => not_le.mp hfull

theorem step {t t' : TimedBook} {a : BookAction} (h : Mirrored C t.clock t.book)
    (hgood : t.Orderly C a) (hstep : t.step C a = some t') : Mirrored C t'.clock t'.book := by
  obtain ⟨hclock, hnow, hspelled⟩ := hgood
  injection hstep with hstep
  subst hstep
  have hlater := h.later hclock
  cases a with
  | insert now record source =>
      simp only [BookAction.now] at hlater hnow ⊢
      cases hinsert : t.book.insert C now record source with
      | error e => exact hlater
      | ok r => exact hlater.insert hnow hspelled hinsert
  | mark now id success => exact hlater.mark now id success
  | evict now => exact hlater.evict now
  | restart now => exact hlater.load (UInt64.le_refl now) hnow

end Mirrored

namespace AddrBook

/-- No record of the first book is newer than the one that the second has in its place. -/
def Follows (b b' : AddrBook) : Prop :=
  ∀ (id : Bytes) (e e' : AddrEntry), b.entries[id]? = some e → b'.entries[id]? = some e' →
    e.record.seq ≤ e'.record.seq

theorem Follows.refl (b : AddrBook) : b.Follows b := by
  intro id e e' he he'
  rw [he, Option.some.injEq] at he'
  rw [he']
  exact UInt64.le_refl _

variable {C : AddrBookConfig} {b : AddrBook}

theorem follows_entry {b' : AddrBook} {id : Bytes} {e : AddrEntry}
    (hentries : b'.entries = b.entries.insert id e)
    (hnewer : ∀ d, b.entries[id]? = some d → d.record.seq ≤ e.record.seq) : b.Follows b' := by
  intro x d d' hd hd'
  rw [hentries, OrderedMap.getElem?_insert_eq] at hd'
  split_ifs at hd' with hx
  · injection hd' with hd'
    subst hx hd'
    exact hnewer d hd
  · rw [hd, Option.some.injEq] at hd'
    rw [hd']
    exact UInt64.le_refl _

theorem follows_mark (b : AddrBook) (now : UInt64) (id : Bytes) (success : Bool) :
    b.Follows (b.mark now id success) := by
  unfold mark
  split
  · exact .refl b
  · rename_i e he
    refine follows_entry rfl fun d hd => ?_
    rw [he, Option.some.injEq] at hd
    subst hd
    split_ifs
    · exact UInt64.le_refl _
    · exact UInt64.le_refl _

theorem follows_insert {now : UInt64} {record : SignedAddr} {source : Text}
    {r : Bool × AddrBook} (hinsert : b.insert C now record source = .ok r) : b.Follows r.2 := by
  obtain ⟨id, -, hinsert⟩ := bind_eq_ok.mp hinsert
  by_cases hme : id = C.me
  · rw [if_pos hme, pure_eq_ok] at hinsert
    rw [← hinsert]
    exact .refl b
  · rw [if_neg hme] at hinsert
    split at hinsert
    · cases hinsert
    · split at hinsert
      · rename_i e he
        have hsame : ∀ d, b.entries[id]? = some d → d = e := by
          intro d hd
          rw [he, Option.some.injEq] at hd
          exact hd.symm
        split_ifs at hinsert with hold
        · rw [pure_eq_ok] at hinsert
          rw [← hinsert]
          refine follows_entry rfl fun d hd => ?_
          rw [hsame d hd]
          exact UInt64.le_refl _
        · rw [pure_eq_ok] at hinsert
          rw [← hinsert]
          refine follows_entry rfl fun d hd => ?_
          rw [hsame d hd]
          exact UInt64.le_of_lt (UInt64.not_le.mp hold)
      · rename_i hnew
        split_ifs at hinsert with hfull
        rw [pure_eq_ok] at hinsert
        rw [← hinsert]
        refine follows_entry rfl fun d hd => ?_
        rw [hnew] at hd
        cases hd

theorem follows_kept {now : UInt64} {b' : AddrBook}
    (hentries : ∀ id : Bytes, (b'.entries[id]?).map AddrEntry.unseen =
      ((b.entries[id]?).filter fun e => !e.isTerrible now C.expireSecs).map
        AddrEntry.unseen) : b.Follows b' := by
  intro id e e' he he'
  have hsame := hentries id
  rw [he', Option.map_some] at hsame
  obtain ⟨d, hd, hunseen⟩ := Option.map_eq_some_iff.mp hsame.symm
  have hold := (Option.filter_eq_some_iff.mp hd).1
  rw [he, Option.some.injEq] at hold
  rw [hold, AddrEntry.unseen_record hunseen]
  exact UInt64.le_refl _

end AddrBook

theorem Mirrored.follows {C : AddrBookConfig} {t t' : TimedBook} {a : BookAction}
    (h : Mirrored C t.clock t.book) (hgood : t.Orderly C a) (hstep : t.step C a = some t') :
    t.book.Follows t'.book := by
  obtain ⟨hclock, hnow, -⟩ := hgood
  injection hstep with hstep
  subst hstep
  cases a with
  | insert now record source =>
      cases hinsert : t.book.insert C now record source with
      | error e =>
          simp only [hinsert]
          exact .refl t.book
      | ok r =>
          simp only [hinsert]
          exact AddrBook.follows_insert hinsert
  | mark now id success => exact t.book.follows_mark now id success
  | evict now =>
      exact @AddrBook.follows_kept C _ now _ fun id => congrArg _ (evict_entries _ id)
  | restart now => exact AddrBook.follows_kept (h.load_unseen hclock hnow)

/-- In every run the book has at most its number of entries, each with a genuine record of another
node that only a newer one replaces, and a restart gives it back without its terrible entries. -/
theorem addrBook_restart (C : AddrBookConfig) (t : TimedBook) (now : UInt64)
    (hrun : Reaches (TimedBook.step C) (TimedBook.Orderly C) {} t) (hclock : t.clock ≤ now)
    (hnow : now.toNat < 2 ^ 62) :
    t.book.entries.size ≤ max C.maxEntries 1 ∧ t.book.entries[C.me]? = none ∧
    (∀ (id : Bytes) (e : AddrEntry), t.book.entries[id]? = some e →
      Genuine C t.clock id e.record) ∧
    (∀ a t', t.Orderly C a → t.step C a = some t' → t.book.Follows t'.book) ∧
    ∀ id : Bytes, ((AddrBook.load C now t.book.stored).entries[id]?).map AddrEntry.unseen =
      ((t.book.entries[id]?).filter fun e => !e.isTerrible now C.expireSecs).map
        AddrEntry.unseen := by
  have hmirrored : Mirrored C t.clock t.book :=
    hrun.invariant (I := fun t => Mirrored C t.clock t.book) (.empty C)
      fun _ _ _ h hgood hstep => h.step hgood hstep
  exact ⟨hmirrored.size, hmirrored.others, hmirrored.genuine,
    fun _ _ hgood hstep => hmirrored.follows hgood hstep, hmirrored.load_unseen hclock hnow⟩

open SignedAddr

/-- A node that knows those keys and that record. -/
def dialledConfig : AddrBookConfig where
  keys := dialledKeys
  prim := dialledPrimitives
  nethash := dialledNethash
  me := []

def dialledKey : Bytes := (Hex.decode dialledAddr.id).toOption.getD []

/-- That record has been heard. -/
def dialledBook : TimedBook :=
  (TimedBook.step dialledConfig {} (.insert 1750000100 dialledAddr "gossip")).getD {}

/-- The node has started again. -/
def redialledBook : AddrBook := AddrBook.load dialledConfig 1750000200 dialledBook.book.stored

theorem addrBook_restart_dialled : (redialledBook.entries[dialledKey]?).isSome ∧
    (redialledBook.entries[dialledKey]?).map AddrEntry.unseen =
      ((dialledBook.book.entries[dialledKey]?).filter fun e =>
        !e.isTerrible 1750000200 dialledConfig.expireSecs).map AddrEntry.unseen := by
  have hspelled : (dialledKeys.parse dialledAddr.id).toOption.all fun key =>
      decide (dialledAddr.id = Hex.encode key) := by
    decide +kernel
  have hgood : TimedBook.Orderly dialledConfig {} (.insert 1750000100 dialledAddr "gossip") := by
    refine ⟨by decide, by decide, ?_⟩
    intro key hkey
    change dialledKeys.parse dialledAddr.id = .ok key at hkey
    rw [hkey] at hspelled
    exact of_decide_eq_true hspelled
  have hrun : Reaches (TimedBook.step dialledConfig) (TimedBook.Orderly dialledConfig) {}
      dialledBook := .next _ .start hgood rfl
  refine ⟨by decide +kernel, ?_⟩
  exact (addrBook_restart dialledConfig dialledBook 1750000200 hrun (by decide) (by decide)).2.2.2.2
    dialledKey

end P2p

end SthCore
