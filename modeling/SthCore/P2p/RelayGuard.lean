import SthCore.Lib.OrderedMap
import SthCore.Lib.Window
import SthCore.Rules.Text

/-!
The relay guard: a relay through which too many handshakes fail within a window
is taken out of the relay map, once, and never a protected one.  Times are in
nanoseconds.
-/

namespace SthCore

open SthCore.Lib

namespace P2p

/-- `p2p.iroh.relay_guard`. -/
structure RelayGuardConfig where
  enabled : Bool := true
  maxFailures : Nat := 5
  windowSecs : Nat := 600

namespace RelayGuardConfig

/-- The length of the window, at least a second. -/
def window (cfg : RelayGuardConfig) : Nat := max cfg.windowSecs 1 * 1000000000

/-- The number of failures that is too many, at least one. -/
def limit (cfg : RelayGuardConfig) : Nat := max cfg.maxFailures 1

end RelayGuardConfig

structure RemovedRelay where
  url : Text
  failures : Nat

structure RelayGuard where
  cfg : RelayGuardConfig := {}
  protectedUrls : List Text := []
  failures : OrderedMap Text (List Nat) := ∅
  removed : List RemovedRelay := []

/-- Where an incoming connection comes from. -/
inductive IncomingAddr
  | relay (url : Text)
  | other

/-- A relay without the blanks around it and the slashes at its end. -/
def norm (url : Text) : Text :=
  ⟨((url.toList.dropWhile Text.isWhitespace).rdropWhile Text.isWhitespace).rdropWhile (· == '/')⟩

namespace RelayGuard

def new (cfg : RelayGuardConfig) (protectedUrls : List Text) : RelayGuard where
  cfg := cfg
  protectedUrls := protectedUrls.map norm

/-- Note one failure; the relay and its failures when it is to be removed. -/
def noteFailure (g : RelayGuard) (url : Text) (now : Nat) : Option (Text × Nat) × RelayGuard :=
  let url := norm url
  if url ∈ g.removed.map RemovedRelay.url then (none, g)
  else
    let q := expire g.cfg.window now (g.failures[url]?.getD [] ++ [now])
    let g := { g with failures := g.failures.insert url q }
    if g.cfg.limit ≤ q.length ∧ url ∉ g.protectedUrls then
      (some (url, q.length), { g with removed := g.removed ++ [⟨url, q.length⟩] })
    else (none, g)

/-- A connection through `remote` has failed its handshake. -/
def noteHandshakeFailure (g : RelayGuard) (remote : IncomingAddr) (now : Nat) :
    Option (Text × Nat) × RelayGuard :=
  if g.cfg.enabled then
    match remote with
    | .relay url => g.noteFailure url now
    | .other => (none, g)
  else (none, g)

/-- The guard after handshakes have failed, each at its time. -/
def run (g : RelayGuard) (calls : List (IncomingAddr × Nat)) : RelayGuard :=
  calls.foldl (fun g call => (g.noteHandshakeFailure call.1 call.2).2) g

variable {cfg : RelayGuardConfig} {protectedUrls : List Text} {calls : List (IncomingAddr × Nat)}
  {g : RelayGuard} {url : Text} {now : Nat}

/-- Whether a handshake came through the relay. -/
def through (url : Text) : IncomingAddr → Bool
  | .relay u => norm u == url
  | .other => false

/-- When handshakes through a relay have failed. -/
def noted (calls : List (IncomingAddr × Nat)) (url : Text) : List Nat :=
  (calls.filter fun call => through url call.1).map Prod.snd

/-- The failures through a relay that count when the last of them happens. -/
def counted (cfg : RelayGuardConfig) (calls : List (IncomingAddr × Nat)) (url : Text)
    (now : Nat) : Nat :=
  (recent cfg.window now (noted calls url)).length

/-- At one of its failures, a relay has had too many of them within the window. -/
def Exceeded (cfg : RelayGuardConfig) (calls : List (IncomingAddr × Nat)) (url : Text) : Prop :=
  ∃ front call, front ++ [call] <+: calls ∧ through url call.1 = true ∧
    cfg.limit ≤ counted cfg (front ++ [call]) url call.2

/-- What the guard holds after handshakes have failed. -/
structure Kept (cfg : RelayGuardConfig) (protectedUrls : List Text)
    (calls : List (IncomingAddr × Nat)) (g : RelayGuard) : Prop where
  config : g.cfg = cfg
  urls : g.protectedUrls = protectedUrls.map norm
  once : (g.removed.map RemovedRelay.url).Nodup
  removed : ∀ url, url ∈ g.removed.map RemovedRelay.url ↔
    url ∉ protectedUrls.map norm ∧ Exceeded cfg calls url
  queue : ∀ url, url ∉ g.removed.map RemovedRelay.url →
    (g.failures[url]?.getD []).Sublist (noted calls url) ∧
    ∀ now, (∀ call ∈ calls, call.2 ≤ now) →
      recent cfg.window now (g.failures[url]?.getD []) =
        recent cfg.window now (noted calls url)

theorem noted_append (front : List (IncomingAddr × Nat)) (call : IncomingAddr × Nat) :
    noted (front ++ [call]) url =
      noted front url ++ if through url call.1 then [call.2] else [] := by
  unfold noted
  rw [List.filter_append, List.map_append]
  cases h : through url call.1 <;> simp [h]

theorem exceeded_append_iff (front : List (IncomingAddr × Nat)) (call : IncomingAddr × Nat) :
    Exceeded cfg (front ++ [call]) url ↔ Exceeded cfg front url ∨
      through url call.1 = true ∧ cfg.limit ≤ counted cfg (front ++ [call]) url call.2 := by
  constructor
  · rintro ⟨earlier, last, hfirst, hthrough, hmany⟩
    rcases List.prefix_concat_iff.mp hfirst with hsame | hbefore
    · obtain ⟨rfl, hlast⟩ := List.append_inj' hsame rfl
      obtain rfl := List.singleton_injective hlast
      exact .inr ⟨hthrough, hmany⟩
    · exact .inl ⟨earlier, last, hbefore, hthrough, hmany⟩
  · rintro (⟨earlier, last, hbefore, hthrough, hmany⟩ | ⟨hthrough, hmany⟩)
    · exact ⟨earlier, last, hbefore.trans (List.prefix_append _ _), hthrough, hmany⟩
    · exact ⟨front, call, List.prefix_refl _, hthrough, hmany⟩

section Elsewhere

variable {front : List (IncomingAddr × Nat)} {call : IncomingAddr × Nat} (url : Text)

/-- A handshake through another relay changes nothing for this one. -/
theorem noted_elsewhere (hother : through url call.1 = false) :
    noted (front ++ [call]) url = noted front url := by
  rw [noted_append, hother]
  exact List.append_nil _

theorem exceeded_elsewhere (hother : through url call.1 = false) :
    Exceeded cfg (front ++ [call]) url ↔ Exceeded cfg front url := by
  rw [exceeded_append_iff, hother]
  simp

end Elsewhere

/-- The queue of a relay that is not removed holds the failures that count. -/
theorem Kept.expire_queue {front : List (IncomingAddr × Nat)} {u : Text}
    (h : Kept cfg protectedUrls front g) (htimes : ∀ call ∈ front, call.2 ≤ now)
    (hsorted : (front.map Prod.snd).Pairwise (· ≤ ·))
    (hkept : norm u ∉ g.removed.map RemovedRelay.url) :
    expire cfg.window now (g.failures[norm u]?.getD [] ++ [now]) =
      recent cfg.window now (noted (front ++ [(.relay u, now)]) (norm u)) := by
  obtain ⟨hsub, hrecent⟩ := h.queue _ hkept
  have hqueue : (g.failures[norm u]?.getD [] ++ [now]).Pairwise (· ≤ ·) := by
    rw [List.pairwise_append]
    refine ⟨?_, List.pairwise_singleton _ _, ?_⟩
    · exact hsorted.sublist (hsub.trans (List.filter_sublist.map _))
    · intro a ha b hb
      obtain rfl := List.mem_singleton.mp hb
      obtain ⟨call, hcall, rfl⟩ := List.mem_map.mp (hsub.subset ha)
      exact htimes call (List.mem_of_mem_filter hcall)
  have hthrough : through (norm u) (.relay u) = true := beq_self_eq_true _
  rw [expire_eq_recent hqueue, recent_append, hrecent now htimes, noted_append, hthrough, if_pos rfl,
    recent_append]

theorem Kept.noteFailure {front : List (IncomingAddr × Nat)} {u : Text}
    (h : Kept cfg protectedUrls front g) (htimes : ∀ call ∈ front, call.2 ≤ now)
    (hsorted : (front.map Prod.snd).Pairwise (· ≤ ·)) :
    Kept cfg protectedUrls (front ++ [(.relay u, now)]) (g.noteFailure u now).2 := by
  have hself : through (norm u) (.relay u) = true := beq_self_eq_true _
  have hother : ∀ url, url ≠ norm u → through url (.relay u) = false := fun url hne =>
    beq_eq_false_iff_ne.mpr hne.symm
  have hlater : ∀ {later}, (∀ call ∈ front ++ [(.relay u, now)], call.2 ≤ later) →
      now ≤ later ∧ ∀ call ∈ front, call.2 ≤ later := fun hall =>
    ⟨hall _ (List.mem_append_right _ (List.mem_singleton_self _)),
      fun call hcall => hall call (List.mem_append_left _ hcall)⟩
  unfold RelayGuard.noteFailure
  dsimp only
  by_cases hgone : norm u ∈ g.removed.map RemovedRelay.url
  · rw [if_pos hgone]
    refine ⟨h.config, h.urls, h.once, ?_, ?_⟩
    · intro url
      by_cases hurl : url = norm u
      · subst hurl
        have hbefore := (h.removed _).mp hgone
        exact ⟨fun _ => ⟨hbefore.1, exceeded_append_iff _ _ |>.mpr (.inl hbefore.2)⟩,
          fun _ => hgone⟩
      · rw [exceeded_elsewhere url (hother url hurl)]
        exact h.removed url
    · intro url hkept
      have hurl : url ≠ norm u := fun hsame => hkept (hsame ▸ hgone)
      rw [noted_elsewhere url (hother url hurl)]
      exact ⟨(h.queue url hkept).1, fun later hall => (h.queue url hkept).2 later (hlater hall).2⟩
  · rw [if_neg hgone, h.config, h.urls, h.expire_queue htimes hsorted hgone]
    have hcount : ∀ url, Exceeded cfg (front ++ [(.relay u, now)]) url ↔
        Exceeded cfg front url ∨ url = norm u ∧ cfg.limit ≤
          (recent cfg.window now (noted (front ++ [(.relay u, now)]) (norm u))).length := by
      intro url
      rw [exceeded_append_iff]
      apply or_congr_right
      constructor
      · rintro ⟨hthrough, hmany⟩
        obtain rfl : norm u = url := beq_iff_eq.mp hthrough
        exact ⟨rfl, hmany⟩
      · rintro ⟨rfl, hmany⟩
        exact ⟨hself, hmany⟩
    split_ifs with hover
    · refine ⟨rfl, rfl, ?_, ?_, ?_⟩
      · rw [List.map_append, List.map_singleton]
        refine List.nodup_append.mpr ⟨h.once, List.nodup_singleton _, ?_⟩
        rintro a ha b hb rfl
        rw [List.mem_singleton.mp hb] at ha
        exact hgone ha
      · intro url
        rw [List.map_append, List.map_singleton, List.mem_append, List.mem_singleton, h.removed,
          hcount]
        constructor
        · rintro (⟨hopen, hmany⟩ | rfl)
          · exact ⟨hopen, .inl hmany⟩
          · exact ⟨hover.2, .inr ⟨rfl, hover.1⟩⟩
        · rintro ⟨hopen, hmany | ⟨rfl, -⟩⟩
          · exact .inl ⟨hopen, hmany⟩
          · exact .inr rfl
      · intro url hkept
        rw [List.map_append, List.map_singleton, List.mem_append, List.mem_singleton, not_or] at hkept
        rw [noted_elsewhere url (hother url hkept.2)]
        dsimp only
        rw [OrderedMap.getElem?_insert_eq, if_neg (Ne.symm hkept.2)]
        exact ⟨(h.queue url hkept.1).1,
          fun later hall => (h.queue url hkept.1).2 later (hlater hall).2⟩
    · refine ⟨rfl, rfl, h.once, ?_, ?_⟩
      · intro url
        rw [h.removed, hcount]
        constructor
        · rintro ⟨hopen, hmany⟩
          exact ⟨hopen, .inl hmany⟩
        · rintro ⟨hopen, hmany | ⟨rfl, hmany⟩⟩
          · exact ⟨hopen, hmany⟩
          · exact absurd ⟨hmany, hopen⟩ hover
      · intro url hkept
        by_cases hurl : url = norm u
        · subst hurl
          dsimp only
          rw [OrderedMap.getElem?_insert_eq, if_pos rfl, Option.getD_some]
          exact ⟨List.filter_sublist, fun later hall => recent_recent (hlater hall).1⟩
        · rw [noted_elsewhere url (hother url hurl)]
          dsimp only
          rw [OrderedMap.getElem?_insert_eq, if_neg (Ne.symm hurl)]
          exact ⟨(h.queue url hkept).1,
            fun later hall => (h.queue url hkept).2 later (hlater hall).2⟩

theorem Kept.handshake {front : List (IncomingAddr × Nat)} {call : IncomingAddr × Nat}
    (h : Kept cfg protectedUrls front g) (henabled : cfg.enabled = true)
    (hsorted : ((front ++ [call]).map Prod.snd).Pairwise (· ≤ ·)) :
    Kept cfg protectedUrls (front ++ [call]) (g.noteHandshakeFailure call.1 call.2).2 := by
  rw [List.map_append, List.map_singleton, List.pairwise_append] at hsorted
  obtain ⟨hfront, -, hlast⟩ := hsorted
  have htimes : ∀ earlier ∈ front, earlier.2 ≤ call.2 := fun earlier hearlier =>
    hlast _ (List.mem_map_of_mem hearlier) _ (List.mem_singleton_self _)
  unfold noteHandshakeFailure
  rw [h.config, if_pos henabled]
  rcases call with ⟨u | _, now⟩
  · exact h.noteFailure htimes hfront
  · refine ⟨h.config, h.urls, h.once, ?_, ?_⟩
    · intro url
      rw [exceeded_elsewhere url rfl]
      exact h.removed url
    · intro url hkept
      rw [noted_elsewhere url rfl]
      exact ⟨(h.queue url hkept).1, fun later hall => (h.queue url hkept).2 later fun c hc =>
        hall c (List.mem_append_left _ hc)⟩

theorem kept_run (henabled : cfg.enabled = true)
    (hsorted : (calls.map Prod.snd).Pairwise (· ≤ ·)) :
    Kept cfg protectedUrls calls ((new cfg protectedUrls).run calls) := by
  induction calls using List.reverseRecOn with
  | nil =>
      refine ⟨rfl, rfl, List.nodup_nil, ?_, ?_⟩
      · intro url
        constructor
        · rintro ⟨⟩
        · rintro ⟨-, front, call, hfront, -⟩
          simp at hfront
      · intro url _
        have hnone : ((new cfg protectedUrls).run []).failures[url]? = none :=
          Std.ExtTreeMap.getElem?_empty
        rw [hnone]
        exact ⟨List.Sublist.refl _, fun _ _ => rfl⟩
  | append_singleton front call ih =>
      have hfront := hsorted
      rw [List.map_append, List.pairwise_append] at hfront
      unfold run
      rw [List.foldl_append]
      exact (ih hfront.1).handshake henabled hsorted

/-- The relays that are removed are those that are not protected and have once had too many
failures within the window, each of them removed once. -/
theorem relay_removed_iff (cfg : RelayGuardConfig) (protectedUrls : List Text)
    (calls : List (IncomingAddr × Nat)) (hsorted : (calls.map Prod.snd).Pairwise (· ≤ ·)) :
    (((new cfg protectedUrls).run calls).removed.map RemovedRelay.url).Nodup ∧
    ∀ url, url ∈ ((new cfg protectedUrls).run calls).removed.map RemovedRelay.url ↔
      cfg.enabled = true ∧ url ∉ protectedUrls.map norm ∧ Exceeded cfg calls url := by
  cases henabled : cfg.enabled with
  | false =>
      have hidle : (new cfg protectedUrls).run calls = new cfg protectedUrls := by
        unfold run
        induction calls with
        | nil => rfl
        | cons call rest ih =>
            rw [List.foldl_cons]
            rw [List.map_cons, List.pairwise_cons] at hsorted
            have hstep : ((new cfg protectedUrls).noteHandshakeFailure call.1 call.2).2 =
                new cfg protectedUrls := by
              unfold noteHandshakeFailure
              rw [if_neg (by simp [new, henabled])]
            rw [hstep]
            exact ih hsorted.2
      rw [hidle]
      simp [new]
  | true =>
      have hkept : Kept cfg protectedUrls calls _ := kept_run henabled hsorted
      exact ⟨hkept.once, fun url => by simpa using hkept.removed url⟩

def n0Relay : Text := "https://euc1-1.relay.n0.iroh.link./"

/-- Three failures in a row, the last of which is one too many. -/
def n0Failures : List (IncomingAddr × Nat) :=
  [(.relay n0Relay, 1000000000), (.other, 2000000000), (.relay n0Relay, 2000000000),
    (.relay n0Relay, 3000000000)]

theorem relay_removed_iff_third :
    norm n0Relay ∈ ((new { maxFailures := 3 } ["https://relay-fsn7.sth.cx"]).run
      n0Failures).removed.map RemovedRelay.url := by
  refine ((relay_removed_iff _ _ _ (by decide)).2 _).mpr ⟨rfl, by decide, n0Failures.take 3,
    (.relay n0Relay, 3000000000), List.prefix_refl _, by decide, by decide⟩

end RelayGuard

end P2p

end SthCore
