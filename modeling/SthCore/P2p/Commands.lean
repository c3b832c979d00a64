import SthCore.Crypto.Codec
import SthCore.Lib.Framing
import SthCore.Lib.Runs

/-!
The commands of an events session: one loop reads frames and handles chain and
mempool events, and an event drops the read of the frame it comes in between.
-/

namespace SthCore

open SthCore.Lib

namespace P2p

def maxCommand : Nat := 64 * 1024

/-- The frames of the wallet API: four bytes, little-endian, and the body. -/
def frames : Framing UInt8 where
  width := 4
  max := maxCommand
  header := leBytes 4
  value := ofLeBytes
  width_pos := by decide
  header_length := leBytes_length 4
  value_header := by
    intro n hn
    rw [ofLeBytes_leBytes, Nat.mod_eq_of_lt]
    exact lt_of_le_of_lt hn (by decide)

/-- How the loop of a session ends. -/
inductive SessionEnd
  | closed
  | failed
  deriving DecidableEq

/-- The reading side of a session.  `coming` are the bytes that the wallet has written or will
write and that have not arrived, `unread` those that have, `reading` the current `read_frame`. -/
structure Commands where
  coming : Bytes
  unread : Bytes := []
  finished : Bool := false
  reading : Partial UInt8 := .start
  handled : List Bytes := []
  ended : Option SessionEnd := none

inductive CommandAction
  /-- Some more bytes arrive. -/
  | arrive (count : Nat)
  /-- The wallet has finished the stream. -/
  | finish
  /-- `read_frame` is polled, and a complete frame goes to `handle_command`. -/
  | poll
  /-- A chain event or a mempool event is handled, and the loop starts over. -/
  | event

namespace Commands

/-- The stream has ended where `read_exact` waits for more. -/
def atEnd (c : Commands) : Option SessionEnd :=
  if c.finished then
    if c.reading.held frames = [] then some .closed else some .failed
  else none

def poll (c : Commands) : Commands :=
  match frames.poll c.reading c.unread with
  | (.waiting reading, rest) =>
      let c := { c with reading, unread := rest }
      { c with ended := c.atEnd }
  | (.frame body, rest) =>
      { c with reading := .start, unread := rest, handled := c.handled ++ [body] }
  | (.outOfRange _, rest) => { c with unread := rest, ended := some .failed }

/-- The bytes of the wallet arrive in any case; a loop that has ended does nothing more. -/
def step (c : Commands) : CommandAction → Option Commands
  | .arrive count =>
      some { c with unread := c.unread ++ c.coming.take count, coming := c.coming.drop count }
  | .finish => if c.coming = [] then some { c with finished := true } else none
  | .poll => if c.ended = none then some c.poll else none
  | .event => if c.ended = none then some { c with reading := .start } else none

/-- An event is not handled while a part of a frame has been read. -/
def Whole (c : Commands) (a : CommandAction) : Prop := a = .event → c.reading = .start

instance (c : Commands) (a : CommandAction) : Decidable (c.Whole a) :=
  match a with
  | .event => decidable_of_iff (c.reading = .start) ⟨fun h _ => h, fun h => h rfl⟩
  | .arrive _ => .isTrue (by rintro ⟨⟩)
  | .finish => .isTrue (by rintro ⟨⟩)
  | .poll => .isTrue (by rintro ⟨⟩)

/-- Where a session is in the commands that the wallet writes. -/
structure Kept (commands : List Bytes) (c : Commands) : Prop where
  within : frames.Within c.reading
  split : ∃ rest, commands = c.handled ++ rest ∧
    c.reading.held frames ++ (c.unread ++ c.coming) = frames.encodeAll rest
  finished : c.finished → c.coming = []
  sound : c.ended ≠ some .failed
  closed : c.ended = some .closed → c.handled = commands

theorem kept_start (commands : List Bytes) :
    Kept commands { coming := frames.encodeAll commands } where
  within := Framing.within_start
  split := ⟨commands, rfl, rfl⟩
  finished := by rintro ⟨⟩
  sound := by rintro ⟨⟩
  closed := by rintro ⟨⟩

section

variable {commands : List Bytes} {c : Commands}

/-- Everything has arrived and has been read. -/
theorem Kept.all (k : Kept commands c) (hfits : ∀ b ∈ commands, frames.Fits b)
    (hcoming : c.coming = []) (hunread : c.unread = []) : c.handled = commands := by
  obtain ⟨rest, hsplit, hheld⟩ := k.split
  rw [hcoming, hunread, List.append_nil, List.append_nil] at hheld
  have hrest : rest = [] := by
    refine Framing.held_eq_nil (fun b hb => hfits b ?_) k.within hheld
    rw [hsplit]
    exact List.mem_append_right _ hb
  rw [hsplit, hrest, List.append_nil]

theorem Kept.poll (k : Kept commands c) (hfits : ∀ b ∈ commands, frames.Fits b)
    (hrunning : c.ended = none) : Kept commands c.poll := by
  obtain ⟨rest, hsplit, hheld⟩ := k.split
  have hrest : ∀ b ∈ rest, frames.Fits b := by
    intro b hb
    refine hfits b ?_
    rw [hsplit]
    exact List.mem_append_right _ hb
  rcases Framing.poll_spec hrest c.unread k.within hheld with
    ⟨p, hpoll, hp, hleft⟩ | ⟨body, left, others, hpoll, rfl, hleft, -⟩
  · -- the frame is not complete
    have hkept : c.finished → p.held frames = [] ∧ c.handled = commands := by
      intro hfinished
      rw [k.finished hfinished, List.append_nil] at hleft
      have hnone := Framing.held_eq_nil hrest hp hleft
      rw [hnone] at hleft
      exact ⟨hleft, by rw [hsplit, hnone, List.append_nil]⟩
    unfold Commands.poll
    rw [hpoll]
    refine ⟨hp, ⟨rest, hsplit, hleft⟩, k.finished, ?_, ?_⟩
    · show atEnd _ ≠ _
      unfold atEnd
      split_ifs with hfinished hnone
      · rintro ⟨⟩
      · exact absurd (hkept hfinished).1 hnone
      · rintro ⟨⟩
    · show atEnd _ = _ → _
      unfold atEnd
      split_ifs with hfinished
      · exact fun _ => (hkept hfinished).2
      · exact fun _ => (hkept hfinished).2
      · rintro ⟨⟩
  · unfold Commands.poll
    rw [hpoll]
    refine ⟨Framing.within_start, ⟨others, ?_, hleft⟩, k.finished, ?_, ?_⟩
    · rw [hsplit, List.append_assoc, List.singleton_append]
    · show c.ended ≠ _
      rw [hrunning]
      rintro ⟨⟩
    · show c.ended = _ → _
      rw [hrunning]
      rintro ⟨⟩

theorem Kept.step (k : Kept commands c) (hfits : ∀ b ∈ commands, frames.Fits b)
    {a : CommandAction} {c' : Commands} (hgood : c.Whole a) (h : c.step a = some c') :
    Kept commands c' := by
  cases a with
  | arrive count =>
      obtain rfl := Option.some.inj h
      obtain ⟨rest, hsplit, hheld⟩ := k.split
      refine ⟨k.within, ⟨rest, hsplit, ?_⟩, ?_, k.sound, k.closed⟩
      · show _ ++ ((c.unread ++ c.coming.take count) ++ c.coming.drop count) = _
        rw [List.append_assoc, List.take_append_drop]
        exact hheld
      · intro hfinished
        show c.coming.drop count = []
        rw [k.finished hfinished, List.drop_nil]
  | finish =>
      change (if c.coming = [] then some { c with finished := true } else none) = some c' at h
      split_ifs at h with hcoming
      obtain rfl := Option.some.inj h
      exact ⟨k.within, k.split, fun _ => hcoming, k.sound, k.closed⟩
  | poll =>
      change (if c.ended = none then some c.poll else none) = some c' at h
      split_ifs at h with hrunning
      obtain rfl := Option.some.inj h
      exact k.poll hfits hrunning
  | event =>
      change (if c.ended = none then some { c with reading := .start } else none) = some c' at h
      split_ifs at h with hrunning
      obtain rfl := Option.some.inj h
      -- the dropped read has taken nothing
      have hsame : ({ c with reading := .start } : Commands) = c := by
        rw [← hgood rfl]
      rw [hsame]
      exact k

/-- A poll gets on as long as there are bytes. -/
theorem Kept.poll_lt (k : Kept commands c) (hfits : ∀ b ∈ commands, frames.Fits b)
    (hunread : c.unread ≠ []) : c.poll.unread.length < c.unread.length := by
  obtain ⟨rest, hsplit, hheld⟩ := k.split
  have hrest : ∀ b ∈ rest, frames.Fits b := by
    intro b hb
    refine hfits b ?_
    rw [hsplit]
    exact List.mem_append_right _ hb
  unfold Commands.poll
  rcases Framing.poll_spec hrest c.unread k.within hheld with
    ⟨p, hpoll, -, -⟩ | ⟨body, left, others, hpoll, -, -, hless⟩
  · rw [hpoll]
    exact List.length_pos_iff.mpr hunread
  · rw [hpoll]
    exact hless

end

end Commands

/-- When no event comes in the middle of a frame, a session handles the commands of the wallet
one after another, and all of them once their bytes are there. -/
theorem commands_in_order (commands : List Bytes) (hfits : ∀ b ∈ commands, frames.Fits b)
    {c : Commands}
    (h : Reaches Commands.step Commands.Whole { coming := frames.encodeAll commands } c) :
    c.handled <+: commands ∧ c.ended ≠ some .failed ∧
      (c.ended = some .closed → c.handled = commands) ∧
      (c.coming = [] → c.unread = [] → c.handled = commands) ∧
      (c.unread ≠ [] → c.poll.unread.length < c.unread.length) := by
  have k : Commands.Kept commands c :=
    h.invariant (Commands.kept_start commands) fun _ _ _ k hgood hnext => k.step hfits hgood hnext
  obtain ⟨rest, hsplit, -⟩ := k.split
  exact ⟨⟨rest, hsplit.symm⟩, k.sound, k.closed, k.all hfits, k.poll_lt hfits⟩

/-- Two commands in pieces of three and ten bytes, and an event between the commands. -/
theorem commands_in_order_pieces :
    ∃ c, follow Commands.step Commands.Whole { coming := frames.encodeAll [[123, 125], [49]] }
        [.arrive 3, .poll, .arrive 3, .poll, .event, .arrive 7, .poll] = some c ∧
      c.handled = [[123, 125], [49]] := by
  have hrun : (follow Commands.step Commands.Whole
      { coming := frames.encodeAll [[123, 125], [49]] }
      [.arrive 3, .poll, .arrive 3, .poll, .event, .arrive 7, .poll]).isSome := by
    decide +kernel
  have hread : ∀ c ∈ follow Commands.step Commands.Whole
      { coming := frames.encodeAll [[123, 125], [49]] }
      [.arrive 3, .poll, .arrive 3, .poll, .event, .arrive 7, .poll],
      c.coming = [] ∧ c.unread = [] := by
    decide +kernel
  obtain ⟨c, hc⟩ := Option.isSome_iff_exists.mp hrun
  obtain ⟨hcoming, hunread⟩ := hread c hc
  obtain ⟨-, -, -, hall, -⟩ := commands_in_order [[123, 125], [49]]
    (by unfold Framing.Fits; decide +kernel) (Reaches.of_follow hc)
  exact ⟨c, hc, hall hcoming hunread⟩

/-- An event between the two pieces of a command: its first two bytes are lost, and nothing is
handled although everything has arrived and has been read. -/
theorem command_lost :
    ∃ c, [CommandAction.arrive 2, .poll, .event, .arrive 3, .poll].foldlM Commands.step
        { coming := frames.encodeAll [[49]] } = some c ∧
      c.coming = [] ∧ c.unread = [] ∧ c.ended = none ∧ c.handled = [] := by
  exact ⟨_, rfl, by decide +kernel⟩

end P2p

end SthCore
