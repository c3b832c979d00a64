import Mathlib.Data.List.Basic
import Mathlib.Data.List.Infix

/-!
Frames in a stream: a header of fixed width that says how long the body is, and
the body.  A reader takes one symbol after another, and what it holds of an
unfinished frame is part of its state.
-/

namespace SthCore.Lib

/-- How the length of a body is written in front of it. -/
structure Framing (α : Type*) where
  width : Nat
  /-- The longest body. -/
  max : Nat
  header : Nat → List α
  value : List α → Nat
  width_pos : 0 < width
  header_length : ∀ n, (header n).length = width
  value_header : ∀ n, n ≤ max → value (header n) = n

/-- What the reader has taken of the frame it is at. -/
inductive Partial (α : Type*)
  | header (got : List α)
  | body (length : Nat) (got : List α)
  deriving DecidableEq

/-- What a reader comes to. -/
inductive Progress (α : Type*)
  | waiting (held : Partial α)
  | frame (body : List α)
  | outOfRange (length : Nat)

variable {α : Type*}

/-- A reader at the start of a frame. -/
def Partial.start : Partial α := .header []

def Partial.held (F : Framing α) : Partial α → List α
  | .header got => got
  | .body length got => F.header length ++ got

namespace Framing

variable (F : Framing α)

/-- A body that can be sent. -/
def Fits (body : List α) : Prop := 0 < body.length ∧ body.length ≤ F.max

def encode (body : List α) : List α := F.header body.length ++ body

def encodeAll (bodies : List (List α)) : List α := (bodies.map F.encode).flatten

/-- The next symbol of the stream. -/
def take : Partial α → α → Progress α
  | .header got, a =>
      let got := got ++ [a]
      if got.length < F.width then .waiting (.header got)
      else if F.value got = 0 ∨ F.max < F.value got then .outOfRange (F.value got)
      else .waiting (.body (F.value got) [])
  | .body length got, a =>
      let got := got ++ [a]
      if got.length < length then .waiting (.body length got) else .frame got

/-- Read what is there, up to the end of a frame. -/
def poll (p : Partial α) : List α → Progress α × List α
  | [] => (.waiting p, [])
  | a :: rest =>
      match F.take p a with
      | .waiting p' => poll p' rest
      | done => (done, rest)

/-- What the reader holds is the beginning of a frame and not the whole of it. -/
def Within : Partial α → Prop
  | .header got => got.length < F.width
  | .body length got => got.length < length ∧ length ≤ F.max

variable {F}

theorem within_start : F.Within .start := F.width_pos

theorem encodeAll_cons (body : List α) (bodies : List (List α)) :
    F.encodeAll (body :: bodies) = F.header body.length ++ (body ++ F.encodeAll bodies) := by
  simp [encodeAll, encode]

/-- What starts like a stream of frames, and is long enough, starts with a header of it. -/
theorem header_of_prefix {bodies : List (List α)} {got later : List α}
    (hgot : got.length = F.width) (h : got ++ later = F.encodeAll bodies) :
    ∃ body rest, bodies = body :: rest ∧ got = F.header body.length ∧
      later = body ++ F.encodeAll rest := by
  cases bodies with
  | nil =>
      have hempty := congrArg List.length h
      have hpos := F.width_pos
      simp only [encodeAll, List.map_nil, List.flatten_nil, List.length_append,
        List.length_nil] at hempty
      omega
  | cons body rest =>
      rw [encodeAll_cons] at h
      obtain ⟨hheader, hlater⟩ := List.append_inj h (by rw [hgot, F.header_length])
      exact ⟨body, rest, rfl, hheader, hlater⟩

/-- One symbol of a stream of frames: the reader has it, or a frame is complete. -/
theorem take_spec {bodies : List (List α)} (hfits : ∀ b ∈ bodies, F.Fits b) {p : Partial α}
    (hp : F.Within p) {a : α} {later : List α}
    (h : p.held F ++ a :: later = F.encodeAll bodies) :
    (∃ p', F.take p a = .waiting p' ∧ F.Within p' ∧ p'.held F = p.held F ++ [a]) ∨
      ∃ body rest, F.take p a = .frame body ∧ bodies = body :: rest ∧
        later = F.encodeAll rest := by
  rw [List.append_cons] at h
  cases p with
  | header got =>
      left
      change got.length < F.width at hp
      change (got ++ [a]) ++ later = _ at h
      by_cases hshort : (got ++ [a]).length < F.width
      · exact ⟨.header (got ++ [a]), by simp only [take, if_pos hshort], hshort, rfl⟩
      · have hwidth : (got ++ [a]).length = F.width := by
          rw [List.length_append, List.length_singleton] at hshort ⊢
          omega
        obtain ⟨body, rest, rfl, hheader, -⟩ := header_of_prefix hwidth h
        obtain ⟨hpos, hmax⟩ := hfits body List.mem_cons_self
        have hvalue : F.value (got ++ [a]) = body.length := by
          rw [hheader, F.value_header _ hmax]
        have hrange : ¬ (F.value (got ++ [a]) = 0 ∨ F.max < F.value (got ++ [a])) := by
          rw [hvalue]
          omega
        refine ⟨.body body.length [], ?_, ⟨hpos, hmax⟩, ?_⟩
        · simp only [take, if_neg hshort, if_neg hrange]
          rw [hvalue]
        · show F.header body.length ++ [] = got ++ [a]
          rw [List.append_nil, hheader]
  | body length got =>
      obtain ⟨hless, hmax⟩ := hp
      change (F.header length ++ got) ++ [a] ++ later = _ at h
      by_cases hshort : (got ++ [a]).length < length
      · left
        refine ⟨.body length (got ++ [a]), by simp only [take, if_pos hshort], ⟨hshort, hmax⟩, ?_⟩
        show F.header length ++ (got ++ [a]) = F.header length ++ got ++ [a]
        rw [List.append_assoc]
      · right
        have hwhole : (got ++ [a]).length = length := by
          rw [List.length_append, List.length_singleton] at hshort ⊢
          omega
        rw [List.append_assoc, List.append_assoc] at h
        obtain ⟨body, rest, rfl, hheader, hlater⟩ := header_of_prefix (F.header_length length) h
        obtain ⟨-, hbody⟩ := hfits body List.mem_cons_self
        have hlength : length = body.length := by
          rw [← F.value_header length hmax, hheader, F.value_header _ hbody]
        rw [← List.append_assoc] at hlater
        obtain ⟨hgot, hrest⟩ := List.append_inj hlater (by rw [hwhole, hlength])
        refine ⟨body, rest, ?_, rfl, hrest⟩
        simp only [take, if_neg hshort]
        rw [hgot]

/-- Reading a stream of frames: all that is there is taken, or one frame is. -/
theorem poll_spec {bodies : List (List α)} (hfits : ∀ b ∈ bodies, F.Fits b) {later : List α}
    (unread : List α) {p : Partial α} (hp : F.Within p)
    (h : p.held F ++ (unread ++ later) = F.encodeAll bodies) :
    (∃ p', F.poll p unread = (.waiting p', []) ∧ F.Within p' ∧
        p'.held F ++ later = F.encodeAll bodies) ∨
      ∃ body rest others, F.poll p unread = (.frame body, rest) ∧ bodies = body :: others ∧
        rest ++ later = F.encodeAll others ∧ rest.length < unread.length := by
  induction unread generalizing p with
  | nil => exact .inl ⟨p, rfl, hp, h⟩
  | cons a unread ih =>
      rw [List.cons_append] at h
      rcases take_spec hfits hp h with ⟨p', htake, hp', hheld⟩ | ⟨body, others, htake, rfl, hrest⟩
      · have hpoll : F.poll p (a :: unread) = F.poll p' unread := by
          simp only [poll, htake]
        rw [List.append_cons, ← hheld] at h
        rcases ih hp' h with hwaiting | ⟨body, rest, others, hdone, hbodies, hlater, hless⟩
        · rw [hpoll]
          exact .inl hwaiting
        · rw [hpoll]
          exact .inr ⟨body, rest, others, hdone, hbodies, hlater, Nat.lt_succ_of_lt hless⟩
      · right
        exact ⟨body, unread, others, by simp only [poll, htake], rfl, hrest, Nat.lt_succ_self _⟩

/-- What a reader holds of a stream of frames that ends there: nothing. -/
theorem held_eq_nil {bodies : List (List α)} (hfits : ∀ b ∈ bodies, F.Fits b) {p : Partial α}
    (hp : F.Within p) (h : p.held F = F.encodeAll bodies) : bodies = [] := by
  cases bodies with
  | nil => rfl
  | cons body rest =>
      exfalso
      rw [encodeAll_cons] at h
      cases p with
      | header got =>
          have hlength := congrArg List.length h
          change got.length < F.width at hp
          simp only [Partial.held, List.length_append, F.header_length] at hlength
          omega
      | body length got =>
          obtain ⟨hless, hmax⟩ := hp
          change F.header length ++ got = _ at h
          obtain ⟨hheader, hgot⟩ := List.append_inj h (by rw [F.header_length, F.header_length])
          obtain ⟨-, hbody⟩ := hfits body List.mem_cons_self
          have hlength : length = body.length := by
            rw [← F.value_header length hmax, hheader, F.value_header _ hbody]
          have hcount := congrArg List.length hgot
          rw [List.length_append] at hcount
          omega

end Framing

end SthCore.Lib
