import Mathlib.Data.List.Basic

/-!
Bounded queues: a full queue loses its front when something is put in, and what
can still be found in it afterwards.
-/

namespace SthCore.Lib

variable {α : Type*} {cap : ℕ} {queue past : List α} {a : α}

/-- `push_back` on a queue of a fixed capacity. -/
def pushBounded (cap : ℕ) (queue : List α) (a : α) : List α :=
  (if queue.length = cap then queue.tail else queue) ++ [a]

/-- What falls out at the next push. -/
def outgoing (cap : ℕ) (queue : List α) : Option α :=
  if queue.length = cap then queue.head? else none

theorem pushBounded_suffix (h : queue <:+ past) : pushBounded cap queue a <:+ past ++ [a] := by
  have hkept : (if queue.length = cap then queue.tail else queue) <:+ past := by
    split_ifs
    · exact (List.tail_suffix queue).trans h
    · exact h
  obtain ⟨front, hfront⟩ := hkept
  exact ⟨front, by rw [pushBounded, ← List.append_assoc, hfront]⟩

theorem mem_pushBounded_self : a ∈ pushBounded cap queue a :=
  List.mem_append_right _ (List.mem_singleton_self a)

/-- What was in the queue is still there, or has fallen out. -/
theorem mem_pushBounded_or (cap : ℕ) (a : α) {x : α} (hx : x ∈ queue) :
    x ∈ pushBounded cap queue a ∨ outgoing cap queue = some x := by
  unfold pushBounded outgoing
  split_ifs
  · cases queue with
    | nil => cases hx
    | cons b rest =>
        rcases List.mem_cons.mp hx with rfl | hx
        · exact .inr rfl
        · exact .inl (List.mem_append_left _ hx)
  · exact .inl (List.mem_append_left _ hx)

theorem of_mem_pushBounded {x : α} (hx : x ∈ pushBounded cap queue a) : x ∈ queue ∨ x = a := by
  rcases List.mem_append.mp hx with hx | hx
  · left
    split_ifs at hx
    · exact List.mem_of_mem_tail hx
    · exact hx
  · exact .inr (List.mem_singleton.mp hx)

theorem mem_of_outgoing {x : α} (hx : outgoing cap queue = some x) : x ∈ queue := by
  unfold outgoing at hx
  split_ifs at hx
  exact List.mem_of_mem_head? hx

end SthCore.Lib
