import SthCore.Lib.Pairs

/-!
Computations that may fail: inversion of successful runs, and what a fold
preserves when every step does.
-/

namespace SthCore.Lib

universe u

section Bind

variable {ε : Type*} {α β : Type u}

theorem bind_eq_ok {x : Except ε α} {f : α → Except ε β} {b : β} :
    (x >>= f) = .ok b ↔ ∃ a, x = .ok a ∧ f a = .ok b := by
  cases x with
  | error e => simp [bind, Except.bind]
  | ok a => simp [bind, Except.bind]

theorem map_eq_ok {x : Except ε α} {f : α → β} {b : β} :
    f <$> x = .ok b ↔ ∃ a, x = .ok a ∧ f a = b := by
  cases x with
  | error e => simp [Functor.map, Except.map]
  | ok a => simp [Functor.map, Except.map]

@[simp] theorem pure_eq_ok {a b : α} : (pure a : Except ε α) = .ok b ↔ a = b := by
  simp [pure, Except.pure]

theorem ok_bind {a : α} {f : α → Except ε β} : ((Except.ok a : Except ε α) >>= f) = f a := rfl

@[simp] theorem throw_ne_ok {e : ε} {b : α} : (throw e : Except ε α) ≠ .ok b := by
  simp [throw, throwThe, MonadExceptOf.throw]

@[simp] theorem throw_bind {e : ε} {f : α → Except ε β} :
    ((throw e : Except ε α) >>= f) = .error e := rfl

theorem ite_error_eq_ok {c : Prop} [Decidable c] {e : ε} {x : Except ε α} {b : α} :
    (if c then .error e else x) = .ok b ↔ ¬c ∧ x = .ok b := by
  split_ifs with h
  · simp [h]
  · simp [h]

theorem exists_ok_of_isOk {ε α : Type*} {x : Except ε α} (h : x.isOk) : ∃ a, x = .ok a := by
  cases x with
  | error e => cases h
  | ok a => exact ⟨a, rfl⟩

theorem toOption_eq_some {ε α : Type*} {x : Except ε α} {a : α} :
    x.toOption = some a ↔ x = .ok a := by
  cases x with
  | error e => simp [Except.toOption]
  | ok b => simp [Except.toOption]

theorem exists_ok_of_isSome {ε α : Type*} {x : Except ε α} (h : x.toOption.isSome) :
    ∃ a, x = .ok a := by
  obtain ⟨a, ha⟩ := Option.isSome_iff_exists.mp h
  exact ⟨a, toOption_eq_some.mp ha⟩

theorem exists_error_of_toOption {ε α : Type*} {x : Except ε α} (h : x.toOption = none) :
    ∃ e, x = .error e := by
  cases x with
  | error e => exact ⟨e, rfl⟩
  | ok a => cases h

end Bind

section Fold

variable {ε α σ : Type*} {f : σ → α → Except ε σ} {s t : σ} {l : List α}

theorem foldlM_nil_ok : ([] : List α).foldlM f s = .ok t ↔ s = t := by
  simp

theorem foldlM_cons_ok {a : α} :
    (a :: l).foldlM f s = .ok t ↔ ∃ u, f s a = .ok u ∧ l.foldlM f u = .ok t := by
  rw [List.foldlM_cons, bind_eq_ok]

theorem foldlM_append_ok {l' : List α} :
    (l ++ l').foldlM f s = .ok t ↔ ∃ u, l.foldlM f s = .ok u ∧ l'.foldlM f u = .ok t := by
  rw [List.foldlM_append, bind_eq_ok]

/-- Every element has its step in a successful fold. -/
theorem foldlM_mem (h : l.foldlM f s = .ok t) : ∀ a ∈ l, ∃ u u', f u a = .ok u' := by
  induction l generalizing s with
  | nil => simp
  | cons a l ih =>
      obtain ⟨u, hu, hrest⟩ := foldlM_cons_ok.mp h
      intro x hx
      rcases List.mem_cons.mp hx with rfl | hx
      · exact ⟨s, u, hu⟩
      · exact ih hrest x hx

/-- What every successful step preserves, the whole fold preserves. -/
theorem foldlM_preserves {P : σ → Prop}
    (hstep : ∀ s a s', a ∈ l → f s a = .ok s' → P s → P s')
    (h : l.foldlM f s = .ok t) (hs : P s) : P t := by
  induction l generalizing s with
  | nil =>
      rw [foldlM_nil_ok] at h
      exact h ▸ hs
  | cons a l ih =>
      obtain ⟨u, hu, hrest⟩ := foldlM_cons_ok.mp h
      refine ih (fun s x s' hx => hstep s x s' (List.mem_cons_of_mem a hx)) hrest ?_
      exact hstep s a u List.mem_cons_self hu hs

/-- A projection that every step leaves alone. -/
theorem foldlM_frame {τ : Type*} (π : σ → τ)
    (hstep : ∀ s a s', a ∈ l → f s a = .ok s' → π s' = π s)
    (h : l.foldlM f s = .ok t) : π t = π s :=
  foldlM_preserves (P := fun u => π u = π s)
    (fun u a u' ha hu hπ => (hstep u a u' ha hu).trans hπ) h rfl

/-- A projection that every step changes by a function of the element alone. -/
theorem foldlM_project {τ : Type*} (π : σ → τ) (g : τ → α → τ)
    (hstep : ∀ s a s', a ∈ l → f s a = .ok s' → π s' = g (π s) a)
    (h : l.foldlM f s = .ok t) : π t = l.foldl g (π s) := by
  induction l generalizing s with
  | nil =>
      rw [foldlM_nil_ok] at h
      simp [h]
  | cons a l ih =>
      obtain ⟨u, hu, hrest⟩ := foldlM_cons_ok.mp h
      rw [List.foldl_cons, ← hstep s a u List.mem_cons_self hu]
      exact ih (fun s x s' hx => hstep s x s' (List.mem_cons_of_mem a hx)) hrest

end Fold

/-- Elementwise results of a successful traversal. -/
theorem mapM_ok_cons {ε α : Type*} {β : Type u} {f : α → Except ε β} {a : α} {l : List α} {bs : List β} :
    (a :: l).mapM f = .ok bs ↔ ∃ b rest, f a = .ok b ∧ l.mapM f = .ok rest ∧ bs = b :: rest := by
  rw [List.mapM_cons, bind_eq_ok]
  constructor
  · rintro ⟨b, hb, h⟩
    obtain ⟨rest, hrest, h⟩ := bind_eq_ok.mp h
    exact ⟨b, rest, hb, hrest, (pure_eq_ok.mp h).symm⟩
  · rintro ⟨b, rest, hb, hrest, rfl⟩
    exact ⟨b, hb, bind_eq_ok.mpr ⟨rest, hrest, rfl⟩⟩

theorem forall₂_of_mapM_ok {ε α : Type*} {β : Type u} {f : α → Except ε β} {l : List α} {bs : List β}
    (h : l.mapM f = .ok bs) : List.Forall₂ (fun a b => f a = .ok b) l bs := by
  induction l generalizing bs with
  | nil =>
      rw [List.mapM_nil, pure_eq_ok] at h
      rw [← h]
      exact .nil
  | cons a l ih =>
      obtain ⟨b, rest, hb, hrest, rfl⟩ := mapM_ok_cons.mp h
      exact .cons hb (ih hrest)

theorem mapM_ok_mem {ε α : Type*} {β : Type u} {f : α → Except ε β} {l : List α} {bs : List β}
    (h : l.mapM f = .ok bs) : ∀ b ∈ bs, ∃ a ∈ l, f a = .ok b :=
  forall₂_mem_right (forall₂_of_mapM_ok h)

theorem mapM_eq_of_forall₂ {ε α β : Type*} {γ : Type u} {R : α → β → Prop} {l : List α}
    {m : List β} {f : α → Except ε γ} {g : β → Except ε γ} (h : List.Forall₂ R l m) (hfg : ∀ a b, R a b → f a = g b) : l.mapM f = m.mapM g := by
  induction h with
  | nil => rfl
  | cons hab hrest ih => rw [List.mapM_cons, List.mapM_cons, hfg _ _ hab, ih]

theorem mapM_ok_of_forall₂ {ε α : Type*} {γ : Type u} {l : List α} {m : List γ} {f : α → Except ε γ}
    (h : List.Forall₂ (fun a c => f a = .ok c) l m) : l.mapM f = .ok m := by
  induction h with
  | nil => rfl
  | cons hab hrest ih =>
      rw [List.mapM_cons, hab, ih]
      rfl

/-- A list that is written from items and gives their values back. -/
theorem mapM_map_ok {ε ι β : Type*} {γ : Type u} {items : List ι} {write : ι → β} {value : ι → γ}
    {read : β → Except ε γ} (h : ∀ i ∈ items, read (write i) = .ok (value i)) :
    (items.map write).mapM read = .ok (items.map value) := by
  induction items with
  | nil => rfl
  | cons i rest ih =>
      rw [List.map_cons, List.map_cons]
      have hrest := ih fun j hj => h j (List.mem_cons_of_mem i hj)
      exact mapM_ok_cons.mpr ⟨value i, rest.map value, h i List.mem_cons_self, hrest, rfl⟩

theorem mapM_ok_head {ε α : Type*} {β : Type u} {f : α → Except ε β} {l : List α} {bs : List β}
    {b : β} (h : l.mapM f = .ok bs) (hb : bs.head? = some b) :
    ∃ a, l.head? = some a ∧ f a = .ok b := by
  cases forall₂_of_mapM_ok h with
  | nil => cases hb
  | cons hab hrest =>
      injection hb with hb
      subst hb
      exact ⟨_, rfl, hab⟩

theorem mapM_ok_getLast {ε α : Type*} {β : Type u} {f : α → Except ε β} {l : List α}
    {bs : List β} {a : α} (h : l.mapM f = .ok bs) (ha : l.getLast? = some a) :
    ∃ b, bs.getLast? = some b ∧ f a = .ok b := by
  have hall := List.forall₂_reverse_iff.mpr (forall₂_of_mapM_ok h)
  rw [← List.head?_reverse] at ha ⊢
  generalize l.reverse = lr at hall ha
  generalize bs.reverse = br at hall
  cases hall with
  | nil => cases ha
  | cons hab hrest =>
      injection ha with ha
      subst ha
      exact ⟨_, rfl, hab⟩

end SthCore.Lib
