import Mathlib.Logic.Basic

/-! # Functions that report failure and keep their state

A C function that returns `bool` and gives its result through an out parameter
may change its state before it fails, and callers see that state.
`Fallible σ α` is such a function on states `σ`: it yields a result or not, and
a state in either case.  A failure stops the caller at that point and keeps the
state, which is what an early `return false` does.
-/

/-- From a state, a result if the function succeeds, and the state it leaves. -/
structure Fallible (σ α : Type) where
  run : σ → Option α × σ

namespace Fallible
variable {σ τ α β : Type}

/-- Continue with the result of `x`, if it has one. -/
protected def bind (x : Fallible σ α) (f : α → Fallible σ β) : Fallible σ β where
  run s :=
    match x.run s with
    | (some a, s') => (f a).run s'
    | (none, s') => (none, s')

instance : Monad (Fallible σ) where
  pure a := ⟨fun s => (some a, s)⟩
  bind := Fallible.bind

/-- `return false`. -/
def fail : Fallible σ α := ⟨fun s => (none, s)⟩

/-- Read the state. -/
def get : Fallible σ σ := ⟨fun s => (some s, s)⟩

/-- Change the state. -/
def modify (f : σ → σ) : Fallible σ Unit := ⟨fun s => (some (), f s)⟩

/-- Run a function on the first component of a larger state. -/
def onFst (x : Fallible σ α) : Fallible (σ × τ) α :=
  ⟨fun s => ((x.run s.1).1, ((x.run s.1).2, s.2))⟩

@[simp] theorem pure_run (a : α) (s : σ) : (pure a : Fallible σ α).run s = (some a, s) := rfl

@[simp] theorem fail_run (s : σ) : (fail : Fallible σ α).run s = (none, s) := rfl

@[simp] theorem get_run (s : σ) : (get : Fallible σ σ).run s = (some s, s) := rfl

@[simp] theorem modify_run (f : σ → σ) (s : σ) : (modify f).run s = (some (), f s) := rfl

@[simp] theorem onFst_run (x : Fallible σ α) (s : σ) (t : τ) :
    (onFst x).run (s, t) = ((x.run s).1, ((x.run s).2, t)) := rfl

theorem bind_run (x : Fallible σ α) (f : α → Fallible σ β) (s : σ) :
    (x >>= f).run s = match x.run s with
      | (some a, s') => (f a).run s'
      | (none, s') => (none, s') := rfl

theorem bind_of_some {x : Fallible σ α} {f : α → Fallible σ β} {s s' : σ} {a : α}
    (h : x.run s = (some a, s')) : (x >>= f).run s = (f a).run s' := by
  rw [bind_run, h]

theorem bind_of_none {x : Fallible σ α} {f : α → Fallible σ β} {s s' : σ}
    (h : x.run s = (none, s')) : (x >>= f).run s = (none, s') := by
  rw [bind_run, h]

/-- Where a sequence succeeds, its first part has, and then the rest from there. -/
theorem bind_eq_some {x : Fallible σ α} {f : α → Fallible σ β} {s t : σ} {b : β}
    (h : (x >>= f).run s = (some b, t)) :
    ∃ a s', x.run s = (some a, s') ∧ (f a).run s' = (some b, t) := by
  rw [bind_run] at h
  rcases hr : x.run s with ⟨_ | a, s'⟩
  · rw [hr] at h
    cases h
  · rw [hr] at h
    exact ⟨a, s', rfl, h⟩

/-! ### What a function leaves alone -/

section Frame
variable {γ : Type} {f : σ → γ}

/-- Whether `x` succeeds or not, it leaves `f` of the state as it is. -/
def Frame (f : σ → γ) (x : Fallible σ α) : Prop := ∀ s, f (x.run s).2 = f s

theorem Frame.pure (a : α) : Frame f (pure a : Fallible σ α) := fun _ => rfl

theorem Frame.fail : Frame f (fail : Fallible σ α) := fun _ => rfl

theorem Frame.get : Frame f get := fun _ => rfl

theorem Frame.modify {g : σ → σ} (h : ∀ s, f (g s) = f s) : Frame f (modify g) := h

/-- What follows `x` leaves alone, it leaves as `x` left it. -/
theorem Frame.tail {x : Fallible σ α} {k : α → Fallible σ β} (hk : ∀ a, Frame f (k a)) (s : σ) :
    f ((x >>= k).run s).2 = f (x.run s).2 := by
  rw [bind_run]
  rcases x.run s with ⟨_ | a, s'⟩
  · rfl
  · exact hk a s'

theorem Frame.bind {x : Fallible σ α} {k : α → Fallible σ β} (hx : Frame f x)
    (hk : ∀ a, Frame f (k a)) : Frame f (x >>= k) :=
  fun s => (Frame.tail hk s).trans (hx s)

end Frame

/-! ### All or nothing -/

section Atomic
variable {γ : Type} {f : σ → γ} {x : Fallible σ α} {k : α → Fallible σ β}

/-- `x` does not fail. -/
def Total (x : Fallible σ α) : Prop := ∀ s, (x.run s).1 ≠ none

/-- If `x` fails, it leaves `f` of the state as it is. -/
def Atomic (f : σ → γ) (x : Fallible σ α) : Prop :=
  ∀ s, (x.run s).1 = none → f (x.run s).2 = f s

theorem Total.pure (a : α) : Total (pure a : Fallible σ α) := fun _ => by simp

theorem Total.get : Total (get : Fallible σ σ) := fun _ => by simp

theorem Total.modify (g : σ → σ) : Total (modify g) := fun _ => by simp

theorem Total.bind (hx : Total x) (hk : ∀ a, Total (k a)) : Total (x >>= k) := by
  intro s
  have hx' := hx s
  rcases hr : x.run s with ⟨_ | a, t⟩
  · rw [hr] at hx'
    exact absurd rfl hx'
  · rw [bind_of_some hr]
    exact hk a t

theorem Total.atomic (hx : Total x) : Atomic f x := fun s h => absurd h (hx s)

theorem Frame.atomic (hx : Frame f x) : Atomic f x := fun s _ => hx s

/-- Nothing fails behind the part that may. -/
theorem Atomic.bind_total (hx : Atomic f x) (hk : ∀ a, Total (k a)) : Atomic f (x >>= k) := by
  intro s h
  have hx' := hx s
  rcases hr : x.run s with ⟨_ | a, t⟩
  · rw [bind_of_none hr]
    rw [hr] at hx'
    exact hx' rfl
  · rw [bind_of_some hr] at h
    exact absurd h (hk a t)

/-- Nothing is changed in front of the part that may fail. -/
theorem Frame.bind_atomic (hx : Frame f x) (hk : ∀ a, Atomic f (k a)) : Atomic f (x >>= k) := by
  intro s h
  have hx' := hx s
  rcases hr : x.run s with ⟨_ | a, t⟩
  · rw [bind_of_none hr]
    rw [hr] at hx'
    exact hx'
  · rw [hr] at hx'
    rw [bind_of_some hr] at h ⊢
    exact (hk a t h).trans hx'

theorem Atomic.ite {c : Prop} [Decidable c] {x' : Fallible σ α} (h : Atomic f x)
    (h' : Atomic f x') : Atomic f (if c then x else x') := by
  split
  · exact h
  · exact h'

theorem Atomic.onFst (hx : Atomic f x) :
    Atomic (fun s : σ × τ => (f s.1, s.2)) (onFst x) := by
  rintro ⟨s, t⟩ h
  exact congrArg (·, t) (hx s h)

end Atomic

/-! ### Functions seen through a view of the state -/

section Maps
variable {f : σ → τ}

/-- Seen through `f`, the function `x` is `y`. -/
def Maps (f : σ → τ) (x : Fallible σ α) (y : Fallible τ α) : Prop :=
  ∀ s, y.run (f s) = ((x.run s).1, f (x.run s).2)

theorem Maps.pure (a : α) : Maps f (pure a) (pure a) := fun _ => rfl

theorem Maps.fail : Maps f (fail : Fallible σ α) fail := fun _ => rfl

theorem Maps.modify {g : σ → σ} {h : τ → τ} (hc : ∀ s, h (f s) = f (g s)) :
    Maps f (modify g) (modify h) := fun s => by rw [modify_run, modify_run, hc]

theorem Maps.bind {x : Fallible σ α} {y : Fallible τ α} {k : α → Fallible σ β}
    {l : α → Fallible τ β} (hx : Maps f x y) (hk : ∀ a, Maps f (k a) (l a)) :
    Maps f (x >>= k) (y >>= l) := by
  intro s
  rw [bind_run, bind_run, hx s]
  rcases x.run s with ⟨_ | a, s'⟩
  · rfl
  · exact hk a s'

theorem Maps.ite {c : Prop} {i j : Decidable c} {x x' : Fallible σ α} {y y' : Fallible τ α}
    (h : Maps f x y) (h' : Maps f x' y') : Maps f (@ite _ c i x x') (@ite _ c j y y') := by
  by_cases hc : c
  · rw [if_pos hc, if_pos hc]
    exact h
  · rw [if_neg hc, if_neg hc]
    exact h'

theorem Maps.get_bind {k : σ → Fallible σ β} {l : τ → Fallible τ β}
    (hk : ∀ s, Maps f (k s) (l (f s))) : Maps f (get >>= k) (get >>= l) :=
  fun s => hk s s

end Maps

end Fallible
