import Libae.Runs
import Mathlib.Algebra.BigOperators.Group.Finset.Piecewise
import Mathlib.Algebra.Order.BigOperators.Group.Finset

/-! # Progress of labelled systems

A system that is left to itself takes only some of its steps: nobody calls it any more,
and what it relies on does not fail.  `System.restrict` keeps the steps that are left.

`System.Progress` is what the argument for termination needs: an invariant, a measure that
every step decreases, and a step from every state that is not final.  Then no run is longer
than the measure (`Progress.length_le`), a run that cannot go on is in a final state
(`Progress.ends`), and there are a run that cannot (`Progress.stops`) and so a run to a final
state (`Progress.finishes`).

Where the measure is a sum over the parts of a state and a step changes one of them, it is
enough that the part decreases (`sum_update_lt`).
-/
namespace Runs

namespace System
variable {S A : Type*} {M : System S A}

/-! ### Fewer steps -/

/-- The steps of `M` that `P` allows. -/
def restrict (M : System S A) (P : S → A → Prop) : System S A where
  init := M.init
  step s a t := P s a ∧ M.step s a t

/-- A run of the steps that are left is a run. -/
theorem Run.of_restrict {P : S → A → Prop} {s t : S} {τs : List (Transition S A)}
    (hr : (M.restrict P).Run s τs t) : M.Run s τs t := by
  induction hr with
  | nil => exact .nil
  | snoc _ hs ih => exact ih.snoc hs.2

/-- A run whose steps are all allowed. -/
theorem Run.restrict {P : S → A → Prop} {s t : S} {τs : List (Transition S A)}
    (hr : M.Run s τs t) (hP : ∀ τ ∈ τs, P τ.before τ.action) : (M.restrict P).Run s τs t := by
  induction hr with
  | nil => exact .nil
  | snoc _ hs ih =>
    rw [List.forall_mem_append, List.forall_mem_singleton] at hP
    exact (ih hP.1).snoc ⟨hP.2, hs⟩

/-- What every step keeps holds before every step of a run. -/
theorem Run.within {I : S → Prop} (hstep : ∀ s a t, I s → M.step s a t → I t)
    {s t : S} {τs : List (Transition S A)} (hr : M.Run s τs t) (hs : I s) :
    (M.restrict (fun s _ => I s)).Run s τs t := by
  induction hr with
  | nil => exact .nil
  | snoc hr h ih => exact ih.snoc ⟨hr.invariant hstep hs, h⟩

/-- A state that can be reached by a run from a reachable state. -/
theorem Reachable.run {s t : S} {τs : List (Transition S A)} (h : M.Reachable s)
    (hr : M.Run s τs t) : M.Reachable t := by
  obtain ⟨s₀, ρs, h₀, hρ⟩ := h
  exact ⟨s₀, _, h₀, hρ.append hr⟩

/-! ### Termination -/

/-- From the states of the invariant `I`, every step decreases the measure `μ`, and there is
a step unless the state is one of `F`. -/
structure Progress (M : System S A) (I : S → Prop) (μ : S → Nat) (F : S → Prop) : Prop where
  keep : ∀ s a t, I s → M.step s a t → I t
  decreases : ∀ s a t, I s → M.step s a t → μ t < μ s
  moves : ∀ s, I s → ¬ F s → ∃ a t, M.step s a t

namespace Progress
variable {I : S → Prop} {μ : S → Nat} {F : S → Prop} {s t : S} {τs : List (Transition S A)}

/-- No run is longer than the measure. -/
theorem length_le (h : M.Progress I μ F) (hr : M.Run s τs t) (hs : I s) :
    τs.length + μ t ≤ μ s := by
  induction hr with
  | nil => simp
  | snoc hr hst ih =>
    have hless := h.decreases _ _ _ (hr.invariant h.keep hs) hst
    rw [List.length_append, List.length_singleton]
    omega

/-- A run that cannot go on has ended. -/
theorem ends (h : M.Progress I μ F) (hr : M.Run s τs t) (hs : I s)
    (hstuck : ∀ a u, ¬ M.step t a u) : F t := by
  by_contra hF
  obtain ⟨a, u, hst⟩ := h.moves t (hr.invariant h.keep hs) hF
  exact hstuck a u hst

/-- There is a run that cannot go on. -/
theorem stops (h : M.Progress I μ F) (hs : I s) :
    ∃ τs t, M.Run s τs t ∧ ∀ a u, ¬ M.step t a u := by
  induction hn : μ s using Nat.strong_induction_on generalizing s with
  | _ n ih =>
    by_cases hstep : ∃ a t, M.step s a t
    · obtain ⟨a, t, hst⟩ := hstep
      obtain ⟨τs, u, hr, hu⟩ := ih (μ t) (hn ▸ h.decreases s a t hs hst) (h.keep s a t hs hst) rfl
      exact ⟨_, u, (Run.single hst).append hr, hu⟩
    · exact ⟨[], s, .nil, fun a t hst => hstep ⟨a, t, hst⟩⟩

/-- There is a run to the end. -/
theorem finishes (h : M.Progress I μ F) (hs : I s) : ∃ τs t, M.Run s τs t ∧ F t := by
  obtain ⟨τs, t, hr, hstuck⟩ := h.stops hs
  exact ⟨τs, t, hr, h.ends hr hs hstuck⟩

end Progress

/-! ### Measures over the parts of a state -/

/-- A sum decreases when one part of it does. -/
theorem sum_update_lt {ι V : Type*} [Fintype ι] [DecidableEq ι] (μ : V → Nat) (f : ι → V) {i : ι}
    {v : V} (h : μ v < μ (f i)) : ∑ j, μ (Function.update f i v j) < ∑ j, μ (f j) := by
  apply Finset.sum_lt_sum
  · intro j _
    by_cases hj : j = i
    · subst hj
      simpa using Nat.le_of_lt h
    · simp [hj]
  · exact ⟨i, Finset.mem_univ i, by simpa using h⟩

/-- What one part adds to a sum. -/
theorem sum_update {ι V : Type*} [Fintype ι] [DecidableEq ι] (μ : V → Nat) (f : ι → V) (i : ι)
    (v : V) : ∑ j, μ (Function.update f i v j) + μ (f i) = ∑ j, μ (f j) + μ v := by
  have hrest : ∀ j ∈ Finset.univ.erase i, μ (Function.update f i v j) = μ (f j) := by
    intro j hj
    rw [Function.update_of_ne (Finset.ne_of_mem_erase hj)]
  rw [← Finset.add_sum_erase _ _ (Finset.mem_univ i), ← Finset.add_sum_erase _ (fun j => μ (f j))
    (Finset.mem_univ i), Finset.sum_congr rfl hrest, Function.update_self]
  omega

end System
end Runs
