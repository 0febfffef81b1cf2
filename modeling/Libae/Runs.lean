import Mathlib.Data.List.Basic

/-! # Labelled systems and their runs

A `System` has a set of initial states and a labelled step relation.  A run is
recorded as the list of its transitions, so that a statement about *every call
of a run* quantifies over that list (`∀ τ ∈ τs, …`) and a statement about *every
state reached* quantifies over the states after them.

The rules every development over a system uses are proved here once:

* `System.Reachable.invariant` — what holds at the start and is kept by every
  step holds in every reachable state;
* `System.Run.relates` — a reflexive and transitive relation that every step
  respects relates the two ends of every run;
* `System.Run.script` — actions that say what they do are a run if each of them is a step;
* `System.Run.forall_iff` — when, under an invariant that good steps keep, a
  step has a property exactly if it is good, all steps of a run have the property
  exactly if all of them are good;
* `System.Run.history` — the same for an invariant of the state and of the
  transitions that led to it;
* `System.Follows.run` — lock-step simulation, label by label;
* `System.Run.project` — a system seen through a function.
-/
namespace Runs

/-- One step of a run: the state before, the action, the state after. -/
structure Transition (S A : Type*) where
  before : S
  action : A
  after : S

/-- The transitions of the actions, one after the other, where `f` is what an action does. -/
def script {S A : Type*} (f : S → A → S) : S → List A → List (Transition S A)
  | _, [] => []
  | s, a :: as => ⟨s, a, f s a⟩ :: script f (f s a) as

/-- Initial states and a labelled step relation. -/
structure System (S A : Type*) where
  init : S → Prop
  step : S → A → S → Prop

namespace System
variable {S A : Type*} (M : System S A)

/-- `M.Run s τs t`: the transitions `τs`, in order, lead from `s` to `t`. -/
inductive Run (s : S) : List (Transition S A) → S → Prop
  | nil : Run s [] s
  | snoc {τs : List (Transition S A)} {t u : S} {a : A} :
      Run s τs t → M.step t a u → Run s (τs ++ [⟨t, a, u⟩]) u

/-- The states a run from an initial state ends in. -/
def Reachable (s : S) : Prop := ∃ s₀ τs, M.init s₀ ∧ M.Run s₀ τs s

variable {M}

/-! ### Building runs -/

theorem Run.single {s t : S} {a : A} (h : M.step s a t) : M.Run s [⟨s, a, t⟩] t :=
  Run.nil.snoc h

theorem Run.append {s t u : S} {τs ρs : List (Transition S A)}
    (h : M.Run s τs t) (h' : M.Run t ρs u) : M.Run s (τs ++ ρs) u := by
  induction h' with
  | nil => simpa using h
  | snoc _ hs ih =>
    rw [← List.append_assoc]
    exact ih.snoc hs

theorem Run.script {f : S → A → S} {s : S} {as : List A}
    (h : ∀ τ ∈ Runs.script f s as, M.step τ.before τ.action τ.after) :
    M.Run s (Runs.script f s as) (as.foldl f s) := by
  induction as generalizing s with
  | nil => exact .nil
  | cons a as ih =>
    obtain ⟨hfirst, hrest⟩ := List.forall_mem_cons.mp h
    exact (Run.single hfirst).append (ih hrest)

theorem Reachable.of_init {s : S} (h : M.init s) : M.Reachable s := ⟨s, [], h, .nil⟩

theorem Reachable.step {s t : S} {a : A} (h : M.Reachable s) (hs : M.step s a t) :
    M.Reachable t := by
  obtain ⟨s₀, τs, h₀, hr⟩ := h
  exact ⟨s₀, _, h₀, hr.snoc hs⟩

/-! ### Invariants -/

theorem Run.invariant {I : S → Prop} (hstep : ∀ s a t, I s → M.step s a t → I t)
    {s t : S} {τs : List (Transition S A)} (hr : M.Run s τs t) (hs : I s) : I t := by
  induction hr with
  | nil => exact hs
  | snoc _ h ih => exact hstep _ _ _ ih h

/-- **The invariant rule.** -/
theorem Reachable.invariant {I : S → Prop} (hinit : ∀ s, M.init s → I s)
    (hstep : ∀ s a t, I s → M.step s a t → I t) {s : S} (h : M.Reachable s) : I s := by
  obtain ⟨s₀, τs, h₀, hr⟩ := h
  exact hr.invariant hstep (hinit s₀ h₀)

/-- A preorder that every step from a state of the invariant respects relates
the two ends of a run. -/
theorem Run.relates {I : S → Prop} {R : S → S → Prop}
    (hkeep : ∀ s a t, I s → M.step s a t → I t)
    (hrefl : ∀ s, R s s) (htrans : ∀ s t u, R s t → R t u → R s u)
    (hstep : ∀ s a t, I s → M.step s a t → R s t)
    {s t : S} {τs : List (Transition S A)} (hr : M.Run s τs t) (hs : I s) : R s t := by
  induction hr with
  | nil => exact hrefl _
  | snoc h hst ih => exact htrans _ _ _ ih (hstep _ _ _ (h.invariant hkeep hs) hst)

/-! ### Properties of every step of a run -/

/-- What every step has, every step of a run has. -/
theorem Run.forall_step {Q : S → A → S → Prop} (hstep : ∀ s a t, M.step s a t → Q s a t)
    {s t : S} {τs : List (Transition S A)} (hr : M.Run s τs t) :
    ∀ τ ∈ τs, Q τ.before τ.action τ.after := by
  induction hr with
  | nil => simp
  | snoc _ hs ih =>
    rw [List.forall_mem_append, List.forall_mem_singleton]
    exact ⟨ih, hstep _ _ _ hs⟩

/-- Suppose that, from a state of the invariant `I`, a step has the property `Q`
exactly if it is good, and that good steps keep `I`.  Then every step of a run
has the property exactly if every step of it is good. -/
theorem Run.forall_iff {I : S → Prop} {Q : S → A → S → Prop} {G : S → A → Prop}
    (hkeep : ∀ s a t, I s → M.step s a t → G s a → I t)
    (hiff : ∀ s a t, I s → M.step s a t → (Q s a t ↔ G s a))
    {s t : S} {τs : List (Transition S A)} (hr : M.Run s τs t) (hI : I s) :
    (∀ τ ∈ τs, Q τ.before τ.action τ.after) ↔ ∀ τ ∈ τs, G τ.before τ.action := by
  suffices h : ((∀ τ ∈ τs, Q τ.before τ.action τ.after) ↔ ∀ τ ∈ τs, G τ.before τ.action) ∧
      ((∀ τ ∈ τs, G τ.before τ.action) → I t) from h.1
  induction hr with
  | nil => exact ⟨by simp, fun _ => hI⟩
  | @snoc τs t u a _ hs ih =>
    obtain ⟨heq, hend⟩ := ih
    simp only [List.forall_mem_append, List.forall_mem_singleton]
    constructor
    · rw [heq]
      exact and_congr_right (fun hpre => hiff t a u (hend hpre) hs)
    · rintro ⟨hpre, hgood⟩
      exact hkeep t a u (hend hpre) hs hgood

/-- Suppose that every step keeps an invariant of the history and the state, and then
has the property `Q` after its history.  Then so it is along every run. -/
theorem Run.history {I : List (Transition S A) → S → Prop}
    {Q : List (Transition S A) → Transition S A → Prop}
    (hkeep : ∀ τs s a t, I τs s → M.step s a t → I (τs ++ [⟨s, a, t⟩]) t)
    (hstep : ∀ τs s a t, I τs s → M.step s a t → Q τs ⟨s, a, t⟩)
    {s t : S} {τs : List (Transition S A)} (hr : M.Run s τs t) (hs : I [] s) :
    I τs t ∧ ∀ earlier τ later, τs = earlier ++ τ :: later → Q earlier τ := by
  induction hr with
  | nil => exact ⟨hs, by simp⟩
  | @snoc τs u v a _ hst ih =>
    obtain ⟨hI, hQ⟩ := ih
    refine ⟨hkeep τs u a v hI hst, fun earlier τ later heq => ?_⟩
    -- the transition is the last one, or one before it
    rcases List.eq_nil_or_concat later with rfl | ⟨later', ρ, rfl⟩
    · obtain ⟨rfl, hτ⟩ := List.append_inj' heq rfl
      cases hτ
      exact hstep τs u a v hI hst
    · have hsplit : τs ++ [⟨u, a, v⟩] = (earlier ++ τ :: later') ++ [ρ] := by simpa using heq
      exact hQ earlier τ later' (List.append_inj' hsplit rfl).1

/-! ### Simulation -/

section Simulation
variable {T B : Type*} {N : System T B}

/-- Lock-step simulation under an invariant of `M`: every step of `M` is
answered by one step of `N`, whose label is read off the step. -/
structure Follows (M : System S A) (N : System T B) (I : S → Prop) (R : S → T → Prop)
    (label : S → A → B) : Prop where
  keep : ∀ s a s', I s → M.step s a s' → I s'
  step : ∀ s a s' t, I s → R s t → M.step s a s' → ∃ t', N.step t (label s a) t' ∧ R s' t'

/-- Every run of `M` is followed by a run of `N` that performs the labels read
off its steps, and the two end in related states. -/
theorem Follows.run {I : S → Prop} {R : S → T → Prop} {label : S → A → B}
    (h : Follows M N I R label) {s s' : S} {τs : List (Transition S A)} (hr : M.Run s τs s')
    {t : T} (hI : I s) (hR : R s t) :
    ∃ ρs t', N.Run t ρs t' ∧ R s' t' ∧
      ρs.map Transition.action = τs.map (fun τ => label τ.before τ.action) := by
  induction hr with
  | nil => exact ⟨[], t, .nil, hR, rfl⟩
  | @snoc τs s₁ s₂ a hr₁ hs ih =>
    obtain ⟨ρs, t₁, hn, hR₁, hlab⟩ := ih
    obtain ⟨t₂, hst, hR₂⟩ := h.step s₁ a s₂ t₁ (hr₁.invariant h.keep hI) hR₁ hs
    exact ⟨_, t₂, hn.snoc hst, hR₂, by simp [hlab]⟩

/-- A system seen through a function: every step of `M` is, through `f`, a step of
`N`, or does nothing.  So is then every run, with the steps that do nothing left
out. -/
theorem Run.project {f : S → T} {label : A → Option B}
    (hskip : ∀ s a t, M.step s a t → label a = none → f t = f s)
    (hstep : ∀ s a t b, M.step s a t → label a = some b → N.step (f s) b (f t))
    {s t : S} {τs : List (Transition S A)} (hr : M.Run s τs t) :
    N.Run (f s) (τs.filterMap (fun τ =>
      (label τ.action).map (fun b => ⟨f τ.before, b, f τ.after⟩))) (f t) := by
  induction hr with
  | nil => exact .nil
  | @snoc τs t u a _ hs ih =>
    rw [List.filterMap_append]
    cases hl : label a with
    | none =>
      rw [hskip t a u hs hl]
      simpa [hl] using ih
    | some b => simpa [hl] using ih.snoc (hstep t a u b hs hl)

end Simulation

end System
end Runs
