import Mathlib.Logic.Basic

/-! # Loops that need not end

A `while` loop is its round: from a state a round goes on with another state, or returns
a result (`Round`).  `run` performs at most so many rounds, and a loop returns if some
number of rounds gets to a result (`Returns`).

* `returns_of_measure` — a loop whose rounds make a measure smaller returns;
* `not_returns_of_invariant` — a loop that goes on from every state of an invariant, into the
  invariant, never returns;
* `Yields.of_invariant` — what the rounds that return give from an invariant holds of every
  result;
* `Yields.unique` — a loop has one result, whatever the fuel.
-/
namespace Loops

/-- What a round does. -/
inductive Round (S R : Type)
  | goOn (s : S)
  | returns (r : R)

variable {S R : Type}

/-- The loop, for at most so many rounds. -/
def run (round : S → Round S R) : Nat → S → Option R
  | 0, _ => none
  | fuel + 1, s =>
    match round s with
    | .goOn s' => run round fuel s'
    | .returns r => some r

/-- The loop returns. -/
def Returns (round : S → Round S R) (s : S) : Prop := ∃ fuel r, run round fuel s = some r

/-- The loop returns `r`. -/
def Yields (round : S → Round S R) (s : S) (r : R) : Prop := ∃ fuel, run round fuel s = some r

variable {round : S → Round S R} {I : S → Prop} {Q : R → Prop} {s s' : S} {r r' : R}

/-- If rounds that go on make the measure smaller, at most one more of them is made. -/
theorem run_of_measure (measure : S → Nat)
    (hround : ∀ s s', I s → round s = .goOn s' → I s' ∧ measure s' < measure s) (hs : I s) :
    ∃ r, run round (measure s + 1) s = some r := by
  suffices h : ∀ fuel s, I s → measure s < fuel → ∃ r, run round fuel s = some r from
    h _ s hs (Nat.lt_succ_self _)
  intro fuel
  induction fuel with
  | zero => exact fun s _ hlt => absurd hlt (Nat.not_lt_zero _)
  | succ fuel ih =>
    intro s hs hlt
    cases hr : round s with
    | returns r => exact ⟨r, by simp [run, hr]⟩
    | goOn s' =>
      obtain ⟨hs', hless⟩ := hround s s' hs hr
      obtain ⟨r, hrun⟩ := ih s' hs' (Nat.lt_of_lt_of_le hless (Nat.le_of_lt_succ hlt))
      exact ⟨r, by simpa [run, hr] using hrun⟩

/-- **A measure ends a loop.** -/
theorem returns_of_measure (measure : S → Nat)
    (hround : ∀ s s', I s → round s = .goOn s' → I s' ∧ measure s' < measure s) (hs : I s) :
    Returns round s := ⟨_, run_of_measure measure hround hs⟩

/-- **An invariant that every round goes on into keeps a loop running.** -/
theorem not_returns_of_invariant (hround : ∀ s, I s → ∃ s', round s = .goOn s' ∧ I s') (hs : I s) :
    ¬ Returns round s := by
  rintro ⟨fuel, r, hrun⟩
  induction fuel generalizing s with
  | zero => cases hrun
  | succ fuel ih =>
    obtain ⟨s', hr, hs'⟩ := hround s hs
    rw [run, hr] at hrun
    exact ih hs' hrun

/-! ### Results -/

/-- A round that returns decides the result. -/
theorem yields_of_returns (h : round s = .returns r) : Yields round s r' ↔ r' = r := by
  constructor
  · rintro ⟨fuel, hrun⟩
    cases fuel with
    | zero => cases hrun
    | succ fuel => simpa [run, h, eq_comm] using hrun
  · rintro rfl
    exact ⟨1, by simp [run, h]⟩

/-- A round that goes on leaves the result to the rest. -/
theorem yields_of_goOn (h : round s = .goOn s') : Yields round s r ↔ Yields round s' r := by
  constructor
  · rintro ⟨fuel, hrun⟩
    cases fuel with
    | zero => cases hrun
    | succ fuel => exact ⟨fuel, by simpa [run, h] using hrun⟩
  · rintro ⟨fuel, hrun⟩
    exact ⟨fuel + 1, by simpa [run, h] using hrun⟩

/-- **An invariant says what a loop returns.** -/
theorem Yields.of_invariant (h : Yields round s r)
    (hround : ∀ s s', I s → round s = .goOn s' → I s')
    (hreturn : ∀ s r, I s → round s = .returns r → Q r) (hs : I s) : Q r := by
  obtain ⟨fuel, hrun⟩ := h
  induction fuel generalizing s with
  | zero => cases hrun
  | succ fuel ih =>
    cases hr : round s with
    | returns r' =>
      have heq : r' = r := by simpa [run, hr] using hrun
      exact heq ▸ hreturn s r' hs hr
    | goOn s' => exact ih (hround s s' hs hr) (by simpa [run, hr] using hrun)

/-- **A loop has one result.** -/
theorem Yields.unique (h : Yields round s r) (h' : Yields round s r') : r = r' := by
  obtain ⟨fuel, hrun⟩ := h
  induction fuel generalizing s with
  | zero => cases hrun
  | succ fuel ih =>
    cases hr : round s with
    | returns r₀ =>
      have heq : r₀ = r := by simpa [run, hr] using hrun
      rw [yields_of_returns hr] at h'
      exact heq.symm.trans h'.symm
    | goOn s' => exact ih ((yields_of_goOn hr).mp h') (by simpa [run, hr] using hrun)

end Loops
