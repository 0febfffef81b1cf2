import Libae.MuxDeadline

/-! # Waiting with nothing registered

While the counter is 0, `ae_mux_wait` sleeps in place of polling.  It is to be told from a wait
on descriptors that stay silent by nothing (`Silent`), but agrees with one only for a positive
timeout whose microseconds are an `int` and a flag to set, or for no timeout and no flag
(`empty_iff`): the flag is set without a look at its address, it is not set for a timeout of 0,
and `usleep` always returns.
-/
namespace Libae
namespace Mux
variable {δ : Type}

/-- For how long a call waits. -/
inductive Duration
  | microseconds (n : Nat)
  | forever
  /-- The conversion to microseconds overflows. -/
  | undefined
  deriving DecidableEq

/-- `usleep`, for the product that it is called with. -/
def usleep (us : Int) : Duration :=
  if -(2 ^ 31) ≤ us ∧ us < 2 ^ 31 then .microseconds (us % 2 ^ 32).toNat else .undefined

/-- The time a call took: that of `usleep`, or of the polls, all of whose timeouts passed. -/
def Waited.duration (r : Waited δ) : Duration :=
  match r.slept, r.outcome with
  | some us, _ => usleep us
  | none, .blocked => .forever
  | none, _ => .microseconds (1000 * (r.calls.map Prod.snd).sum.toNat)

/-- What `epoll_wait` answers while no descriptor gets ready and no signal comes. -/
def silence (timeoutMs : Int) : List (EpollAnswer δ) := if 0 ≤ timeoutMs then [.reports []] else []

/-- What `ae_mux_wait` makes of silent descriptors: it writes to no `NULL`, waits for its
timeout and then sets the flag, and does not return if the timeout is negative. -/
structure Waited.Silent (timeoutMs : Int) (out : Bool) (r : Waited δ) : Prop where
  writes : r.outcome ≠ .crashed
  returns : 0 ≤ timeoutMs → r.outcome = .returned true ∧
    r.duration = .microseconds (1000 * timeoutMs.toNat) ∧
    r.wasTimeout = if out then some true else none
  blocks : timeoutMs < 0 → r.outcome = .blocked

/-- The caller sees no difference between the two calls. -/
def Waited.Same (r r' : Waited δ) : Prop :=
  r.outcome = r'.outcome ∧ r.wasTimeout = r'.wasTimeout ∧ r.duration = r'.duration

section Waits
variable {count nEvents first : Nat} {threadpool : Option (Except Text Unit)} {timeoutMs : Int}
  {out : Bool} {clock : Except Text Timespec}

/-- One poll with a timeout, whose time is up. -/
theorem wait_silence (hcount : count ≠ 0) (hfirst : nowGet clock = .ok first)
    (hnonneg : 0 ≤ timeoutMs) :
    wait count threadpool nEvents timeoutMs out clock (silence timeoutMs : List (EpollAnswer δ)) =
      { calls := [(toInt count, timeoutMs)], wasTimeout := if out then some true else none,
        outcome := .returned true } := by
  simp only [wait, if_neg hcount, hfirst, silence, if_pos hnonneg]
  rfl

/-- One poll without one. -/
theorem wait_silence_neg (hcount : count ≠ 0) (hfirst : nowGet clock = .ok first)
    (hneg : timeoutMs < 0) :
    wait count threadpool nEvents timeoutMs out clock (silence timeoutMs : List (EpollAnswer δ)) =
      { calls := [(toInt count, timeoutMs)], wasTimeout := if out then some false else none,
        outcome := .blocked } := by
  simp only [wait, if_neg hcount, hfirst, silence, if_neg (Int.not_le.mpr hneg)]
  rfl

/-- **Silent descriptors** are waited for as they should be. -/
theorem silent_wait (hcount : count ≠ 0) (hfirst : nowGet clock = .ok first) :
    (wait count threadpool nEvents timeoutMs out clock
      (silence timeoutMs : List (EpollAnswer δ))).Silent timeoutMs out := by
  rcases Int.lt_or_le timeoutMs 0 with hneg | hnonneg
  · rw [wait_silence_neg hcount hfirst hneg]
    exact ⟨by simp, fun hle => absurd hneg (Int.not_lt.mpr hle), fun _ => rfl⟩
  · rw [wait_silence hcount hfirst hnonneg]
    refine ⟨by simp, fun _ => ⟨rfl, ?_, rfl⟩, fun hlt => absurd hnonneg (Int.not_le.mpr hlt)⟩
    simp [Waited.duration]

variable {answers : List (EpollAnswer δ)}

/-- The empty mux without a timeout. -/
theorem wait_empty_zero :
    wait 0 threadpool nEvents 0 out clock answers =
      { wasTimeout := if out then some false else none, outcome := .returned true } := rfl

/-- The empty mux with a timeout. -/
theorem wait_empty (hne : timeoutMs ≠ 0) :
    wait 0 threadpool nEvents timeoutMs out clock answers =
      { slept := some (timeoutMs * 1000), wasTimeout := if out then some true else none,
        outcome := if out then .returned true else .crashed } := by
  rw [wait, if_pos rfl, if_pos hne]

/-- `usleep` sleeps for the timeout exactly if its microseconds are an `int`. -/
theorem usleep_iff (hpos : 0 < timeoutMs) :
    usleep (timeoutMs * 1000) = .microseconds (1000 * timeoutMs.toNat) ↔
      timeoutMs * 1000 < 2 ^ 31 := by
  rw [usleep]
  constructor
  · intro h
    by_contra hlarge
    rw [if_neg (fun hint => hlarge hint.2)] at h
    cases h
  · intro hlt
    rw [if_pos ⟨by omega, hlt⟩]
    congr 1
    omega

/-- The condition under which the empty mux is no different. -/
def EmptyAgrees (timeoutMs : Int) (out : Bool) : Prop :=
  (timeoutMs = 0 ∧ out = false) ∨ (0 < timeoutMs ∧ timeoutMs * 1000 < 2 ^ 31 ∧ out = true)

/-- With nothing registered, no call waits for ever. -/
theorem wait_empty_ends : (wait 0 threadpool nEvents timeoutMs out clock answers).outcome ≠
    .blocked := by
  by_cases hzero : timeoutMs = 0
  · rw [hzero, wait_empty_zero]
    simp
  · rw [wait_empty hzero]
    cases out <;> simp

/-- The empty mux waits as it should exactly under the condition. -/
theorem empty_silent_iff :
    (wait 0 threadpool nEvents timeoutMs out clock answers).Silent timeoutMs out ↔
      EmptyAgrees timeoutMs out := by
  rcases Int.lt_trichotomy timeoutMs 0 with hneg | rfl | hpos
  · refine iff_of_false (fun h => wait_empty_ends (h.blocks hneg)) ?_
    rintro (⟨hzero, -⟩ | ⟨hpos, -⟩) <;> omega
  · -- nothing is slept, and the flag is not set
    rw [wait_empty_zero]
    constructor
    · intro h
      obtain ⟨-, -, hflag⟩ := h.returns (le_refl 0)
      refine .inl ⟨rfl, ?_⟩
      cases out with
      | false => rfl
      | true => cases hflag
    · rintro (⟨-, rfl⟩ | ⟨hpos, -⟩)
      · exact ⟨by simp, fun _ => ⟨rfl, rfl, rfl⟩, fun hneg => absurd hneg (lt_irrefl 0)⟩
      · exact absurd hpos (lt_irrefl 0)
  · have hne : timeoutMs ≠ 0 := Int.ne_of_gt hpos
    rw [wait_empty hne]
    constructor
    · intro h
      obtain ⟨-, htime, -⟩ := h.returns (Int.le_of_lt hpos)
      refine .inr ⟨hpos, (usleep_iff hpos).mp htime, ?_⟩
      cases out with
      | false => exact absurd rfl h.writes
      | true => rfl
    · rintro (⟨hzero, -⟩ | ⟨-, hint, rfl⟩)
      · exact absurd hzero hne
      · refine ⟨by simp, fun _ => ⟨rfl, (usleep_iff hpos).mpr hint, rfl⟩, fun hneg => ?_⟩
        exact absurd hpos (lt_asymm hneg)

/-- With a timeout, a call is no different from one that waits as it should exactly if it does
so itself. -/
theorem Waited.Silent.same_iff {r r' : Waited δ} (h' : r'.Silent timeoutMs out)
    (hnonneg : 0 ≤ timeoutMs) : r.Same r' ↔ r.Silent timeoutMs out := by
  obtain ⟨houtcome, htime, hflag⟩ := h'.returns hnonneg
  rw [Waited.Same, houtcome, htime, hflag]
  constructor
  · rintro ⟨hr, hf, ht⟩
    exact ⟨by simp [hr], fun _ => ⟨hr, ht, hf⟩, fun hneg => absurd hnonneg (Int.not_le.mpr hneg)⟩
  · intro h
    obtain ⟨hr, ht, hf⟩ := h.returns hnonneg
    exact ⟨hr, hf, ht⟩

/-- The empty mux is no different from silent descriptors exactly under the condition. -/
theorem empty_same_iff {nEvents' : Nat} {threadpool' : Option (Except Text Unit)}
    {clock' : Except Text Timespec} (hcount : count ≠ 0) (hfirst : nowGet clock' = .ok first) :
    (wait 0 threadpool nEvents timeoutMs out clock answers).Same
        (wait count threadpool' nEvents' timeoutMs out clock' (silence timeoutMs)) ↔
      EmptyAgrees timeoutMs out := by
  have hsilent : (wait count threadpool' nEvents' timeoutMs out clock'
      (silence timeoutMs : List (EpollAnswer δ))).Silent timeoutMs out := silent_wait hcount hfirst
  rcases Int.lt_or_le timeoutMs 0 with hneg | hnonneg
  · refine iff_of_false (fun h => wait_empty_ends (h.1.trans (hsilent.blocks hneg))) ?_
    rintro (⟨hzero, -⟩ | ⟨hpos, -⟩) <;> omega
  · rw [hsilent.same_iff hnonneg, empty_silent_iff]

end Waits

/-- **When an empty mux waits like silent descriptors.**  For every timeout, with a flag to set
and without one: the wait of an empty mux keeps to its contract, and is no different from that
of any mux on silent descriptors whose clock can be read, exactly if there is neither a timeout
nor a flag, or there are a flag and a positive timeout whose microseconds are an `int`. -/
theorem empty_iff (threadpool : Option (Except Text Unit)) (nEvents : Nat) (timeoutMs : Int)
    (out : Bool) (clock : Except Text Timespec) (answers : List (EpollAnswer δ)) :
    ((wait 0 threadpool nEvents timeoutMs out clock answers).Silent timeoutMs out ↔
      EmptyAgrees timeoutMs out) ∧
    ∀ count threadpool' nEvents' clock' first, count ≠ 0 → nowGet clock' = .ok first →
      ((wait 0 threadpool nEvents timeoutMs out clock answers).Same
        (wait count threadpool' nEvents' timeoutMs out clock' (silence timeoutMs)) ↔
        EmptyAgrees timeoutMs out) :=
  ⟨empty_silent_iff, fun _ _ _ _ _ hcount hfirst => empty_same_iff hcount hfirst⟩

/-- For 100 ms and with a flag there is no difference. -/
theorem empty_iff_hundred :
    (wait 0 none 1 100 true (.ok ⟨0, 0⟩) [] : Waited Int).Silent 100 true ∧
      (wait 0 none 1 100 true (.ok ⟨0, 0⟩) [] : Waited Int).Same
        (wait twoAdded.count none 2 100 true (.ok ⟨0, 0⟩) (silence 100)) := by
  have hagrees : EmptyAgrees 100 true := .inr ⟨by decide, by decide, rfl⟩
  obtain ⟨hsilent, hsame⟩ := empty_iff none 1 100 true (.ok ⟨0, 0⟩) ([] : List (EpollAnswer Int))
  exact ⟨hsilent.mpr hagrees,
    (hsame twoAdded.count none 2 (.ok ⟨0, 0⟩) 0 (by decide) rfl).mpr hagrees⟩

/-- An empty mux crashes after 100 ms without a flag, sets none for a timeout of 0, and returns
from a wait for ever. -/
theorem empty_differs :
    ¬ (wait 0 none 1 100 false (.ok ⟨0, 0⟩) [] : Waited Int).Silent 100 false ∧
    ¬ (wait 0 none 1 0 true (.ok ⟨0, 0⟩) [] : Waited Int).Same
      (wait twoAdded.count none 2 0 true (.ok ⟨0, 0⟩) (silence 0)) ∧
    ¬ (wait 0 none 1 (-1) true (.ok ⟨0, 0⟩) [] : Waited Int).Silent (-1) true := by
  refine ⟨fun h => h.writes rfl, fun h => ?_, fun h => ?_⟩
  · have hflag : some false = some true := h.2.1
    cases hflag
  · have hblocked := h.blocks (by decide)
    cases hblocked

end Mux
end Libae
