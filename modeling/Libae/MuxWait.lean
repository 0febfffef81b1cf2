import Libae.MuxCount

/-! # What a wait stores

`ae_mux_wait` gets an array of `n_events` reports, and passes the kernel the counter
as the number that it may store.  So the array is respected, whatever the kernel
answers, exactly if the smaller one of this number and of the number of descriptors
that are ready at the same time is at most `n_events` (`within_iff`).
-/
namespace Libae
open Runs

namespace Mux
variable {C X δ : Type}

/-- What `epoll_wait` may answer when the descriptors of the reports `ready` are
ready: at most `maxevents` of these reports, and none only if there are none. -/
def EpollAnswer.Permitted (maxevents : Int) (ready : List (EpollEvent δ)) : EpollAnswer δ → Prop
  | .reports events => (events.length : Int) ≤ maxevents ∧ 0 < maxevents ∧
    events.Subperm ready ∧ (events = [] → ready = [])
  | .interrupted _ | .failed _ => True

/-- The kernel stores, and the wait reads, in the first `n` elements of the array
only. -/
def Waited.Within (n : Nat) (r : Waited δ) : Prop :=
  r.stored.length ≤ n ∧ ∀ i ∈ r.read, i < n

/-- Reports come from an answer. -/
theorem waitLoop_reports {maxevents : Int} {due : Nat} {timeoutMs : Int}
    {answers : List (EpollAnswer δ)} {events : List (EpollEvent δ)}
    (h : (waitLoop maxevents due timeoutMs answers).2 = some (.ok events)) :
    .reports events ∈ answers := by
  induction answers generalizing timeoutMs with
  | nil => cases h
  | cons a answers ih =>
    cases a with
    | interrupted clock =>
      rw [waitLoop] at h
      cases hc : nowGet clock with
      | error text => simp [hc] at h
      | ok now =>
        simp only [hc] at h
        exact List.mem_cons_of_mem _ (ih h)
    | failed errno => simp [waitLoop] at h
    | reports evs =>
      cases h
      exact List.mem_cons_self

/-- What is stored comes from the kernel's answer, and no more than that is read. -/
theorem waitEnd_stored (threadpool : Option (Except Text Unit)) (out : Bool)
    (calls : List (Int × Int)) (r : Option (Except Text (List (EpollEvent δ)))) :
    ((waitEnd threadpool out calls r).stored = [] ∨
        r = some (.ok (waitEnd threadpool out calls r).stored)) ∧
      ∀ i ∈ (waitEnd threadpool out calls r).read,
        i < (waitEnd threadpool out calls r).stored.length := by
  rcases r with _ | text | _ | ⟨event, events⟩
  · simp [waitEnd]
  · simp [waitEnd]
  · simp [waitEnd]
  · rcases threadpool with _ | text | _ <;> simp [waitEnd]

theorem wait_stored (count : Nat) (threadpool : Option (Except Text Unit)) (nEvents : Nat)
    (timeoutMs : Int) (out : Bool) (clock : Except Text Timespec)
    (answers : List (EpollAnswer δ)) :
    ((wait count threadpool nEvents timeoutMs out clock answers).stored = [] ∨
        .reports (wait count threadpool nEvents timeoutMs out clock answers).stored ∈ answers) ∧
      ∀ i ∈ (wait count threadpool nEvents timeoutMs out clock answers).read,
        i < (wait count threadpool nEvents timeoutMs out clock answers).stored.length := by
  unfold wait
  split
  · split <;> simp
  · cases nowGet clock with
    | error text => simp
    | ok now =>
      have hend := waitEnd_stored threadpool out
        (waitLoop (toInt count) (dueTime now timeoutMs) timeoutMs answers).1
        (waitLoop (toInt count) (dueTime now timeoutMs) timeoutMs answers).2
      exact ⟨hend.1.imp_right waitLoop_reports, hend.2⟩

/-- The reports of an answer that comes at once are stored. -/
theorem wait_reports (count : Nat) (threadpool : Option (Except Text Unit)) (nEvents : Nat)
    (timeoutMs : Int) (out : Bool) (events : List (EpollEvent δ)) (hne : count ≠ 0) :
    (wait count threadpool nEvents timeoutMs out (.ok ⟨0, 0⟩) [.reports events]).stored =
      events := by
  rw [wait, if_neg hne]
  rcases events with _ | ⟨event, events⟩
  · rfl
  · rcases threadpool with _ | text | _ <;> rfl

/-- **The array and the wait.**  Whatever the kernel and the clock answer, a wait stays
within the array exactly if the counter, as an `int`, or the number of descriptors that
are ready at the same time is at most its length. -/
theorem within_iff (s : Mux δ) (threadpool : Option (Except Text Unit)) (nEvents : Nat)
    (timeoutMs : Int) (out : Bool) (ready : List (EpollEvent δ)) :
    (∀ clock answers, (∀ a ∈ answers, a.Permitted (toInt s.count) ready) →
        (wait s.count threadpool nEvents timeoutMs out clock answers).Within nEvents) ↔
      min (toInt s.count).toNat ready.length ≤ nEvents := by
  constructor
  · intro h
    by_contra hlarge
    have hpos : 0 < toInt s.count := by omega
    have hne : s.count ≠ 0 := by
      intro hzero
      rw [hzero] at hpos
      exact absurd hpos (by decide)
    -- the kernel reports as many as it may
    have hlen : (ready.take (toInt s.count).toNat).length =
        min (toInt s.count).toNat ready.length := List.length_take
    have hperm : ∀ a ∈ [EpollAnswer.reports (ready.take (toInt s.count).toNat)],
        a.Permitted (toInt s.count) ready := by
      intro a ha
      rw [List.mem_singleton.mp ha]
      refine ⟨by omega, hpos, (List.take_sublist _ _).subperm, fun hnil => ?_⟩
      rw [hnil, List.length_nil] at hlen
      omega
    obtain ⟨hstored, -⟩ := h (.ok ⟨0, 0⟩) _ hperm
    rw [wait_reports _ _ _ _ _ _ hne] at hstored
    omega
  · intro hle clock answers hperm
    obtain ⟨hstored, hread⟩ := wait_stored s.count threadpool nEvents timeoutMs out clock answers
    have hlen : (wait s.count threadpool nEvents timeoutMs out clock answers).stored.length ≤
        nEvents := by
      rcases hstored with hnil | hmem
      · rw [hnil]
        exact Nat.zero_le _
      · -- the kernel reports only what is ready, and no more than it may
        obtain ⟨hmax, -, hsub, -⟩ := hperm _ hmem
        have := hsub.length_le
        omega
    exact ⟨hlen, fun i hi => Nat.lt_of_lt_of_le (hread i hi) hlen⟩

theorem reachable_call {s : Mux δ} (h : (disciplined C X δ).Reachable s) (op : Op C X δ)
    (hd : ∀ fd, op = .closed fd → ¬ s.Registered fd) :
    (disciplined C X δ).Reachable (s.call op) :=
  h.step ⟨hd, rfl⟩

/-- The descriptors 3 and 4 are opened. -/
def twoOpened : Mux Int :=
  ((Mux.mk 0 .empty []).call (.opened 3 three_range : Op Unit Unit Int)).call
    (.opened 4 (by decide) : Op Unit Unit Int)

/-- They are added. -/
def twoAdded : Mux Int :=
  (twoOpened.call (.add 3 ⟨3, (), none⟩ noFaults : Op Unit Unit Int)).call
    (.add 4 ⟨4, (), none⟩ noFaults : Op Unit Unit Int)

theorem twoAdded_reachable : (disciplined Unit Unit Int).Reachable twoAdded := by
  have h₀ : (disciplined Unit Unit Int).Reachable (Mux.mk 0 .empty []) := .of_init ⟨rfl, rfl⟩
  have h₁ := reachable_call h₀ (.opened 3 three_range) (fun _ => nofun)
  have h₂ := reachable_call h₁ (.opened 4 (by decide)) (fun _ => nofun)
  have h₃ := reachable_call h₂ (.add 3 ⟨3, (), none⟩ noFaults) (fun _ => nofun)
  exact reachable_call h₃ (.add 4 ⟨4, (), none⟩ noFaults) (fun _ => nofun)

/-- Readable. -/
def readable : EpollFlags := ⟨true, false, false, false, false, false⟩

/-- Both descriptors are readable, and there is room for one report. -/
theorem two_reports_stored : (disciplined Unit Unit Int).Reachable twoAdded ∧
    (∀ a ∈ [EpollAnswer.reports [⟨readable, 3⟩, ⟨readable, 4⟩]],
      a.Permitted (toInt twoAdded.count) [⟨readable, (3 : Int)⟩, ⟨readable, 4⟩]) ∧
    ¬ (waitSt twoAdded.count 1 0 false (.ok ⟨0, 0⟩)
      [EpollAnswer.reports [⟨readable, (3 : Int)⟩, ⟨readable, 4⟩]]).Within 1 := by
  refine ⟨twoAdded_reachable, ?_, ?_⟩
  · intro a ha
    rw [List.mem_singleton.mp ha]
    exact ⟨by decide, by decide, List.Subperm.refl _, by simp⟩
  · rintro ⟨hstored, -⟩
    exact absurd hstored (by decide)

end Mux
end Libae
