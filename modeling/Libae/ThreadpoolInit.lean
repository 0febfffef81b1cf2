import Libae.Progress
import Libae.Res
import Mathlib.Data.Fintype.EquivFin

/-! # The queue of a new pool

`ae_threadpool_init` (`threadpool.c`) opens a message queue by its name, creating it if there is
none, and then takes the name away, so that the queue goes with the process.  Between the
two calls of the kernel the name is there for others: a second `ae_threadpool_init` with the
same name opens the same queue, and its workers take the jobs of the first pool.

`initialising` are the steps of any number of such calls with one name, in any interleaving.
The pools have queues of their own exactly if each call of `mq_open` finds the name free
(`own_queues_iff`).  Sharing shows in the results: if all the calls return `true`, no two
pools share a queue (`distinct_queues`).
-/
namespace Libae
open Runs

/-- Where a caller stands in `ae_threadpool_init`.  Behind it, `queue` is the field of the
pool, if `mq_open` has set it, and the result is `true` or the text added to `e`. -/
inductive InitCaller
  | allocating
  | opening
  | unlinking (queue : Nat)
  | returned (queue : Option Nat) (r : Except Text Unit)

/-- The queue that the caller has opened. -/
def InitCaller.queue : InitCaller → Option Nat
  | .unlinking q => some q
  | .returned q _ => q
  | .allocating | .opening => none

/-- The call has returned `true`: it has taken a name away. -/
def InitCaller.succeeded : InitCaller → Nat
  | .returned _ (.ok ()) => 1
  | _ => 0

/-- The queue that the name is bound to, the number of queues that were created under it,
and the callers. -/
structure Initialising (ι : Type) where
  bound : Option Nat
  created : Nat
  caller : ι → InitCaller

/-- What a caller does next. -/
inductive InitAction (ι : Type)
  | calloc (i : ι)
  | callocFailed (i : ι) (text : Text)
  | mqOpen (i : ι)
  | mqOpenFailed (i : ι) (errno : Text)
  | mqUnlink (i : ι)
  | mqUnlinkFailed (i : ι) (errno : Text)

namespace Initialising
variable {ι : Type} [DecidableEq ι]

/-- The caller goes on to `c`. -/
def put (s : Initialising ι) (i : ι) (c : InitCaller) : Initialising ι :=
  { s with caller := Function.update s.caller i c }

/-- One step of one caller.  `mq_open` opens the queue of that name or creates one, and
`mq_unlink` fails if there is none. -/
inductive Step : Initialising ι → InitAction ι → Initialising ι → Prop
  | calloc {s : Initialising ι} {i : ι} : s.caller i = .allocating →
      Step s (.calloc i) (s.put i .opening)
  | callocFailed {s : Initialising ι} {i : ι} {text : Text} : s.caller i = .allocating →
      Step s (.callocFailed i text) (s.put i (.returned none (.error text)))
  | openOld {s : Initialising ι} {i : ι} {q : Nat} : s.caller i = .opening → s.bound = some q →
      Step s (.mqOpen i) (s.put i (.unlinking q))
  | openNew {s : Initialising ι} {i : ι} : s.caller i = .opening → s.bound = none →
      Step s (.mqOpen i) { s.put i (.unlinking s.created) with
        bound := some s.created, created := s.created + 1 }
  | openFailed {s : Initialising ι} {i : ι} {errno : Text} : s.caller i = .opening →
      Step s (.mqOpenFailed i errno) (s.put i (.returned none (.error (ascii "open: " ++ errno))))
  | unlink {s : Initialising ι} {i : ι} {q : Nat} : s.caller i = .unlinking q → s.bound ≠ none →
      Step s (.mqUnlink i) { s.put i (.returned (some q) (.ok ())) with bound := none }
  | unlinkFailed {s : Initialising ι} {i : ι} {q : Nat} {errno : Text} :
      s.caller i = .unlinking q →
      Step s (.mqUnlinkFailed i errno)
        (s.put i (.returned (some q) (.error (ascii "mq_unlink: " ++ errno))))

/-- No caller has started, and the name is free. -/
def start : Initialising ι := ⟨none, 0, fun _ => .allocating⟩

end Initialising

/-- Calls of `ae_threadpool_init` with one name. -/
def initialising (ι : Type) [DecidableEq ι] : System (Initialising ι) (InitAction ι) where
  init s := s = Initialising.start
  step := Initialising.Step

namespace Initialising
variable {ι : Type} [DecidableEq ι] {s t : Initialising ι} {a : InitAction ι}

/-! ## Which queues there are -/

/-- No two callers have opened the same queue. -/
def Exclusive (s : Initialising ι) : Prop :=
  ∀ i j q, (s.caller i).queue = some q → (s.caller j).queue = some q → i = j

/-- The queues created so far are those that callers have opened, the one that the name is
bound to among them. -/
structure Inv (s : Initialising ι) : Prop where
  bound : ∀ q, s.bound = some q → q < s.created
  opened : ∀ i q, (s.caller i).queue = some q → q < s.created
  created : ∀ q, q < s.created → ∃ i, (s.caller i).queue = some q

theorem put_caller (s : Initialising ι) (i : ι) (c : InitCaller) (j : ι) :
    (s.put i c).caller j = if j = i then c else s.caller j := by
  simp only [put, Function.update_apply]

/-- A step after which the caller has the queue that it had before. -/
theorem queue_put {i : ι} {c : InitCaller} (hc : c.queue = (s.caller i).queue) (j : ι) :
    ((s.put i c).caller j).queue = (s.caller j).queue := by
  rw [put_caller]
  split
  · next h => rw [h, hc]
  · rfl

/-- A caller has opened a queue. -/
theorem queue_open {i : ι} (hi : s.caller i = .opening) (q q' : Nat) (j : ι) :
    ((s.put i (.unlinking q)).caller j).queue = some q' ↔
      j = i ∧ q' = q ∨ (s.caller j).queue = some q' := by
  rw [put_caller]
  split
  · next h =>
    subst h
    simp [hi, InitCaller.queue, eq_comm]
  · next h => simp [h]

/-- What a step does to the queues: nothing, or the caller opens the queue of the name, or a
new one. -/
theorem step_queues (h : Step s a t) :
    ((∀ i, a ≠ .mqOpen i) ∧ t.created = s.created ∧ (t.bound = s.bound ∨ t.bound = none) ∧
      ∀ j, (t.caller j).queue = (s.caller j).queue) ∨
    ∃ i q, a = .mqOpen i ∧ s.caller i = .opening ∧ t.bound = some q ∧
      (s.bound = some q ∧ t.created = s.created ∨
        s.bound = none ∧ q = s.created ∧ t.created = s.created + 1) ∧
      ∀ j q', (t.caller j).queue = some q' ↔ j = i ∧ q' = q ∨ (s.caller j).queue = some q' := by
  cases h with
  | calloc hi | callocFailed hi | openFailed hi | unlinkFailed hi =>
    exact .inl ⟨by simp, rfl, .inl rfl, queue_put (by rw [hi]; rfl)⟩
  | unlink hi _ => exact .inl ⟨by simp, rfl, .inr rfl, queue_put (by rw [hi]; rfl)⟩
  | @openOld i q hi hq =>
    exact .inr ⟨i, q, rfl, hi, hq, .inl ⟨hq, rfl⟩, fun j q' => queue_open hi q q' j⟩
  | @openNew i hi hnone =>
    exact .inr ⟨i, s.created, rfl, hi, rfl, .inr ⟨hnone, rfl, rfl⟩,
      fun j q' => queue_open hi s.created q' j⟩

omit [DecidableEq ι] in
theorem inv_start : (start : Initialising ι).Inv where
  bound _ h := by cases h
  opened _ _ h := by cases h
  created _ h := absurd h (Nat.not_lt_zero _)

theorem Inv.step (hs : s.Inv) (h : Step s a t) : t.Inv := by
  rcases step_queues h with ⟨-, hcreated, hbound, hqueue⟩ |
    ⟨i, q, -, -, hbound, hnew, hqueue⟩
  · refine ⟨fun q hq => ?_, fun j q hq => ?_, fun q hq => ?_⟩
    · rcases hbound with hb | hb
      · rw [hcreated]
        exact hs.bound q (hb ▸ hq)
      · rw [hb] at hq
        cases hq
    · rw [hcreated]
      exact hs.opened j q (hqueue j ▸ hq)
    · obtain ⟨j, hj⟩ := hs.created q (hcreated ▸ hq)
      exact ⟨j, (hqueue j).trans hj⟩
  · have hle : s.created ≤ t.created := by
      rcases hnew with ⟨-, hcr⟩ | ⟨-, -, hcr⟩ <;> omega
    have hlt : q < t.created := by
      rcases hnew with ⟨hq, hcr⟩ | ⟨-, hq, hcr⟩
      · rw [hcr]
        exact hs.bound q hq
      · omega
    refine ⟨fun q' hq' => ?_, fun j q' hq' => ?_, fun q' hq' => ?_⟩
    · rw [hbound] at hq'
      cases hq'
      exact hlt
    · rcases (hqueue j q').mp hq' with ⟨-, rfl⟩ | hold
      · exact hlt
      · exact Nat.lt_of_lt_of_le (hs.opened j q' hold) hle
    · by_cases hold : q' < s.created
      · obtain ⟨j, hj⟩ := hs.created q' hold
        exact ⟨j, (hqueue j q').mpr (.inr hj)⟩
      · -- the queue that was just created
        rcases hnew with ⟨-, hcr⟩ | ⟨-, rfl, hcr⟩
        · omega
        · exact ⟨i, (hqueue i q').mpr (.inl ⟨rfl, by omega⟩)⟩

/-! ## Queues of one's own -/

/-- A step leaves every caller with a queue of its own exactly if it does not open one that
was there. -/
theorem exclusive_step (hs : s.Inv) (hex : s.Exclusive) (h : Step s a t) :
    t.Exclusive ↔ ∀ i, a = .mqOpen i → s.bound = none := by
  rcases step_queues h with ⟨hno, -, -, hqueue⟩ | ⟨i, q, rfl, hi, -, hnew, hqueue⟩
  · refine iff_of_true (fun j k q hj hk => ?_) fun i ha => absurd ha (hno i)
    exact hex j k q (hqueue j ▸ hj) (hqueue k ▸ hk)
  · have hnone : (s.caller i).queue = none := by rw [hi]; rfl
    constructor
    · rintro hexclusive - -
      rcases hnew with ⟨hq, -⟩ | ⟨hfree, -⟩
      · -- somebody has the queue that the name is bound to
        obtain ⟨j, hj⟩ := hs.created q (hs.bound q hq)
        have hji : j = i := hexclusive j i q ((hqueue j q).mpr (.inr hj))
          ((hqueue i q).mpr (.inl ⟨rfl, rfl⟩))
        rw [hji, hnone] at hj
        cases hj
      · exact hfree
    · intro hfree
      have hfresh : q = s.created := by
        rcases hnew with ⟨hq, -⟩ | ⟨-, hq, -⟩
        · rw [hfree i rfl] at hq
          cases hq
        · exact hq
      intro j k q' hj hk
      rcases (hqueue j q').mp hj with ⟨rfl, rfl⟩ | hj' <;>
        rcases (hqueue k q').mp hk with ⟨rfl, hq'⟩ | hk'
      · rfl
      · exact absurd (hs.opened k q' hk') (by omega)
      · exact absurd (hs.opened j q' hj') (by omega)
      · exact hex j k q' hj' hk'

/-- **Queues of their own.**  In every state of a run, the callers have opened different queues
exactly if every `mq_open` of the run finds the name free: no call of `ae_threadpool_init`
opens the queue while another, with the same name, is between its `mq_open` and the
`mq_unlink` that takes the name away. -/
theorem own_queues_iff {τs : List (Transition (Initialising ι) (InitAction ι))}
    (hr : (initialising ι).Run start τs t) :
    (∀ τ ∈ τs, τ.after.Exclusive) ↔
      ∀ τ ∈ τs, ∀ i, τ.action = .mqOpen i → τ.before.bound = none := by
  refine hr.forall_iff (I := fun s => s.Inv ∧ s.Exclusive) (Q := fun _ _ t => t.Exclusive)
    (G := fun s a => ∀ i, a = .mqOpen i → s.bound = none) ?_ ?_ ⟨inv_start, ?_⟩
  · rintro s a t ⟨hs, hex⟩ h hgood
    exact ⟨hs.step h, (exclusive_step hs hex h).mpr hgood⟩
  · rintro s a t ⟨hs, hex⟩ h
    exact exclusive_step hs hex h
  · intro i j q hi _
    cases hi

/-! ### Two calls -/

/-- The name is bound to a new queue. -/
def opened (s : Initialising ι) (i : ι) : Initialising ι :=
  { (s.put i .opening).put i (.unlinking s.created) with
    bound := some s.created, created := s.created + 1 }

/-- The name is free again. -/
def finished (s : Initialising ι) (i : ι) : Initialising ι :=
  { (s.opened i).put i (.returned (some s.created) (.ok ())) with bound := none }

/-- The steps of a call that nobody interferes with. -/
def callSteps (s : Initialising ι) (i : ι) :
    List (Transition (Initialising ι) (InitAction ι)) :=
  [⟨s, .calloc i, s.put i .opening⟩, ⟨s.put i .opening, .mqOpen i, s.opened i⟩,
    ⟨s.opened i, .mqUnlink i, s.finished i⟩]

theorem callSteps_run {i : ι} (hi : s.caller i = .allocating) (hfree : s.bound = none) :
    (initialising ι).Run s (s.callSteps i) (s.finished i) := by
  have hcalloc : (initialising ι).step s (.calloc i) (s.put i .opening) := Step.calloc hi
  have hopen : (initialising ι).step (s.put i .opening) (.mqOpen i) (s.opened i) :=
    Step.openNew (by simp [put]) hfree
  have hunlink : (initialising ι).step (s.opened i) (.mqUnlink i) (s.finished i) :=
    Step.unlink (by simp [opened, put]) (by simp [opened])
  exact ((System.Run.single hcalloc).snoc hopen).snoc hunlink

/-- Two calls of which the second finds the name of the first. -/
def sharing : List (Transition (Initialising Bool) (InitAction Bool)) :=
  let s := start.put true .opening
  let t := s.put false .opening
  let u : Initialising Bool := { t.put true (.unlinking 0) with bound := some 0, created := 1 }
  [⟨start, .calloc true, s⟩, ⟨s, .calloc false, t⟩, ⟨t, .mqOpen true, u⟩,
    ⟨u, .mqOpen false, u.put false (.unlinking 0)⟩]

theorem sharing_run : ∃ t, (initialising Bool).Run start sharing t :=
  ⟨_, (((System.Run.single (Step.calloc rfl)).snoc (Step.calloc rfl)).snoc
    (Step.openNew rfl rfl)).snoc (Step.openOld rfl rfl)⟩

/-- Two calls one after the other have queues of their own, and two at the same time do not. -/
theorem own_queues_iff_two :
    (∀ τ ∈ (start : Initialising Bool).callSteps true ++ (start.finished true).callSteps false,
      τ.after.Exclusive) ∧ ¬ ∀ τ ∈ sharing, τ.after.Exclusive := by
  constructor
  · have hfirst := callSteps_run (s := (start : Initialising Bool)) (i := true) rfl rfl
    have hsecond := callSteps_run (s := start.finished true) (i := false) rfl rfl
    rw [own_queues_iff (hfirst.append hsecond)]
    simp [callSteps, put, start, finished]
  · obtain ⟨t, hr⟩ := sharing_run
    rw [own_queues_iff hr]
    intro h
    simp only [sharing, List.forall_mem_cons] at h
    obtain ⟨-, -, -, hlast, -⟩ := h
    cases hlast false rfl

/-! ## Counting -/

section Counting
variable [Fintype ι]

/-- How many calls have returned `true`. -/
def successes (s : Initialising ι) : Nat := ∑ i, (s.caller i).succeeded

theorem successes_put (s : Initialising ι) (i : ι) (c : InitCaller) :
    (s.put i c).successes + (s.caller i).succeeded = s.successes + c.succeeded :=
  System.sum_update InitCaller.succeeded s.caller i c

/-- A caller that goes on without having returned `true`. -/
theorem successes_same {i : ι} {c : InitCaller} (hi : (s.caller i).succeeded = 0)
    (hc : c.succeeded = 0) : (s.put i c).successes = s.successes := by
  have hput := successes_put s i c
  omega

/-- Whether there is a queue of that name. -/
def named (s : Initialising ι) : Nat := if s.bound = none then 0 else 1

/-- **Names are taken away as often as they are given.** -/
theorem successes_step (h : Step s a t) :
    t.successes + t.named + s.created = s.successes + s.named + t.created := by
  cases h with
  | calloc hi | callocFailed hi | openFailed hi | unlinkFailed hi | openOld hi _ =>
    exact congrArg (· + s.named + s.created) (successes_same (by rw [hi]; rfl) rfl)
  | @openNew i hi hnone =>
    have hsame : (s.put i (.unlinking s.created)).successes = s.successes :=
      successes_same (by rw [hi]; rfl) rfl
    show (s.put i (.unlinking s.created)).successes + 1 + s.created =
      s.successes + s.named + (s.created + 1)
    rw [hsame, named, if_pos hnone]
    omega
  | @unlink i q hi hsome =>
    have hmore := successes_put s i (.returned (some q) (.ok ()))
    rw [hi] at hmore
    show (s.put i (.returned (some q) (.ok ()))).successes + 0 + s.created = _
    rw [named, if_neg hsome]
    exact congrArg (· + s.created) hmore

theorem successes_reachable (hs : (initialising ι).Reachable s) :
    s.successes + s.named = s.created := by
  refine hs.invariant (I := fun s => s.successes + s.named = s.created) ?_ ?_
  · rintro s rfl
    simp [successes, named, start, InitCaller.succeeded]
  · intro s a t ih h
    have hstep := successes_step h
    omega

/-- **Sharing shows in the results.**  If all of the calls of `ae_threadpool_init` with one name
have returned `true`, whatever their interleaving, then their pools have different queues. -/
theorem distinct_queues (hs : (initialising ι).Reachable s) {queue : ι → Nat}
    (hall : ∀ i, s.caller i = .returned (some (queue i)) (.ok ())) : Function.Injective queue := by
  have hinv : s.Inv := hs.invariant (fun _ h => h ▸ inv_start) fun _ _ _ => Inv.step
  have hqueue : ∀ i, (s.caller i).queue = some (queue i) := fun i => by rw [hall]; rfl
  have hmany : s.successes = Fintype.card ι := by
    have hone : ∀ i ∈ Finset.univ, (s.caller i).succeeded = 1 := fun i _ => by rw [hall]; rfl
    rw [successes, Finset.sum_congr rfl hone, ← Finset.card_eq_sum_ones, Finset.card_univ]
  have hcount := successes_reachable hs
  -- as many queues were created as there are calls, and each was opened
  let f (i : ι) : Fin s.created := ⟨queue i, hinv.opened i _ (hqueue i)⟩
  have hsurj : Function.Surjective f := by
    intro q
    obtain ⟨i, hi⟩ := hinv.created q q.isLt
    exact ⟨i, Fin.ext (Option.some.inj ((hqueue i).symm.trans hi))⟩
  have hcard : Fintype.card ι = Fintype.card (Fin s.created) := by
    have hle := Fintype.card_le_of_surjective f hsurj
    rw [Fintype.card_fin] at hle ⊢
    omega
  have hinj := ((Fintype.bijective_iff_surjective_and_card f).mpr ⟨hsurj, hcard⟩).1
  exact fun i j hij => hinj (Fin.ext hij)

theorem distinct_queues_two : ∃ s : Initialising Bool, (initialising Bool).Reachable s ∧
    ∃ queue : Bool → Nat, (∀ i, s.caller i = .returned (some (queue i)) (.ok ())) ∧
      Function.Injective queue := by
  have hfirst := callSteps_run (s := (start : Initialising Bool)) (i := true) rfl rfl
  have hsecond := callSteps_run (s := start.finished true) (i := false) rfl rfl
  have hreachable : (initialising Bool).Reachable ((start.finished true).finished false) :=
    ⟨start, _, rfl, hfirst.append hsecond⟩
  have hall : ∀ i, ((start.finished true).finished false).caller i =
      .returned (some (if i then 0 else 1)) (.ok ()) := by
    intro i
    cases i <;> rfl
  exact ⟨_, hreachable, _, hall, distinct_queues hreachable hall⟩

end Counting

end Initialising
end Libae
