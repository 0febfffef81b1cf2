import Libae.ResText

/-! # The mask of a result object

`mask` keeps track of what types of messages were added (`res.h`): bit 0 is for errors,
bit 1 for warnings, bit 2 for infos.  `ae_res_add` sets the bit of its type and
`ae_res_init` resets them all, but `ae_res_clear` removes the messages and leaves the
mask alone.  So over a run the mask says of which types there are messages exactly as
long as `ae_res_clear` has nothing to remove (`masked_iff`).
-/
namespace Libae
open Runs

namespace Res

/-- The bit of the type in `mask`. -/
def masks (self : Res) (type : ResN) : Bool := self.mask.toNat.testBit (type.value - 1)

theorem poke_mask (self : Res) (type : ResN) (w : ByteMemory.Write) :
    (self.poke type w).mask = self.mask := by
  unfold poke
  split
  · rfl
  · split
    · split <;> rfl
    · rfl

/-- `ae_res_add` sets the bit of its type. -/
theorem addv_mask (self : Res) (type : ResN) (text : Text) :
    (self.addv type text).1.mask = self.mask ||| UInt8.ofNat (1 <<< (type.value - 1)) :=
  foldl_poke_same (f := Res.mask) (fun r w => poke_mask r type w) _ _

/-- Each type has a bit of its own. -/
theorem testBit_value {type t : ResN} (hne : type ≠ .ok) (ht : t ≠ .ok) :
    (UInt8.ofNat (1 <<< (type.value - 1))).toNat.testBit (t.value - 1) = decide (t = type) := by
  cases type <;> cases t <;> first | rfl | contradiction

theorem addv_masks (self : Res) {type t : ResN} (text : Text) (hne : type ≠ .ok) (ht : t ≠ .ok) :
    (self.addv type text).1.masks t = (self.masks t || decide (t = type)) := by
  rw [masks, addv_mask, UInt8.toNat_or, Nat.testBit_or, testBit_value hne ht]
  rfl

end Res

/-- What a program does with a result object. -/
inductive ResOp
  | init
  | clear
  | add (type : ResN) (text : Text) (h : type ≠ .ok)

namespace ResHistory
variable {s : ResHistory} {type : ResN}

/-- The object, with the messages added since the last `ae_res_init` or `ae_res_clear`. -/
def call (s : ResHistory) : ResOp → ResHistory
  | .init => ⟨s.res.init, []⟩
  | .clear => ⟨s.res.clear, []⟩
  | .add type text _ => s.after type text

/-- A result object in use, from `ae_res_init` on. -/
def session : System ResHistory ResOp where
  init s := s.added = [] ∧ ∃ r : Res, s.res = r.init
  step s op t := t = s.call op

/-- The mask has the bits of the types of which there are messages. -/
def Masked (s : ResHistory) : Prop :=
  ∀ type, type ≠ .ok → (s.res.masks type = true ↔ s.texts type ≠ [])

/-- No message of the type `OK` was added. -/
def Typed (s : ResHistory) : Prop := ∀ a ∈ s.added, a.1 ≠ .ok

theorem texts_eq_nil : s.texts type = [] ↔ ∀ a ∈ s.added, a.1 ≠ type := by
  simp [texts]

theorem added_eq_nil (h : s.Typed) : s.added = [] ↔ ∀ type, type ≠ .ok → s.texts type = [] := by
  constructor
  · intro hnone type _
    simp [texts, hnone]
  · intro hnone
    refine List.eq_nil_iff_forall_not_mem.mpr (fun a ha => ?_)
    exact texts_eq_nil.mp (hnone a.1 (h a ha)) a ha rfl

/-- An initialised object has no bits. -/
theorem masked_init (r : Res) : Masked ⟨r.init, []⟩ := by
  intro type _
  refine iff_of_false ?_ (not_not_intro rfl)
  simp [Res.masks, Res.init, Res.clear]

theorem masked_after (hs : s.Masked) (text : Text) (hne : type ≠ .ok) :
    (s.after type text).Masked := by
  intro t ht
  show (s.res.addv type text).1.masks t = true ↔ _
  rw [Res.addv_masks s.res text hne ht, Bool.or_eq_true, hs t ht, decide_eq_true_iff]
  by_cases heq : t = type
  · rw [heq, texts_after_self]
    simp
  · rw [texts_after_of_ne s text heq]
    simp [heq]

/-- `ae_res_clear` leaves the bits, so there must have been none. -/
theorem masked_clear (hs : s.Masked) (htyped : s.Typed) :
    Masked ⟨s.res.clear, []⟩ ↔ s.added = [] := by
  rw [added_eq_nil htyped]
  refine forall_congr' fun type => forall_congr' fun hne => ?_
  have hbit : s.res.clear.masks type = true ↔ s.texts type ≠ [] := hs type hne
  have hnil : texts ⟨s.res.clear, []⟩ type = [] := rfl
  show (s.res.clear.masks type = true ↔ texts ⟨s.res.clear, []⟩ type ≠ []) ↔ _
  rw [hbit, hnil]
  simp only [ne_eq, not_true_eq_false, iff_false, not_not]

theorem typed_call (hs : s.Typed) (op : ResOp) : (s.call op).Typed := by
  cases op with
  | init | clear => simp [call, Typed]
  | add type text hne =>
    intro a ha
    rcases List.mem_append.mp ha with ha | ha
    · exact hs a ha
    · rw [List.mem_singleton.mp ha]
      exact hne

/-- **When the mask tells what is held.**  In every run of `ae_res_init`, `ae_res_clear` and
`ae_res_add`, the mask has after every call the bits of those types of which a message
was added since the last `ae_res_init` or `ae_res_clear`, if and only if every call of
`ae_res_clear` is made when no message was. -/
theorem masked_iff {t : ResHistory} {τs : List (Transition ResHistory ResOp)}
    (hs : session.init s) (hr : session.Run s τs t) :
    (∀ τ ∈ τs, τ.after.Masked) ↔ ∀ τ ∈ τs, τ.action = .clear → τ.before.added = [] := by
  have hinit : s.Masked ∧ s.Typed := by
    obtain ⟨res, added⟩ := s
    obtain ⟨rfl, r, rfl⟩ := hs
    exact ⟨masked_init r, by simp [Typed]⟩
  refine hr.forall_iff (I := fun s => s.Masked ∧ s.Typed) (Q := fun _ _ t => t.Masked)
    (G := fun s op => op = .clear → s.added = []) ?_ ?_ hinit
  · rintro s op t ⟨hs, htyped⟩ rfl hgood
    refine ⟨?_, typed_call htyped op⟩
    cases op with
    | init => exact masked_init s.res
    | clear => exact (masked_clear hs htyped).mpr (hgood rfl)
    | add type text hne => exact masked_after hs text hne
  · rintro s op t ⟨hs, htyped⟩ rfl
    cases op with
    | init => exact iff_of_true (masked_init s.res) nofun
    | clear => simpa [call] using masked_clear hs htyped
    | add type text hne => exact iff_of_true (masked_after hs text hne) nofun

/-- An error is added, and the object is initialised again. -/
theorem masked_iff_again :
    (∀ τ ∈ [(⟨none, .add .err [] (by decide), none.after .err []⟩ : Transition ResHistory ResOp),
        ⟨none.after .err [], .init, (none.after .err []).call .init⟩], τ.after.Masked) ↔
      ∀ τ ∈ [(⟨none, .add .err [] (by decide), none.after .err []⟩ : Transition ResHistory ResOp),
        ⟨none.after .err [], .init, (none.after .err []).call .init⟩],
        τ.action = .clear → τ.before.added = [] :=
  masked_iff ⟨rfl, Res.zero, rfl⟩ ((System.Run.single rfl).snoc rfl)

/-- After an error and `ae_res_clear` the mask still tells of the error. -/
theorem cleared_still_masked : ∃ t τs, session.Run none τs t ∧
    τs.map Transition.action = [.add .err [] (by decide), .clear] ∧ ¬ t.Masked := by
  refine ⟨_, _, (System.Run.single rfl).snoc rfl, rfl, fun h => ?_⟩
  have hbit := (h .err (by decide)).mp (by decide)
  exact hbit rfl

end ResHistory
end Libae
