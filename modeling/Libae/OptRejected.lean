import Libae.OptOutputs

/-! # What a rejected value leaves behind

A call of `ae_opt_process` that returns `false` has met an entry whose processing failed, or an
element that is no option, or `optind` stood behind the end of `argv` (`process_fails`).
`rejected` finds that entry, with its parameter and the state in front of it, by going through
the loops of the call.

`ae_opt_parse_int` writes to the output of the caller before it compares with the bounds, so a
value that is out of range stays there (`rejected_kept_iff`).
-/
namespace Libae
open Fallible

namespace Opt
variable {D W : Type}

/-! ## The failing occurrence -/

/-- A call of `ae_opt_option_process`: for an entry, with a parameter, from a state. -/
structure Occurrence (D W : Type) where
  option : OptOption D W
  param : Option Text
  before : OptState D W

variable [CDouble D]

/-- The call fails. -/
def Occurrence.Fails (o : Occurrence D W) : Prop :=
  ((optionProcess o.param o.option).run o.before).1 = none

/-- What the call leaves. -/
def Occurrence.after (o : Occurrence D W) : OptState D W :=
  ((optionProcess o.param o.option).run o.before).2

/-- The call that fails in the loop over the table, `scanOptions`. -/
def scanFailure (argv : List Text) (arg : Text) :
    List (OptOption D W) → OptState D W → Option (Occurrence D W)
  | [], _ => none
  | option :: options, s =>
    if option.type.isGroup then scanFailure argv arg options s
    else if ¬ argumentIsValid arg then none
    else if (nameOf arg).length ≠ option.nameLen then scanFailure argv arg options s
    else
      match option.name with
      | none => none
      | some name =>
        if name.take (nameOf arg).length ≠ (arg.drop 2).take (nameOf arg).length then
          scanFailure argv arg options s
        else
          match (optionProcess (paramOf argv arg s.optind) option).run s with
          | (none, _) => some ⟨option, paramOf argv arg s.optind, s⟩
          | (some _, t) => scanFailure argv arg options t

/-- The call that fails in a round of the loop, `processArg`. -/
def roundFailure (self : Opt D W) (argv : List Text) (s : OptState D W) :
    Option (Occurrence D W) :=
  match argAt argv s.optind with
  | none => none
  | some arg =>
    if arg = dashes then none
    else scanFailure argv arg self.options { s with optind := s.optind + 1 }

/-- The call that fails in the loop, `processLoop`. -/
def loopFailure (self : Opt D W) (argv : List Text) :
    Nat → OptState D W → Option (Occurrence D W)
  | 0, _ => none
  | fuel + 1, s =>
    if s.optind < argv.length then
      match roundFailure self argv s, (processArg self argv).run s with
      | some o, _ => some o
      | none, (some true, t) => loopFailure self argv fuel t
      | none, _ => none
    else none

/-- The call of `ae_opt_option_process` because of which `ae_opt_process` fails. -/
def rejected (self : Opt D W) (argv : List Text) (s : OptState D W) : Option (Occurrence D W) :=
  if s.optind > argv.length then none
  else loopFailure self argv (argv.length - s.optind).toNat s

section Failures
variable {self : Opt D W} {argv : List Text} {arg : Text} {options : List (OptOption D W)}
  {processed : Bool} {s t : OptState D W} {o : Occurrence D W}

/-- **What is looked for at an entry** is what the loop over the table does there: it processes
the entry, passes over it, stops in front of an element that is no option, or crashes. -/
theorem scanFailure_cases (argv : List Text) (arg : Text) (option : OptOption D W)
    (options : List (OptOption D W)) (processed : Bool) (s : OptState D W) :
    (scanFailure argv arg (option :: options) s =
        (match (optionProcess (paramOf argv arg s.optind) option).run s with
          | (none, _) => some ⟨option, paramOf argv arg s.optind, s⟩
          | (some _, t) => scanFailure argv arg options t) ∧
      (scanOptions argv arg (option :: options) processed).run s =
        (optionProcess (paramOf argv arg s.optind) option >>= fun _ =>
          scanOptions argv arg options true).run s) ∨
    (scanFailure argv arg (option :: options) s = scanFailure argv arg options s ∧
      scanOptions argv arg (option :: options) processed =
        scanOptions argv arg options processed) ∨
    (scanFailure argv arg (option :: options) s = none ∧
      ∃ r, (scanOptions argv arg (option :: options) processed).run s = r ∧
        (r.1 = none → r.2.ended = some .crashed)) := by
  by_cases hg : option.type.isGroup = true
  · exact .inr (.inl ⟨by simp [scanFailure, hg], by simp [scanOptions, hg]⟩)
  by_cases hvalid : argumentIsValid arg = true
  swap
  · exact .inr (.inr ⟨by simp [scanFailure, hg, hvalid], _, rfl,
      by simp [scanOptions, hg, hvalid, bind_run]⟩)
  by_cases hlen : (nameOf arg).length = option.nameLen
  swap
  · exact .inr (.inl ⟨by simp [scanFailure, hg, hvalid, hlen],
      by simp [scanOptions, hg, hvalid, hlen]⟩)
  cases hname : option.name with
  | none =>
    exact .inr (.inr ⟨by simp [scanFailure, hg, hvalid, hlen, hname], _, rfl,
      by simp [scanOptions, hg, hvalid, hlen, hname, stop, bind_run]⟩)
  | some name =>
    by_cases htake : name.take option.nameLen = (arg.drop 2).take option.nameLen
    · refine .inl ⟨by simp [scanFailure, hg, hvalid, hlen, hname, htake], ?_⟩
      simp [scanOptions, hg, hvalid, hlen, hname, htake, bind_run]
    · exact .inr (.inl ⟨by simp [scanFailure, hg, hvalid, hlen, hname, htake],
        by simp [scanOptions, hg, hvalid, hlen, hname, htake]⟩)

/-- **The loop over the table** stops at the call that fails. -/
theorem scan_rejected (h : scanFailure argv arg options s = some o) :
    o.Fails ∧ o.option ∈ options ∧
      (scanOptions argv arg options processed).run s = (none, o.after) := by
  induction options generalizing s processed with
  | nil => cases h
  | cons option options ih =>
    obtain ⟨hfailure, hscan⟩ | ⟨hfailure, hscan⟩ | ⟨hfailure, -⟩ :=
      scanFailure_cases argv arg option options processed s
    · rw [hfailure] at h
      rcases hr : (optionProcess (paramOf argv arg s.optind) option).run s with ⟨_ | u, t⟩
      · rw [hr] at h
        obtain rfl := Option.some.inj h
        refine ⟨congrArg Prod.fst hr, List.mem_cons_self, ?_⟩
        rw [hscan, bind_of_none hr]
        exact congrArg (fun r => (none, r.2)) hr.symm
      · rw [hr] at h
        obtain ⟨hfails, hmem, hrest⟩ : o.Fails ∧ o.option ∈ options ∧
            (scanOptions argv arg options true).run t = (none, o.after) := ih h
        refine ⟨hfails, List.mem_cons_of_mem _ hmem, ?_⟩
        rw [hscan, bind_of_some hr, hrest]
    · rw [hfailure] at h
      obtain ⟨hfails, hmem, hrest⟩ : o.Fails ∧ o.option ∈ options ∧
          (scanOptions argv arg options processed).run s = (none, o.after) := ih h
      exact ⟨hfails, List.mem_cons_of_mem _ hmem, hscan ▸ hrest⟩
    · rw [hfailure] at h
      cases h

/-- Without one, the loop over the table ends, or crashes. -/
theorem scan_not_rejected (h : scanFailure argv arg options s = none)
    (hr : (scanOptions argv arg options processed).run s = (none, t)) :
    t.ended = some .crashed := by
  induction options generalizing s processed with
  | nil => cases hr
  | cons option options ih =>
    obtain ⟨hfailure, hscan⟩ | ⟨hfailure, hscan⟩ | ⟨-, r, hscan, hcrash⟩ :=
      scanFailure_cases argv arg option options processed s
    · rw [hfailure] at h
      rw [hscan] at hr
      rcases ho : (optionProcess (paramOf argv arg s.optind) option).run s with ⟨_ | u, t'⟩
      · rw [ho] at h
        cases h
      · rw [ho] at h
        rw [bind_of_some ho] at hr
        exact ih h hr
    · exact ih (hfailure ▸ h) (hscan ▸ hr)
    · rw [hr] at hscan
      subst hscan
      exact hcrash rfl

/-- A round stops at the call that fails. -/
theorem round_rejected (h : roundFailure self argv s = some o) :
    o.Fails ∧ o.option ∈ self.options ∧ (processArg self argv).run s = (none, o.after) := by
  unfold roundFailure at h
  split at h
  · cases h
  · next arg harg =>
    split at h
    · cases h
    · next hne =>
      obtain ⟨hfails, hmem, hscan⟩ : o.Fails ∧ o.option ∈ self.options ∧
          (scanOptions argv arg self.options false).run { s with optind := s.optind + 1 } =
            (none, o.after) := scan_rejected h
      refine ⟨hfails, hmem, ?_⟩
      obtain ⟨t, ht, hrun⟩ | ⟨t, ht, -⟩ | ⟨t, ht, -⟩ | ⟨t, r, u, ht, -⟩ :=
        processArg_cases self harg hne <;> rw [hscan] at ht <;> cases ht
      exact hrun

/-- Without one, a round fails at an element that is no option, or crashes. -/
theorem round_not_rejected (h : roundFailure self argv s = none)
    (hr : (processArg self argv).run s = (none, t)) :
    t.ended = some .crashed ∨ ∃ calls arg, t.calls = calls ++ [.unknown arg] := by
  unfold roundFailure at h
  split at h
  · next harg =>
    rw [processArg_none harg] at hr
    cases hr
    exact .inl rfl
  · next arg harg =>
    split at h
    · next hdash =>
      rw [processArg_dashes (hdash ▸ harg)] at hr
      cases hr
    · next hne =>
      obtain ⟨u, hscan, hrun⟩ | ⟨u, -, hrun⟩ | ⟨u, -, hrun⟩ | ⟨u, r, v, -, hunknown, hrun⟩ :=
        processArg_cases self harg hne <;> rw [hrun] at hr
      · cases hr
        exact .inl (scan_not_rejected h hscan)
      · cases hr
      · cases hr
      · have hcalls := congrArg Prod.snd (unknown_trace self arg u)
        rw [hunknown] at hcalls
        obtain ⟨-, rfl⟩ := Prod.mk.inj hr
        exact .inr ⟨_, _, hcalls⟩

theorem loop_rejected {fuel : Nat} (h : loopFailure self argv fuel s = some o) :
    o.Fails ∧ o.option ∈ self.options ∧ (processLoop self argv fuel).run s = (none, o.after) := by
  induction fuel generalizing s with
  | zero => cases h
  | succ fuel ih =>
    unfold loopFailure at h
    split at h
    · next hlt =>
      rw [loop_round hlt]
      split at h
      · next o' _ hround =>
        obtain rfl := Option.some.inj h
        obtain ⟨hfails, hmem, hrun⟩ := round_rejected hround
        rw [hrun]
        exact ⟨hfails, hmem, rfl⟩
      · next t _ hround =>
        rw [hround]
        exact ih h
      · cases h
    · cases h

theorem loop_not_rejected {fuel : Nat} (h : loopFailure self argv fuel s = none)
    (hr : (processLoop self argv fuel).run s = (none, t)) :
    t.ended = some .crashed ∨ ∃ calls arg, t.calls = calls ++ [.unknown arg] := by
  induction fuel generalizing s with
  | zero => cases hr
  | succ fuel ih =>
    by_cases hlt : s.optind < argv.length
    · rw [loop_round hlt] at hr
      rw [loopFailure, if_pos hlt] at h
      cases hfailure : roundFailure self argv s with
      | some o =>
        rw [hfailure] at h
        cases h
      | none =>
        rcases hround : (processArg self argv).run s with ⟨_ | _ | _, u⟩ <;>
          rw [hround] at hr <;> rw [hfailure, hround] at h
        · cases hr
          exact round_not_rejected hfailure hround
        · cases hr
        · exact ih h hr
    · rw [loop_ends (Int.not_lt.mp hlt)] at hr
      cases hr

/-- **A call that fails because of an entry** leaves what the processing of the entry left. -/
theorem process_rejected (h : rejected self argv s = some o) :
    o.Fails ∧ o.option ∈ self.options ∧ (process self argv).run s = (none, o.after) := by
  unfold rejected at h
  split at h
  · cases h
  · next hle =>
    rw [process_loop (Int.not_lt.mp hle)]
    exact loop_rejected h

/-- **Why a call fails**: because of an entry, of an element that is no option, or of an index
that is out of `argv`; otherwise it crashes. -/
theorem process_fails (hr : (process self argv).run s = (none, t)) :
    (∃ o, rejected self argv s = some o) ∨ s.optind > argv.length ∨ t.ended = some .crashed ∨
      ∃ calls arg, t.calls = calls ++ [.unknown arg] := by
  by_cases hle : s.optind > argv.length
  · exact .inr (.inl hle)
  cases hfailure : rejected self argv s with
  | some o => exact .inl ⟨o, rfl⟩
  | none =>
    rw [process_loop (Int.not_lt.mp hle)] at hr
    rw [rejected, if_neg hle] at hfailure
    exact .inr (.inr (loop_not_rejected hfailure hr))

/-! ## Integers -/

variable {params : Option (OptRange Int)} {out : Option Nat}

/-- **When a rejected value is not stored.**  For every table, every `argv` and every call that
fails because of an option of type `AE_OPT_TYPE_INT`: all outputs have the values they had in
front of it exactly if there is no output, nothing was read, or the value that was read is
the one that was there. -/
theorem rejected_kept_iff (h : rejected self argv s = some o)
    (htype : o.option.type = .int params out) :
    ((process self argv).run s).1 = none ∧
      ((∀ option ∈ self.options, ∀ c, option.type.cell = some c →
          ((process self argv).run s).2.outputs.value c = o.before.outputs.value c) ↔
        ∀ a, out = some a → ∀ v, readInt params o.param = some v →
          v = o.before.outputs.ints a) := by
  obtain ⟨-, hmem, hrun⟩ := process_rejected h
  have hafter : o.after.outputs = o.before.outputs.stored out (readInt params o.param) :=
    int_outputs htype
  rw [hrun]
  refine ⟨rfl, ?_⟩
  constructor
  · rintro hkept a rfl v hread
    rw [hread] at hafter
    have hcell := hkept o.option hmem (.int a) (by rw [htype]; rfl)
    rw [hafter] at hcell
    simpa [Outputs.value, Outputs.stored] using hcell
  · intro hsame option _ c _
    rw [hafter, Outputs.stored_same hsame]

end Failures

/-- A text that is no integer leaves the output alone. -/
theorem rejected_kept_text :
    ((process (init none [percent]) [ascii "--n=abc"]).run start).1 = none ∧
      ((∀ option ∈ [percent], ∀ c, option.type.cell = some c →
          ((process (init none [percent]) [ascii "--n=abc"]).run start).2.outputs.value c =
            start.outputs.value c) ↔
        ∀ a, some 0 = some a → ∀ v, readInt (some ⟨50, 0, 100⟩) (some (ascii "abc")) = some v →
          v = start.outputs.ints a) := by
  have hrejected : rejected (init none [percent]) [ascii "--n=abc"] start =
      some ⟨percent, some (ascii "abc"), { start with optind := 1 }⟩ := rfl
  exact rejected_kept_iff hrejected rfl

/-- The value of `--n=500` is out of range, and stays in the only output there is. -/
theorem rejected_value_stored :
    ∃ o, rejected (init none [percent]) [ascii "--n=500"] start = some o ∧
      o.option.type = .int (some ⟨50, 0, 100⟩) (some 0) ∧ o.option.callback = none ∧
      ((process (init none [percent]) [ascii "--n=500"]).run start).1 = none ∧
      o.before.outputs.ints 0 = 0 ∧
      ((process (init none [percent]) [ascii "--n=500"]).run start).2.outputs.ints 0 = 500 := by
  have hrejected : rejected (init none [percent]) [ascii "--n=500"] start =
      some ⟨percent, some (ascii "500"), { start with optind := 1 }⟩ := rfl
  exact ⟨_, hrejected, rfl, rfl, rfl, rfl, rfl⟩

end Opt
end Libae
