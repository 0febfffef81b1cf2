import Libae.OptGrammar
import Mathlib.Data.List.Pairwise

/-! # Which outputs a call touches

An element of the command line acts on the entries whose name it spells, and on no
others: not on one whose name is only a part of what is spelled, or goes on after it,
and not on a group.  So whatever `ae_opt_process` returns, an output keeps its value
unless an element spells the name of the entry that owns it (`acts_on_named`).

What a call leaves alone is what the entries leave alone that are processed
(`frame_process`), so the outputs are looked at one by one.
-/
namespace Libae
open Fallible

/-! ## Outputs, one by one -/

/-- What `out` points to: a memory and an address in it. -/
inductive OptCell
  | bool (out : Nat)
  | int (out : Nat)
  | double (out : Nat)
  | string (out : Nat)
  | bits (out : Nat)
  deriving DecidableEq

/-- A value in one of the memories. -/
inductive OptValue (D : Type)
  | bool (v : Bool)
  | int (v : Int)
  | double (v : D)
  | string (v : Option Text)
  | bits (v : UInt32)

/-- The output of an entry, if it has one. -/
def OptType.cell {D : Type} : OptType D → Option OptCell
  | .flag out => out.map .bool
  | .int _ out | .counter out => out.map .int
  | .double _ out => out.map .double
  | .string out => out.map .string
  | .bit _ out => out.map .bits
  | .group | .help | .version | .callbackOnly => none

namespace Outputs
variable {D : Type} (o : Outputs D)

/-- What is in the cell. -/
def value : OptCell → OptValue D
  | .bool out => .bool (o.bools out)
  | .int out => .int (o.ints out)
  | .double out => .double (o.doubles out)
  | .string out => .string (o.strings out)
  | .bits out => .bits (o.bits out)

variable {c : OptCell} {out : Nat}

/-! A write changes its own cell. -/

theorem value_bools (v : Bool) (h : some (OptCell.bool out) ≠ some c) :
    value { o with bools := Function.update o.bools out v } c = o.value c := by
  cases c with
  | bool a =>
    have hne : a ≠ out := by simpa [eq_comm] using h
    simp [value, hne]
  | _ => rfl

theorem value_ints (v : Int) (h : some (OptCell.int out) ≠ some c) :
    value { o with ints := Function.update o.ints out v } c = o.value c := by
  cases c with
  | int a =>
    have hne : a ≠ out := by simpa [eq_comm] using h
    simp [value, hne]
  | _ => rfl

theorem value_doubles (v : D) (h : some (OptCell.double out) ≠ some c) :
    value { o with doubles := Function.update o.doubles out v } c = o.value c := by
  cases c with
  | double a =>
    have hne : a ≠ out := by simpa [eq_comm] using h
    simp [value, hne]
  | _ => rfl

theorem value_strings (v : Option Text) (h : some (OptCell.string out) ≠ some c) :
    value { o with strings := Function.update o.strings out v } c = o.value c := by
  cases c with
  | string a =>
    have hne : a ≠ out := by simpa [eq_comm] using h
    simp [value, hne]
  | _ => rfl

theorem value_bits (v : UInt32) (h : some (OptCell.bits out) ≠ some c) :
    value { o with bits := Function.update o.bits out v } c = o.value c := by
  cases c with
  | bits a =>
    have hne : a ≠ out := by simpa [eq_comm] using h
    simp [value, hne]
  | _ => rfl

/-- What was read is stored, if there is an output. -/
def stored (o : Outputs D) : Option Nat → Option Int → Outputs D
  | some a, some v => { o with ints := Function.update o.ints a v }
  | _, _ => o

/-- Storing what is there changes nothing. -/
theorem stored_same {o : Outputs D} {out : Option Nat} {read : Option Int}
    (h : ∀ a, out = some a → ∀ v, read = some v → v = o.ints a) : o.stored out read = o := by
  cases out with
  | none => rfl
  | some a =>
    cases read with
    | none => rfl
    | some v => rw [stored, h a rfl v rfl, Function.update_eq_self]

end Outputs

namespace Opt
variable {D W : Type}

/-! ## What a call leaves alone -/

section Frames
variable {γ : Type} {g : Outputs D → γ}

theorem frame_outputs_stop (ended : OptEnded) :
    Frame (fun s => g s.outputs) (stop ended : Fallible (OptState D W) Unit) :=
  .bind (.modify fun _ => rfl) (fun _ => .fail)

/-- The callbacks do not write to outputs. -/
theorem frame_outputs_callIfAny {α : Type} (cb : Option (OptCallback W α)) (a : α) :
    Frame (fun s => g s.outputs) (callIfAny cb a : Fallible (OptState D W) Unit) := by
  intro s
  cases cb with
  | none => rfl
  | some cb => rw [callIfAny, runCallback_run]

theorem frame_outputs_unknown (self : Opt D W) (arg : Text) :
    Frame (fun s => g s.outputs) (unknown self arg) := by
  refine .bind (.modify fun _ => rfl) (fun _ => ?_)
  cases self.callback with
  | some cb => exact frame_outputs_callIfAny (some cb) arg
  | none => exact .bind (.modify fun _ => rfl) (fun _ => .fail)

variable [CDouble D]

/-- What the type of an entry leaves alone. -/
def Spares (g : Outputs D → γ) (option : OptOption D W) : Prop :=
  ∀ p, Frame (fun s => g s.outputs)
    (parseType option.name p option.type : Fallible (OptState D W) Unit)

/-- The entries that `argv` names. -/
theorem frame_outputs_processArg {self : Opt D W} {argv : List Text}
    (h : ∀ arg ∈ argv, ∀ option ∈ self.options, matchesArg arg option = true → Spares g option) :
    Frame (fun s => g s.outputs) (processArg self argv) := by
  refine .bind .get (fun s => ?_)
  cases harg : argAt argv s.optind with
  | none => exact .bind (frame_outputs_stop _) (fun _ => .pure _)
  | some arg =>
    have hmem : arg ∈ argv := by
      unfold argAt at harg
      split at harg
      · exact List.mem_of_getElem? harg
      · cases harg
    refine .bind (.modify fun _ => rfl) (fun _ => ?_)
    split
    · exact .pure _
    · refine .bind (frame_scan (fun _ _ => rfl) ?_ ?_) (fun scan => ?_)
      · exact fun option ho hmatch p => frame_optionProcess (fun _ _ => rfl) (fun _ _ => rfl)
          (h arg hmem option ho hmatch p) (frame_outputs_callIfAny _ _)
      · exact fun _ _ _ _ => frame_outputs_stop _
      rcases scan with _ | ⟨_ | _⟩
      · exact .pure _
      · exact .bind (frame_outputs_unknown self arg) (fun _ => .pure _)
      · exact .pure _

/-- **What a call leaves alone**: whatever the entries do that `argv` names. -/
theorem frame_process {self : Opt D W} {argv : List Text}
    (h : ∀ arg ∈ argv, ∀ option ∈ self.options, matchesArg arg option = true → Spares g option) :
    Frame (fun s => g s.outputs) (process self argv) := by
  have hround := frame_outputs_processArg h
  have hloop : ∀ fuel, Frame (fun s => g s.outputs) (processLoop self argv fuel) := by
    intro fuel
    induction fuel with
    | zero => exact .pure _
    | succ fuel ih =>
      refine .bind .get (fun s => ?_)
      split
      · refine .bind hround (fun goOn => ?_)
        cases goOn
        · exact .pure _
        · exact ih
      · exact .pure _
  refine .bind .get (fun s => ?_)
  dsimp only
  split
  · exact .bind (.modify fun _ => rfl) (fun _ => .fail)
  · exact hloop _

end Frames

/-! ## The types, seen at one output -/

section Cells
variable {c : OptCell}

/-- **A type writes to its own output** only. -/
theorem spares_of_ne [CDouble D] {option : OptOption D W} (h : option.type.cell ≠ some c) :
    Spares (fun o => o.value c) option := by
  intro p
  cases htype : option.type with
  | help | version => exact frame_outputs_stop (g := fun o => o.value c) _
  | group | callbackOnly => exact .pure _
  | flag out =>
    rw [htype] at h
    cases out with
    | none => exact .bind (.modify fun _ => rfl) (fun _ => .fail)
    | some out => exact .modify fun s => s.outputs.value_bools true h
  | bit whichBits out =>
    rw [htype] at h
    cases out with
    | none => exact .bind (.modify fun _ => rfl) (fun _ => .fail)
    | some out => exact .modify fun s => s.outputs.value_bits _ h
  | string out =>
    rw [htype] at h
    cases out with
    | none => exact frame_outputs_stop (g := fun o => o.value c) _
    | some out => exact .modify fun s => s.outputs.value_strings p h
  | int params out =>
    rw [htype] at h
    cases out with
    | none => exact .bind (.modify fun _ => rfl) (fun _ => .fail)
    | some out =>
      intro s
      rw [parseType, parseInt_run]
      exact Numbers.parse_frame (f := fun s => s.outputs.value c) _
        (fun v s => s.outputs.value_ints v h) (fun _ _ => rfl) p s
  | double params out =>
    rw [htype] at h
    cases out with
    | none => exact .bind (.modify fun _ => rfl) (fun _ => .fail)
    | some out =>
      intro s
      rw [parseType, parseDouble_run]
      exact Numbers.parse_frame (f := fun s => s.outputs.value c) _
        (fun v s => s.outputs.value_doubles v h) (fun _ _ => rfl) p s
  | counter out =>
    rw [htype] at h
    cases out with
    | none => exact .bind (.modify fun _ => rfl) (fun _ => .fail)
    | some out =>
      intro s
      rw [parseType, parseCounter_run]
      exact Numbers.parse_frame (f := fun s => s.outputs.value c) _
        (fun v s => s.outputs.value_ints _ h) (fun _ _ => rfl) p s

/-- **What an option leaves in the outputs** is what its type leaves there: the index and the
log are none of its business, and the callback comes behind it. -/
theorem optionProcess_outputs [CDouble D] (p : Option Text) (option : OptOption D W)
    (s : OptState D W) : ((optionProcess p option).run s).2.outputs =
      ((parseType option.name p option.type).run s).2.outputs := by
  have hrest : ∀ f : OptState D W → OptState D W, Passes f →
      ((do parseType option.name p option.type; callIfAny option.callback p :
        Fallible (OptState D W) Unit).run (f s)).2.outputs =
        ((parseType option.name p option.type).run s).2.outputs := by
    intro f hf
    have htail := Frame.tail (f := OptState.outputs)
      (fun _ => frame_outputs_callIfAny (g := id) option.callback p) (f s)
      (x := parseType option.name p option.type)
    rw [htail, maps_parseType hf]
    exact hf.outputs _
  rw [optionProcess, bind_run, modify_run]
  dsimp only
  split
  · exact hrest
      (fun t => { t with calls := t.calls ++ [.option option.name p], optind := t.optind + 1 })
      ⟨fun _ => rfl, fun _ _ => rfl, fun _ _ => rfl, fun _ _ => rfl⟩
  · exact hrest (fun t => { t with calls := t.calls ++ [.option option.name p] })
      ⟨fun _ => rfl, fun _ _ => rfl, fun _ _ => rfl, fun _ _ => rfl⟩

/-- `ae_opt_parse_int` stores what it has read, also what is out of its bounds. -/
theorem int_outputs [CDouble D] {option : OptOption D W} {params : Option (OptRange Int)}
    {out : Option Nat} {p : Option Text} {s : OptState D W}
    (htype : option.type = .int params out) :
    ((optionProcess p option).run s).2.outputs = s.outputs.stored out (readInt params p) := by
  rw [optionProcess_outputs, htype, parseType]
  cases out with
  | none => rfl
  | some a =>
    let n : Numbers Int D W := intNumbers option.name a params
    rw [parseInt_run]
    cases hread : readInt params p with
    | none =>
      have hnone : n.read p = none := hread
      rw [n.parse_none hnone]
      rfl
    | some v =>
      have hsome : n.read p = some v := hread
      rw [n.parse_read hsome]
      rfl

end Cells

/-! ## What an element acts on -/

section Elements
variable {argv : List Text} {arg : Text} {s : OptState D W}

/-- What is processed for an element has the name that the element spells. -/
theorem matchesArg_measure {option : OptOption D W} (h : matchesArg arg (measure option) = true) :
    argumentIsValid arg = true ∧ option.name = some (nameOf arg) := by
  have hmeasured : (measure option).type.isGroup = false →
      ∃ name, (measure option).name = some name ∧ (measure option).nameLen = name.length := by
    intro _
    cases hn : option.name with
    | none => simp [matchesArg, hn] at h
    | some name => exact ⟨name, by rw [measure_name, hn], by simp [measure, hn]⟩
  obtain ⟨-, hvalid, hname⟩ := (matchesArg_iff hmeasured).mp h
  exact ⟨hvalid, by rwa [measure_name] at hname⟩

variable [CDouble D]

/-- The loop over the table acts for an element on entries of its name only. -/
theorem scan_calls {options : List (OptOption D W)} {processed : Bool}
    (hname : ∀ option ∈ options, matchesArg arg option = true →
      argumentIsValid arg = true ∧ option.name = some (nameOf arg)) :
    ∃ calls, ((scanOptions argv arg options processed).run s).2.calls = s.calls ++ calls ∧
      ∀ call ∈ calls, argumentIsValid arg = true ∧ ∃ p, call = .option (some (nameOf arg)) p := by
  induction options generalizing processed s with
  | nil => exact ⟨[], by simp [scanOptions], by simp⟩
  | cons option options ih =>
    have ih' : ∀ processed s, ∃ calls,
        ((scanOptions argv arg options processed).run s).2.calls = s.calls ++ calls ∧
        ∀ call ∈ calls, argumentIsValid arg = true ∧ ∃ p, call = .option (some (nameOf arg)) p :=
      fun _ _ => ih (fun o h => hname o (List.mem_cons_of_mem _ h))
    rcases scan_cases argv arg option options processed with
      ⟨hhit, heq⟩ | ⟨-, heq | ⟨-, -, heq⟩ | ⟨-, -, heq⟩⟩ <;> rw [heq]
    · obtain ⟨hvalid, hn⟩ := hname option List.mem_cons_self hhit
      have hcalls := congrArg Prod.snd
        (optionProcess_trace (paramOf argv arg s.optind) option s)
      have hone : argumentIsValid arg = true ∧
          ∃ p, OptCall.option option.name (paramOf argv arg s.optind) =
            .option (some (nameOf arg)) p := ⟨hvalid, _, by rw [hn]⟩
      simp only [bind_run, get_run]
      rcases hr : (optionProcess (paramOf argv arg s.optind) option).run s with ⟨_ | u, t⟩
      · rw [hr] at hcalls
        exact ⟨_, hcalls, by simpa using hone⟩
      · rw [hr] at hcalls
        obtain ⟨calls, ht, hall⟩ := ih' true t
        refine ⟨.option option.name (paramOf argv arg s.optind) :: calls, ?_, ?_⟩
        · rw [ht, show t.calls = _ from hcalls, List.append_assoc]
          rfl
        · exact List.forall_mem_cons.mpr ⟨hone, hall⟩
    · exact ih' processed s
    · exact ⟨[], by simp [bind_run], by simp⟩
    · exact ⟨[], by simp [bind_run, stop], by simp⟩

/-- A round acts on entries of the name that its element spells, or reports the element. -/
theorem round_calls {self : Opt D W}
    (hname : ∀ option ∈ self.options, matchesArg arg option = true →
      argumentIsValid arg = true ∧ option.name = some (nameOf arg))
    (harg : argAt argv s.optind = some arg) :
    ∃ calls, ((processArg self argv).run s).2.calls = s.calls ++ calls ∧
      ∀ call ∈ calls, call = .unknown arg ∨
        ∃ name value p, Spells arg name value ∧ call = .option (some name) p := by
  have hspells : ∀ call : OptCall, (argumentIsValid arg = true ∧
      ∃ p, call = .option (some (nameOf arg)) p) →
      ∃ name value p, Spells arg name value ∧ call = .option (some name) p := by
    rintro call ⟨hvalid, p, rfl⟩
    exact ⟨_, _, p, spells_iff.mpr ⟨hvalid, rfl, rfl⟩, rfl⟩
  by_cases hdash : arg = dashes
  · rw [processArg_dashes (hdash ▸ harg)]
    exact ⟨[], by simp, by simp⟩
  have hscan : ∃ calls, ((scanOptions argv arg self.options false).run
      { s with optind := s.optind + 1 }).2.calls = s.calls ++ calls ∧
      ∀ call ∈ calls, argumentIsValid arg = true ∧ ∃ p, call = .option (some (nameOf arg)) p :=
    scan_calls hname
  obtain ⟨calls, hcalls, hall⟩ := hscan
  obtain ⟨t, hr, hrun⟩ | ⟨t, hr, hrun⟩ | ⟨t, hr, hrun⟩ | ⟨t, r, u, hr, hu, hrun⟩ :=
    processArg_cases self harg hdash <;> rw [hr] at hcalls <;> rw [hrun]
  · exact ⟨calls, hcalls, fun call h => .inr (hspells call (hall call h))⟩
  · exact ⟨calls, hcalls, fun call h => .inr (hspells call (hall call h))⟩
  · exact ⟨calls, hcalls, fun call h => .inr (hspells call (hall call h))⟩
  · have hunknown := congrArg Prod.snd (unknown_trace self arg t)
    rw [hu] at hunknown
    refine ⟨calls ++ [.unknown arg], ?_, ?_⟩
    · rw [← List.append_assoc]
      exact hunknown.trans (congrArg (· ++ _) hcalls)
    · intro call h
      rcases List.mem_append.mp h with h | h
      · exact .inr (hspells call (hall call h))
      · exact .inl (List.mem_singleton.mp h)

/-- **Groups are passed over.** -/
theorem scan_groups (options : List (OptOption D W)) (processed : Bool) :
    scanOptions argv arg (options.filter (fun option => !option.type.isGroup)) processed =
      scanOptions argv arg options processed := by
  induction options generalizing processed with
  | nil => rfl
  | cons option options ih =>
    cases hg : option.type.isGroup with
    | true => simp [scanOptions, hg, ih]
    | false => simp [scanOptions, hg, ih]

/-- A table does the same without its groups. -/
theorem process_groups (cb : Option (OptCallback W Text)) (options : List (OptOption D W))
    (argv : List Text) :
    process (init cb (options.filter (fun option => !option.type.isGroup))) argv =
      process (init cb options) argv := by
  have hinit : (init cb (options.filter (fun option => !option.type.isGroup))).options =
      (init cb options).options.filter (fun option => !option.type.isGroup) := by
    simp only [init, List.filter_map]
    congr 2
    funext option
    simp
  have hround : processArg (init cb (options.filter (fun option => !option.type.isGroup))) argv =
      processArg (init cb options) argv := by
    unfold processArg
    simp only [hinit, scan_groups]
    rfl
  have hloop : ∀ fuel,
      processLoop (init cb (options.filter (fun option => !option.type.isGroup))) argv fuel =
        processLoop (init cb options) argv fuel := by
    intro fuel
    induction fuel with
    | zero => rfl
    | succ fuel ih => simp only [processLoop, hround, ih]
  simp only [process, hloop]

end Elements

/-- The two entries have no output in common. -/
def Apart (o o' : OptOption D W) : Prop := ∀ c, o.type.cell = some c → o'.type.cell ≠ some c

instance : Std.Symm (Apart : OptOption D W → OptOption D W → Prop) :=
  ⟨fun _ _ h c hc' hc => h c hc hc'⟩

/-- **Only named options are touched.**  For every table after `ae_opt_init` whose entries have
outputs of their own, every `argv`, and whatever `ae_opt_process` returns: an output differs
from its value before the call only if an element spells the name of its entry; in every
round the entries that are processed have the name that the element spells; and a table does
the same with its groups and without. -/
theorem acts_on_named [CDouble D] (cb : Option (OptCallback W Text))
    {options : List (OptOption D W)}
    (hapart : options.Pairwise Apart)
    (argv : List Text) (s : OptState D W) :
    (∀ option ∈ options, ∀ c, option.type.cell = some c →
      ((process (init cb options) argv).run s).2.outputs.value c ≠ s.outputs.value c →
        ∃ arg ∈ argv, ∃ name value, Spells arg name value ∧ option.name = some name) ∧
    (∀ t arg, argAt argv t.optind = some arg →
      ∃ calls, ((processArg (init cb options) argv).run t).2.calls = t.calls ++ calls ∧
        ∀ call ∈ calls, call = .unknown arg ∨
          ∃ name value p, Spells arg name value ∧ call = .option (some name) p) ∧
    process (init cb (options.filter (fun option => !option.type.isGroup))) argv =
      process (init cb options) argv := by
  refine ⟨?_, ?_, process_groups cb options argv⟩
  · intro option hmem c hc hchanged
    by_contra hnone
    -- then no processed entry owns the output
    refine hchanged (frame_process (g := fun o => o.value c) ?_ s)
    intro arg harg o ho hmatch
    obtain ⟨o, ho', rfl⟩ := List.mem_map.mp ho
    obtain ⟨hvalid, hname⟩ := matchesArg_measure hmatch
    have hspells : Spells arg (nameOf arg) (valueOf arg) := spells_iff.mpr ⟨hvalid, rfl, rfl⟩
    have hne : option ≠ o := by
      rintro rfl
      exact hnone ⟨arg, harg, _, _, hspells, hname⟩
    apply spares_of_ne
    rw [measure_type]
    intro hc'
    exact hapart.forall hmem ho' hne c hc hc'
  · intro t arg harg
    refine round_calls (fun option ho hmatch => ?_) harg
    obtain ⟨option, -, rfl⟩ := List.mem_map.mp ho
    rw [measure_name]
    exact matchesArg_measure hmatch

/-- `--in` and `--int`, each with an `int`. -/
def ranges : List (OptOption Unit Unit) :=
  [⟨some (ascii "in"), 0, .int none (some 0), .required, none⟩,
    ⟨some (ascii "int"), 0, .int none (some 1), .required, none⟩]

/-- `--int=5` does not touch the output of `--in`. -/
theorem acts_on_named_int :
    ((process (init none ranges) [ascii "--int=5"]).run start).2.outputs.value (.int 0) =
      start.outputs.value (.int 0) := by
  have hapart : ranges.Pairwise Apart := by
    simp [ranges, Apart, OptType.cell]
  obtain ⟨houtputs, -, -⟩ := acts_on_named none hapart [ascii "--int=5"] start
  by_contra hne
  obtain ⟨arg, harg, name, value, hspells, hname⟩ :=
    houtputs ⟨some (ascii "in"), 0, .int none (some 0), .required, none⟩ List.mem_cons_self (.int 0)
      rfl hne
  obtain rfl := List.mem_singleton.mp harg
  obtain ⟨-, hspelled, -⟩ := hspells.split
  rw [← hspelled] at hname
  exact absurd hname (by decide)

/-- `--n`, with an `int` from 0 to 100 that defaults to 50. -/
def percent : OptOption Unit Unit :=
  ⟨some (ascii "n"), 1, .int (some ⟨50, 0, 100⟩) (some 0), .required, none⟩

end Opt
end Libae
