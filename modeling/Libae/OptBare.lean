import Libae.OptGrammar

/-! # Options that take no parameter

`AE_OPT_PARAM_NONE` says that an option had better not be given an argument (`opt.h`),
and the index does not move over the next element.  That element is fetched before the
entry is looked at, though, and the parser of the type and the callback are handed it
like a parameter.  So what follows a bare `--name` is ignored exactly if the type makes
the same of it, and no callback is told (`Ignores`).

What a callback is told is written down by the callbacks of the table themselves
(`recording`), which changes nothing else (`maps_processArg`).
-/
namespace Libae
open Fallible

namespace Opt
variable {D W : Type}

/-! ## Callbacks that write down what they are given -/

/-- The world of a callback, and the parameters the callbacks were given. -/
abbrev Told (W : Type) := W × List (Option Text)

/-- The callback writes down its parameter. -/
def recordCallback (cb : OptCallback W (Option Text)) : OptCallback (Told W) (Option Text) :=
  fun w param =>
    let r := cb w.1 param
    (r.1, r.2.1, (r.2.2, w.2 ++ [param]))

/-- The entry, with such a callback. -/
def record (option : OptOption D W) : OptOption D (Told W) where
  name := option.name
  nameLen := option.nameLen
  type := option.type
  isRequired := option.isRequired
  callback := option.callback.map recordCallback

/-- The parser, with such entries. -/
def recording (self : Opt D W) : Opt D (Told W) where
  callback := self.callback.map (fun cb w arg =>
    let r := cb w.1 arg
    (r.1, r.2.1, (r.2.2, w.2)))
  options := self.options.map record

/-- The state without what was written down. -/
def unrecorded (s : OptState D (Told W)) : OptState D W where
  optind := s.optind
  outputs := s.outputs
  e := s.e
  calls := s.calls
  world := s.world.1
  ended := s.ended

section Unrecorded

theorem passes_unrecorded : Passes (unrecorded : OptState D (Told W) → OptState D W) :=
  ⟨fun _ => rfl, fun _ _ => rfl, fun _ _ => rfl, fun _ _ => rfl⟩

/-- A callback that only acts on more of the world. -/
theorem maps_runCallback {α : Type} {cb : OptCallback W α} {cb' : OptCallback (Told W) α} {a : α}
    (h : ∀ w, cb w.1 a = ((cb' w a).1, (cb' w a).2.1, (cb' w a).2.2.1)) :
    Maps (unrecorded (D := D)) (runCallback cb' a) (runCallback cb a) := by
  intro s
  have hw : cb (unrecorded s).world a =
      ((cb' s.world a).1, (cb' s.world a).2.1, (cb' s.world a).2.2.1) := h s.world
  rw [runCallback_run, runCallback_run, hw]
  rfl

theorem maps_unknown (self : Opt D W) (arg : Text) :
    Maps unrecorded (unknown (recording self) arg) (unknown self arg) := by
  refine .bind (.modify fun _ => rfl) (fun _ => ?_)
  dsimp only [recording]
  cases self.callback with
  | none => exact maps_failed passes_unrecorded _
  | some cb => exact maps_runCallback (fun _ => rfl)

variable [CDouble D]

theorem maps_optionProcess (param : Option Text) (option : OptOption D W) :
    Maps unrecorded (optionProcess param (record option)) (optionProcess param option) := by
  have hrest : Maps unrecorded
      (do parseType option.name param option.type; callIfAny (record option).callback param)
      (do parseType option.name param option.type; callIfAny option.callback param) := by
    refine .bind (maps_parseType passes_unrecorded _ _ _) (fun _ => ?_)
    rw [record]
    cases option.callback with
    | none => exact .pure _
    | some cb => exact maps_runCallback (fun _ => rfl)
  refine .bind (.modify fun _ => rfl) (fun _ => ?_)
  show Maps unrecorded (do
    if option.argOk ∧ param.isSome then modify _
    parseType option.name param option.type
    callIfAny (record option).callback param) _
  split
  · exact .bind (.modify fun _ => rfl) (fun _ => hrest)
  · exact hrest

theorem maps_scanOptions (argv : List Text) (arg : Text) (options : List (OptOption D W))
    (processed : Bool) :
    Maps unrecorded (scanOptions argv arg (options.map record) processed)
      (scanOptions argv arg options processed) := by
  induction options generalizing processed with
  | nil => exact .pure _
  | cons option options ih =>
    refine .ite (ih processed) (.ite (.bind (.modify fun _ => rfl) (fun _ => .pure _)) ?_)
    refine .ite (ih processed) ?_
    rw [show (record option).name = option.name from rfl]
    cases option.name with
    | none => exact .bind (maps_stop passes_unrecorded _) (fun _ => .pure _)
    | some name =>
      exact .ite (ih processed)
        (.get_bind fun s => .bind (maps_optionProcess _ option) (fun _ => ih true))

/-- **Writing down changes nothing else.** -/
theorem maps_processArg (self : Opt D W) (argv : List Text) :
    Maps unrecorded (processArg (recording self) argv) (processArg self argv) := by
  refine .get_bind (fun s => ?_)
  simp only [show (unrecorded s).optind = s.optind from rfl]
  cases argAt argv s.optind with
  | none => exact .bind (maps_stop passes_unrecorded _) (fun _ => .pure _)
  | some arg =>
    refine .bind (.modify fun _ => rfl) (fun _ => .ite (.pure _) ?_)
    refine .bind (maps_scanOptions argv arg self.options false) (fun scan => ?_)
    cases scan with
    | stopped => exact .pure _
    | done processed =>
      cases processed with
      | false => exact .bind (maps_unknown self arg) (fun _ => .pure _)
      | true => exact .pure _

end Unrecorded

/-! ## What follows a bare option -/

/-- Two runs leave the same outputs, the same index and the same messages, and callbacks were
given the same. -/
structure SameEffect (t t' : OptState D (Told W)) : Prop where
  outputs : t.outputs = t'.outputs
  optind : t.optind = t'.optind
  e : t.e = t'.e
  given : t.world.2 = t'.world.2

variable [CDouble D]

/-- No callback is told the parameter: there is none, or the type refuses it first. -/
def Untold (option : OptOption D W) (p : Option Text) : Prop :=
  option.callback = none ∨ Refuses p option.type

/-- The option does not tell two parameters apart: the type makes the same of them, and no
callback is told either. -/
def Ignores (option : OptOption D W) (p p' : Option Text) : Prop :=
  p = p' ∨ Alike p p' option.type ∧ Untold option p ∧ Untold option p'

section Option
variable {option : OptOption D W} {p p' : Option Text} {s : OptState D (Told W)}

/-- The call is written to the log. -/
def logged (name p : Option Text) (t : OptState D (Told W)) : OptState D (Told W) :=
  { t with calls := t.calls ++ [.option name p] }

/-- The type and the callback see the parameter; the index stays. -/
theorem record_run (hnone : option.isRequired = .none) :
    (optionProcess p (record option)).run s =
      match (parseType option.name p option.type).run s with
      | (some _, t) => (callIfAny (record option).callback p).run (logged option.name p t)
      | (none, t) => (none, logged option.name p t) := by
  have hlog : Passes (logged (D := D) (W := W) option.name p) :=
    ⟨fun _ => rfl, fun _ _ => rfl, fun _ _ => rfl, fun _ _ => rfl⟩
  have hok : ¬ ((record option).argOk ∧ p.isSome) := by
    simp [OptOption.argOk, record, hnone]
  rw [optionProcess, bind_run, modify_run]
  simp only [hok, if_false]
  show (parseType option.name p option.type >>= fun _ =>
    callIfAny (record option).callback p).run (logged option.name p s) = _
  rw [bind_run, maps_parseType hlog option.name p option.type s]
  rcases (parseType option.name p option.type).run s with ⟨_ | u, t⟩ <;> rfl

theorem record_optind (hnone : option.isRequired = .none) :
    ((optionProcess p (record option)).run s).2.optind = s.optind := by
  have htakes : takes (record option) p = false := by
    simp [takes, OptOption.argOk, record, hnone]
  have htrace := congrArg Prod.fst (optionProcess_trace p (record option) s)
  simpa [trace, htakes] using htrace

/-- A run that tells no callback is the run of the type. -/
theorem record_untold (hnone : option.isRequired = .none) (h : Untold option p) :
    ((optionProcess p (record option)).run s).2.outputs =
        ((parseType option.name p option.type).run s).2.outputs ∧
      ((optionProcess p (record option)).run s).2.e =
        ((parseType option.name p option.type).run s).2.e ∧
      ((optionProcess p (record option)).run s).2.world.2 = s.world.2 := by
  have hworld := frame_world option.name p option.type s
  rw [record_run hnone]
  rcases hr : (parseType option.name p option.type).run s with ⟨_ | u, t⟩
  · rw [hr] at hworld
    exact ⟨rfl, rfl, congrArg Prod.snd hworld⟩
  · rw [hr] at hworld
    have hcb : option.callback = none := h.resolve_right fun href => by
      have hrun : ((parseType option.name p option.type).run s).1 = none :=
        (parseType_refuses _ _ _ _).mpr href
      simp [hr] at hrun
    rw [record, hcb]
    exact ⟨rfl, rfl, congrArg Prod.snd hworld⟩

/-- Otherwise the callback is told the parameter. -/
theorem record_told (hnone : option.isRequired = .none) (h : ¬ Untold option p) :
    ((optionProcess p (record option)).run s).2.world.2 = s.world.2 ++ [p] := by
  obtain ⟨hcb, hok⟩ := not_or.mp h
  obtain ⟨cb, hcb⟩ := Option.ne_none_iff_exists'.mp hcb
  have hworld := frame_world option.name p option.type s
  rw [record_run hnone]
  rcases hr : (parseType option.name p option.type).run s with ⟨_ | u, t⟩
  · exact absurd ((parseType_refuses _ _ _ _).mp (congrArg Prod.fst hr)) hok
  · rw [hr] at hworld
    dsimp only at hworld ⊢
    rw [record, hcb, ← hworld]
    show ((runCallback (recordCallback cb) p).run _).2.world.2 = _
    rw [runCallback_run]
    rfl

/-- **An option is blind** to the two parameters exactly if it ignores them. -/
theorem sameEffect_iff (hnone : option.isRequired = .none) :
    SameEffect ((optionProcess p (record option)).run s).2
        ((optionProcess p' (record option)).run s).2 ↔ Ignores option p p' := by
  by_cases hne : p = p'
  · subst hne
    exact iff_of_true ⟨rfl, rfl, rfl, rfl⟩ (.inl rfl)
  have halike := parseType_alike option.name option.type s hne
  constructor
  · intro h
    -- a callback that is told one parameter would have to be told the other
    have hgiven := h.given
    by_cases hp : Untold option p
    · by_cases hp' : Untold option p'
      · obtain ⟨hout, he, -⟩ := record_untold (s := s) hnone hp
        obtain ⟨hout', he', -⟩ := record_untold (s := s) hnone hp'
        refine .inr ⟨halike.mp ⟨?_, ?_⟩, hp, hp'⟩
        · rw [← hout, ← hout', h.outputs]
        · rw [← he, ← he', h.e]
      · rw [(record_untold hnone hp).2.2, record_told hnone hp'] at hgiven
        simp at hgiven
    · by_cases hp' : Untold option p'
      · rw [(record_untold hnone hp').2.2, record_told hnone hp] at hgiven
        simp at hgiven
      · rw [record_told hnone hp, record_told hnone hp'] at hgiven
        exact absurd (by simpa using hgiven) hne
  · rintro (heq | ⟨hsame, hp, hp'⟩)
    · exact absurd heq hne
    · obtain ⟨hout, he, hw⟩ := record_untold (s := s) hnone hp
      obtain ⟨hout', he', hw'⟩ := record_untold (s := s) hnone hp'
      obtain ⟨hsout, hse⟩ := halike.mpr hsame
      exact ⟨by rw [hout, hout', hsout], by rw [record_optind hnone, record_optind hnone],
        by rw [he, he', hse], by rw [hw, hw']⟩

end Option

/-! ## The round -/

section Round
variable {self : Opt D W} {argv rest : List Text} {arg name : Text} {s : OptState D (Told W)}

omit [CDouble D] in
/-- The entries that write down keep their names. -/
theorem table_recording (h : Table self.options) : Table (recording self).options := by
  obtain ⟨⟨option, hmem, hg⟩, hmeasured, hdistinct⟩ := h
  refine ⟨⟨record option, List.mem_map_of_mem hmem, hg⟩, ?_, ?_⟩
  · intro option hmem hg
    obtain ⟨option, hmem', rfl⟩ := List.mem_map.mp hmem
    exact hmeasured option hmem' hg
  · rw [recording, List.filter_map, List.map_map]
    exact hdistinct

/-- A round at a bare option is the processing of its entry. -/
theorem round_bare (htable : Table self.options) {option : OptOption D W}
    (hnames : Names self.options name option) (hbare : Spells arg name none) (hne : name ≠ [])
    (h : At argv (arg :: rest) s) :
    ((processArg (recording self) argv).run s).2 =
      ((optionProcess (paramFrom arg rest) (record option)).run
        { s with optind := s.optind + 1 }).2 := by
  obtain ⟨hvalid, hname, -⟩ := hbare.split
  have hdash : arg ≠ dashes := by
    rintro rfl
    exact hne hname.symm
  have hfound : lookup (recording self).options (nameOf arg) = some (record option) := by
    obtain ⟨hmem, hg, hn⟩ := hnames
    apply lookup_of_mem (table_recording htable).distinct (List.mem_map_of_mem hmem) hg
    rw [hname]
    exact hn
  rw [processArg_known (table_recording htable) h hvalid hdash hfound, bind_run]
  rcases (optionProcess (paramFrom arg rest) (record option)).run
    { s with optind := s.optind + 1 } with ⟨_ | u, t⟩ <;> rfl

end Round

/-- **When an option that takes no parameter ignores what follows it.**  For a table of entries
with different names, after `ae_opt_init`, and two command lines that agree up to a bare
`--name`: the round at that element has the same effect on both exactly if the entry does
not tell apart the parameters that it would find behind the element (or has no name, and
`--` ends the options). -/
theorem bare_ignored_iff (cb : Option (OptCallback W Text)) {options : List (OptOption D W)}
    (hnamed : ∀ option ∈ options, option.type.isGroup = false → option.name ≠ none)
    (hdistinct :
      ((options.filter (fun option => !option.type.isGroup)).map OptOption.name).Nodup)
    {option : OptOption D W} {name arg : Text}
    (hnames : Names (init cb options).options name option) (hnone : option.isRequired = .none)
    (hbare : Spells arg name none) {pre rest rest' : List Text} {s : OptState D (Told W)}
    (hat : s.optind = pre.length) :
    SameEffect ((processArg (recording (init cb options)) (pre ++ arg :: rest)).run s).2
        ((processArg (recording (init cb options)) (pre ++ arg :: rest')).run s).2 ↔
      name = [] ∨ Ignores option (paramFrom arg rest) (paramFrom arg rest') := by
  have htable := hnames.table hnamed hdistinct
  by_cases hne : name = []
  · obtain rfl : arg = dashes := by simpa [hne] using hbare.1
    rw [round_terminator (At.of_append hat), round_terminator (At.of_append hat)]
    exact iff_of_true ⟨rfl, rfl, rfl, rfl⟩ (.inl hne)
  · rw [round_bare htable hnames hbare hne (At.of_append hat),
      round_bare htable hnames hbare hne (At.of_append hat), sameEffect_iff hnone,
      or_iff_right hne]

/-! ### A flag, and a string without a parameter -/

/-- The index is behind the name of the program. -/
def called : OptState Unit (Told Unit) where
  optind := 1
  outputs := ⟨fun _ => false, fun _ => 0, fun _ => (), fun _ => none, fun _ => 0⟩
  e := []
  calls := []
  world := ((), [])
  ended := none

/-- `--quiet`, a flag. -/
def quiet : OptOption Unit Unit where
  name := some (ascii "quiet")
  nameLen := 0
  type := .flag (some 0)
  isRequired := .none
  callback := none

/-- `--file` with a string, declared to take no parameter. -/
def bareFile : OptOption Unit Unit := { file with isRequired := .none }

/-- What follows a flag is ignored. -/
theorem bare_ignored_iff_flag :
    SameEffect
      ((processArg (recording (init none [quiet]))
        ([ascii "prog"] ++ ascii "--quiet" :: [ascii "a"])).run called).2
      ((processArg (recording (init none [quiet]))
        ([ascii "prog"] ++ ascii "--quiet" :: [])).run called).2 := by
  have hnames : Names (init none [quiet]).options (ascii "quiet") (measure quiet) :=
    ⟨by simp [init], rfl, rfl⟩
  refine (bare_ignored_iff none ?_ (by decide) hnames rfl ⟨rfl, by decide⟩ rfl).mpr
    (.inr (.inr ⟨trivial, .inl rfl, .inl rfl⟩))
  simp [quiet]

/-- In `prog --file a` the `a` becomes the string. -/
theorem bare_string_reads :
    Names (init none [bareFile]).options (ascii "file") (measure bareFile) ∧
      (measure bareFile).isRequired = .none ∧ Spells (ascii "--file") (ascii "file") none ∧
      ¬ SameEffect
        ((processArg (recording (init none [bareFile]))
          ([ascii "prog"] ++ ascii "--file" :: [ascii "a"])).run called).2
        ((processArg (recording (init none [bareFile]))
          ([ascii "prog"] ++ ascii "--file" :: [])).run called).2 := by
  refine ⟨⟨by simp [init], rfl, rfl⟩, rfl, ⟨rfl, by decide⟩, fun h => ?_⟩
  have hstring := congrFun (congrArg Outputs.strings h.outputs) 0
  change some (ascii "a") = none at hstring
  cases hstring

end Opt
end Libae
