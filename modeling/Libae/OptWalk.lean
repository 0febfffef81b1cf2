import Libae.OptTypes
import Libae.Runs
import Mathlib.Data.List.Nodup

/-! # How the parser walks over the command line

`ae_opt_process` moves an index over `argv`, from the loop, from `ae_opt_option_process`
and from the stop at an element that is no option.  `Walks` says what becomes of that
in terms of the elements not yet read: which calls are made, and how many elements are
left.  An option that takes a parameter and has one moves over the next element,
wherever the parameter came from; at the end of `argv` the index so gets past `argc`.

Every run that returns `true` is such a walk (`process_walks`), for a table whose names
are different (`Table`).
-/
namespace Libae
open Fallible Runs

namespace Opt
variable {D W : Type}

/-! ## The table -/

/-- A table after `ae_opt_init`: it has an entry that is no group, and such entries have
different names, measured. -/
structure Table (options : List (OptOption D W)) : Prop where
  entry : ∃ option ∈ options, option.type.isGroup = false
  measured : ∀ option ∈ options, option.type.isGroup = false →
    ∃ name, option.name = some name ∧ option.nameLen = name.length
  distinct : ((options.filter (fun option => !option.type.isGroup)).map OptOption.name).Nodup

/-- The option of a name. -/
def lookup (options : List (OptOption D W)) (name : Text) : Option (OptOption D W) :=
  options.find? (fun option => !option.type.isGroup && option.name == some name)

section Lookup
variable {options : List (OptOption D W)} {option : OptOption D W} {name : Text}

theorem lookup_cons_hit (hg : option.type.isGroup = false) (hn : option.name = some name) :
    lookup (option :: options) name = some option := by
  simp [lookup, hg, hn]

theorem lookup_cons_skip (h : option.type.isGroup = true ∨ option.name ≠ some name) :
    lookup (option :: options) name = lookup options name := by
  rcases h with h | h <;> simp [lookup, h]

theorem lookup_some (h : lookup options name = some option) :
    option ∈ options ∧ option.type.isGroup = false ∧ option.name = some name := by
  have hp := List.find?_some h
  simp only [Bool.and_eq_true, Bool.not_eq_true', beq_iff_eq] at hp
  exact ⟨List.mem_of_find?_eq_some h, hp.1, hp.2⟩

/-- Names are different, so an entry is the one that is found. -/
theorem lookup_of_mem
    (hd : ((options.filter (fun option => !option.type.isGroup)).map OptOption.name).Nodup)
    (hmem : option ∈ options) (hg : option.type.isGroup = false) (hn : option.name = some name) :
    lookup options name = some option := by
  have hfound : (lookup options name).isSome := by
    rw [lookup, List.find?_isSome]
    exact ⟨option, hmem, by simp [hg, hn]⟩
  obtain ⟨found, hf⟩ := Option.isSome_iff_exists.mp hfound
  obtain ⟨hmem', hg', hn'⟩ := lookup_some hf
  rw [hf]
  refine congrArg some (List.inj_on_of_nodup_map hd ?_ ?_ (hn'.trans hn.symm))
  · exact List.mem_filter.mpr ⟨hmem', by simp [hg']⟩
  · exact List.mem_filter.mpr ⟨hmem, by simp [hg]⟩

end Lookup

/-- `ae_opt_init` changes the length of a name only. -/
@[simp] theorem measure_type (option : OptOption D W) : (measure option).type = option.type := by
  unfold measure
  split <;> rfl

@[simp] theorem measure_name (option : OptOption D W) : (measure option).name = option.name := by
  unfold measure
  split <;> rfl

/-- `ae_opt_init` makes a table of entries with different names. -/
theorem init_table {options : List (OptOption D W)} (cb : Option (OptCallback W Text))
    (hentry : ∃ option ∈ options, option.type.isGroup = false)
    (hnamed : ∀ option ∈ options, option.type.isGroup = false → option.name ≠ none)
    (hdistinct :
      ((options.filter (fun option => !option.type.isGroup)).map OptOption.name).Nodup) :
    Table (init cb options).options := by
  show Table (options.map measure)
  refine ⟨?_, ?_, ?_⟩
  · obtain ⟨option, hmem, hg⟩ := hentry
    exact ⟨measure option, List.mem_map_of_mem hmem, by rw [measure_type, hg]⟩
  · intro option hmem hg
    obtain ⟨option, hmem', rfl⟩ := List.mem_map.mp hmem
    rw [measure_type] at hg
    cases hn : option.name with
    | none => exact absurd hn (hnamed option hmem' hg)
    | some name => exact ⟨name, by rw [measure_name, hn], by simp [measure, hn]⟩
  · rw [List.filter_map, List.map_map]
    have hfilter : (fun option : OptOption D W => !option.type.isGroup) ∘ measure =
        fun option => !option.type.isGroup := by
      funext option
      simp
    have hcomp : OptOption.name ∘ measure = (OptOption.name : OptOption D W → Option Text) :=
      funext measure_name
    rw [hfilter, hcomp]
    exact hdistinct

/-! ## The loop over the table -/

/-- The loop over the table processes the entry for the element. -/
def matchesArg (arg : Text) (option : OptOption D W) : Bool :=
  !option.type.isGroup && argumentIsValid arg && (nameOf arg).length == option.nameLen &&
    option.name.any (fun name =>
      name.take (nameOf arg).length == (arg.drop 2).take (nameOf arg).length)

section Scan
variable {argv : List Text} {arg : Text} {s : OptState D W}

/-- `limit` characters, of a name of that length, are the whole name. -/
theorem name_eq_iff {name : Text} (hlen : (nameOf arg).length = name.length) :
    name.take (nameOf arg).length = (arg.drop 2).take (nameOf arg).length ↔
      name = nameOf arg := by
  have hhead : (arg.drop 2).take (nameOf arg).length = nameOf arg :=
    List.prefix_iff_eq_take.mp (List.takeWhile_prefix _) ▸ rfl
  rw [hhead, hlen, List.take_length]

/-- A measured entry is processed for the elements of its name. -/
theorem matchesArg_iff {option : OptOption D W}
    (hmeasured : option.type.isGroup = false →
      ∃ name, option.name = some name ∧ option.nameLen = name.length) :
    matchesArg arg option = true ↔ option.type.isGroup = false ∧ argumentIsValid arg = true ∧
      option.name = some (nameOf arg) := by
  cases hg : option.type.isGroup with
  | true => simp [matchesArg, hg]
  | false =>
    obtain ⟨name, hn, hl⟩ := hmeasured hg
    -- of the same length the names have to agree, otherwise `limit` differs
    by_cases hlen : (nameOf arg).length = name.length
    · simp only [matchesArg, hg, hn, hl, Option.any_some, Bool.and_eq_true, beq_iff_eq,
        name_eq_iff hlen, Option.some.injEq]
      simp [hlen]
    · apply iff_of_false (by simp [matchesArg, hl, hlen])
      rintro ⟨-, -, h⟩
      rw [hn] at h
      exact hlen (congrArg List.length (Option.some.inj h)).symm

variable [CDouble D]

/-- **What the loop does at an entry**: it processes the entry, passes over it, stops in
front of an element that is no option, or crashes at an entry without a name. -/
theorem scan_cases (argv : List Text) (arg : Text) (option : OptOption D W)
    (options : List (OptOption D W)) (processed : Bool) :
    (matchesArg arg option = true ∧ scanOptions argv arg (option :: options) processed = (do
      let s ← get
      optionProcess (paramOf argv arg s.optind) option
      scanOptions argv arg options true)) ∨
    matchesArg arg option = false ∧
      (scanOptions argv arg (option :: options) processed =
          scanOptions argv arg options processed ∨
        (option.type.isGroup = false ∧ argumentIsValid arg = false ∧
          scanOptions argv arg (option :: options) processed = (do
            modify (fun s => { s with optind := s.optind - 1 })
            pure .stopped)) ∨
        (option.type.isGroup = false ∧ option.name = none ∧
          scanOptions argv arg (option :: options) processed = (do
            stop .crashed
            pure .stopped))) := by
  cases hg : option.type.isGroup with
  | true => exact .inr ⟨by simp [matchesArg, hg], .inl (by simp [scanOptions, hg])⟩
  | false =>
    cases hvalid : argumentIsValid arg with
    | false =>
      exact .inr ⟨by simp [matchesArg, hvalid],
        .inr (.inl ⟨rfl, rfl, by simp [scanOptions, hg, hvalid]⟩)⟩
    | true =>
      by_cases hlen : (nameOf arg).length = option.nameLen
      · cases hname : option.name with
        | none =>
          exact .inr ⟨by simp [matchesArg, hname],
            .inr (.inr ⟨rfl, rfl, by simp [scanOptions, hg, hvalid, hlen, hname]⟩)⟩
        | some name =>
          by_cases htake : name.take option.nameLen = (arg.drop 2).take option.nameLen
          · exact .inl ⟨by simp [matchesArg, hg, hvalid, hname, hlen, htake],
              by simp [scanOptions, hg, hvalid, hname, hlen, htake]⟩
          · exact .inr ⟨by simp [matchesArg, hname, hlen, htake],
              .inl (by simp [scanOptions, hg, hvalid, hname, hlen, htake])⟩
      · exact .inr ⟨by simp [matchesArg, hlen], .inl (by simp [scanOptions, hg, hvalid, hlen])⟩

/-- An entry of another name, or a group, is passed over. -/
theorem scan_skip {option : OptOption D W} {options : List (OptOption D W)} (processed : Bool)
    (hvalid : argumentIsValid arg = true)
    (hmeasured : option.type.isGroup = false →
      ∃ name, option.name = some name ∧ option.nameLen = name.length)
    (h : option.type.isGroup = true ∨ option.name ≠ some (nameOf arg)) :
    scanOptions argv arg (option :: options) processed =
      scanOptions argv arg options processed := by
  rcases scan_cases argv arg option options processed with
    ⟨hmatch, -⟩ | ⟨-, heq | ⟨-, hinvalid, -⟩ | ⟨hg, hname, -⟩⟩
  · obtain ⟨hg, -, hn⟩ := (matchesArg_iff hmeasured).mp hmatch
    rcases h with h | h
    · simp [hg] at h
    · exact absurd hn h
  · exact heq
  · simp [hvalid] at hinvalid
  · obtain ⟨name, hn, -⟩ := hmeasured hg
    simp [hname] at hn

/-- No entry has the name. -/
theorem scan_none {options : List (OptOption D W)} (processed : Bool)
    (hvalid : argumentIsValid arg = true)
    (hmeasured : ∀ option ∈ options, option.type.isGroup = false →
      ∃ name, option.name = some name ∧ option.nameLen = name.length)
    (hnone : ∀ option ∈ options, option.type.isGroup = true ∨ option.name ≠ some (nameOf arg)) :
    (scanOptions argv arg options processed).run s = (some (.done processed), s) := by
  induction options with
  | nil => rfl
  | cons option options ih =>
    rw [scan_skip processed hvalid (hmeasured option List.mem_cons_self)
      (hnone option List.mem_cons_self)]
    exact ih (fun o h => hmeasured o (List.mem_cons_of_mem _ h))
      (fun o h => hnone o (List.mem_cons_of_mem _ h))

/-- An element that is no option stops the loop at the first entry that is no group. -/
theorem scan_stopped {options : List (OptOption D W)} (processed : Bool)
    (hvalid : argumentIsValid arg = false)
    (hentry : ∃ option ∈ options, option.type.isGroup = false) :
    (scanOptions argv arg options processed).run s =
      (some .stopped, { s with optind := s.optind - 1 }) := by
  induction options with
  | nil => simp at hentry
  | cons option options ih =>
    cases hg : option.type.isGroup with
    | true =>
      simp only [scanOptions, hg, if_true]
      obtain ⟨o, hmem, ho⟩ := hentry
      rcases List.mem_cons.mp hmem with rfl | hmem
      · simp [hg] at ho
      · exact ih ⟨o, hmem, ho⟩
    | false => simp [scanOptions, hg, hvalid, bind_run]

/-- **The entry of the name** is processed, once. -/
theorem scan_some {options : List (OptOption D W)} {option : OptOption D W} (processed : Bool)
    (hvalid : argumentIsValid arg = true)
    (hmeasured : ∀ option ∈ options, option.type.isGroup = false →
      ∃ name, option.name = some name ∧ option.nameLen = name.length)
    (hd : ((options.filter (fun option => !option.type.isGroup)).map OptOption.name).Nodup)
    (hfound : lookup options (nameOf arg) = some option) :
    (scanOptions argv arg options processed).run s =
      (optionProcess (paramOf argv arg s.optind) option >>= fun _ =>
        (pure (.done true) : Fallible (OptState D W) Scan)).run s := by
  induction options with
  | nil => simp [lookup] at hfound
  | cons o options ih =>
    have hmeasured' : ∀ option ∈ options, option.type.isGroup = false →
        ∃ name, option.name = some name ∧ option.nameLen = name.length :=
      fun o' h => hmeasured o' (List.mem_cons_of_mem _ h)
    by_cases hit : o.type.isGroup = false ∧ o.name = some (nameOf arg)
    · obtain ⟨hg, hn⟩ := hit
      rw [lookup_cons_hit hg hn] at hfound
      cases hfound
      -- the names behind it are others, so nothing more is processed
      have hnone : ∀ o' ∈ options, o'.type.isGroup = true ∨ o'.name ≠ some (nameOf arg) := by
        intro o' hmem
        cases hg' : o'.type.isGroup with
        | true => exact .inl rfl
        | false =>
          refine .inr (fun hn' => ?_)
          simp only [List.filter_cons, hg, Bool.not_false, if_true, List.map_cons,
            List.nodup_cons] at hd
          apply hd.1
          rw [hn, ← hn']
          exact List.mem_map_of_mem (List.mem_filter.mpr ⟨hmem, by simp [hg']⟩)
      have hmatch := (matchesArg_iff (hmeasured option List.mem_cons_self)).mpr ⟨hg, hvalid, hn⟩
      rcases scan_cases argv arg option options processed with ⟨-, heq⟩ | ⟨hno, -⟩
      swap
      · rw [hmatch] at hno
        cases hno
      simp only [heq, bind_run, get_run]
      rcases (optionProcess (paramOf argv arg s.optind) option).run s with ⟨_ | u, t⟩
      · rfl
      · exact scan_none true hvalid hmeasured' hnone
    · have hskip : o.type.isGroup = true ∨ o.name ≠ some (nameOf arg) := by
        cases hg : o.type.isGroup with
        | true => exact .inl rfl
        | false => exact .inr (fun hn => hit ⟨hg, hn⟩)
      rw [lookup_cons_skip hskip] at hfound
      rw [scan_skip processed hvalid (hmeasured o List.mem_cons_self) hskip]
      refine ih hmeasured' ?_ hfound
      refine hd.sublist ?_
      exact ((List.sublist_cons_self o options).filter _).map _

end Scan

/-! ## What the types leave alone -/

/-- A view of the state that shows the outputs, and through which outputs are written,
messages are added and runs end. -/
structure Passes {W' : Type} (f : OptState D W → OptState D W') : Prop where
  outputs : ∀ s, (f s).outputs = s.outputs
  write : ∀ s o, { f s with outputs := o } = f { s with outputs := o }
  report : ∀ s m, { f s with e := (f s).e ++ m } = f { s with e := s.e ++ m }
  stop : ∀ s r, { f s with ended := r } = f { s with ended := r }

section Maps
variable {W' : Type} {f : OptState D W → OptState D W'} (hf : Passes f) (name arg : Option Text)
include hf

theorem maps_stop (ended : OptEnded) : Maps f (stop ended) (stop ended) :=
  .bind (.modify fun s => hf.stop s _) (fun _ => .fail)

theorem maps_resErr (text : Text) : Maps f (resErr text) (resErr text) :=
  .modify fun s => hf.report s _

theorem maps_failed (text : Text) :
    Maps f (do resErr text; fail : Fallible (OptState D W) Unit) (do resErr text; fail) :=
  .bind (maps_resErr hf text) (fun _ => .fail)

omit hf in
/-- An output is written. -/
theorem Passes.written (hf : Passes f) (g : Outputs D → Outputs D) (s : OptState D W) :
    { f s with outputs := g (f s).outputs } = f { s with outputs := g s.outputs } := by
  rw [hf.outputs, hf.write]

theorem maps_write (g : Outputs D → Outputs D) :
    Maps f (modify fun s => { s with outputs := g s.outputs })
      (modify fun s => { s with outputs := g s.outputs }) :=
  .modify (hf.written g)

/-- Two parsers of numbers that only differ in what they do not see. -/
theorem parse_maps {α : Type} {n : Numbers α D W} {n' : Numbers α D W'}
    (hread : n'.read arg = n.read arg) (hout : n'.outside = n.outside)
    (hunread : n'.unread = n.unread) (hunfit : n'.unfit = n.unfit)
    (hset : ∀ v s, n'.set v (f s) = f (n.set v s)) (s : OptState D W) :
    n'.parse arg (f s) = ((n.parse arg s).1, f (n.parse arg s).2) := by
  have herr : ∀ text s, withErr text (f s) = f (withErr text s) := fun text s => hf.report s _
  cases hr : n.read arg with
  | none => rw [n.parse_none hr, n'.parse_none (hread.trans hr), herr, hunread]
  | some v =>
    rw [n.parse_some hr, n'.parse_some (hread.trans hr)]
    cases hv : n.outside v with
    | true => rw [n.fit_outside hv, n'.fit_outside (hout ▸ hv), hset, herr, hunfit]
    | false => rw [n.fit_inside hv, n'.fit_inside (hout ▸ hv), hset]

/-- **The types** see and change no more than such a view shows. -/
theorem maps_parseType [CDouble D] (type : OptType D) :
    Maps f (parseType name arg type) (parseType name arg type) := by
  cases type with
  | help | version => exact maps_stop hf _
  | group | callbackOnly => exact .pure _
  | int params out =>
    cases out with
    | none => exact maps_failed hf _
    | some out =>
      intro s
      rw [parseType, parseType, parseInt_run, parseInt_run]
      exact parse_maps hf arg rfl rfl rfl rfl (fun v => hf.written fun o =>
        { o with ints := Function.update o.ints out v }) s
  | double params out =>
    cases out with
    | none => exact maps_failed hf _
    | some out =>
      intro s
      rw [parseType, parseType, parseDouble_run, parseDouble_run]
      exact parse_maps hf arg rfl rfl rfl rfl (fun v => hf.written fun o =>
        { o with doubles := Function.update o.doubles out v }) s
  | counter out =>
    cases out with
    | none => exact maps_failed hf _
    | some out =>
      intro s
      rw [parseType, parseType, parseCounter_run, parseCounter_run,
        parse_maps hf arg (n := counterNumbers name out) rfl rfl rfl rfl
          (fun v => hf.written fun o =>
          { o with ints := Function.update o.ints out (toInt (o.ints out + v)) }) s]
  | flag out =>
    cases out with
    | none => exact maps_failed hf _
    | some out => exact maps_write hf fun o => { o with bools := Function.update o.bools out true }
  | bit whichBits out =>
    cases out with
    | none => exact maps_failed hf _
    | some out =>
      exact maps_write hf fun o =>
        { o with bits := Function.update o.bits out (o.bits out ||| whichBits.toUInt32) }
  | string out =>
    cases out with
    | none => exact maps_stop hf _
    | some out =>
      exact maps_write hf fun o => { o with strings := Function.update o.strings out arg }

end Maps

/-! ## The index and the log -/

/-- The part of the state that says what was read. -/
def trace (s : OptState D W) : Int × List OptCall := (s.optind, s.calls)

section Frames
variable {α : Type}

theorem runCallback_run (cb : OptCallback W α) (a : α) (s : OptState D W) :
    (runCallback cb a).run s = (if (cb s.world a).1 then some () else none,
      { s with e := s.e ++ (cb s.world a).2.1, world := (cb s.world a).2.2 }) := by
  simp only [runCallback, bind_run, get_run, modify_run]
  split <;> rfl

theorem frame_runCallback (cb : OptCallback W α) (a : α) :
    Frame trace (runCallback cb a : Fallible (OptState D W) Unit) :=
  fun s => by rw [runCallback_run]; rfl

theorem frame_callIfAny (cb : Option (OptCallback W α)) (a : α) :
    Frame trace (callIfAny cb a : Fallible (OptState D W) Unit) := by
  cases cb with
  | none => exact .pure _
  | some cb => exact frame_runCallback cb a

section Types
variable [CDouble D] (name arg : Option Text) (type : OptType D)

/-- The types leave the index and the log alone. -/
theorem frame_parseType :
    Frame trace (parseType name arg type : Fallible (OptState D W) Unit) := by
  intro s
  -- seen with its own index and log, the state is itself
  have hf : Passes (fun t : OptState D W => { t with optind := s.optind, calls := s.calls }) :=
    ⟨fun _ => rfl, fun _ _ => rfl, fun _ _ => rfl, fun _ _ => rfl⟩
  exact congrArg (fun r => trace r.2) (maps_parseType hf name arg type s)

/-- The types leave the world of the callbacks alone. -/
theorem frame_world :
    Frame OptState.world (parseType name arg type : Fallible (OptState D W) Unit) := by
  intro s
  have hf : Passes (fun t : OptState D W => { t with world := s.world }) :=
    ⟨fun _ => rfl, fun _ _ => rfl, fun _ _ => rfl, fun _ _ => rfl⟩
  exact congrArg (fun r => r.2.world) (maps_parseType hf name arg type s)

end Types

/-! ### From the parts to the whole -/

variable [CDouble D] {γ : Type} {f : OptState D W → γ}
  (hoptind : ∀ s i, f { s with optind := i } = f s)
include hoptind

theorem frame_optionProcess {p : Option Text} {option : OptOption D W}
    (hcalls : ∀ s calls, f { s with calls := calls } = f s)
    (htype : Frame f (parseType option.name p option.type))
    (hcb : Frame f (callIfAny option.callback p)) : Frame f (optionProcess p option) := by
  have hrest : Frame f (do parseType option.name p option.type; callIfAny option.callback p) :=
    .bind htype (fun _ => hcb)
  refine .bind (.modify fun s => hcalls s _) (fun _ => ?_)
  dsimp only
  split
  · exact .bind (.modify fun s => hoptind s _) (fun _ => hrest)
  · exact hrest

/-- **The loop over the table** leaves alone what the entries leave alone that are processed
for the element. -/
theorem frame_scan {argv : List Text} {arg : Text} {options : List (OptOption D W)}
    {processed : Bool}
    (hhit : ∀ option ∈ options, matchesArg arg option = true →
      ∀ p, Frame f (optionProcess p option))
    (hcrash : ∀ option ∈ options, option.type.isGroup = false → option.name = none →
      Frame f (stop .crashed)) :
    Frame f (scanOptions argv arg options processed) := by
  induction options generalizing processed with
  | nil => exact .pure _
  | cons option options ih =>
    have hrest : ∀ {processed}, Frame f (scanOptions argv arg options processed) :=
      ih (fun o h => hhit o (List.mem_cons_of_mem _ h))
        (fun o h => hcrash o (List.mem_cons_of_mem _ h))
    rcases scan_cases argv arg option options processed with
      ⟨hmatch, heq⟩ | ⟨-, heq | ⟨-, -, heq⟩ | ⟨hg, hname, heq⟩⟩ <;> rw [heq]
    · exact .bind .get (fun s => .bind (hhit option List.mem_cons_self hmatch _) (fun _ => hrest))
    · exact hrest
    · exact .bind (.modify fun s => hoptind s _) (fun _ => .pure _)
    · exact .bind (hcrash option List.mem_cons_self hg hname) (fun _ => .pure _)

end Frames

section Rounds
variable {self : Opt D W} {argv : List Text} {arg : Text} {s t : OptState D W}

/-- The parameter is taken: the option takes one and there is one. -/
def takes (option : OptOption D W) (param : Option Text) : Bool := option.argOk && param.isSome

/-- **`ae_opt_option_process`** moves the index past the next element if the parameter is
taken, also when the parameter came from behind a `'='`. -/
theorem optionProcess_trace [CDouble D] (param : Option Text) (option : OptOption D W)
    (s : OptState D W) :
    trace ((optionProcess param option).run s).2 =
      (s.optind + (if takes option param then 1 else 0),
        s.calls ++ [.option option.name param]) := by
  have hrest : Frame trace (do
      parseType option.name param option.type
      callIfAny option.callback param : Fallible (OptState D W) Unit) :=
    .bind (frame_parseType _ _ _) (fun _ => frame_callIfAny _ _)
  -- the index moves first, and what follows leaves it alone
  by_cases h : option.argOk ∧ param.isSome
  · have ht : takes option param = true := by simpa [takes] using h
    rw [ht, optionProcess, bind_run, modify_run]
    simp only [h, and_self, if_true, bind_run, modify_run]
    exact hrest _
  · have ht : takes option param = false := by simpa [takes] using h
    rw [ht, optionProcess, bind_run, modify_run]
    simp only [h, if_false, bind_run, Bool.false_eq_true, add_zero]
    exact hrest _

/-- The global callback, or the default one, is called for the element. -/
theorem unknown_trace (self : Opt D W) (arg : Text) (s : OptState D W) :
    trace ((unknown self arg).run s).2 = (s.optind, s.calls ++ [.unknown arg]) := by
  rw [unknown, bind_run, modify_run]
  cases self.callback with
  | some cb => exact frame_runCallback cb arg _
  | none => rfl

/-- The next element, if it is no option. -/
def paramFrom (arg : Text) (rest : List Text) : Option Text :=
  match valueOf arg with
  | some value => some value
  | none => rest.head?.filter (fun maybe => ¬ argumentIsValid maybe)

/-- Where a run stands: the elements that are left. -/
structure At (argv rest : List Text) (s : OptState D W) : Prop where
  nonneg : 0 ≤ s.optind
  left : argv.drop s.optind.toNat = rest
  optind : s.optind + rest.length = argv.length

theorem At.argAt_eq {rest : List Text} (h : At argv (arg :: rest) s) :
    argAt argv s.optind = some arg := by
  rw [argAt, if_pos h.nonneg, ← List.head?_drop, h.left]
  rfl

theorem At.of_append {pre rest : List Text} (h : s.optind = pre.length) :
    At (pre ++ arg :: rest) (arg :: rest) s := by
  refine ⟨by omega, ?_, ?_⟩
  · rw [h, Int.toNat_natCast, List.drop_left]
  · rw [h, List.length_append]
    omega

theorem At.of_argAt (h : argAt argv s.optind = some arg) :
    At argv (arg :: argv.drop (s.optind.toNat + 1)) s := by
  unfold argAt at h
  split at h
  · next hnonneg =>
    obtain ⟨hlt, harg⟩ := List.getElem?_eq_some_iff.mp h
    refine ⟨hnonneg, ?_, ?_⟩
    · rw [← harg, ← List.drop_eq_getElem_cons]
    · simp only [List.length_cons, List.length_drop]
      omega
  · cases h

theorem At.next {rest : List Text} (h : At argv (arg :: rest) s) (ht : t.optind = s.optind + 1) :
    At argv rest t := by
  have hnonneg := h.nonneg
  have hlen := h.optind
  have htail := congrArg List.tail h.left
  rw [List.tail_drop] at htail
  rw [List.length_cons] at hlen
  refine ⟨by omega, ?_, by omega⟩
  rw [show t.optind.toNat = s.optind.toNat + 1 by omega]
  exact htail

theorem At.paramOf_eq {rest : List Text} (h : At argv rest s) :
    paramOf argv arg s.optind = paramFrom arg rest := by
  unfold paramOf paramFrom argGet
  cases valueOf arg with
  | some value => rfl
  | none => rw [argAt, if_pos h.nonneg, ← List.head?_drop, h.left]

variable [CDouble D]

/-- A round where there is no element crashes. -/
theorem processArg_none (h : argAt argv s.optind = none) :
    (processArg self argv).run s = (none, { s with ended := some .crashed }) := by
  simp [processArg, bind_run, h, stop]

/-- A round at `"--"` ends the run. -/
theorem processArg_dashes (h : argAt argv s.optind = some dashes) :
    (processArg self argv).run s = (some false, { s with optind := s.optind + 1 }) := by
  simp [processArg, bind_run, h]

/-- **A round at another element** goes through the table, and reports the element if it was
not processed there. -/
theorem processArg_cases (self : Opt D W) (h : argAt argv s.optind = some arg)
    (hne : arg ≠ dashes) :
    (∃ t, (scanOptions argv arg self.options false).run { s with optind := s.optind + 1 } =
        (none, t) ∧ (processArg self argv).run s = (none, t)) ∨
    (∃ t, (scanOptions argv arg self.options false).run { s with optind := s.optind + 1 } =
        (some .stopped, t) ∧ (processArg self argv).run s = (some false, t)) ∨
    (∃ t, (scanOptions argv arg self.options false).run { s with optind := s.optind + 1 } =
        (some (.done true), t) ∧ (processArg self argv).run s = (some true, t)) ∨
    (∃ t r u, (scanOptions argv arg self.options false).run { s with optind := s.optind + 1 } =
        (some (.done false), t) ∧ (unknown self arg).run t = (r, u) ∧
        (processArg self argv).run s = (r.map (fun _ => true), u)) := by
  simp only [processArg, bind_run, get_run, h, modify_run, hne, if_false]
  rcases (scanOptions argv arg self.options false).run { s with optind := s.optind + 1 } with
    ⟨_ | _ | ⟨_ | _⟩, t⟩
  · exact .inl ⟨t, rfl, rfl⟩
  · exact .inr (.inl ⟨t, rfl, rfl⟩)
  · rcases hu : (unknown self arg).run t with ⟨_ | _, u⟩
    · exact .inr (.inr (.inr ⟨t, none, u, rfl, hu, by simp [bind_run, hu]⟩))
    · exact .inr (.inr (.inr ⟨t, some (), u, rfl, hu, by simp [bind_run, hu]⟩))
  · exact .inr (.inr (.inl ⟨t, rfl, rfl⟩))

theorem round_terminator {rest : List Text} (h : At argv (dashes :: rest) s) :
    (processArg self argv).run s = (some false, { s with optind := s.optind + 1 }) :=
  processArg_dashes h.argAt_eq

/-- A round at an element that is no option ends the run in front of it. -/
theorem round_positional {rest : List Text} (htable : Table self.options)
    (h : At argv (arg :: rest) s) (hvalid : argumentIsValid arg = false) :
    (processArg self argv).run s = (some false, s) := by
  have hne : arg ≠ dashes := by
    rintro rfl
    cases hvalid
  simp [processArg, bind_run, h.argAt_eq, hne, scan_stopped false hvalid htable.entry]

/-- A round at an option of the table processes that one. -/
theorem processArg_known {rest : List Text} {option : OptOption D W} (htable : Table self.options)
    (h : At argv (arg :: rest) s) (hvalid : argumentIsValid arg = true) (hne : arg ≠ dashes)
    (hfound : lookup self.options (nameOf arg) = some option) :
    (processArg self argv).run s = (optionProcess (paramFrom arg rest) option >>= fun _ =>
      (pure true : Fallible (OptState D W) Bool)).run { s with optind := s.optind + 1 } := by
  have hparam : paramOf argv arg (s.optind + 1) = paramFrom arg rest :=
    (h.next (t := { s with optind := s.optind + 1 }) rfl).paramOf_eq
  simp only [processArg, bind_run, get_run, h.argAt_eq, modify_run, hne, if_false]
  rw [scan_some false hvalid htable.measured htable.distinct hfound]
  simp only [hparam, bind_run]
  rcases (optionProcess (paramFrom arg rest) option).run { s with optind := s.optind + 1 } with
    ⟨_ | u, t⟩ <;> rfl

/-- What such a round reads. -/
theorem round_known {rest : List Text} {option : OptOption D W} (htable : Table self.options)
    (h : At argv (arg :: rest) s) (hvalid : argumentIsValid arg = true) (hne : arg ≠ dashes)
    (hfound : lookup self.options (nameOf arg) = some option) {goOn : Bool}
    (hr : (processArg self argv).run s = (some goOn, t)) :
    goOn = true ∧ trace t = (s.optind + 1 + (if takes option (paramFrom arg rest) then 1 else 0),
      s.calls ++ [.option (some (nameOf arg)) (paramFrom arg rest)]) := by
  have htrace := optionProcess_trace (paramFrom arg rest) option { s with optind := s.optind + 1 }
  rw [(lookup_some hfound).2.2] at htrace
  rw [processArg_known htable h hvalid hne hfound, bind_run] at hr
  rcases ho : (optionProcess (paramFrom arg rest) option).run { s with optind := s.optind + 1 } with
    ⟨_ | u, t'⟩
  · simp [ho] at hr
  · rw [ho] at htrace hr
    simp only [pure_run, Prod.mk.injEq, Option.some.injEq] at hr
    rw [← hr.1, ← hr.2]
    exact ⟨rfl, htrace⟩

/-- A round at an unknown option. -/
theorem round_unknown {rest : List Text} (htable : Table self.options)
    (h : At argv (arg :: rest) s) (hvalid : argumentIsValid arg = true) (hne : arg ≠ dashes)
    (hnone : lookup self.options (nameOf arg) = none) {goOn : Bool}
    (hr : (processArg self argv).run s = (some goOn, t)) :
    goOn = true ∧ trace t = (s.optind + 1, s.calls ++ [.unknown arg]) := by
  let s' : OptState D W := { s with optind := s.optind + 1 }
  have hother : ∀ option ∈ self.options,
      option.type.isGroup = true ∨ option.name ≠ some (nameOf arg) := by
    intro option hmem
    have hno := List.find?_eq_none.mp hnone option hmem
    cases hg : option.type.isGroup with
    | true => exact .inl rfl
    | false => exact .inr (fun hn => hno (by simp [hg, hn]))
  have htrace := unknown_trace self arg s'
  simp only [processArg, bind_run, get_run, h.argAt_eq, modify_run, hne, if_false,
    scan_none false hvalid htable.measured hother] at hr
  rcases ho : (unknown self arg).run s' with ⟨_ | u, t'⟩
  · simp [s', ho] at hr
  · rw [ho] at htrace
    simp only [s'] at ho
    simp only [ho, pure_run, Prod.mk.injEq, Option.some.injEq] at hr
    rw [← hr.1, ← hr.2]
    exact ⟨rfl, htrace⟩

end Rounds

/-! ## The walk -/

/-- `Walks options argv calls n`: read from `argv`, a run makes the calls and leaves `n`
elements, or gets past the end. -/
inductive Walks (options : List (OptOption D W)) : List Text → List OptCall → Int → Prop
  | ends : Walks options [] [] 0
  | terminator {rest : List Text} : Walks options (dashes :: rest) [] rest.length
  | positional {arg : Text} {rest : List Text} : argumentIsValid arg = false →
      Walks options (arg :: rest) [] (rest.length + 1)
  | unknown {arg : Text} {rest : List Text} {calls : List OptCall} {n : Int} :
      argumentIsValid arg = true → arg ≠ dashes → lookup options (nameOf arg) = none →
      Walks options rest calls n → Walks options (arg :: rest) (.unknown arg :: calls) n
  | alone {arg : Text} {rest : List Text} {calls : List OptCall} {n : Int}
      {option : OptOption D W} : argumentIsValid arg = true → arg ≠ dashes →
      lookup options (nameOf arg) = some option → takes option (paramFrom arg rest) = false →
      Walks options rest calls n →
      Walks options (arg :: rest) (.option (some (nameOf arg)) (paramFrom arg rest) :: calls) n
  | pair {arg next : Text} {rest : List Text} {calls : List OptCall} {n : Int}
      {option : OptOption D W} : argumentIsValid arg = true → arg ≠ dashes →
      lookup options (nameOf arg) = some option →
      takes option (paramFrom arg (next :: rest)) = true → Walks options rest calls n →
      Walks options (arg :: next :: rest)
        (.option (some (nameOf arg)) (paramFrom arg (next :: rest)) :: calls) n
  | overrun {arg : Text} {option : OptOption D W} : argumentIsValid arg = true → arg ≠ dashes →
      lookup options (nameOf arg) = some option → takes option (paramFrom arg []) = true →
      Walks options [arg] [.option (some (nameOf arg)) (paramFrom arg [])] (-1)

section Loop
variable [CDouble D] {self : Opt D W} {argv : List Text} {s t : OptState D W}

/-- The loop ends at the end of `argv`. -/
theorem loop_ends (h : (argv.length : Int) ≤ s.optind) (fuel : Nat) :
    (processLoop self argv fuel).run s = (some (), s) := by
  cases fuel with
  | zero => rfl
  | succ fuel => simp [processLoop, bind_run, Int.not_lt.mpr h]

/-- A call is its loop, unless the index is behind the end of `argv`. -/
theorem process_loop (h : s.optind ≤ argv.length) :
    (process self argv).run s =
      (processLoop self argv (argv.length - s.optind).toNat).run s := by
  simp only [process, bind_run, get_run, Int.not_lt.mpr h, if_false]

/-- A round, and the rest of the loop. -/
theorem loop_round (h : s.optind < argv.length) (fuel : Nat) :
    (processLoop self argv (fuel + 1)).run s = match (processArg self argv).run s with
      | (some true, s') => (processLoop self argv fuel).run s'
      | (some false, s') => (some (), s')
      | (none, s') => (none, s') := by
  simp only [processLoop, bind_run, get_run, h, if_true]
  rcases (processArg self argv).run s with ⟨_ | goOn, s'⟩
  · rfl
  · cases goOn <;> rfl

/-- The loop over the table does not move the index back. -/
theorem scan_le {arg : Text} {options : List (OptOption D W)} {processed b : Bool}
    (hr : (scanOptions argv arg options processed).run s = (some (.done b), t)) :
    s.optind ≤ t.optind := by
  induction options generalizing s processed with
  | nil =>
    cases hr
    exact le_refl _
  | cons option options ih =>
    rcases scan_cases argv arg option options processed with
      ⟨-, heq⟩ | ⟨-, heq | ⟨-, -, heq⟩ | ⟨-, -, heq⟩⟩ <;> rw [heq] at hr
    · have hoptind := congrArg Prod.fst (optionProcess_trace (paramOf argv arg s.optind) option s)
      rw [bind_of_some (get_run s)] at hr
      obtain ⟨u, s', ho, hr⟩ := bind_eq_some hr
      rw [ho] at hoptind
      have hle := ih hr
      simp only [trace] at hoptind
      split at hoptind <;> omega
    · exact ih hr
    · cases hr
    · cases hr

/-- A round after which the loop goes on moves the index forward. -/
theorem round_lt (hr : (processArg self argv).run s = (some true, t)) : s.optind < t.optind := by
  cases harg : argAt argv s.optind with
  | none =>
    rw [processArg_none harg] at hr
    cases hr
  | some arg =>
    by_cases hdash : arg = dashes
    · rw [processArg_dashes (hdash ▸ harg)] at hr
      cases hr
    obtain ⟨u, -, hrun⟩ | ⟨u, -, hrun⟩ | ⟨u, hscan, hrun⟩ | ⟨u, r, v, hscan, hunknown, hrun⟩ :=
      processArg_cases self harg hdash <;> rw [hrun] at hr
    · cases hr
    · cases hr
    · have hle : s.optind + 1 ≤ u.optind := scan_le hscan
      cases hr
      omega
    · have hle : s.optind + 1 ≤ u.optind := scan_le hscan
      have hoptind : v.optind = u.optind := by
        have htrace := congrArg Prod.fst (unknown_trace self arg u)
        rw [hunknown] at htrace
        exact htrace
      obtain ⟨-, rfl⟩ := Prod.mk.inj hr
      omega

/-- **The rounds suffice**: more of them change nothing. -/
theorem loop_succ {fuel : Nat} (h : (argv.length - s.optind).toNat ≤ fuel) :
    (processLoop self argv (fuel + 1)).run s = (processLoop self argv fuel).run s := by
  induction fuel generalizing s with
  | zero => rw [loop_ends (by omega), loop_ends (by omega)]
  | succ fuel ih =>
    rcases Int.lt_or_le s.optind argv.length with hlt | hle
    · rw [loop_round hlt, loop_round hlt]
      rcases hr : (processArg self argv).run s with ⟨_ | goOn, s'⟩
      · rfl
      · cases goOn with
        | false => rfl
        | true =>
          have hnext := round_lt hr
          exact ih (by omega)
    · rw [loop_ends hle, loop_ends hle]

omit [CDouble D] in
/-- A round that makes a call goes before a walk. -/
theorem Walks.further {rest rest' : List Text} {s' : OptState D W} {call : OptCall}
    (hcalls : s'.calls = s.calls ++ [call])
    (hrule : ∀ {calls n}, Walks self.options rest' calls n →
      Walks self.options rest (call :: calls) n)
    (h : ∃ calls n, Walks self.options rest' calls n ∧ t.calls = s'.calls ++ calls ∧
      t.optind + n = argv.length) :
    ∃ calls n, Walks self.options rest calls n ∧ t.calls = s.calls ++ calls ∧
      t.optind + n = argv.length := by
  obtain ⟨calls, n, hw, hc, hn⟩ := h
  refine ⟨call :: calls, n, hrule hw, ?_, hn⟩
  rw [hc, hcalls, List.append_assoc, List.singleton_append]

/-- **A run that returns `true` is a walk.** -/
theorem loop_walks (htable : Table self.options) {fuel : Nat} {rest : List Text}
    (hat : At argv rest s) (hfuel : rest.length ≤ fuel)
    (hr : (processLoop self argv fuel).run s = (some (), t)) :
    ∃ calls n, Walks self.options rest calls n ∧ t.calls = s.calls ++ calls ∧
      t.optind + n = argv.length := by
  induction fuel generalizing s rest with
  | zero =>
    obtain rfl : rest = [] := List.length_eq_zero_iff.mp (Nat.le_zero.mp hfuel)
    cases hr
    exact ⟨[], 0, .ends, by simp, hat.optind⟩
  | succ fuel ih =>
    cases rest with
    | nil =>
      rw [loop_ends (by have := hat.optind; simp at this; omega)] at hr
      cases hr
      exact ⟨[], 0, .ends, by simp, hat.optind⟩
    | cons arg rest =>
      have hlen := hat.optind
      rw [List.length_cons] at hlen hfuel
      have hlt : s.optind < argv.length := by omega
      rw [loop_round hlt] at hr
      rcases hround : (processArg self argv).run s with ⟨_ | goOn, s'⟩
      · simp [hround] at hr
      rw [hround] at hr
      -- one case for each way an element can be read
      by_cases hdash : arg = dashes
      · subst hdash
        rw [round_terminator hat] at hround
        cases hround
        cases hr
        exact ⟨[], rest.length, .terminator, by simp, by simp only; omega⟩
      cases hvalid : argumentIsValid arg with
      | false =>
        rw [round_positional htable hat hvalid] at hround
        cases hround
        cases hr
        exact ⟨[], rest.length + 1, .positional hvalid, by simp, by omega⟩
      | true =>
        cases hfound : lookup self.options (nameOf arg) with
        | none =>
          obtain ⟨rfl, htrace⟩ := round_unknown htable hat hvalid hdash hfound hround
          obtain ⟨hoptind, hcalls⟩ := Prod.mk.inj htrace
          exact Walks.further hcalls (.unknown hvalid hdash hfound)
            (ih (hat.next hoptind) (by omega) hr)
        | some option =>
          obtain ⟨rfl, htrace⟩ := round_known htable hat hvalid hdash hfound hround
          obtain ⟨hoptind, hcalls⟩ := Prod.mk.inj htrace
          cases htakes : takes option (paramFrom arg rest) with
          | false =>
            simp only [htakes, Bool.false_eq_true, if_false, add_zero] at hoptind
            exact Walks.further hcalls (.alone hvalid hdash hfound htakes)
              (ih (hat.next hoptind) (by omega) hr)
          | true =>
            simp only [htakes, if_true] at hoptind
            cases rest with
            | nil =>
              -- the index gets past the end
              simp only [List.length_nil] at hlen
              simp only at hr
              rw [loop_ends (by omega)] at hr
              cases hr
              refine ⟨_, -1, .overrun hvalid hdash hfound htakes, hcalls, by omega⟩
            | cons next rest =>
              have hmid : At argv (next :: rest) { s with optind := s.optind + 1 } :=
                hat.next rfl
              simp only [List.length_cons] at hfuel
              exact Walks.further hcalls (.pair hvalid hdash hfound htakes)
                (ih (hmid.next hoptind) (by omega) hr)

theorem process_walks (htable : Table self.options) (hzero : s.optind = 0)
    (hr : (process self argv).run s = (some (), t)) :
    ∃ calls n, Walks self.options argv calls n ∧ t.calls = s.calls ++ calls ∧
      t.optind + n = argv.length := by
  have hat : At argv argv s := ⟨by omega, by simp [hzero], by omega⟩
  rw [process_loop (by omega)] at hr
  exact loop_walks htable hat (by omega) hr

end Loop

/-! ## The rounds of a call -/

section Rounds
variable [CDouble D]

/-- The rounds after which the loop goes on, each with the element it reads. -/
def loopRounds (self : Opt D W) (argv : List Text) :
    Nat → OptState D W → List (Transition (OptState D W) Text)
  | 0, _ => []
  | fuel + 1, s =>
    match argAt argv s.optind, (processArg self argv).run s with
    | some arg, (some true, t) => ⟨s, arg, t⟩ :: loopRounds self argv fuel t
    | _, _ => []

/-- The rounds of a call of `ae_opt_process`. -/
def rounds (self : Opt D W) (argv : List Text) (s : OptState D W) :
    List (Transition (OptState D W) Text) :=
  loopRounds self argv (argv.length - s.optind).toNat s

variable {self : Opt D W} {argv : List Text} {s t : OptState D W}

/-- Each round reads the element at the index, and goes on. -/
theorem mem_loopRounds {fuel : Nat} {τ : Transition (OptState D W) Text}
    (h : τ ∈ loopRounds self argv fuel s) :
    argAt argv τ.before.optind = some τ.action ∧
      (processArg self argv).run τ.before = (some true, τ.after) := by
  induction fuel generalizing s with
  | zero => cases h
  | succ fuel ih =>
    unfold loopRounds at h
    split at h
    · next arg t harg hround =>
      rcases List.mem_cons.mp h with rfl | h
      · exact ⟨harg, hround⟩
      · exact ih h
    · cases h

theorem loopRounds_succ {fuel : Nat} {arg : Text} (harg : argAt argv s.optind = some arg)
    (hround : (processArg self argv).run s = (some true, t)) :
    loopRounds self argv (fuel + 1) s = ⟨s, arg, t⟩ :: loopRounds self argv fuel t := by
  simp [loopRounds, harg, hround]

/-- Behind the last element there is no round. -/
theorem loopRounds_ends {fuel : Nat} (h : (argv.length : Int) ≤ s.optind) :
    loopRounds self argv fuel s = [] := by
  have harg : argAt argv s.optind = none := by
    rw [argAt, if_pos (by omega), List.getElem?_eq_none (by omega)]
  cases fuel with
  | zero => rfl
  | succ fuel => simp [loopRounds, harg]

end Rounds

end Opt
end Libae
