import Libae.OptGrammar

/-! # Failures and error messages

Functions here return `false` after they added an error to `e`, and callbacks are asked to
do the same (`opt.h`).  `Reports` is that rule for a function and a state, and it passes
from the parts of a function to the whole (`Reports.bind`).  One part breaks it:
`ae_opt_parse_counter` adds an error for a text that is no integer, and returns `true`.

So while a call of `ae_opt_process` is running no error is added, and it fails exactly if
it adds one, if and only if no counter is given such a text in a round after which the
loop goes on (`errors_agree_iff`).
-/
namespace Libae
open Fallible Runs

namespace Opt
variable {D W : Type}

/-! ## The rule -/

/-- An error is among the messages. -/
def HasError (ms : List Msg) : Prop := ∃ m ∈ ms, m.type = .err

/-- At least one error was added to `e`. -/
def ErrorAdded (s t : OptState D W) : Prop := ∃ ms, t.e = s.e ++ ms ∧ HasError ms

section Added
variable {s t u : OptState D W} {ms : List Msg}

theorem hasError_append {ms' : List Msg} : HasError (ms ++ ms') ↔ HasError ms ∨ HasError ms' := by
  simp only [HasError, List.mem_append, or_and_right, exists_or]

theorem errorAdded_iff (h : t.e = s.e ++ ms) : ErrorAdded s t ↔ HasError ms := by
  constructor
  · rintro ⟨ms', h', herr⟩
    rw [h] at h'
    rwa [List.append_cancel_left h']
  · exact fun herr => ⟨ms, h, herr⟩

theorem errorAdded_self (h : t.e = s.e) : ¬ ErrorAdded s t := by
  have h' : t.e = s.e ++ [] := by rw [h, List.append_nil]
  rw [errorAdded_iff h']
  simp [HasError]

/-- Messages are only added, so an error stays. -/
theorem errorAdded_trans (h : s.e <+: t.e) (h' : t.e <+: u.e) :
    ErrorAdded s u ↔ ErrorAdded s t ∨ ErrorAdded t u := by
  obtain ⟨ms, h⟩ := h
  obtain ⟨ms', h'⟩ := h'
  have hu : u.e = s.e ++ (ms ++ ms') := by rw [← h', ← h, List.append_assoc]
  rw [errorAdded_iff hu, errorAdded_iff h.symm, errorAdded_iff h'.symm, hasError_append]

end Added

/-- From the state `s`, the function `x` adds an error before it returns `false`, and if it
succeeds, it has added one exactly in the bad case. -/
structure Reports {α : Type} (x : Fallible (OptState D W) α) (s : OptState D W) (bad : Prop) :
    Prop where
  adds : s.e <+: (x.run s).2.e
  succeeds : (x.run s).1.isSome → (ErrorAdded s (x.run s).2 ↔ bad)
  fails : (x.run s).1 = none → (x.run s).2.ended = none → ErrorAdded s (x.run s).2

namespace Reports
variable {α β : Type} {x : Fallible (OptState D W) α} {k : α → Fallible (OptState D W) β}
  {s t : OptState D W} {a : α} {bad bad' : Prop}

theorem of_silent (h : x.run s = (some a, t)) (he : t.e = s.e) (hbad : ¬ bad) :
    Reports x s bad := by
  refine ⟨?_, fun _ => iff_of_false ?_ hbad, ?_⟩ <;> rw [h]
  · exact he ▸ List.prefix_rfl
  · exact errorAdded_self he
  · nofun

theorem of_failed {text : Text} (h : x.run s = (none, t)) (he : t.e = s.e ++ [⟨.err, text⟩]) :
    Reports x s bad := by
  refine ⟨?_, ?_, fun _ _ => ?_⟩ <;> rw [h]
  · exact he ▸ List.prefix_append _ _
  · nofun
  · exact (errorAdded_iff he).mpr ⟨_, List.mem_singleton_self _, rfl⟩

/-- The run does not return. -/
theorem of_ended (h : x.run s = (none, t)) (he : t.e = s.e) (hended : t.ended ≠ none) :
    Reports x s bad := by
  refine ⟨?_, ?_, ?_⟩ <;> rw [h]
  · exact he ▸ List.prefix_rfl
  · nofun
  · exact fun _ h => absurd h hended

theorem of_bad {text : Text} (h : x.run s = (some a, t)) (he : t.e = s.e ++ [⟨.err, text⟩])
    (hbad : bad) : Reports x s bad := by
  refine ⟨?_, fun _ => iff_of_true ?_ hbad, ?_⟩ <;> rw [h]
  · exact he ▸ List.prefix_append _ _
  · exact (errorAdded_iff he).mpr ⟨_, List.mem_singleton_self _, rfl⟩
  · nofun

/-- **The rule passes to the whole.** -/
theorem bind (hx : Reports x s bad)
    (hk : ∀ a t, x.run s = (some a, t) → Reports (k a) t bad') :
    Reports (x >>= k) s (bad ∨ bad') := by
  rcases hr : x.run s with ⟨_ | a, t⟩
  · have hrun : (x >>= k).run s = (none, t) := bind_of_none hr
    refine ⟨?_, ?_, ?_⟩ <;> rw [hrun]
    · simpa [hr] using hx.adds
    · nofun
    · simpa [hr] using hx.fails
  · have hrun : (x >>= k).run s = (k a).run t := bind_of_some hr
    have hk := hk a t hr
    have hs : s.e <+: t.e := by simpa [hr] using hx.adds
    have hbad : ErrorAdded s t ↔ bad := by simpa [hr] using hx.succeeds
    refine ⟨?_, fun h => ?_, fun h hended => ?_⟩ <;> rw [hrun] at *
    · exact hs.trans hk.adds
    · rw [errorAdded_trans hs hk.adds, hbad, hk.succeeds h]
    · exact (errorAdded_trans hs hk.adds).mpr (.inr (hk.fails h hended))

theorem bind_left (hx : Reports x s bad)
    (hk : ∀ a t, x.run s = (some a, t) → Reports (k a) t False) :
    Reports (x >>= k) s bad := by
  simpa using hx.bind hk

theorem get_bind {k : OptState D W → Fallible (OptState D W) β} (hk : Reports (k s) s bad) :
    Reports (get >>= k) s bad := ⟨hk.adds, hk.succeeds, hk.fails⟩

theorem modify_bind {f : OptState D W → OptState D W} {k : Unit → Fallible (OptState D W) β}
    (he : (f s).e = s.e) (hk : Reports (k ()) (f s) bad) :
    Reports (modify f >>= k) s bad := by
  have hf : Reports (modify f) s False := of_silent rfl he id
  refine (false_or bad) ▸ hf.bind (fun a t h => ?_)
  cases h
  exact hk

end Reports

/-! ## The types and the callbacks -/

/-- A counter is given a text that is no integer. -/
def Misreads (type : OptType D) (p : Option Text) : Prop :=
  ∃ out text, type = .counter (some out) ∧ p = some text ∧ scanInt text = none

section Parts
variable {α : Type} {name p : Option Text} {s : OptState D W}

/-- The parsers of numbers follow the rule. -/
theorem Numbers.reports {n : Numbers α D W} {x : Fallible (OptState D W) Unit} {bad : Prop}
    (h : x.run s = n.parse p s) (hbad : ¬ bad) : Reports x s bad := by
  cases hread : n.read p with
  | none =>
    rw [n.parse_none hread] at h
    exact .of_failed h rfl
  | some v =>
    rw [n.parse_some hread] at h
    cases hout : n.outside v with
    | true =>
      rw [n.fit_outside hout] at h
      exact .of_failed h (congrArg (· ++ _) (n.set_e v s))
    | false =>
      rw [n.fit_inside hout] at h
      exact .of_silent h (n.set_e v s) hbad

/-- **The types follow the rule**, but for the counter. -/
theorem reports_parseType [CDouble D] (type : OptType D) :
    Reports (parseType name p type) s (Misreads type p) := by
  cases type with
  | help | version => exact .of_ended rfl rfl nofun
  | group | callbackOnly => exact .of_silent rfl rfl nofun
  | flag out | bit whichBits out =>
    cases out with
    | none => exact .of_failed rfl rfl
    | some out => exact .of_silent rfl rfl nofun
  | string out =>
    cases out with
    | none => exact .of_ended rfl rfl nofun
    | some out => exact .of_silent rfl rfl nofun
  | int params out =>
    cases out with
    | none => exact .of_failed rfl rfl
    | some out => exact Numbers.reports (parseInt_run name p out params) nofun
  | double params out =>
    cases out with
    | none => exact .of_failed rfl rfl
    | some out => exact Numbers.reports (parseDouble_run name p out params) nofun
  | counter out =>
    cases out with
    | none => exact .of_failed rfl rfl
    | some out =>
      have hrun := parseCounter_run (D := D) (W := W) name p out (s := s)
      cases p with
      | none => exact .of_silent hrun rfl nofun
      | some text =>
        cases hread : scanInt text with
        | none =>
          rw [Numbers.parse_none (counterNumbers name out) (p := some text) hread] at hrun
          exact .of_bad hrun rfl ⟨out, text, rfl, rfl, hread⟩
        | some v =>
          rw [Numbers.parse_some (counterNumbers name out) (p := some text) hread,
            Numbers.fit_inside _ rfl] at hrun
          refine .of_silent hrun rfl ?_
          rintro ⟨out', text', -, htext, hnone⟩
          cases htext
          rw [hread] at hnone
          cases hnone

/-- A callback that adds an error exactly if it returns `false`. -/
def Honest (cb : OptCallback W α) : Prop := ∀ w a, (cb w a).1 = false ↔ HasError (cb w a).2.1

theorem reports_callIfAny {cb : Option (OptCallback W α)} {a : α}
    (hcb : ∀ cb' ∈ cb, Honest cb') : Reports (callIfAny cb a) s False := by
  cases cb with
  | none => exact .of_silent rfl rfl id
  | some cb =>
    have hhonest := hcb cb rfl s.world a
    have hadded : ErrorAdded s ((runCallback cb a).run s).2 ↔ HasError (cb s.world a).2.1 := by
      rw [runCallback_run]
      exact errorAdded_iff rfl
    refine ⟨?_, fun h => ?_, fun h _ => ?_⟩
    · show s.e <+: ((runCallback cb a).run s).2.e
      rw [runCallback_run]
      exact List.prefix_append _ _
    · refine iff_of_false (fun herr => ?_) id
      have hfalse := hhonest.mpr (hadded.mp herr)
      simp [callIfAny, runCallback_run, hfalse] at h
    · refine hadded.mpr (hhonest.mp ?_)
      simpa [callIfAny, runCallback_run] using h

theorem reports_optionProcess [CDouble D] {option : OptOption D W}
    (hcb : ∀ cb ∈ option.callback, Honest cb) :
    Reports (optionProcess p option) s (Misreads option.type p) := by
  have hrest : ∀ t : OptState D W, Reports (do
      parseType option.name p option.type
      callIfAny option.callback p) t (Misreads option.type p) :=
    fun t => (reports_parseType option.type).bind_left (fun _ _ _ => reports_callIfAny hcb)
  refine .modify_bind rfl ?_
  dsimp only
  split
  · exact .modify_bind rfl (hrest _)
  · exact hrest _

end Parts

/-! ## The loop over the table -/

/-- The entries that are processed for the element, each with its parameter.  Entries of one
name are all processed, and the index moves in between. -/
def readings (argv : List Text) (arg : Text) :
    List (OptOption D W) → Int → List (OptOption D W × Option Text)
  | [], _ => []
  | option :: options, optind =>
    if matchesArg arg option then
      (option, paramOf argv arg optind) :: readings argv arg options
        (optind + if takes option (paramOf argv arg optind) then 1 else 0)
    else readings argv arg options optind

/-- Among what is processed, a counter is given a text that is no integer. -/
def Misread (rs : List (OptOption D W × Option Text)) : Prop := ∃ r ∈ rs, Misreads r.1.type r.2

section Scan
variable {argv : List Text} {arg : Text} {options : List (OptOption D W)}
  {option : OptOption D W} {optind : Int}

theorem readings_skip (h : matchesArg arg option = false) :
    readings argv arg (option :: options) optind = readings argv arg options optind := by
  simp [readings, h]

theorem readings_invalid (h : argumentIsValid arg = false) :
    readings argv arg options optind = [] := by
  induction options with
  | nil => rfl
  | cons option options ih => rw [readings_skip (by simp [matchesArg, h]), ih]

theorem misread_hit (h : matchesArg arg option = true) :
    Misread (readings argv arg (option :: options) optind) ↔
      Misreads option.type (paramOf argv arg optind) ∨ Misread (readings argv arg options
        (optind + if takes option (paramOf argv arg optind) then 1 else 0)) := by
  simp [Misread, readings, h]

variable [CDouble D] {processed : Bool} {s t : OptState D W}

/-- At an option the loop gets to the end of the table. -/
theorem scan_done (hvalid : argumentIsValid arg = true) {r : Scan}
    (hr : (scanOptions argv arg options processed).run s = (some r, t)) : ∃ b, r = .done b := by
  induction options generalizing s processed with
  | nil =>
    cases hr
    exact ⟨processed, rfl⟩
  | cons option options ih =>
    rcases scan_cases argv arg option options processed with
      ⟨-, heq⟩ | ⟨-, heq | ⟨-, hvalid', -⟩ | ⟨-, -, heq⟩⟩
    · simp only [heq, bind_run, get_run] at hr
      rcases ho : (optionProcess (paramOf argv arg s.optind) option).run s with ⟨_ | u, s'⟩
      · simp [ho] at hr
      · rw [ho] at hr
        exact ih hr
    · rw [heq] at hr
      exact ih hr
    · rw [hvalid] at hvalid'
      cases hvalid'
    · rw [heq] at hr
      cases hr

/-- **The loop over the table follows the rule**, but for the counters. -/
theorem reports_scan (hcb : ∀ option ∈ options, ∀ cb ∈ option.callback, Honest cb) :
    Reports (scanOptions argv arg options processed) s
      (Misread (readings argv arg options s.optind)) := by
  induction options generalizing s processed with
  | nil => exact .of_silent rfl rfl (by simp [Misread, readings])
  | cons option options ih =>
    have ih' : ∀ {processed s}, Reports (scanOptions argv arg options processed) s
        (Misread (readings argv arg options s.optind)) :=
      ih (fun o h => hcb o (List.mem_cons_of_mem _ h))
    rcases scan_cases argv arg option options processed with
      ⟨hhit, heq⟩ | ⟨hskip, heq | ⟨-, hvalid, heq⟩ | ⟨-, -, heq⟩⟩ <;> rw [heq]
    · rw [misread_hit hhit]
      have hone := reports_optionProcess (p := paramOf argv arg s.optind) (s := s)
        (hcb option List.mem_cons_self)
      refine .get_bind (hone.bind (fun u t ht => ?_))
      -- the other entries of the name find the index where this one left it
      have htrace := congrArg Prod.fst (optionProcess_trace (paramOf argv arg s.optind) option s)
      rw [ht] at htrace
      have hoptind : t.optind = s.optind +
        if takes option (paramOf argv arg s.optind) then 1 else 0 := htrace
      rw [← hoptind]
      exact ih'
    · rw [readings_skip hskip]
      exact ih'
    · rw [readings_invalid hvalid]
      exact .of_silent rfl rfl (by simp [Misread])
    · exact .of_ended rfl rfl nofun

end Scan

/-! ## The rounds of a call -/

section Rounds
variable {self : Opt D W} {argv : List Text} {arg : Text} {s t : OptState D W}

theorem reports_unknown (hdefault : self.callback = none) {bad : Prop} :
    Reports (unknown self arg) s bad := by
  refine .modify_bind rfl ?_
  rw [hdefault]
  exact .of_failed rfl rfl

variable [CDouble D]

/-- In this round a counter is given a text that is no integer. -/
def RoundMisreads (self : Opt D W) (argv : List Text) (s : OptState D W) : Prop :=
  ∃ arg, argAt argv s.optind = some arg ∧ arg ≠ dashes ∧
    Misread (readings argv arg self.options (s.optind + 1))

/-- **A round follows the rule**, but for the counters. -/
theorem reports_processArg (hdefault : self.callback = none)
    (hcb : ∀ option ∈ self.options, ∀ cb ∈ option.callback, Honest cb) :
    Reports (processArg self argv) s (RoundMisreads self argv s) := by
  refine .get_bind ?_
  cases harg : argAt argv s.optind with
  | none => exact .of_ended rfl rfl nofun
  | some arg =>
    have hbad : RoundMisreads self argv s ↔
        arg ≠ dashes ∧ Misread (readings argv arg self.options (s.optind + 1)) := by
      simp [RoundMisreads, harg]
    rw [hbad]
    refine .modify_bind rfl ?_
    by_cases hdash : arg = dashes
    · rw [if_pos hdash]
      exact .of_silent rfl rfl (fun h => h.1 hdash)
    · rw [if_neg hdash, and_iff_right hdash]
      refine (reports_scan hcb).bind_left (fun scan t _ => ?_)
      rcases scan with _ | ⟨_ | _⟩
      · exact .of_silent rfl rfl id
      · exact (reports_unknown hdefault).bind_left (fun _ _ _ => .of_silent rfl rfl id)
      · exact .of_silent rfl rfl id

/-- The round at which the loop stops adds nothing. -/
theorem round_stops (hdefault : self.callback = none)
    (hcb : ∀ option ∈ self.options, ∀ cb ∈ option.callback, Honest cb)
    (hr : (processArg self argv).run s = (some false, t)) : ¬ ErrorAdded s t := by
  have hreports : Reports (processArg self argv) s (RoundMisreads self argv s) :=
    reports_processArg hdefault hcb
  have hiff := hreports.succeeds (by rw [hr]; rfl)
  rw [hr] at hiff
  rw [hiff]
  rintro ⟨arg, harg, hdash, r, hmem, -⟩
  have hvalid : argumentIsValid arg = true := by
    by_contra hvalid
    rw [readings_invalid (by simpa using hvalid)] at hmem
    cases hmem
  -- at an option the loop goes on
  obtain ⟨u, -, hrun⟩ | ⟨u, hscan, -⟩ | ⟨u, -, hrun⟩ | ⟨u, r, v, -, -, hrun⟩ :=
    processArg_cases self harg hdash
  · rw [hr] at hrun
    cases hrun
  · obtain ⟨b, hb⟩ := scan_done hvalid hscan
    cases hb
  · rw [hr] at hrun
    cases hrun
  · rw [hr] at hrun
    cases r <;> cases hrun

theorem round_reads (hr : (processArg self argv).run s = (some true, t)) :
    ∃ arg, argAt argv s.optind = some arg := by
  cases harg : argAt argv s.optind with
  | none =>
    rw [processArg_none harg] at hr
    cases hr
  | some arg => exact ⟨arg, rfl⟩

/-- A round after which the loop goes on adds an error exactly if it misreads a counter. -/
theorem round_errors (hdefault : self.callback = none)
    (hcb : ∀ option ∈ self.options, ∀ cb ∈ option.callback, Honest cb)
    {τ : Transition (OptState D W) Text} (harg : argAt argv τ.before.optind = some τ.action)
    (hround : (processArg self argv).run τ.before = (some true, τ.after)) :
    ErrorAdded τ.before τ.after ↔
      Misread (readings argv τ.action self.options (τ.before.optind + 1)) := by
  have hreports : Reports (processArg self argv) τ.before (RoundMisreads self argv τ.before) :=
    reports_processArg hdefault hcb
  have hiff := hreports.succeeds (by rw [hround]; rfl)
  have hdash : τ.action ≠ dashes := by
    intro hdash
    rw [processArg_dashes (hdash ▸ harg)] at hround
    cases hround
  rw [hround] at hiff
  rw [hiff]
  simp [RoundMisreads, harg, hdash]

/-- In one of the rounds a counter is given a text that is no integer. -/
def SomeRoundMisreads (self : Opt D W) (argv : List Text)
    (τs : List (Transition (OptState D W) Text)) : Prop :=
  ∃ τ ∈ τs, Misread (readings argv τ.action self.options (τ.before.optind + 1))

/-- **The loop follows the rule**, but for the counters. -/
theorem reports_loop (hdefault : self.callback = none)
    (hcb : ∀ option ∈ self.options, ∀ cb ∈ option.callback, Honest cb) {fuel : Nat} :
    Reports (processLoop self argv fuel) s
      (SomeRoundMisreads self argv (loopRounds self argv fuel s)) := by
  induction fuel generalizing s with
  | zero => exact .of_silent rfl rfl (by simp [SomeRoundMisreads, loopRounds])
  | succ fuel ih =>
    have hreports : Reports (processArg self argv) s (RoundMisreads self argv s) :=
      reports_processArg hdefault hcb
    rcases Int.lt_or_le s.optind argv.length with hlt | hle
    · have hrun : (processLoop self argv (fuel + 1)).run s = _ := loop_round hlt fuel
      rcases hround : (processArg self argv).run s with ⟨_ | _ | _, t⟩ <;> rw [hround] at hrun
      · -- the call fails with the round
        refine ⟨?_, ?_, ?_⟩ <;> rw [hrun]
        · simpa [hround] using hreports.adds
        · simp
        · simpa [hround] using hreports.fails
      · have hnone : ¬ ErrorAdded s t := round_stops hdefault hcb hround
        refine ⟨?_, fun _ => iff_of_false ?_ ?_, ?_⟩
        · simpa [hrun, hround] using hreports.adds
        · rwa [hrun]
        · simp [SomeRoundMisreads, loopRounds, hround]
        · simp [hrun]
      · obtain ⟨arg, harg⟩ := round_reads hround
        have hone := round_errors hdefault hcb (τ := ⟨s, arg, t⟩) harg hround
        have hadds : s.e <+: t.e := by simpa [hround] using hreports.adds
        have hrounds : SomeRoundMisreads self argv (loopRounds self argv (fuel + 1) s) ↔
            ErrorAdded s t ∨ SomeRoundMisreads self argv (loopRounds self argv fuel t) := by
          rw [loopRounds_succ harg hround, hone]
          simp [SomeRoundMisreads]
        have ih := ih (s := t)
        rw [hrounds]
        refine ⟨?_, fun h => ?_, fun h hended => ?_⟩ <;> rw [hrun] at *
        · exact hadds.trans ih.adds
        · rw [errorAdded_trans hadds ih.adds, ih.succeeds h]
        · exact (errorAdded_trans hadds ih.adds).mpr (.inr (ih.fails h hended))
    · rw [loopRounds_ends hle]
      exact .of_silent (loop_ends hle _) rfl (by simp [SomeRoundMisreads])

/-- **A call follows the rule**, but for the counters: if it fails it has added an error, and
if it succeeds it has added one exactly if it misread a counter. -/
theorem reports_process (hdefault : self.callback = none)
    (hcb : ∀ option ∈ self.options, ∀ cb ∈ option.callback, Honest cb) :
    Reports (process self argv) s (SomeRoundMisreads self argv (rounds self argv s)) := by
  refine .get_bind ?_
  dsimp only
  split
  · exact .of_failed rfl rfl
  · exact reports_loop hdefault hcb

end Rounds

/-! ## Calls that return -/

section Returns
variable {self : Opt D W} {argv : List Text} {arg : Text} {s : OptState D W}

/-- The parser of the type returns. -/
def Returns : OptType D → Prop
  | .help | .version | .string none => False
  | _ => True

/-- Every entry that may be processed for the element has a name, and its parser returns. -/
def Harmless (options : List (OptOption D W)) (arg : Text) : Prop :=
  ∀ option ∈ options, option.type.isGroup = false → option.name ≠ none ∧
    (matchesArg arg option = true → Returns option.type)

theorem frame_ended_callIfAny {α : Type} (cb : Option (OptCallback W α)) (a : α) :
    Frame OptState.ended (callIfAny cb a : Fallible (OptState D W) Unit) := by
  intro s
  cases cb with
  | none => rfl
  | some cb => rw [callIfAny, runCallback_run]

theorem frame_ended_unknown (self : Opt D W) (arg : Text) :
    Frame OptState.ended (unknown self arg) := by
  refine .bind (.modify fun _ => rfl) (fun _ => ?_)
  cases self.callback with
  | some cb => exact frame_ended_callIfAny (some cb) arg
  | none => exact .bind (.modify fun _ => rfl) (fun _ => .fail)

variable [CDouble D]

theorem frame_ended_parseType {name p : Option Text} {type : OptType D} (h : Returns type) :
    Frame OptState.ended (parseType name p type : Fallible (OptState D W) Unit) := by
  intro s
  cases type with
  | help | version => exact h.elim
  | group | callbackOnly => rfl
  | flag out | bit whichBits out => cases out <;> rfl
  | string out =>
    cases out with
    | none => exact h.elim
    | some out => rfl
  | int params out =>
    cases out with
    | none => rfl
    | some out =>
      rw [parseType, parseInt_run]
      exact Numbers.parse_ended _
  | double params out =>
    cases out with
    | none => rfl
    | some out =>
      rw [parseType, parseDouble_run]
      exact Numbers.parse_ended _
  | counter out =>
    cases out with
    | none => rfl
    | some out =>
      rw [parseType, parseCounter_run]
      exact Numbers.parse_ended _

theorem frame_ended_optionProcess {p : Option Text} {option : OptOption D W}
    (h : Returns option.type) : Frame OptState.ended (optionProcess p option) :=
  frame_optionProcess (fun _ _ => rfl) (fun _ _ => rfl) (frame_ended_parseType h)
    (frame_ended_callIfAny _ _)

omit [CDouble D] in
theorem isGroup_of_matches {option : OptOption D W} (h : matchesArg arg option = true) :
    option.type.isGroup = false := by
  simp only [matchesArg, Bool.and_eq_true, Bool.not_eq_true'] at h
  exact h.1.1.1

theorem frame_ended_scan {options : List (OptOption D W)} {processed : Bool}
    (h : Harmless options arg) : Frame OptState.ended (scanOptions argv arg options processed) := by
  refine frame_scan (fun _ _ => rfl) (fun option hmem hmatch p => ?_)
    (fun option hmem hg hname => absurd hname (h option hmem hg).1)
  exact frame_ended_optionProcess ((h option hmem (isGroup_of_matches hmatch)).2 hmatch)

theorem round_returns (h : argAt argv s.optind = some arg) (hharmless : Harmless self.options arg) :
    ((processArg self argv).run s).2.ended = s.ended := by
  have hscan : ((scanOptions argv arg self.options false).run
      { s with optind := s.optind + 1 }).2.ended = s.ended :=
    frame_ended_scan hharmless _
  by_cases hdash : arg = dashes
  · rw [processArg_dashes (hdash ▸ h)]
  obtain ⟨t, hr, hrun⟩ | ⟨t, hr, hrun⟩ | ⟨t, hr, hrun⟩ | ⟨t, r, u, hr, hu, hrun⟩ :=
    processArg_cases self h hdash <;> rw [hr] at hscan <;> rw [hrun]
  · exact hscan
  · exact hscan
  · exact hscan
  · have hunknown := frame_ended_unknown self arg t
    rw [hu] at hunknown
    exact hunknown.trans hscan

/-- **A call returns** on a command line whose elements name no help and no version, for a table
in which the entries have names and the strings have outputs. -/
theorem process_returns (hharmless : ∀ arg ∈ argv, Harmless self.options arg)
    (hnonneg : 0 ≤ s.optind) : ((process self argv).run s).2.ended = s.ended := by
  have hloop : ∀ fuel (s : OptState D W), 0 ≤ s.optind →
      ((processLoop self argv fuel).run s).2.ended = s.ended := by
    intro fuel
    induction fuel with
    | zero => exact fun _ _ => rfl
    | succ fuel ih =>
      intro s hnonneg
      rcases Int.lt_or_le s.optind argv.length with hlt | hle
      · have hlt' : s.optind.toNat < argv.length := by omega
        have harg : argAt argv s.optind = some argv[s.optind.toNat] := by
          rw [argAt, if_pos hnonneg, List.getElem?_eq_getElem hlt']
        have hround := round_returns harg (hharmless _ (List.getElem_mem hlt'))
        rw [loop_round hlt]
        rcases hr : (processArg self argv).run s with ⟨_ | goOn, s'⟩ <;> rw [hr] at hround
        · exact hround
        · cases goOn with
          | false => exact hround
          | true =>
            have hnext := round_lt hr
            exact (ih s' (by omega)).trans hround
      · rw [loop_ends hle]
  simp only [process, bind_run, get_run]
  split
  · rfl
  · exact hloop _ s hnonneg

end Returns

/-- **When failures and error messages agree.**  With the default callback, and callbacks of
the entries that add an error exactly if they return `false`, for every call of
`ae_opt_process` that returns: no error is added as long as the loop goes on, and the call
fails exactly if it adds one, if and only if no round after which the loop goes on gives a
counter a text that is no integer. -/
theorem errors_agree_iff [CDouble D] {self : Opt D W} (hdefault : self.callback = none)
    (hcb : ∀ option ∈ self.options, ∀ cb ∈ option.callback, Honest cb) {argv : List Text}
    {s t : OptState D W} {r : Option Unit} (hr : (process self argv).run s = (r, t))
    (hreturns : t.ended = none) :
    ((∀ τ ∈ rounds self argv s, ¬ ErrorAdded τ.before τ.after) ∧ (r = none ↔ ErrorAdded s t)) ↔
      ∀ τ ∈ rounds self argv s,
        ¬ Misread (readings argv τ.action self.options (τ.before.optind + 1)) := by
  have hiff : ∀ τ ∈ rounds self argv s, ErrorAdded τ.before τ.after ↔
      Misread (readings argv τ.action self.options (τ.before.optind + 1)) := by
    intro τ hτ
    obtain ⟨harg, hround⟩ := mem_loopRounds hτ
    exact round_errors hdefault hcb harg hround
  constructor
  · rintro ⟨hclean, -⟩ τ hτ hmis
    exact hclean τ hτ ((hiff τ hτ).mpr hmis)
  · intro hclean
    refine ⟨fun τ hτ herr => hclean τ hτ ((hiff τ hτ).mp herr), ?_⟩
    have hreports : Reports (process self argv) s
        (SomeRoundMisreads self argv (rounds self argv s)) := reports_process hdefault hcb
    cases r with
    | none => exact iff_of_true rfl (by simpa [hr, hreturns] using hreports.fails)
    | some u =>
      have hadded : ErrorAdded s t ↔ SomeRoundMisreads self argv (rounds self argv s) := by
        simpa [hr] using hreports.succeeds
      rw [hadded]
      refine iff_of_false nofun ?_
      rintro ⟨τ, hτ, hmis⟩
      exact hclean τ hτ hmis

/-! ### A counter -/

/-- `--verbose` with a number, or without. -/
def verbose : OptOption Unit Unit where
  name := some (ascii "verbose")
  nameLen := 0
  type := .counter (some 0)
  isRequired := .optional
  callback := none

/-- After `--verbose 2` the unknown `--loud` is reported, and fails. -/
theorem errors_agree_iff_loud : ∃ t,
    (process (init none [verbose]) [ascii "--verbose", ascii "2", ascii "--loud"]).run start =
      (none, t) ∧ ErrorAdded start t := by
  obtain ⟨t, hr, hreturns⟩ : ∃ t, (process (init none [verbose])
      [ascii "--verbose", ascii "2", ascii "--loud"]).run start = (none, t) ∧ t.ended = none :=
    ⟨_, rfl, rfl⟩
  have hcb : ∀ option ∈ (init none [verbose]).options, ∀ cb ∈ option.callback, Honest cb := by
    intro option hmem
    obtain rfl := List.mem_singleton.mp hmem
    nofun
  refine ⟨t, hr, ((errors_agree_iff rfl hcb hr hreturns).mpr ?_).2.mp rfl⟩
  intro τ hτ
  obtain rfl := List.mem_singleton.mp hτ
  rintro ⟨r, hmem, out, text, -, htext, hread⟩
  obtain rfl := List.mem_singleton.mp hmem
  cases htext
  cases hread

/-- `--verbose=abc` is reported, and succeeds. -/
theorem misread_accepted : ∃ t,
    (process (init none [verbose]) [ascii "--verbose=abc"]).run start = (some (), t) ∧
      t.ended = none ∧ ErrorAdded start t :=
  ⟨_, rfl, rfl, _, rfl, _, List.mem_singleton_self _, rfl⟩

end Opt
end Libae
