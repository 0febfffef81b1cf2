import Libae.OptGrammar

/-! # The declared arity of an option

`AE_OPT_PARAM_REQUIRED` and `AE_OPT_PARAM_NONE` say whether an option is given a parameter
(`opt.h`), but `ae_opt_option_process` reads the arity only to move the index.  A
parameter that is missing, or is one too many, goes to the parser of the type and to the
callback like any other.  The command lines that are accepted therefore keep the arity
exactly if these two enforce it by themselves (`Strict`).
-/
namespace Libae
open Fallible Runs

namespace Opt
variable {D W : Type}

/-! ## What an entry declines -/

/-- The processing of the entry fails in this world: its type refuses the parameter, or its
callback returns `false`. -/
def Fails [CDouble D] (option : OptOption D W) (p : Option Text) (w : W) : Prop :=
  Refuses p option.type ∨ ∃ cb, option.callback = some cb ∧ (cb w p).1 = false

/-- **When the processing of an entry fails.** -/
theorem optionProcess_fails [CDouble D] (option : OptOption D W) (p : Option Text)
    (s : OptState D W) :
    ((optionProcess p option).run s).1 = none ↔ Fails option p s.world := by
  have hrest : ∀ t : OptState D W,
      ((do parseType option.name p option.type; callIfAny option.callback p :
        Fallible (OptState D W) Unit).run t).1 = none ↔ Fails option p t.world := by
    intro t
    have hrefuses := parseType_refuses option.name p option.type t
    have hworld := frame_world option.name p option.type t
    rw [bind_run, Fails, ← hrefuses]
    rcases hr : (parseType option.name p option.type).run t with ⟨_ | u, t'⟩
    · simp
    · rw [hr] at hworld
      have hw : t'.world = t.world := hworld
      cases option.callback with
      | none => simp [callIfAny]
      | some cb => simp [callIfAny, runCallback_run, hw]
  rw [optionProcess, bind_run, modify_run]
  dsimp only
  split
  · exact hrest _
  · exact hrest _

/-- The entry declines the parameter, whatever its callback knows. -/
def Declines [CDouble D] (option : OptOption D W) (p : Option Text) : Prop :=
  ∀ w, Fails option p w

/-- The entry enforces its arity by itself.  A bare `--` names no option, and neither does
an element that contains its name together with a `'='`. -/
structure Strict [CDouble D] (name : Text) (option : OptOption D W) : Prop where
  missing : option.isRequired = .required → name ≠ [] → equals ∉ name → Declines option none
  needless : option.isRequired = .none → equals ∉ name → ∀ value, Declines option (some value)

/-! ## The rounds -/

/-- An option that the round processes has the parameter that its arity demands, behind a `'='`
or as the next element, and none behind a `'='` if its arity excludes one. -/
structure KeepsArity (argv : List Text) (τ : Transition (OptState D W) Text)
    (option : OptOption D W) (value : Option Text) : Prop where
  required : option.isRequired = .required → value ≠ none ∨
    ∃ next, argAt argv (τ.before.optind + 1) = some next ∧ argumentIsValid next = false
  none : option.isRequired = .none → value = none

/-- In every round at an element that spells an option, its arity is kept. -/
def ArityKept (options : List (OptOption D W)) (argv : List Text)
    (τs : List (Transition (OptState D W) Text)) : Prop :=
  ∀ τ ∈ τs, ∀ name value option, Spells τ.action name value → τ.action ≠ dashes →
    Names options name option → KeepsArity argv τ option value

section Rounds
variable [CDouble D] {self : Opt D W} {argv rest : List Text} {arg name : Text}
  {value : Option Text} {option : OptOption D W} {s t : OptState D W}

/-- A round at an option goes on exactly if the processing of the entry does not fail. -/
theorem round_goes_on (htable : Table self.options) (h : At argv (arg :: rest) s)
    (hs : Spells arg name value) (hne : arg ≠ dashes) (hnames : Names self.options name option) :
    (∃ t, (processArg self argv).run s = (some true, t)) ↔
      ¬ Fails option (paramFrom arg rest) s.world := by
  obtain ⟨hvalid, hname, -⟩ := hs.split
  have hfound : lookup self.options (nameOf arg) = some option := by
    rw [hname]
    exact (names_lookup htable.distinct).mp hnames
  have hfails := optionProcess_fails option (paramFrom arg rest)
    { s with optind := s.optind + 1 }
  rw [processArg_known htable h hvalid hne hfound, bind_run, ← hfails]
  rcases (optionProcess (paramFrom arg rest) option).run { s with optind := s.optind + 1 } with
    ⟨_ | u, t⟩
  · simp
  · simp

/-- **Strict entries keep their arity** in every round. -/
theorem Strict.keeps (hstrict : Strict name option) (htable : Table self.options)
    {τ : Transition (OptState D W) Text} (harg : argAt argv τ.before.optind = some τ.action)
    (hround : (processArg self argv).run τ.before = (some true, τ.after))
    (hs : Spells τ.action name value) (hne : τ.action ≠ dashes)
    (hnames : Names self.options name option) : KeepsArity argv τ option value := by
  have hat := At.of_argAt harg
  have hok := (round_goes_on htable hat hs hne hnames).mp ⟨_, hround⟩
  have hnext : argAt argv (τ.before.optind + 1) =
      (argv.drop (τ.before.optind.toNat + 1)).head? := by
    rw [argAt, if_pos (by have := hat.nonneg; omega), List.head?_drop]
    congr 1
    have := hat.nonneg
    omega
  cases value with
  | none =>
    obtain ⟨harg', hmem⟩ := id hs
    refine ⟨fun hreq => .inr ?_, fun _ => rfl⟩
    by_contra hnone
    -- nothing is left to be the parameter
    have hp : paramFrom τ.action (argv.drop (τ.before.optind.toNat + 1)) = none := by
      refine paramFrom_eq_none.mpr ⟨hs.split.2.2, fun next hnext' => ?_⟩
      by_contra hvalid
      exact hnone ⟨next, hnext.trans hnext', by simpa using hvalid⟩
    have hname : name ≠ [] := by
      rintro rfl
      exact hne (by simpa using harg')
    rw [hp] at hok
    exact hok (hstrict.missing hreq hname hmem _)
  | some value =>
    refine ⟨fun _ => .inl (Option.some_ne_none _), fun hnone => ?_⟩
    have hp : paramFrom τ.action (argv.drop (τ.before.optind.toNat + 1)) = some value := by
      rw [paramFrom, hs.split.2.2]
    rw [hp] at hok
    exact absurd (hstrict.needless hnone hs.2 value _) hok

/-- Nothing was read yet, and the callbacks know this. -/
def fresh (w : W) : OptState D W where
  optind := 0
  outputs := ⟨fun _ => false, fun _ => 0, fun _ => CDouble.negOne, fun _ => none, fun _ => 0⟩
  e := []
  calls := []
  world := w
  ended := none

/-- A command line of one option is accepted if its entry does not fail. -/
theorem accepted_alone (htable : Table self.options) (hs : Spells arg name value)
    (hne : arg ≠ dashes) (hnames : Names self.options name option) {w : W}
    (hok : ¬ Fails option value w) :
    ∃ t, (process self [arg]).run (fresh w) = (some (), t) ∧
      rounds self [arg] (fresh w) = [⟨fresh w, arg, t⟩] := by
  have hat : At [arg] [arg] (fresh w : OptState D W) := ⟨le_refl _, rfl, rfl⟩
  have hp : paramFrom arg [] = value := by
    rw [paramFrom, hs.split.2.2]
    cases value <;> rfl
  rw [← hp] at hok
  obtain ⟨t, hround⟩ := (round_goes_on htable hat hs hne hnames).mpr hok
  refine ⟨t, ?_, ?_⟩
  · have hlt : (fresh w : OptState D W).optind < ([arg] : List Text).length :=
      (by decide : (0 : Int) < 1)
    rw [process_loop (Int.le_of_lt hlt)]
    show (processLoop self [arg] 1).run (fresh w) = _
    rw [loop_round hlt, hround]
    rfl
  · show loopRounds self [arg] 1 (fresh w) = _
    rw [loopRounds_succ rfl hround]
    rfl

end Rounds

/-- **When the declared arity is enforced.**  For a table of entries with different names, after
`ae_opt_init` with the default callback: on every command line that `ae_opt_process`
accepts, every option that was processed has kept its arity, exactly if every entry
enforces it by itself. -/
theorem arity_iff [CDouble D] {options : List (OptOption D W)}
    (hnamed : ∀ option ∈ options, option.type.isGroup = false → option.name ≠ none)
    (hdistinct :
      ((options.filter (fun option => !option.type.isGroup)).map OptOption.name).Nodup) :
    (∀ argv s t, (process (init none options) argv).run s = (some (), t) →
      ArityKept (init none options).options argv (rounds (init none options) argv s)) ↔
      ∀ name option, Names (init none options).options name option → Strict name option := by
  constructor
  · intro hkept name option hnames
    have htable := hnames.table hnamed hdistinct
    refine ⟨fun hreq hname hmem w => ?_, fun hnone hmem value w => ?_⟩
    · by_contra hok
      -- the option alone is accepted, and has no parameter
      have hs : Spells (dashes ++ name) name none := ⟨rfl, hmem⟩
      have hne : dashes ++ name ≠ dashes := by simpa using hname
      obtain ⟨t, hrun, hrounds⟩ := accepted_alone htable hs hne hnames hok
      have hkeeps := hkept _ _ _ hrun
      rw [hrounds] at hkeeps
      rcases (hkeeps _ (List.mem_singleton_self _) _ _ _ hs hne hnames).required hreq with h | h
      · exact h rfl
      · obtain ⟨next, hnext, -⟩ := h
        cases hnext
    · by_contra hok
      -- the option alone is accepted, and has one
      have hs : Spells (dashes ++ name ++ equals :: value) name (some value) := ⟨rfl, hmem⟩
      have hne : dashes ++ name ++ equals :: value ≠ dashes := by simp
      obtain ⟨t, hrun, hrounds⟩ := accepted_alone htable hs hne hnames hok
      have hkeeps := hkept _ _ _ hrun
      rw [hrounds] at hkeeps
      cases (hkeeps _ (List.mem_singleton_self _) _ _ _ hs hne hnames).none hnone
  · intro hstrict argv s t _ τ hτ name value option hs hne hnames
    obtain ⟨harg, hround⟩ := mem_loopRounds hτ
    exact (hstrict name option hnames).keeps (hnames.table hnamed hdistinct) harg hround hs hne
      hnames

/-! ### A count, and a file without a name -/

/-- `--count` with a required number from 1 on; the default is none. -/
def count : OptOption Unit Unit where
  name := some (ascii "count")
  nameLen := 0
  type := .int (some ⟨0, 1, 9⟩) (some 0)
  isRequired := .required
  callback := none

/-- A missing count is out of its range. -/
theorem count_strict {name : Text} {option : OptOption Unit Unit}
    (h : Names (init none [count]).options name option) : Strict name option := by
  obtain ⟨hmem, -, -⟩ := h
  obtain rfl : option = measure count := by simpa [init] using hmem
  refine ⟨fun _ _ _ w => .inl (.inr ?_), nofun⟩
  intro v hv
  cases hv
  decide

/-- `--count=3` has its number. -/
theorem arity_iff_count : ArityKept (init none [count]).options [ascii "--count=3"]
    (rounds (init none [count]) [ascii "--count=3"] start) := by
  refine (arity_iff ?_ (by decide)).mpr (fun _ _ => count_strict) _ start _ rfl
  simp [count]

/-- `--file` is accepted without its string. -/
theorem missing_accepted : ∃ t,
    (process (init none [file]) [ascii "--file"]).run start = (some (), t) ∧
    ¬ ArityKept (init none [file]).options [ascii "--file"]
      (rounds (init none [file]) [ascii "--file"] start) := by
  refine ⟨_, rfl, fun h => ?_⟩
  have hnames : Names (init none [file]).options (ascii "file") (measure file) :=
    ⟨by simp [init], rfl, rfl⟩
  rcases (h _ (List.mem_singleton_self _) _ none _ ⟨rfl, by decide⟩ (by decide) hnames).required
    rfl with h | h
  · exact h rfl
  · obtain ⟨next, hnext, -⟩ := h
    cases hnext

end Opt
end Libae
