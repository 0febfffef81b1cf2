import Libae.OptWalk
import Mathlib.Data.List.TakeWhile

/-! # Which elements of the command line are read

`Reads` is the grammar of a command line, with the calls it stands for: options with a
value behind a `'='`, options followed by their parameter, bare options, unknown ones,
and a final `--`.  A run that returns `true` should read the elements in front of
`optind` that way, and none of them should be left out.

An option whose value is behind a `'='` takes the next element as well, if it takes a
parameter.  The exact condition for a run to be right (`decomposed_iff`) is that this
does not happen, or only at a `--` behind which the options end anyway (`unskipped`).
A walk that left out an element makes the calls of the elements behind it, and the
grammar, which has no gaps, cannot catch up with it (`Walks.harmless`).
-/
namespace Libae
open Fallible

namespace Opt
variable {D W : Type}

/-! ## The grammar -/

/-- The element spells an option of the name, with a value behind a `'='` or without. -/
def Spells (arg name : Text) : Option Text → Prop
  | none => arg = dashes ++ name ∧ equals ∉ name
  | some value => arg = dashes ++ name ++ equals :: value ∧ equals ∉ name

/-- The option of the table has the name. -/
def Names (options : List (OptOption D W)) (name : Text) (option : OptOption D W) : Prop :=
  option ∈ options ∧ option.type.isGroup = false ∧ option.name = some name

/-- After `ae_opt_init` a table with an entry of the name is one. -/
theorem Names.table {cb : Option (OptCallback W Text)} {options : List (OptOption D W)}
    {name : Text} {option : OptOption D W} (h : Names (init cb options).options name option)
    (hnamed : ∀ option ∈ options, option.type.isGroup = false → option.name ≠ none)
    (hdistinct :
      ((options.filter (fun option => !option.type.isGroup)).map OptOption.name).Nodup) :
    Table (init cb options).options := by
  obtain ⟨hmem, hg, -⟩ := h
  obtain ⟨option, hmem', rfl⟩ := List.mem_map.mp hmem
  exact init_table cb ⟨option, hmem', by rwa [measure_type] at hg⟩ hnamed hdistinct

/-- `Reads options argv calls rest`: `argv` starts with elements that stand for the calls,
and what is left is `rest`. -/
inductive Reads (options : List (OptOption D W)) : List Text → List OptCall → List Text → Prop
  | ends : Reads options [] [] []
  | terminator {rest : List Text} : Reads options (dashes :: rest) [] rest
  | positional {arg : Text} {rest : List Text} : argumentIsValid arg = false →
      Reads options (arg :: rest) [] (arg :: rest)
  | attached {arg name value : Text} {rest left : List Text} {calls : List OptCall}
      {option : OptOption D W} : Names options name option → Spells arg name (some value) →
      Reads options rest calls left →
      Reads options (arg :: rest) (.option (some name) (some value) :: calls) left
  | separate {arg name next : Text} {rest left : List Text} {calls : List OptCall}
      {option : OptOption D W} : Names options name option → Spells arg name none →
      arg ≠ dashes → option.argOk = true → argumentIsValid next = false →
      Reads options rest calls left →
      Reads options (arg :: next :: rest) (.option (some name) (some next) :: calls) left
  | bare {arg name : Text} {param : Option Text} {rest left : List Text}
      {calls : List OptCall} {option : OptOption D W} : Names options name option →
      Spells arg name none → arg ≠ dashes →
      (option.argOk = true → param = none ∧ ∀ next ∈ rest.head?, argumentIsValid next = true) →
      Reads options rest calls left →
      Reads options (arg :: rest) (.option (some name) param :: calls) left
  | unknown {arg : Text} {rest left : List Text} {calls : List OptCall} :
      argumentIsValid arg = true → arg ≠ dashes →
      (∀ name value option, Spells arg name value → ¬ Names options name option) →
      Reads options rest calls left → Reads options (arg :: rest) (.unknown arg :: calls) left

/-- **No element is skipped**: the elements in front of `optind` stand for the calls. -/
def Decomposed (options : List (OptOption D W)) (argv : List Text) (s : OptState D W) : Prop :=
  ∃ left, Reads options argv s.calls left ∧ s.optind + left.length = argv.length

/-! ## The condition -/

/-- The element names an option that takes a parameter, with a value behind a `'='`. -/
def attaches (options : List (OptOption D W)) (arg : Text) : Bool :=
  (lookup options (nameOf arg)).any OptOption.argOk && (valueOf arg).isSome

/-- The element names an option that takes the next one as its parameter. -/
def consumes (options : List (OptOption D W)) (arg next : Text) : Bool :=
  (lookup options (nameOf arg)).any OptOption.argOk && (valueOf arg).isNone &&
    !argumentIsValid next

/-- Options end here. -/
def isEnd (arg : Text) : Bool := !argumentIsValid arg || arg == dashes

/-- Among the options, an element that attaches a parameter is followed by a `--` behind
which no option follows, or there is none. -/
def unskipped (options : List (OptOption D W)) : List Text → Bool
  | [] => true
  | [arg] => isEnd arg || !attaches options arg
  | arg :: next :: rest =>
    if isEnd arg then true
    else if attaches options arg then
      next == dashes && rest.head?.all (fun arg => !argumentIsValid arg)
    else if consumes options arg next then unskipped options rest
    else unskipped options (next :: rest)

section Splitting
variable {arg name : Text} {value : Option Text}

theorem argumentIsValid_iff : argumentIsValid arg = true ↔ ∃ text, arg = dashes ++ text := by
  constructor
  · intro h
    match arg, h with
    | c :: d :: text, h =>
      simp only [argumentIsValid, Bool.and_eq_true, beq_iff_eq] at h
      exact ⟨text, by simp [dashes, h.1, h.2]⟩
  · rintro ⟨text, rfl⟩
    rfl

/-- What is spelled is what the parser splits. -/
theorem Spells.split (h : Spells arg name value) :
    argumentIsValid arg = true ∧ nameOf arg = name ∧ valueOf arg = value := by
  cases value with
  | none =>
    obtain ⟨rfl, hn⟩ := h
    refine ⟨rfl, ?_, ?_⟩
    · show name.takeWhile (· ≠ equals) = name
      rw [List.takeWhile_eq_self_iff]
      intro c hc
      simp only [decide_eq_true_eq]
      rintro rfl
      exact hn hc
    · show (if equals ∈ name then _ else none) = none
      rw [if_neg hn]
  | some value =>
    obtain ⟨rfl, hn⟩ := h
    have htake : nameOf (dashes ++ name ++ equals :: value) = name := by
      show (name ++ equals :: value).takeWhile (· ≠ equals) = name
      rw [List.takeWhile_append_of_pos]
      · simp
      · intro c hc
        simp only [decide_eq_true_eq]
        rintro rfl
        exact hn hc
    refine ⟨rfl, htake, ?_⟩
    rw [valueOf, htake]
    show (if equals ∈ name ++ equals :: value then
      some ((name ++ equals :: value).drop (name.length + 1)) else none) = some value
    rw [if_pos (by simp), List.drop_append]
    simp

theorem exists_spells (h : argumentIsValid arg = true) : ∃ name value, Spells arg name value := by
  obtain ⟨text, rfl⟩ := argumentIsValid_iff.mp h
  -- the name ends at the first `'='`
  by_cases hmem : equals ∈ text
  · obtain ⟨name, value, rfl, hn⟩ := List.eq_append_cons_of_mem hmem
    exact ⟨name, some value, by simp, hn⟩
  · exact ⟨text, none, rfl, hmem⟩

theorem spells_iff :
    Spells arg name value ↔
      argumentIsValid arg = true ∧ nameOf arg = name ∧ valueOf arg = value := by
  constructor
  · exact Spells.split
  · rintro ⟨hvalid, rfl, rfl⟩
    obtain ⟨name, value, hs⟩ := exists_spells hvalid
    obtain ⟨-, rfl, rfl⟩ := hs.split
    exact hs

end Splitting

/-! ## Counting -/

/-- The option takes a parameter whenever it is given one. -/
def weight (options : List (OptOption D W)) : OptCall → Nat
  | .option (some name) (some _) =>
    if (lookup options name).any OptOption.argOk then 2 else 1
  | _ => 1

section Counting
variable {options : List (OptOption D W)} {argv : List Text} {calls : List OptCall} {n : Int}

theorem weight_option {option : OptOption D W} {name : Text} (param : Option Text)
    (hfound : lookup options name = some option) :
    weight options (.option (some name) param) = if takes option param then 2 else 1 := by
  cases param with
  | none => simp [weight, takes]
  | some value => simp [weight, takes, hfound]

theorem one_le_weight (options : List (OptOption D W)) (call : OptCall) :
    1 ≤ weight options call := by
  unfold weight
  split
  · split <;> omega
  · exact le_refl 1

/-- A walk moves at least as far as its calls are heavy. -/
theorem Walks.weight_le (h : Walks options argv calls n) :
    ((calls.map (weight options)).sum : Int) + n ≤ argv.length := by
  induction h with
  | ends => simp
  | terminator =>
    simp
  | positional => simp
  | unknown _ _ _ _ ih =>
    simp only [List.map_cons, List.sum_cons, List.length_cons, weight]
    omega
  | alone _ _ hfound htakes _ ih =>
    simp only [List.map_cons, List.sum_cons, List.length_cons, weight_option _ hfound, htakes,
      Bool.false_eq_true, if_false]
    omega
  | pair _ _ hfound htakes _ ih =>
    simp only [List.map_cons, List.sum_cons, List.length_cons, weight_option _ hfound, htakes,
      if_true]
    omega
  | overrun _ _ hfound htakes =>
    simp [weight_option _ hfound, htakes]

/-- Reading moves at most one element further. -/
theorem Reads.length_le {left : List Text} (h : Reads options argv calls left)
    (hd : ((options.filter (fun option => !option.type.isGroup)).map OptOption.name).Nodup) :
    argv.length ≤ (calls.map (weight options)).sum + left.length + 1 := by
  induction h with
  | ends => simp
  | terminator => simp
  | positional => simp
  | @attached _ name value _ _ _ _ _ _ _ ih =>
    have hone := one_le_weight options (.option (some name) (some value))
    simp only [List.map_cons, List.sum_cons, List.length_cons]
    omega
  | @separate _ name next _ _ _ option hnames _ _ hok _ _ ih =>
    obtain ⟨hmem, hg, hn⟩ := hnames
    have hw := weight_option (some next) (lookup_of_mem hd hmem hg hn)
    simp only [takes, hok, Option.isSome_some, Bool.and_self, if_true] at hw
    simp only [List.map_cons, List.sum_cons, List.length_cons, hw]
    omega
  | @bare _ name param _ _ _ _ _ _ _ _ _ ih =>
    have hone := one_le_weight options (.option (some name) param)
    simp only [List.map_cons, List.sum_cons, List.length_cons]
    omega
  | @unknown arg _ _ _ _ _ _ _ ih =>
    have hone := one_le_weight options (.unknown arg)
    simp only [List.map_cons, List.sum_cons, List.length_cons]
    omega

end Counting

/-! ## A walk and a reading -/

section Compare
variable {options : List (OptOption D W)} {arg : Text} {rest left : List Text}
  {calls : List OptCall} {n : Int}

theorem names_lookup
    (hd : ((options.filter (fun option => !option.type.isGroup)).map OptOption.name).Nodup)
    {name : Text} {option : OptOption D W} :
    Names options name option ↔ lookup options name = some option := by
  constructor
  · rintro ⟨hmem, hg, hn⟩
    exact lookup_of_mem hd hmem hg hn
  · exact lookup_some

theorem paramFrom_eq_none :
    paramFrom arg rest = none ↔
      valueOf arg = none ∧ ∀ next ∈ rest.head?, argumentIsValid next = true := by
  unfold paramFrom
  cases valueOf arg with
  | some value => simp
  | none => cases rest <;> simp

/-- The option stands alone: it takes no parameter, or none follows. -/
theorem takes_eq_false {option : OptOption D W} :
    takes option (paramFrom arg rest) = false ↔ (option.argOk = true →
      valueOf arg = none ∧ ∀ next ∈ rest.head?, argumentIsValid next = true) := by
  rw [← paramFrom_eq_none, takes]
  cases option.argOk <;> cases paramFrom arg rest <;> simp

theorem unskipped_skip (hend : isEnd arg = false) (ha : attaches options arg = false)
    (hc : ∀ next ∈ rest.head?, consumes options arg next = false) :
    unskipped options (arg :: rest) = unskipped options rest := by
  cases rest with
  | nil => simp [unskipped, ha]
  | cons next rest => simp [unskipped, hend, ha, hc next rfl]

theorem unskipped_end (hend : isEnd arg = true) : unskipped options (arg :: rest) = true := by
  cases rest <;> simp [unskipped, hend]

theorem isEnd_of_valid (hvalid : argumentIsValid arg = true) (hne : arg ≠ dashes) :
    isEnd arg = false := by
  simp [isEnd, hvalid, hne]

/-- A walk that starts where the options end. -/
theorem Walks.at_end (h : Walks options rest calls n)
    (hrest : ∀ arg ∈ rest.head?, argumentIsValid arg = false) :
    calls = [] ∧ n = rest.length := by
  cases h with
  | ends => exact ⟨rfl, rfl⟩
  | positional => exact ⟨rfl, by simp⟩
  | terminator => cases hrest dashes rfl
  | unknown hvalid | alone hvalid | pair hvalid | overrun hvalid =>
    rw [hrest _ rfl] at hvalid
    cases hvalid

/-- **A walk that left out an element** is read from that element on only if the element
is a `--` and no option follows it. -/
theorem Walks.harmless
    (hd : ((options.filter (fun option => !option.type.isGroup)).map OptOption.name).Nodup)
    (h : Walks options rest calls n) {next : Text} (hr : Reads options (next :: rest) calls left)
    (hleft : (left.length : Int) = n) :
    next = dashes ∧ ∀ arg ∈ rest.head?, argumentIsValid arg = false := by
  induction h generalizing next with
  | ends =>
    cases hr with
    | terminator => exact ⟨rfl, by simp⟩
    | positional => simp at hleft
  | terminator =>
    cases hr with
    | terminator =>
      simp only [List.length_cons] at hleft
      omega
    | positional =>
      simp only [List.length_cons] at hleft
      omega
  | positional hvalid =>
    cases hr with
    | terminator => exact ⟨rfl, by simpa using hvalid⟩
    | positional =>
      simp only [List.length_cons] at hleft
      omega
  | unknown hvalid hne _ _ ih =>
    -- the walk's own element would be the next one left out, so a `--`
    cases hr with
    | unknown _ _ _ hr => exact absurd (ih hr hleft).1 hne
  | alone hvalid hne _ _ _ ih =>
    generalize hparam : paramFrom _ _ = param at hr
    cases hr with
    | attached _ _ hr => exact absurd (ih hr hleft).1 hne
    | bare _ _ _ _ hr => exact absurd (ih hr hleft).1 hne
    | separate _ _ _ _ hnext =>
      rw [hvalid] at hnext
      cases hnext
  | pair hvalid _ _ _ hw =>
    -- what is read would be two elements behind the walk
    have hcount := hw.weight_le
    generalize hparam : paramFrom _ _ = param at hr
    cases hr with
    | attached _ _ hr =>
      have hlen := hr.length_le hd
      simp only [List.length_cons] at hlen
      omega
    | bare _ _ _ _ hr =>
      have hlen := hr.length_le hd
      simp only [List.length_cons] at hlen
      omega
    | separate _ _ _ _ hnext =>
      rw [hvalid] at hnext
      cases hnext
  | overrun => omega

/-! ### What is read after a call -/

section Calls
variable {option : OptOption D W} {next value : Text}
  (hd : ((options.filter (fun option => !option.type.isGroup)).map OptOption.name).Nodup)
  (hvalid : argumentIsValid arg = true)
include hd hvalid

theorem reads_unknown_iff (hne : arg ≠ dashes) (hnone : lookup options (nameOf arg) = none) :
    Reads options (arg :: rest) (.unknown arg :: calls) left ↔ Reads options rest calls left := by
  constructor
  · intro hr
    cases hr with
    | unknown _ _ _ hr => exact hr
  · intro hr
    refine .unknown hvalid hne ?_ hr
    intro name value option hs hnames
    obtain ⟨-, rfl, -⟩ := hs.split
    rw [(names_lookup hd).mp hnames] at hnone
    cases hnone

variable (hfound : lookup options (nameOf arg) = some option)
include hfound

/-- An option that stands alone. -/
theorem reads_alone_iff (hne : arg ≠ dashes) (htakes : takes option (paramFrom arg rest) = false) :
    Reads options (arg :: rest) (.option (some (nameOf arg)) (paramFrom arg rest) :: calls) left ↔
      Reads options rest calls left := by
  have hfree := takes_eq_false.mp htakes
  have hnames := (names_lookup hd).mpr hfound
  constructor
  · intro hr
    generalize hparam : paramFrom arg rest = param at hr
    cases hr with
    | attached _ _ hr => exact hr
    | bare _ _ _ _ hr => exact hr
    | separate hnames _ _ hok hnext =>
      -- the option would take the next element
      rw [(names_lookup hd).mp hnames] at hfound
      cases hfound
      rw [(hfree hok).2 _ rfl] at hnext
      cases hnext
  · intro hr
    cases hv : valueOf arg with
    | some value =>
      rw [show paramFrom arg rest = some value by simp [paramFrom, hv]]
      exact .attached hnames (spells_iff.mpr ⟨hvalid, rfl, hv⟩) hr
    | none =>
      refine .bare hnames (spells_iff.mpr ⟨hvalid, rfl, hv⟩) hne (fun hok => ?_) hr
      exact ⟨paramFrom_eq_none.mpr (hfree hok), (hfree hok).2⟩

/-- An option whose parameter is the next element. -/
theorem reads_separate_iff (hne : arg ≠ dashes) (hok : option.argOk = true)
    (hv : valueOf arg = none) (hnext : argumentIsValid next = false) :
    Reads options (arg :: next :: rest) (.option (some (nameOf arg)) (some next) :: calls) left ↔
      Reads options rest calls left := by
  constructor
  · intro hr
    cases hr with
    | separate _ _ _ _ _ hr => exact hr
    | attached _ hs =>
      rw [hs.split.2.2] at hv
      cases hv
    | bare hnames _ _ halone =>
      rw [(names_lookup hd).mp hnames] at hfound
      cases hfound
      cases (halone hok).1
  · exact .separate ((names_lookup hd).mpr hfound) (spells_iff.mpr ⟨hvalid, rfl, hv⟩) hne hok hnext

/-- An option with a value behind the `'='`. -/
theorem reads_attached_iff (hv : valueOf arg = some value) :
    Reads options (arg :: rest) (.option (some (nameOf arg)) (some value) :: calls) left ↔
      Reads options rest calls left := by
  constructor
  · intro hr
    cases hr with
    | attached _ _ hr => exact hr
    | separate _ hs =>
      rw [hs.split.2.2] at hv
      cases hv
    | bare _ hs =>
      rw [hs.split.2.2] at hv
      cases hv
  · exact .attached ((names_lookup hd).mpr hfound) (spells_iff.mpr ⟨hvalid, rfl, hv⟩)

end Calls

/-- **A walk decomposes** exactly if it skips no element. -/
theorem Walks.reads_iff
    (hd : ((options.filter (fun option => !option.type.isGroup)).map OptOption.name).Nodup)
    (h : Walks options rest calls n) :
    (∃ left, Reads options rest calls left ∧ (left.length : Int) = n) ↔
      unskipped options rest = true := by
  induction h with
  | ends => exact iff_of_true ⟨[], .ends, rfl⟩ rfl
  | terminator => exact iff_of_true ⟨_, .terminator, rfl⟩ (unskipped_end rfl)
  | positional hvalid =>
    refine iff_of_true ⟨_, .positional hvalid, by simp⟩ (unskipped_end ?_)
    simp [isEnd, hvalid]
  | unknown hvalid hne hnone _ ih =>
    rw [unskipped_skip (isEnd_of_valid hvalid hne) (by simp [attaches, hnone])
      (by simp [consumes, hnone]), ← ih]
    simp only [reads_unknown_iff hd hvalid hne hnone]
  | @alone arg rest calls n option hvalid hne hfound htakes _ ih =>
    have hfree := takes_eq_false.mp htakes
    rw [unskipped_skip (isEnd_of_valid hvalid hne), ← ih]
    · simp only [reads_alone_iff hd hvalid hfound hne htakes]
    · cases hok : option.argOk with
      | false => simp [attaches, hfound, hok]
      | true => simp [attaches, (hfree hok).1]
    · intro next hnext
      cases hok : option.argOk with
      | false => simp [consumes, hfound, hok]
      | true => simp [consumes, (hfree hok).2 next hnext]
  | @pair arg next rest calls n option hvalid hne hfound htakes hw ih =>
    obtain ⟨hok, hsome⟩ := Bool.and_eq_true_iff.mp htakes
    cases hv : valueOf arg with
    | none =>
      -- the parameter is the next element
      have hnext : argumentIsValid next = false := by
        cases hvn : argumentIsValid next with
        | false => rfl
        | true => simp [paramFrom, hv, hvn] at hsome
      have hparam : paramFrom arg (next :: rest) = some next := by simp [paramFrom, hv, hnext]
      have hun : unskipped options (arg :: next :: rest) = unskipped options rest := by
        simp [unskipped, isEnd_of_valid hvalid hne, attaches, consumes, hv, hfound, hok, hnext]
      rw [hparam, hun, ← ih]
      simp only [reads_separate_iff hd hvalid hfound hne hok hv hnext]
    | some value =>
      -- the next element is left out
      have hparam : paramFrom arg (next :: rest) = some value := by simp [paramFrom, hv]
      have hun : unskipped options (arg :: next :: rest) = true ↔
          next = dashes ∧ ∀ arg ∈ rest.head?, argumentIsValid arg = false := by
        cases rest <;>
          simp [unskipped, isEnd_of_valid hvalid hne, attaches, hv, hfound, hok]
      rw [hparam, hun]
      simp only [reads_attached_iff hd hvalid hfound hv]
      constructor
      · rintro ⟨left, hr, hleft⟩
        exact hw.harmless hd hr hleft
      · rintro ⟨rfl, hrest⟩
        obtain ⟨rfl, rfl⟩ := hw.at_end hrest
        exact ⟨rest, .terminator, rfl⟩
  | @overrun arg option hvalid hne hfound htakes =>
    obtain ⟨hok, hsome⟩ := Bool.and_eq_true_iff.mp htakes
    have hv : (valueOf arg).isSome = true := by
      cases hv : valueOf arg with
      | some value => rfl
      | none => simp [paramFrom, hv] at hsome
    apply iff_of_false
    · rintro ⟨left, -, hleft⟩
      omega
    · simp [unskipped, isEnd_of_valid hvalid hne, attaches, hfound, hok, hv]

end Compare

/-- **When no element of the command line is skipped.**  For a table of entries with
different names, after `ae_opt_init`: whenever `ae_opt_process` returns `true`, the
elements in front of `optind` are those that were processed, exactly if no element
attaches a parameter in front of one that would still be read. -/
theorem decomposed_iff [CDouble D] (cb : Option (OptCallback W Text))
    {options : List (OptOption D W)} (hentry : ∃ option ∈ options, option.type.isGroup = false)
    (hnamed : ∀ option ∈ options, option.type.isGroup = false → option.name ≠ none)
    (hdistinct :
      ((options.filter (fun option => !option.type.isGroup)).map OptOption.name).Nodup)
    {argv : List Text} {s t : OptState D W} (hzero : s.optind = 0) (hcalls : s.calls = [])
    (hr : (process (init cb options) argv).run s = (some (), t)) :
    Decomposed (init cb options).options argv t ↔
      unskipped (init cb options).options argv = true := by
  have htable := init_table cb hentry hnamed hdistinct
  obtain ⟨calls, n, hw, hc, hn⟩ := process_walks htable hzero hr
  rw [hcalls, List.nil_append] at hc
  rw [← hw.reads_iff htable.distinct, Decomposed, hc]
  constructor
  · rintro ⟨left, hr, hleft⟩
    exact ⟨left, hr, by omega⟩
  · rintro ⟨left, hr, hleft⟩
    exact ⟨left, hr, by omega⟩

/-! ### A file to open -/

/-- No table here has a `double`. -/
instance : CDouble Unit := ⟨fun _ => none, fun _ _ => false, fun _ => [], ()⟩

/-- `--file` with a required string. -/
def file : OptOption Unit Unit where
  name := some (ascii "file")
  nameLen := 0
  type := .string (some 0)
  isRequired := .required
  callback := none

/-- Nothing was read yet. -/
def start : OptState Unit Unit where
  optind := 0
  outputs := ⟨fun _ => false, fun _ => 0, fun _ => (), fun _ => none, fun _ => 0⟩
  e := []
  calls := []
  world := ()
  ended := none

/-- `--file=a b`, of which both elements are read. -/
theorem attached_run : ∃ t, (process (init none [file]) [ascii "--file=a", ascii "b"]).run start =
    (some (), t) ∧ t.optind = 2 ∧ t.calls = [.option (some (ascii "file")) (some (ascii "a"))] :=
  ⟨_, rfl, rfl, rfl⟩

/-- `--file a b` is read up to `b`. -/
theorem decomposed_iff_separate :
    ∃ t, (process (init none [file]) [ascii "--file", ascii "a", ascii "b"]).run start =
      (some (), t) ∧
      Decomposed (init none [file]).options [ascii "--file", ascii "a", ascii "b"] t := by
  have hrun : ∃ t, (process (init none [file]) [ascii "--file", ascii "a", ascii "b"]).run start =
      (some (), t) := ⟨_, rfl⟩
  obtain ⟨t, hr⟩ := hrun
  refine ⟨t, hr, (decomposed_iff none ⟨file, by simp, rfl⟩ ?_ (by decide) rfl rfl hr).mpr rfl⟩
  simp [file]

/-- In `--file=a b` the `b` is skipped. -/
theorem attached_skips : ∃ t, (process (init none [file]) [ascii "--file=a", ascii "b"]).run start =
    (some (), t) ∧ ¬ Decomposed (init none [file]).options [ascii "--file=a", ascii "b"] t := by
  obtain ⟨t, hr, hoptind, hcalls⟩ := attached_run
  refine ⟨t, hr, ?_⟩
  rintro ⟨left, hread, hleft⟩
  rw [hcalls] at hread
  cases hread with
  | bare _ hs => cases hs.split.2.2
  | attached _ _ hread =>
    cases hread with
    | positional =>
      rw [hoptind] at hleft
      cases hleft

end Opt
end Libae
