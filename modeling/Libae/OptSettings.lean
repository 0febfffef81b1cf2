import Libae.OptIntegers
import Libae.OptUses

/-! # Settings

A setting is an option and what it is given.  Written as text and read by `ae_opt_process`, it
comes back: an `int` that `%d` printed is the one that `%d` reads (`denotes_intText`), and a
string is the element itself.  So a command line of settings leaves in every output what the
last setting of its option says, whatever was set before (`settings_round_trip`).
-/
namespace Libae
open Fallible

namespace Opt
variable {D W : Type}

/-! ## Integers as text -/

section Integers

/-- A digit is a byte, and a digit as a byte. -/
theorem isDigit_of_char {c : Char} (h : c.isDigit = true) :
    c.toNat.toUInt8.toNat = c.toNat ∧ isDigit c.toNat.toUInt8 = true := by
  obtain ⟨hmin, hmax⟩ : 48 ≤ c.toNat ∧ c.toNat ≤ 57 := Char.isDigit_iff_toNat.mp h
  have hbyte : c.toNat.toUInt8.toNat = c.toNat := Nat.mod_eq_of_lt (by omega)
  refine ⟨hbyte, ?_⟩
  rw [isDigit, Bool.and_eq_true, decide_eq_true_eq, decide_eq_true_eq, UInt8.le_iff_toNat_le,
    UInt8.le_iff_toNat_le, hbyte]
  exact ⟨hmin, hmax⟩

/-- Decimal digits denote the number they were made of. -/
theorem decimal_repr (n : Nat) : ascii n.repr ≠ [] ∧ (∀ c ∈ ascii n.repr, isDigit c = true) ∧
    decimal (ascii n.repr) = n := by
  have hdigits : ∀ c ∈ Nat.toDigits 10 n, c.isDigit = true :=
    fun c hc => Nat.isDigit_of_mem_toDigits (by omega) (by omega) hc
  have hascii : ascii n.repr = (Nat.toDigits 10 n).map (fun c => c.toNat.toUInt8) := by
    rw [ascii, Nat.toList_repr]
  refine ⟨?_, ?_, ?_⟩
  · rw [hascii, ne_eq, List.map_eq_nil_iff]
    exact Nat.toDigits_ne_nil
  · rw [hascii]
    intro c hc
    obtain ⟨d, hd, rfl⟩ := List.mem_map.mp hc
    exact (isDigit_of_char (hdigits d hd)).2
  · have hfold : ∀ ds : List Char, (∀ c ∈ ds, c.isDigit = true) → ∀ m,
        (ds.map (fun c => c.toNat.toUInt8)).foldl (fun n c => 10 * n + (c.toNat - 48)) m =
          Nat.ofDigitChars 10 ds m := by
      intro ds
      induction ds with
      | nil => exact fun _ _ => rfl
      | cons d ds ih =>
        intro hds m
        rw [List.forall_mem_cons] at hds
        rw [List.map_cons, List.foldl_cons, ih hds.2, Nat.ofDigitChars_cons,
          (isDigit_of_char hds.1).1]
        rfl
    rw [← digitsValue_eq, hascii]
    show ((Nat.toDigits 10 n).map _).foldl _ 0 = n
    rw [hfold _ hdigits, Nat.ofDigitChars_ten_toDigits]

/-- **What `%d` prints is what `%d` reads.** -/
theorem denotes_intText (v : Int) : Denotes (intText v) v := by
  have htext : intText v =
      if 0 ≤ v then ascii v.toNat.repr else 45 :: ascii (-v).toNat.repr := by
    rw [intText, Int.toString_eq_repr, Int.repr_eq_if]
    split
    · rfl
    · simp [ascii]
  rw [htext]
  split
  · next hnonneg =>
    obtain ⟨hne, hdigits, hvalue⟩ := decimal_repr v.toNat
    have hdenotes := Denotes.digits hne hdigits
    rw [hvalue, Int.toNat_of_nonneg hnonneg] at hdenotes
    exact hdenotes
  · next hneg =>
    obtain ⟨hne, hdigits, hvalue⟩ := decimal_repr (-v).toNat
    have hdenotes := Denotes.minus hne hdigits
    rw [hvalue, Int.toNat_of_nonneg (by omega), Int.neg_neg] at hdenotes
    exact hdenotes

/-- An integer is no option. -/
theorem Denotes.not_option {text : Text} {v : Int} (h : Denotes text v) :
    argumentIsValid text = false := by
  have hdigit : ∀ {c : UInt8}, isDigit c = true → c ≠ 45 := by
    rintro c hc rfl
    exact absurd hc (by decide)
  rw [Bool.eq_false_iff]
  intro hvalid
  obtain ⟨text', rfl⟩ := argumentIsValid_iff.mp hvalid
  have hmem : (45 : UInt8) ∈ dashes ++ text' := List.mem_cons_self
  generalize htext : dashes ++ text' = text at h
  cases h with
  | digits _ hds => exact hdigit (hds 45 (htext ▸ hmem)) rfl
  | plus _ _ => exact absurd (List.cons.inj htext).1 (by decide)
  | minus hne hds =>
    obtain ⟨-, htail⟩ := List.cons.inj htext
    exact hdigit (hds 45 (htail ▸ List.mem_cons_self)) rfl
  | space hc _ =>
    obtain ⟨rfl, -⟩ := List.cons.inj htext
    exact absurd hc (by decide)

end Integers

end Opt

/-! ## Values -/

/-- What an option is given. -/
inductive OptGiven (D : Type)
  | bare
  | int (v : Int)
  | double (text : Text) (v : D)
  | string (text : Text)

namespace OptGiven
variable {D : Type}

/-- The parameter, as text. -/
def param : OptGiven D → Option Text
  | .bare => none
  | .int v => some (Opt.intText v)
  | .double text _ | .string text => some text

/-- The text is no option.  That of an integer never is. -/
def Plain : OptGiven D → Prop
  | .bare | .int _ => True
  | .double text _ | .string text => Opt.argumentIsValid text = false

theorem Plain.param {given : OptGiven D} (h : given.Plain) :
    ∀ p ∈ given.param, Opt.argumentIsValid p = false := by
  intro p hp
  cases given with
  | bare => cases hp
  | int v =>
    cases hp
    exact (Opt.denotes_intText v).not_option
  | double text v | string text =>
    cases hp
    exact h

end OptGiven

namespace OptType
variable {D : Type}

/-- The type takes what it is given, and has an output for it. -/
def Accepts [CDouble D] : OptType D → OptGiven D → Prop
  | .flag out, .bare | .bit _ out, .bare | .counter out, .bare => out ≠ none
  | .string out, .bare | .string out, .string _ => out ≠ none
  | .counter out, .int v => out ≠ none ∧ Opt.Fits v
  | .int params out, .bare => out ≠ none ∧ Opt.Within params (params.elim (-1) OptRange.default)
  | .int params out, .int v => out ≠ none ∧ Opt.Fits v ∧ Opt.Within params v
  | .double params out, .bare => out ≠ none ∧
      Opt.outside CDouble.lt params (params.elim CDouble.negOne OptRange.default) = false
  | .double params out, .double text v => out ≠ none ∧ CDouble.scan text = some v ∧
      Opt.outside CDouble.lt params v = false
  | .callbackOnly, .bare | .callbackOnly, .string _ => True
  | _, _ => False

/-- What that does to the outputs. -/
def put [CDouble D] : OptType D → OptGiven D → Outputs D → Outputs D
  | .flag (some a), _, o => { o with bools := Function.update o.bools a true }
  | .bit whichBits (some a), _, o =>
      { o with bits := Function.update o.bits a (o.bits a ||| whichBits.toUInt32) }
  | .counter (some a), .bare, o =>
      { o with ints := Function.update o.ints a (Opt.toInt (o.ints a + 1)) }
  | .counter (some a), .int v, o =>
      { o with ints := Function.update o.ints a (Opt.toInt (o.ints a + v)) }
  | .int params (some a), .bare, o =>
      { o with ints := Function.update o.ints a (params.elim (-1) OptRange.default) }
  | .int _ (some a), .int v, o => { o with ints := Function.update o.ints a v }
  | .double params (some a), .bare, o => { o with
      doubles := Function.update o.doubles a (params.elim CDouble.negOne OptRange.default) }
  | .double _ (some a), .double _ v, o =>
      { o with doubles := Function.update o.doubles a v }
  | .string (some a), given, o => { o with strings := Function.update o.strings a given.param }
  | _, _, o => o

/-- The value that the output has then, if it does not depend on the one before. -/
def assigned [CDouble D] : OptType D → OptGiven D → Option (OptValue D)
  | .flag _, _ => some (.bool true)
  | .int params _, .bare => some (.int (params.elim (-1) OptRange.default))
  | .int _ _, .int v => some (.int v)
  | .double params _, .bare => some (.double (params.elim CDouble.negOne OptRange.default))
  | .double _ _, .double _ v => some (.double v)
  | .string _, given => some (.string given.param)
  | _, _ => none

variable [CDouble D] {type : OptType D} {given : OptGiven D} {c : OptCell}

/-- A type that accepts something is no group. -/
theorem Accepts.not_group (h : type.Accepts given) : type.isGroup = false := by
  cases type with
  | group => cases given <;> exact h.elim
  | _ => rfl

/-- Only its own output is touched. -/
theorem put_value_other (o : Outputs D) (h : type.cell ≠ some c) :
    (type.put given o).value c = o.value c := by
  cases type with
  | group | help | version | callbackOnly => rfl
  | flag out =>
    cases out with
    | none => rfl
    | some a => exact o.value_bools true h
  | bit whichBits out =>
    cases out with
    | none => rfl
    | some a => exact o.value_bits _ h
  | string out =>
    cases out with
    | none => rfl
    | some a => exact o.value_strings given.param h
  | counter out | int params out =>
    cases out with
    | none => rfl
    | some a =>
      cases given with
      | bare | int v => exact o.value_ints _ h
      | double text v | string text => rfl
  | double params out =>
    cases out with
    | none => rfl
    | some a =>
      cases given with
      | bare | double text v => exact o.value_doubles _ h
      | int v | string text => rfl

/-- There the value is found that was assigned. -/
theorem put_value_self {v : OptValue D} (o : Outputs D) (hcell : type.cell = some c)
    (hv : type.assigned given = some v) : (type.put given o).value c = v := by
  cases type with
  | group | help | version | callbackOnly | bit _ _ | counter _ => cases hv
  | flag out =>
    obtain ⟨a, rfl, rfl⟩ := Option.map_eq_some_iff.mp hcell
    cases hv
    simp [put, Outputs.value]
  | string out =>
    obtain ⟨a, rfl, rfl⟩ := Option.map_eq_some_iff.mp hcell
    cases hv
    simp [put, Outputs.value]
  | int params out =>
    obtain ⟨a, rfl, rfl⟩ := Option.map_eq_some_iff.mp hcell
    cases given with
    | bare | int v =>
      cases hv
      exact congrArg OptValue.int (Function.update_self a _ o.ints)
    | double text v | string text => cases hv
  | double params out =>
    obtain ⟨a, rfl, rfl⟩ := Option.map_eq_some_iff.mp hcell
    cases given with
    | bare | double text v =>
      cases hv
      exact congrArg OptValue.double (Function.update_self a _ o.doubles)
    | int v | string text => cases hv

end OptType

namespace Opt
variable {D W : Type}

section Values
variable [CDouble D] {type : OptType D} {given : OptGiven D} {s : OptState D W}

/-- An `int` that is read back is the one that was written. -/
theorem scanInt_intText {v : Int} (h : Fits v) : scanInt (intText v) = some v :=
  scanInt_iff.mpr ⟨v, [], leads_nil.mpr (denotes_intText v), h.toInt_eq.symm⟩

/-- **The type reads what was written.** -/
theorem parseType_put (name : Option Text) (h : type.Accepts given) :
    (parseType name given.param type).run s =
      (some (), { s with outputs := type.put given s.outputs }) := by
  cases type with
  | group | help | version => cases given <;> exact h.elim
  | callbackOnly => rfl
  | flag out =>
    cases given with
    | bare =>
      obtain ⟨a, rfl⟩ := Option.ne_none_iff_exists'.mp h
      rfl
    | _ => exact h.elim
  | bit whichBits out =>
    cases given with
    | bare =>
      obtain ⟨a, rfl⟩ := Option.ne_none_iff_exists'.mp h
      rfl
    | _ => exact h.elim
  | string out =>
    cases given with
    | bare | string text =>
      obtain ⟨a, rfl⟩ := Option.ne_none_iff_exists'.mp h
      rfl
    | _ => exact h.elim
  | counter out =>
    cases given with
    | bare =>
      obtain ⟨a, rfl⟩ := Option.ne_none_iff_exists'.mp h
      rfl
    | int v =>
      obtain ⟨a, rfl⟩ := Option.ne_none_iff_exists'.mp h.1
      have hread : (counterNumbers name a : Numbers Int D W).read (some (intText v)) = some v :=
        scanInt_intText h.2
      show (parseCounter name (some (intText v)) (some a)).run s = _
      rw [parseCounter_run, Numbers.parse_some _ hread]
      rfl
    | _ => exact h.elim
  | int params out =>
    cases given with
    | bare =>
      obtain ⟨a, rfl⟩ := Option.ne_none_iff_exists'.mp h.1
      show (parseInt name params none (some a)).run s = _
      rw [parseInt_run, Numbers.parse_some _ rfl,
        Numbers.fit_inside _ (outside_eq_false.mpr h.2)]
      rfl
    | int v =>
      obtain ⟨a, rfl⟩ := Option.ne_none_iff_exists'.mp h.1
      have hread : (intNumbers name a params : Numbers Int D W).read (some (intText v)) = some v :=
        scanInt_intText h.2.1
      show (parseInt name params (some (intText v)) (some a)).run s = _
      rw [parseInt_run, Numbers.parse_some _ hread,
        Numbers.fit_inside _ (outside_eq_false.mpr h.2.2)]
      rfl
    | _ => exact h.elim
  | double params out =>
    cases given with
    | bare =>
      obtain ⟨a, rfl⟩ := Option.ne_none_iff_exists'.mp h.1
      show (parseDouble name params none (some a)).run s = _
      rw [parseDouble_run, Numbers.parse_some _ rfl, Numbers.fit_inside _ h.2]
      rfl
    | double text v =>
      obtain ⟨a, rfl⟩ := Option.ne_none_iff_exists'.mp h.1
      have hread : (doubleNumbers name a params : Numbers D D W).read (some text) = some v := h.2.1
      show (parseDouble name params (some text) (some a)).run s = _
      rw [parseDouble_run, Numbers.parse_some _ hread, Numbers.fit_inside _ h.2.2]
      rfl
    | _ => exact h.elim

end Values

end Opt

/-! ## A command line of settings -/

/-- An option and what it is given. -/
structure OptSetting (D W : Type) where
  option : OptOption D W
  given : OptGiven D

namespace OptSetting
variable {D W : Type}

/-- The option with the parameter as text. -/
def use (setting : OptSetting D W) : OptUse D W := ⟨setting.option, setting.given.param⟩

/-- What the setting does to the outputs. -/
def put [CDouble D] (o : Outputs D) (setting : OptSetting D W) : Outputs D :=
  setting.option.type.put setting.given o

/-- The option is in the table and accepts what it is given, as does its callback. -/
structure Fitting [CDouble D] (options : List (OptOption D W)) (setting : OptSetting D W) :
    Prop where
  mem : setting.option ∈ options
  name : ∃ name, setting.option.name = some name ∧ name ≠ [] ∧ Opt.equals ∉ name
  accepts : setting.option.type.Accepts setting.given
  plain : setting.given.Plain
  argOk : setting.given.param.isSome = true → setting.option.argOk = true
  approves : ∀ cb, setting.option.callback = some cb → ∀ w, (cb w setting.given.param).1 = true

variable [CDouble D] {options : List (OptOption D W)} {setting : OptSetting D W}
  {settings : List (OptSetting D W)}

theorem Fitting.writable (h : setting.Fitting options) : setting.use.Writable options := by
  refine ⟨h.mem, h.accepts.not_group, h.name, fun p hp => ⟨h.argOk ?_, h.plain.param p hp⟩⟩
  exact Option.isSome_iff_exists.mpr ⟨p, hp⟩

/-- **A setting is made**, and nothing else is written. -/
theorem Fitting.run (h : setting.Fitting options) (s : OptState D W) :
    ∃ t, setting.use.run.run s = (some (), t) ∧ t.outputs = put s.outputs setting ∧
      (setting.option.callback = none → t.e = s.e) := by
  -- the callback comes behind the type
  have hrest : ∀ s : OptState D W, ∃ t, (do
      Opt.parseType setting.option.name setting.given.param setting.option.type
      Opt.callIfAny setting.option.callback setting.given.param).run s = (some (), t) ∧
        t.outputs = put s.outputs setting ∧ (setting.option.callback = none → t.e = s.e) := by
    intro s
    rw [bind_of_some (Opt.parseType_put setting.option.name h.accepts)]
    cases hcb : setting.option.callback with
    | none => exact ⟨_, rfl, rfl, fun _ => rfl⟩
    | some cb =>
      rw [Opt.callIfAny, Opt.runCallback_run, if_pos (h.approves cb hcb _)]
      exact ⟨_, rfl, rfl, fun hnone => absurd hnone (Option.some_ne_none cb)⟩
  rw [OptUse.run, bind_of_some (modify_run _ s), Opt.optionProcess, bind_of_some (modify_run _ _)]
  dsimp only
  split
  · rw [bind_of_some (modify_run _ _)]
    exact hrest _
  · exact hrest _

/-- One setting after the other is made, by induction on them. -/
theorem runAll (h : ∀ setting ∈ settings, setting.Fitting options) (s : OptState D W) :
    ∃ t, (OptUse.runAll (settings.map use)).run s = (some (), t) ∧
      t.optind = s.optind + (settings.flatMap (fun setting => setting.use.words)).length ∧
      t.outputs = settings.foldl put s.outputs ∧
      ((∀ setting ∈ settings, setting.option.callback = none) → t.e = s.e) := by
  induction settings generalizing s with
  | nil => exact ⟨s, rfl, by simp, rfl, fun _ => rfl⟩
  | cons setting settings ih =>
    rw [List.forall_mem_cons] at h
    obtain ⟨t, hrun, houtputs, he⟩ := h.1.run s
    have hoptind := Opt.use_optind h.1.writable s
    rw [hrun] at hoptind
    obtain ⟨u, hruns, hoptind', houtputs', he'⟩ := ih h.2 t
    refine ⟨u, ?_, ?_, ?_, ?_⟩
    · rw [List.map_cons, OptUse.runAll, bind_of_some hrun, hruns]
    · rw [List.flatMap_cons, List.length_append, hoptind', hoptind]
      push_cast
      omega
    · rw [houtputs', houtputs]
      rfl
    · intro hnone
      rw [List.forall_mem_cons] at hnone
      rw [he' hnone.2, he hnone.1]

/-- An output that belongs to none of the settings. -/
theorem foldl_put_other {c : OptCell} (o : Outputs D)
    (h : ∀ setting ∈ settings, setting.option.type.cell ≠ some c) :
    (settings.foldl put o).value c = o.value c := by
  induction settings generalizing o with
  | nil => rfl
  | cons setting settings ih =>
    rw [List.forall_mem_cons] at h
    rw [List.foldl_cons, ih _ h.2]
    exact OptType.put_value_other o h.1

/-- **What is set last is what is found.** -/
theorem foldl_put_last {front back : List (OptSetting D W)} {c : OptCell} {v : OptValue D}
    (o : Outputs D) (hcell : setting.option.type.cell = some c)
    (hv : setting.option.type.assigned setting.given = some v)
    (hback : ∀ later ∈ back, later.option.type.cell ≠ some c) :
    ((front ++ setting :: back).foldl put o).value c = v := by
  rw [List.foldl_append, List.foldl_cons, foldl_put_other _ hback]
  exact OptType.put_value_self _ hcell hv

end OptSetting

namespace Opt
variable {D W : Type} [CDouble D] {options : List (OptOption D W)} {s : OptState D W}

/-- **Settings come back.**  For every table with different names and every list of settings
that fit it, written out behind `before` and in front of a `rest` that may follow them:
`ae_opt_process` returns `true` and has read the words of the settings, and `"--"` if it follows.
Each output has the value that was assigned to it last, and those of no setting are unchanged;
without callbacks there is no message. -/
theorem settings_round_trip (cb : Option (OptCallback W Text)) (before rest : List Text)
    (settings : List (OptSetting D W))
    (hentry : ∃ option ∈ options, option.type.isGroup = false)
    (hnamed : ∀ option ∈ options, option.type.isGroup = false → option.name ≠ none)
    (hdistinct :
      ((options.filter (fun option => !option.type.isGroup)).map OptOption.name).Nodup)
    (hfitting : ∀ setting ∈ settings, setting.Fitting options)
    (hcloses : Closes (settings.map OptSetting.use) rest) (hstart : s.optind = before.length) :
    ∃ t, (process (init cb options)
        (before ++ (settings.flatMap (fun setting => setting.use.words) ++ rest))).run s =
          (some (), t) ∧
      t.optind = before.length + (settings.flatMap (fun setting => setting.use.words)).length +
        (if rest.head? = some dashes then 1 else 0) ∧
      t.outputs = settings.foldl OptSetting.put s.outputs ∧
      (∀ c, (∀ setting ∈ settings, setting.option.type.cell ≠ some c) →
        t.outputs.value c = s.outputs.value c) ∧
      (∀ front setting back c v, settings = front ++ setting :: back →
        setting.option.type.cell = some c →
        setting.option.type.assigned setting.given = some v →
        (∀ later ∈ back, later.option.type.cell ≠ some c) → t.outputs.value c = v) ∧
      ((∀ setting ∈ settings, setting.option.callback = none) → t.e = s.e) := by
  have hwritable : ∀ use ∈ settings.map OptSetting.use, use.Writable options := by
    intro use huse
    obtain ⟨setting, hsetting, rfl⟩ := List.mem_map.mp huse
    exact (hfitting setting hsetting).writable
  have hwords : settings.flatMap (fun setting => setting.use.words) =
      (settings.map OptSetting.use).flatMap OptUse.words := by rw [List.flatMap_map]
  have htable := init_table cb hentry hnamed hdistinct
  have hread := call_uses htable hwritable hcloses (At.behind hstart)
  rw [← hwords] at hread
  obtain ⟨t, hrun, hoptind, houtputs, he⟩ := OptSetting.runAll hfitting s
  refine ⟨_, hread.trans (bind_of_some hrun), ?_, houtputs, ?_, ?_, he⟩
  · show t.optind + _ = _
    rw [hoptind, hstart]
  · intro c hother
    show t.outputs.value c = _
    rw [houtputs]
    exact OptSetting.foldl_put_other s.outputs hother
  · rintro front setting back c v rfl hcell hv hback
    show t.outputs.value c = _
    rw [houtputs]
    exact OptSetting.foldl_put_last s.outputs hcell hv hback

/-- `--n 7 --n 42 --` leaves 42. -/
theorem settings_round_trip_percent :
    ∃ t, (process (init none [percent])
        [ascii "--n", ascii "7", ascii "--n", ascii "42", dashes]).run start = (some (), t) ∧
      t.optind = 5 ∧ t.outputs.value (.int 0) = .int 42 := by
  have hfitting : ∀ v : Int, 0 ≤ v → v ≤ 100 →
      (OptSetting.mk percent (.int v)).Fitting [percent] := by
    intro v hmin hmax
    refine ⟨List.mem_cons_self, ⟨_, rfl, by simp [ascii], by decide⟩, ⟨by simp, ?_, ?_⟩, trivial,
      fun _ => rfl, nofun⟩
    · exact ⟨by omega, by omega⟩
    · intro r hr
      cases hr
      exact ⟨hmin, hmax⟩
  have hnamed : ∀ option ∈ [percent], option.type.isGroup = false → option.name ≠ none := by
    simp [percent]
  have hboth : ∀ setting ∈ [OptSetting.mk percent (.int 7), ⟨percent, .int 42⟩],
      setting.Fitting [percent] := by
    rw [List.forall_mem_cons, List.forall_mem_singleton]
    exact ⟨hfitting 7 (by omega) (by omega), hfitting 42 (by omega) (by omega)⟩
  obtain ⟨t, hrun, hoptind, -, -, hlast, -⟩ := settings_round_trip (s := start) none [] [dashes]
    [⟨percent, .int 7⟩, ⟨percent, .int 42⟩] ⟨percent, List.mem_cons_self, rfl⟩ hnamed
    (List.nodup_singleton _) hboth (fun arg harg => .inl (Option.some.inj harg).symm) rfl
  have hline : [] ++ ([OptSetting.mk percent (.int 7), ⟨percent, .int 42⟩].flatMap
      (fun setting => setting.use.words) ++ [dashes]) =
        [ascii "--n", ascii "7", ascii "--n", ascii "42", dashes] := by decide
  rw [hline] at hrun
  refine ⟨t, hrun, hoptind.trans (by decide), ?_⟩
  exact hlast [⟨percent, .int 7⟩] _ [] _ _ rfl rfl rfl fun _ h => absurd h List.not_mem_nil

end Opt
end Libae
