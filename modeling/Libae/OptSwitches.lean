import Libae.OptOutputs
import Mathlib.Data.Multiset.Fold

/-! # Switches

Options that are given without a parameter only add to what their outputs hold: a flag is set,
bits are set besides those that are there, a counter is incremented (`OptType.flip`).  A command
line of such options is the list of their types, each of which flips its switch
(`process_flips`).  Seen at one output that is a fold of one operation, and since two switches
commute, the order of the elements does not matter (`switches_accumulate`).
-/
namespace Libae
open Fallible

/-! ## Switches, one by one -/

namespace OptType
variable {D : Type}

/-- The entry is a flag, bits or a counter, with an output. -/
def IsSwitch : OptType D → Prop
  | .flag out | .bit _ out | .counter out => out ≠ none
  | _ => False

/-- The entry is a flag with this output. -/
def raises (a : Nat) : OptType D → Bool
  | .flag out => out == some a
  | _ => false

/-- The bits that the entry sets in this output, if it is its own. -/
def mask (a : Nat) : OptType D → Option UInt32
  | .bit whichBits out => if out = some a then some whichBits.toUInt32 else none
  | _ => none

/-- The entry is a counter with this output. -/
def counts (a : Nat) : OptType D → Bool
  | .counter out => out == some a
  | _ => false

/-- What a switch does to the outputs. -/
def flip (type : OptType D) (o : Outputs D) : Outputs D :=
  { o with
    bools := fun a => o.bools a || type.raises a
    bits := fun a => o.bits a ||| (type.mask a).getD 0
    ints := fun a => if type.counts a then Opt.toInt (o.ints a + 1) else o.ints a }

/-- A group is no switch. -/
theorem IsSwitch.not_group {type : OptType D} (h : type.IsSwitch) : type.isGroup = false := by
  cases type with
  | group => cases h
  | _ => rfl

/-! These are the writes of the parsers. -/

theorem flip_flag (o : Outputs D) (out : Nat) : (flag (some out)).flip o =
    { o with bools := Function.update o.bools out true } := by
  rw [flip, Outputs.mk.injEq]
  refine ⟨funext fun a => ?_, rfl, rfl, rfl, funext fun a => UInt32.or_zero⟩
  by_cases ha : a = out
  · simp [raises, ha]
  · have ha' : out ≠ a := Ne.symm ha
    simp [raises, ha, ha']

theorem flip_bit (o : Outputs D) (whichBits : UInt64) (out : Nat) :
    (bit whichBits (some out)).flip o =
      { o with bits := Function.update o.bits out (o.bits out ||| whichBits.toUInt32) } := by
  rw [flip, Outputs.mk.injEq]
  refine ⟨funext fun a => Bool.or_false _, rfl, rfl, rfl, funext fun a => ?_⟩
  by_cases ha : a = out
  · simp [mask, ha]
  · have ha' : out ≠ a := Ne.symm ha
    simp [mask, ha, ha']

theorem flip_counter (o : Outputs D) (out : Nat) : (counter (some out)).flip o =
    { o with ints := Function.update o.ints out (Opt.toInt (o.ints out + 1)) } := by
  rw [flip, Outputs.mk.injEq]
  refine ⟨funext fun a => Bool.or_false _, funext fun a => ?_, rfl, rfl,
    funext fun a => UInt32.or_zero⟩
  by_cases ha : a = out
  · simp [counts, ha]
  · have ha' : out ≠ a := Ne.symm ha
    simp [counts, ha, ha']

/-- **Two switches commute.** -/
theorem flip_comm (type type' : OptType D) (o : Outputs D) :
    type'.flip (type.flip o) = type.flip (type'.flip o) := by
  have hbools : ∀ a, (type'.flip (type.flip o)).bools a = (type.flip (type'.flip o)).bools a :=
    fun a => Bool.or_right_comm _ _ _
  have hbits : ∀ a, (type'.flip (type.flip o)).bits a = (type.flip (type'.flip o)).bits a := by
    intro a
    have hassoc : ∀ m m' : UInt32, o.bits a ||| m ||| m' = o.bits a ||| m' ||| m := by
      intro m m'
      rw [UInt32.or_assoc, UInt32.or_comm m, ← UInt32.or_assoc]
    exact hassoc _ _
  have hints : ∀ a, (type'.flip (type.flip o)).ints a = (type.flip (type'.flip o)).ints a := by
    intro a
    cases h : type.counts a <;> cases h' : type'.counts a <;> simp [flip, h, h']
  rw [flip, flip, Outputs.mk.injEq]
  exact ⟨funext hbools, funext hints, rfl, rfl, funext hbits⟩

/-- An entry with an output is no group. -/
theorem not_group_of_cell {type : OptType D} {c : OptCell} (h : type.cell = some c) :
    type.isGroup = false := by
  cases type with
  | group => cases h
  | _ => rfl

theorem cell_of_mask {type : OptType D} {a : Nat} {m : UInt32} (h : type.mask a = some m) :
    type.cell = some (.bits a) := by
  cases type with
  | bit whichBits out =>
    obtain ⟨rfl, -⟩ : out = some a ∧ _ := by simpa [mask] using h
    rfl
  | _ => cases h

/-- A flag is known by its output. -/
theorem raises_cell_iff {type : OptType D} {a : Nat} :
    type.raises a = true ↔ type.cell = some (.bool a) := by
  cases type <;> simp [raises, cell]

/-- So is a counter, among the switches. -/
theorem counts_cell_iff {type : OptType D} {a : Nat} (h : type.IsSwitch) :
    type.counts a = true ↔ type.cell = some (.int a) := by
  cases type with
  | flag out | bit whichBits out | counter out => simp [counts, cell]
  | _ => cases h

end OptType

/-! ## Many switches -/

namespace Outputs
variable {D : Type} {types types' : List (OptType D)} (o : Outputs D) (a : Nat)

/-- The switches are flipped one after the other. -/
def flips (types : List (OptType D)) (o : Outputs D) : Outputs D :=
  types.foldl (fun o type => type.flip o) o

/-- **The order does not matter.** -/
theorem flips_perm (h : types'.Perm types) : o.flips types' = o.flips types :=
  h.foldl_eq' (fun type _ type' _ o => type.flip_comm type' o) o

/-- A flag is set once one of them is. -/
theorem flips_bools : (o.flips types).bools a = (o.bools a || types.any (OptType.raises a)) := by
  induction types generalizing o with
  | nil => simp [flips]
  | cons type types ih =>
    have hrest := ih (type.flip o)
    rw [List.any_cons, ← Bool.or_assoc]
    exact hrest

/-- The bits of all of them are set. -/
theorem flips_bits :
    (o.flips types).bits a = (types.filterMap (OptType.mask a)).foldl (· ||| ·) (o.bits a) := by
  induction types generalizing o with
  | nil => rfl
  | cons type types ih =>
    have hrest : (o.flips (type :: types)).bits a = _ := ih (type.flip o)
    have hstep : (type.flip o).bits a = o.bits a ||| (type.mask a).getD 0 := rfl
    rw [hrest, hstep]
    cases hmask : type.mask a with
    | none =>
      rw [List.filterMap_cons_none hmask, Option.getD_none, UInt32.or_zero]
    | some m =>
      rw [List.filterMap_cons_some hmask, Option.getD_some]
      rfl

/-- A counter counts them, as long as the count is an `int`. -/
theorem flips_ints (hmin : -(2 ^ 31) ≤ o.ints a)
    (hmax : o.ints a + types.countP (OptType.counts a) < 2 ^ 31) :
    (o.flips types).ints a = o.ints a + types.countP (OptType.counts a) := by
  induction types generalizing o with
  | nil => simp [flips]
  | cons type types ih =>
    have hrest := ih (type.flip o)
    cases hcounts : type.counts a with
    | false =>
      have hstep : (type.flip o).ints a = o.ints a := by simp [OptType.flip, hcounts]
      rw [List.countP_cons_of_neg (by simp [hcounts])] at hmax ⊢
      rw [hstep] at hrest
      exact hrest hmin hmax
    | true =>
      rw [List.countP_cons_of_pos hcounts] at hmax ⊢
      have hint : Opt.toInt (o.ints a + 1) = o.ints a + 1 :=
        Int.bmod_eq_of_le (by omega) (by omega)
      have hstep : (type.flip o).ints a = o.ints a + 1 := by simp [OptType.flip, hcounts, hint]
      rw [hstep] at hrest
      rw [show (o.flips (type :: types)).ints a = ((type.flip o).flips types).ints a from rfl,
        hrest (by omega) (by omega)]
      omega

/-- Bits depend only on which masks there are. -/
theorem foldl_or_congr {masks masks' : List UInt32} (h : ∀ m, m ∈ masks ↔ m ∈ masks')
    (b : UInt32) : masks.foldl (· ||| ·) b = masks'.foldl (· ||| ·) b := by
  have hdedup : (masks : Multiset UInt32).dedup = (masks' : Multiset UInt32).dedup :=
    Multiset.dedup_ext.mpr (by simpa using h)
  have hfold := congrArg (Multiset.fold (fun x y : UInt32 => x ||| y) b) hdedup
  rw [Multiset.fold_dedup_idem, Multiset.fold_dedup_idem, Multiset.coe_fold_l,
    Multiset.coe_fold_l] at hfold
  exact hfold

end Outputs

namespace Opt
variable {D W : Type}

/-! ## One element -/

/-- The type of the entry that an element names. -/
def namedType (options : List (OptOption D W)) (arg : Text) : OptType D :=
  ((lookup options (nameOf arg)).map OptOption.type).getD .callbackOnly

/-- The element is the bare name of a switch that has no callback. -/
structure Bare (options : List (OptOption D W)) (arg : Text) (option : OptOption D W) : Prop where
  mem : option ∈ options
  switch : option.type.IsSwitch
  callback : option.callback = none
  spells : ∃ name, option.name = some name ∧ name ≠ [] ∧ Spells arg name none

section Elements
variable [CDouble D] {option : OptOption D W} {s : OptState D W}

/-- **A switch flips**, and does nothing else. -/
theorem parse_switch (name : Option Text) {type : OptType D} (h : type.IsSwitch) :
    (parseType name none type).run s = (some (), { s with outputs := type.flip s.outputs }) := by
  cases type with
  | flag out =>
    obtain ⟨out, rfl⟩ := Option.ne_none_iff_exists'.mp h
    rw [OptType.flip_flag]
    rfl
  | bit whichBits out =>
    obtain ⟨out, rfl⟩ := Option.ne_none_iff_exists'.mp h
    rw [OptType.flip_bit]
    rfl
  | counter out =>
    obtain ⟨out, rfl⟩ := Option.ne_none_iff_exists'.mp h
    rw [OptType.flip_counter]
    rfl
  | _ => cases h

theorem optionProcess_switch (h : option.type.IsSwitch) (hcb : option.callback = none) :
    (optionProcess none option).run s =
      (some (), { s with
        calls := s.calls ++ [.option option.name none]
        outputs := option.type.flip s.outputs }) := by
  have hno : ¬ (option.argOk = true ∧ (none : Option Text).isSome = true) := by simp
  rw [optionProcess, bind_of_some (modify_run _ s)]
  dsimp only
  rw [if_neg hno, bind_of_some (parse_switch _ h), hcb]
  rfl

variable {self : Opt D W} {options : List (OptOption D W)} {argv rest : List Text} {arg : Text}

omit [CDouble D] in
/-- The entry that the element names is found. -/
theorem Bare.lookup_eq (h : Bare options arg option)
    (hd : ((options.filter (fun option => !option.type.isGroup)).map OptOption.name).Nodup) :
    lookup options (nameOf arg) = some option := by
  obtain ⟨name, hname, -, hspells⟩ := h.spells
  rw [hspells.split.2.1]
  exact lookup_of_mem hd h.mem h.switch.not_group hname

omit [CDouble D] in
theorem Bare.namedType_eq (h : Bare options arg option)
    (hd : ((options.filter (fun option => !option.type.isGroup)).map OptOption.name).Nodup) :
    namedType options arg = option.type := by
  rw [namedType, h.lookup_eq hd]
  rfl

/-- A round at a bare switch. -/
theorem round_flips (htable : Table self.options) (hat : At argv (arg :: rest) s)
    (h : Bare self.options arg option)
    (hrest : ∀ next ∈ rest, argumentIsValid next = true) :
    ∃ t, (processArg self argv).run s = (some true, t) ∧ t.optind = s.optind + 1 ∧
      t.outputs = (namedType self.options arg).flip s.outputs := by
  obtain ⟨name, -, hne, hspells⟩ := h.spells
  obtain ⟨hvalid, hsplit, hvalue⟩ := hspells.split
  have hdash : arg ≠ dashes := by
    rintro rfl
    exact hne hsplit.symm
  have hparam : paramFrom arg rest = none := by
    rw [paramFrom, hvalue]
    cases rest with
    | nil => rfl
    | cons next rest => simp [hrest next List.mem_cons_self]
  rw [processArg_known htable hat hvalid hdash (h.lookup_eq htable.distinct), hparam,
    bind_of_some (optionProcess_switch h.switch h.callback), h.namedType_eq htable.distinct]
  exact ⟨_, rfl, rfl, rfl⟩

/-- **The loop** flips the switches of the elements that are left, by induction on them. -/
theorem loop_flips (htable : rest ≠ [] → Table self.options) {fuel : Nat} (hat : At argv rest s)
    (hfuel : rest.length ≤ fuel) (hbare : ∀ arg ∈ rest, ∃ option, Bare self.options arg option) :
    ∃ t, (processLoop self argv fuel).run s = (some (), t) ∧ t.optind = argv.length ∧
      t.outputs = s.outputs.flips (rest.map (namedType self.options)) := by
  induction rest generalizing s fuel with
  | nil =>
    have hend := hat.optind
    rw [List.length_nil] at hend
    exact ⟨s, loop_ends (by omega) fuel, by omega, rfl⟩
  | cons arg rest ih =>
    have htable' := htable (List.cons_ne_nil _ _)
    rw [List.forall_mem_cons] at hbare
    obtain ⟨⟨option, hoption⟩, hbare⟩ := hbare
    have hvalid : ∀ next ∈ rest, argumentIsValid next = true := by
      intro next hmem
      obtain ⟨_, hnext⟩ := hbare next hmem
      obtain ⟨_, -, -, hspells⟩ := hnext.spells
      exact hspells.split.1
    obtain ⟨t, hround, hoptind, houtputs⟩ := round_flips htable' hat hoption hvalid
    have hlen := hat.optind
    rw [List.length_cons] at hlen hfuel
    obtain ⟨fuel, rfl⟩ : ∃ n, fuel = n + 1 := ⟨fuel - 1, by omega⟩
    have hfuel' : rest.length ≤ fuel := by omega
    rw [loop_round (by omega), hround]
    obtain ⟨u, hrun, hend, hflips⟩ := ih (fun _ => htable') (hat.next hoptind) hfuel' hbare
    refine ⟨u, hrun, hend, ?_⟩
    rw [hflips, houtputs]
    rfl

/-- **A command line of bare switches** flips them one after the other. -/
theorem process_flips (htable : argv ≠ [] → Table self.options) (hzero : s.optind = 0)
    (hbare : ∀ arg ∈ argv, ∃ option, Bare self.options arg option) :
    ∃ t, (process self argv).run s = (some (), t) ∧ t.optind = argv.length ∧
      t.outputs = s.outputs.flips (argv.map (namedType self.options)) := by
  have hat : At argv argv s := ⟨by omega, by rw [hzero]; rfl, by omega⟩
  rw [process_loop (by omega)]
  exact loop_flips htable hat (by omega) hbare

end Elements

/-! ## The command line -/

/-- How often the option occurs. -/
def occurrences (argv : List Text) (option : OptOption D W) : Nat :=
  argv.countP (fun arg => option.name.map (dashes ++ ·) = some arg)

/-- Two entries have no output in common, but for bits. -/
def Unshared (o o' : OptOption D W) : Prop :=
  ∀ c, o.type.cell = some c → o'.type.cell = some c → ∃ a, c = .bits a

instance : Std.Symm (Unshared : OptOption D W → OptOption D W → Prop) :=
  ⟨fun _ _ h c hc' hc => h c hc hc'⟩

/-- A table with different names whose entries have outputs of their own, but for bits, and a
command line of bare switches that takes no counter out of an `int`. -/
structure SwitchLine (options : List (OptOption D W)) (argv : List Text) (s : OptState D W) :
    Prop where
  named : ∀ option ∈ options, option.type.isGroup = false → option.name ≠ none
  distinct : ((options.filter (fun option => !option.type.isGroup)).map OptOption.name).Nodup
  unshared : options.Pairwise Unshared
  start : s.optind = 0
  bare : ∀ arg ∈ argv, ∃ option, Bare options arg option
  room : ∀ option ∈ options, ∀ a, option.type = .counter (some a) →
    -(2 ^ 31) ≤ s.outputs.ints a ∧ s.outputs.ints a + occurrences argv option < 2 ^ 31

/-- All of `argv` is read.  The flags that occur are set, and no others; the bits of all options
that occur are set besides the old ones; a counter has grown by the number of its occurrences;
what no option that occurs points to is unchanged. -/
structure Accumulated (options : List (OptOption D W)) (argv : List Text)
    (s t : OptState D W) : Prop where
  optind : t.optind = argv.length
  flags : ∀ option ∈ options, ∀ a, option.type = .flag (some a) →
    t.outputs.bools a = if occurrences argv option = 0 then s.outputs.bools a else true
  bits : ∀ a, t.outputs.bits a =
    ((options.filter (fun option => occurrences argv option ≠ 0)).filterMap
      (fun option => option.type.mask a)).foldl (· ||| ·) (s.outputs.bits a)
  counters : ∀ option ∈ options, ∀ a, option.type = .counter (some a) →
    t.outputs.ints a = s.outputs.ints a + occurrences argv option
  others : ∀ c, (∀ option ∈ options, occurrences argv option ≠ 0 → option.type.cell ≠ some c) →
    t.outputs.value c = s.outputs.value c

section CommandLine
variable {options : List (OptOption D W)} {option o : OptOption D W} {argv : List Text}
  {arg : Text} {s t : OptState D W} {c : OptCell}

theorem occurs_iff :
    occurrences argv option ≠ 0 ↔ ∃ arg ∈ argv, option.name.map (dashes ++ ·) = some arg := by
  simp [occurrences, List.countP_eq_zero]

/-- `ae_opt_init` leaves the types as they are. -/
theorem namedType_init (cb : Option (OptCallback W Text)) (options : List (OptOption D W))
    (arg : Text) : namedType (init cb options).options arg = namedType options arg := by
  have hmeasured : lookup (options.map measure) (nameOf arg) =
      (lookup options (nameOf arg)).map measure := by
    rw [lookup, List.find?_map]
    congr 2
    funext option
    simp
  rw [namedType, init, hmeasured, namedType, Option.map_map]
  congr 2
  funext option
  exact measure_type option

theorem Bare.init (cb : Option (OptCallback W Text)) (h : Bare options arg option) :
    Bare (init cb options).options arg (measure option) := by
  have hcallback : (measure option).callback = option.callback := by
    unfold measure
    split <;> rfl
  refine ⟨List.mem_map_of_mem h.mem, ?_, hcallback.trans h.callback, ?_⟩
  · rw [measure_type]
    exact h.switch
  · rw [measure_name]
    exact h.spells

/-- The element spells the name of its entry. -/
theorem Bare.spelled (h : Bare options arg option) :
    option.name.map (dashes ++ ·) = some arg := by
  obtain ⟨name, hname, -, hspells, -⟩ := h.spells
  rw [hname, hspells]
  rfl

/-- An entry whose name is spelled is the one that is named. -/
theorem Bare.eq_of_spelled (h : Bare options arg o)
    (hd : ((options.filter (fun option => !option.type.isGroup)).map OptOption.name).Nodup)
    (hmem : option ∈ options) (hgroup : option.type.isGroup = false)
    (hspelled : option.name.map (dashes ++ ·) = some arg) : option = o := by
  have hname : option.name = o.name := by
    have hsame := hspelled.trans h.spelled.symm
    exact Option.map_injective (List.append_right_injective dashes) hsame
  refine List.inj_on_of_nodup_map hd ?_ ?_ hname
  · exact List.mem_filter.mpr ⟨hmem, by simp [hgroup]⟩
  · exact List.mem_filter.mpr ⟨h.mem, by simp [h.switch.not_group]⟩

/-- **An output that is not shared** is that of the entry named if and only if the entry that
owns it is spelled. -/
theorem Bare.cell_iff (h : Bare options arg o)
    (hd : ((options.filter (fun option => !option.type.isGroup)).map OptOption.name).Nodup)
    (hunshared : options.Pairwise Unshared) (hmem : option ∈ options)
    (hcell : option.type.cell = some c) (hbits : ∀ a, c ≠ .bits a) :
    (namedType options arg).cell = some c ↔ option.name.map (dashes ++ ·) = some arg := by
  rw [h.namedType_eq hd]
  constructor
  · intro hown
    by_cases heq : option = o
    · rw [heq]
      exact h.spelled
    · obtain ⟨a, ha⟩ := hunshared.forall hmem h.mem heq c hcell hown
      exact absurd ha (hbits a)
  · intro hspelled
    rw [← h.eq_of_spelled hd hmem (OptType.not_group_of_cell hcell) hspelled]
    exact hcell

namespace SwitchLine
variable (h : SwitchLine options argv s)
include h

theorem table (cb : Option (OptCallback W Text)) (hne : argv ≠ []) :
    Table (init cb options).options := by
  obtain ⟨arg, hmem⟩ := List.exists_mem_of_ne_nil argv hne
  obtain ⟨option, hoption⟩ := h.bare arg hmem
  exact init_table cb ⟨option, hoption.mem, hoption.switch.not_group⟩ h.named h.distinct

/-- A flag is among the elements exactly if it occurs. -/
theorem any_raises {a : Nat} (hmem : option ∈ options) (htype : option.type = .flag (some a)) :
    (argv.map (namedType options)).any (OptType.raises a) =
      decide (occurrences argv option ≠ 0) := by
  have hcell : option.type.cell = some (.bool a) := by rw [htype]; rfl
  rw [List.any_map, Bool.eq_iff_iff, List.any_eq_true, decide_eq_true_eq, occurs_iff]
  refine exists_congr fun arg => and_congr_right fun harg => ?_
  obtain ⟨o, hbare⟩ := h.bare arg harg
  rw [← hbare.cell_iff h.distinct h.unshared hmem hcell (by simp)]
  exact OptType.raises_cell_iff

/-- A counter is among the elements as often as it occurs. -/
theorem countP_counts {a : Nat} (hmem : option ∈ options)
    (htype : option.type = .counter (some a)) :
    (argv.map (namedType options)).countP (OptType.counts a) = occurrences argv option := by
  have hcell : option.type.cell = some (.int a) := by rw [htype]; rfl
  rw [List.countP_map]
  refine List.countP_congr fun arg harg => ?_
  obtain ⟨o, hbare⟩ := h.bare arg harg
  have hswitch : (namedType options arg).IsSwitch := by
    rw [hbare.namedType_eq h.distinct]
    exact hbare.switch
  rw [decide_eq_true_eq, ← hbare.cell_iff h.distinct h.unshared hmem hcell (by simp)]
  exact OptType.counts_cell_iff hswitch

/-- The masks among the elements are those of the options that occur. -/
theorem mem_masks {a : Nat} (m : UInt32) :
    m ∈ (argv.map (namedType options)).filterMap (OptType.mask a) ↔
      m ∈ (options.filter (fun option => occurrences argv option ≠ 0)).filterMap
        (fun option => option.type.mask a) := by
  rw [List.filterMap_map, List.mem_filterMap, List.mem_filterMap]
  constructor
  · rintro ⟨arg, harg, hmask⟩
    obtain ⟨o, hbare⟩ := h.bare arg harg
    have hoccurs : occurrences argv o ≠ 0 := occurs_iff.mpr ⟨arg, harg, hbare.spelled⟩
    refine ⟨o, List.mem_filter.mpr ⟨hbare.mem, decide_eq_true hoccurs⟩, ?_⟩
    rw [← hbare.namedType_eq h.distinct]
    exact hmask
  · rintro ⟨option, hoption, hmask⟩
    obtain ⟨hmem, hoccurs⟩ := List.mem_filter.mp hoption
    obtain ⟨arg, harg, hspelled⟩ := occurs_iff.mp (of_decide_eq_true hoccurs)
    obtain ⟨o, hbare⟩ := h.bare arg harg
    have hgroup := OptType.not_group_of_cell (OptType.cell_of_mask hmask)
    refine ⟨arg, harg, ?_⟩
    rw [Function.comp_apply, hbare.namedType_eq h.distinct,
      ← hbare.eq_of_spelled h.distinct hmem hgroup hspelled]
    exact hmask

/-- The switches that the elements flip, put together for each output. -/
theorem accumulated [CDouble D] (cb : Option (OptCallback W Text))
    (hrun : (process (init cb options) argv).run s = (some (), t))
    (hend : t.optind = argv.length)
    (hflips : t.outputs = s.outputs.flips (argv.map (namedType options))) :
    Accumulated options argv s t := by
  refine ⟨hend, ?_, ?_, ?_, ?_⟩
  · intro option hmem a htype
    rw [hflips, Outputs.flips_bools, h.any_raises hmem htype]
    by_cases hzero : occurrences argv option = 0 <;> simp [hzero]
  · intro a
    rw [hflips, Outputs.flips_bits]
    exact Outputs.foldl_or_congr h.mem_masks _
  · intro option hmem a htype
    obtain ⟨hmin, hmax⟩ := h.room option hmem a htype
    rw [← h.countP_counts hmem htype] at hmax ⊢
    rw [hflips]
    exact s.outputs.flips_ints a hmin hmax
  · intro c hothers
    have hspared : ∀ arg ∈ argv, ∀ option ∈ (init cb options).options,
        matchesArg arg option = true → Spares (fun o => o.value c) option := by
      intro arg harg option hoption hmatch
      obtain ⟨option, hmem, rfl⟩ := List.mem_map.mp hoption
      obtain ⟨o, hbare⟩ := h.bare arg harg
      obtain ⟨name, -, -, hspells⟩ := hbare.spells
      have hname : option.name = some (nameOf arg) := (matchesArg_measure hmatch).2
      have hspelled : option.name.map (dashes ++ ·) = some arg := by
        rw [hname, hspells.split.2.1, hspells.1]
        rfl
      apply spares_of_ne
      rw [measure_type]
      exact hothers option hmem (occurs_iff.mpr ⟨arg, harg, hspelled⟩)
    have hkept := frame_process (g := fun o => o.value c) hspared s
    rw [hrun] at hkept
    exact hkept

end SwitchLine

/-- **Switches accumulate, in any order.**  For every table with different names whose entries
have outputs of their own, but for bits, and every command line of bare switches without
callbacks that takes no counter out of an `int`: `ae_opt_process` returns `true` and has read
all of `argv`, and every flag, bit output and counter holds what the occurring options add to
it.  Any permutation of `argv` leaves the same outputs. -/
theorem switches_accumulate [CDouble D] (cb : Option (OptCallback W Text))
    (h : SwitchLine options argv s) :
    ∃ t, (process (init cb options) argv).run s = (some (), t) ∧ Accumulated options argv s t ∧
      ∀ argv', argv'.Perm argv → ∃ t', (process (init cb options) argv').run s = (some (), t') ∧
        t'.optind = argv'.length ∧ t'.outputs = t.outputs := by
  have hflips : ∀ argv', argv'.Perm argv →
      ∃ t', (process (init cb options) argv').run s = (some (), t') ∧
        t'.optind = argv'.length ∧
        t'.outputs = s.outputs.flips (argv'.map (namedType options)) := by
    intro argv' hperm
    have htable : argv' ≠ [] → Table (init cb options).options := by
      intro hne
      apply h.table cb
      rintro rfl
      exact hne hperm.eq_nil
    have hbare : ∀ arg ∈ argv', ∃ option, Bare (init cb options).options arg option := by
      intro arg harg
      obtain ⟨option, hoption⟩ := h.bare arg (hperm.mem_iff.mp harg)
      exact ⟨_, hoption.init cb⟩
    obtain ⟨t', hrun, hend, houtputs⟩ := process_flips htable h.start hbare
    refine ⟨t', hrun, hend, ?_⟩
    rw [houtputs]
    congr 2
    funext arg
    exact namedType_init cb options arg
  obtain ⟨t, hrun, hend, houtputs⟩ := hflips argv (.refl argv)
  refine ⟨t, hrun, h.accumulated cb hrun hend houtputs, fun argv' hperm => ?_⟩
  obtain ⟨t', hrun', hend', houtputs'⟩ := hflips argv' hperm
  refine ⟨t', hrun', hend', ?_⟩
  rw [houtputs', houtputs]
  exact s.outputs.flips_perm (hperm.map _)

end CommandLine

/-- A counter, two bits of one output, and a flag. -/
def modes : List (OptOption Unit Unit) :=
  [⟨some (ascii "v"), 0, .counter (some 0), .none, none⟩,
    ⟨some (ascii "r"), 0, .bit 1 (some 0), .none, none⟩,
    ⟨some (ascii "w"), 0, .bit 2 (some 0), .none, none⟩,
    ⟨some (ascii "q"), 0, .flag (some 0), .none, none⟩]

theorem modes_line :
    SwitchLine modes [ascii "--v", ascii "--w", ascii "--v", ascii "--r"] start := by
  have hcounter : Bare modes (ascii "--v") ⟨some (ascii "v"), 0, .counter (some 0), .none, none⟩ :=
    ⟨by simp [modes], by simp [OptType.IsSwitch], rfl, ascii "v", rfl, by decide, rfl, by decide⟩
  have hread : Bare modes (ascii "--r") ⟨some (ascii "r"), 0, .bit 1 (some 0), .none, none⟩ :=
    ⟨by simp [modes], by simp [OptType.IsSwitch], rfl, ascii "r", rfl, by decide, rfl, by decide⟩
  have hwrite : Bare modes (ascii "--w") ⟨some (ascii "w"), 0, .bit 2 (some 0), .none, none⟩ :=
    ⟨by simp [modes], by simp [OptType.IsSwitch], rfl, ascii "w", rfl, by decide, rfl, by decide⟩
  refine ⟨by simp [modes], by decide, by simp [modes, Unshared, OptType.cell], rfl, ?_, ?_⟩
  · simp only [List.forall_mem_cons]
    exact ⟨⟨_, hcounter⟩, ⟨_, hwrite⟩, ⟨_, hcounter⟩, ⟨_, hread⟩, by simp⟩
  · intro option hmem a htype
    simp only [modes, List.mem_cons, List.not_mem_nil, or_false] at hmem
    rcases hmem with rfl | rfl | rfl | rfl
    · cases htype
      decide
    · cases htype
    · cases htype
    · cases htype

/-- The counter is at 2 and both bits are set. -/
theorem switches_accumulate_modes :
    ∃ t, (process (init none modes)
        [ascii "--v", ascii "--w", ascii "--v", ascii "--r"]).run start = (some (), t) ∧
      t.outputs.ints 0 = 2 ∧ t.outputs.bits 0 = 3 ∧ t.outputs.bools 0 = false := by
  obtain ⟨t, hrun, hacc, -⟩ := switches_accumulate none modes_line
  refine ⟨t, hrun, ?_, ?_, ?_⟩
  · exact hacc.counters ⟨some (ascii "v"), 0, .counter (some 0), .none, none⟩
      (by simp [modes]) 0 rfl
  · exact hacc.bits 0
  · exact hacc.flags ⟨some (ascii "q"), 0, .flag (some 0), .none, none⟩
      (by simp [modes]) 0 rfl

end Opt
end Libae
