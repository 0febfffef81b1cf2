import Libae.OptGrammar

/-! # The help output

`ae_opt_help_print` (`opt.c`) prints a line for each entry that has a help text, and headings
for the groups.  The width of the first column is found group by group, in a pass over the
entries that looks at their types (`optionField1Width`).  What is printed there is chosen by the
type as well, in another place (`helpPrintOption`), and the two do not agree: a `double` and a
counter are measured by their names and printed with their parameters.  So the columns of a
group line up exactly if no such entry is longer than all that was measured (`aligned_iff`).

The text of a parameter is printed to a buffer of 256 bytes without a look at its length.
Where that overruns the buffer there is no output (`none`).
-/
namespace Libae

/-- `ae_opt_option_t`, with the texts of the help output. -/
structure OptEntry (D W : Type) extends OptOption D W where
  help : Option Text
  helpParam : Option Text

/-- `ae_opt_t`, as the help output shows it. -/
structure OptProgram (D W : Type) where
  programName : Option Text
  help : Option Text
  options : List (OptEntry D W)

/-- What is printed for a group, with the width of its name, and for an option, with the width
of its first column. -/
inductive HelpLine
  | heading (pos : Nat) (name : Text) (help : Option Text)
  | option (width : Nat) (field1 help : Text)

/-- The first line, and those behind it. -/
structure HelpOutput where
  usage : Text
  lines : List HelpLine

namespace HelpLine

/-- The line is the heading of a group. -/
def isHeading : HelpLine → Bool
  | heading .. => true
  | option .. => false

/-- The bytes printed, with the paddings of `%*s` and `%-*s`. -/
def text : HelpLine → Text
  | heading pos name help =>
    newline :: name.leftpad pos 32 ++ newline :: (help.elim [] (· ++ [newline]))
  | option width field1 help =>
    ascii "  --" ++ field1.rightpad width 32 ++ ascii " - " ++ help ++ [newline]

/-- The first column is wide enough. -/
def Fits : HelpLine → Prop
  | heading .. => True
  | option width field1 _ => field1.length ≤ width

/-- The column of the separator. -/
def column : HelpLine → Option Nat
  | heading .. => none
  | option width field1 _ => some (4 + max width field1.length)

/-- The separator is in that column. -/
theorem text_column {l : HelpLine} {n : Nat} (h : l.column = some n) :
    ∃ front back, l.text = front ++ ascii " - " ++ back ∧ front.length = n := by
  cases l with
  | heading pos name help => cases h
  | option width field1 help =>
    have hn : 4 + max width field1.length = n := Option.some.inj h
    refine ⟨ascii "  --" ++ field1.rightpad width 32, help ++ [newline], ?_, ?_⟩
    · simp [text]
    · rw [List.length_append, List.length_rightpad, ← hn]
      rfl

end HelpLine

namespace Opt
variable {D W : Type}

/-! ## The first column -/

/-- `s_PARAM_BRACES`. -/
def paramBraces : OptParam → Text × Text
  | .none => ([], [])
  | .optional => (ascii "[", ascii "]")
  | .required => (ascii "<", ascii ">")

/-- `param_help`: what is printed to it. -/
def paramHelp (option : OptEntry D W) : Text :=
  if option.isRequired ≠ .none then
    ascii "=" ++ (paramBraces option.isRequired).1 ++ option.helpParam.getD [] ++
      (paramBraces option.isRequired).2
  else []

/-- `sizeof(param_help)`. -/
def paramHelpSize : Nat := 256

/-- `sizeof(field1)`. -/
def field1Size : Nat := 512

/-- `ae_opt_format_option_field1`. -/
def formatOptionField1 (option : OptEntry D W) (outLen : Nat) : Option Text :=
  if (paramHelp option).length < paramHelpSize then
    some ((nameText option.name ++ paramHelp option).take (outLen - 1))
  else none

/-- `ae_opt_field1_width`. -/
def field1Width (option : OptEntry D W) : Option Nat :=
  (formatOptionField1 option field1Size).map List.length

/-- `ae_opt_option_field1_width`. -/
def optionField1Width (option : OptEntry D W) : Option Nat :=
  match option.type with
  | .int .. | .string .. => field1Width option
  | _ => some option.nameLen

/-- `ae_opt_group_get_longest`, for the entries from `ix` on, with `longest` so far. -/
def groupGetLongest : List (OptEntry D W) → Nat → Option Nat
  | [], longest => some longest
  | option :: options, longest =>
    if option.type.isGroup then some longest
    else if option.help = none then groupGetLongest options longest
    else do
      let argLen ← optionField1Width option
      groupGetLongest options (if argLen > longest then argLen else longest)

/-! ## The lines -/

/-- A line whose first column is formatted. -/
def printField1 (longest : Nat) (option : OptEntry D W) (params : Text) : Option HelpLine := do
  let field1 ← formatOptionField1 option field1Size
  pure (.option longest field1 (nameText option.help ++ params))

/-- `params` of `ae_opt_help_print_option_int`. -/
def intParams (params : Option (OptRange Int)) : Text :=
  params.elim [] fun r =>
    ascii " (min: " ++ intText r.min ++ ascii ", max: " ++ intText r.max ++
      ascii ", default: " ++ intText r.default ++ ascii ")"

/-- `ae_opt_help_print_option_int`. -/
def helpPrintOptionInt (longest : Nat) (option : OptEntry D W) (params : Option (OptRange Int)) :
    Option HelpLine :=
  printField1 longest option (intParams params)

/-- `params` of `ae_opt_help_print_option_double`. -/
def doubleParams [CDouble D] (params : Option (OptRange D)) : Text :=
  params.elim [] fun r =>
    ascii " (min: " ++ CDouble.format r.min ++ ascii ", max: " ++ CDouble.format r.max ++
      ascii ", default: " ++ CDouble.format r.default ++ ascii ")"

/-- `ae_opt_help_print_option_double`. -/
def helpPrintOptionDouble [CDouble D] (longest : Nat) (option : OptEntry D W)
    (params : Option (OptRange D)) : Option HelpLine :=
  printField1 longest option (doubleParams params)

/-- `ae_opt_help_print_option_string`. -/
def helpPrintOptionString (longest : Nat) (option : OptEntry D W) : Option HelpLine :=
  printField1 longest option []

/-- `ae_opt_help_print_option_counter`. -/
def helpPrintOptionCounter (longest : Nat) (option : OptEntry D W) : Option HelpLine :=
  printField1 longest option []

/-- `ae_opt_help_print_option`. -/
def helpPrintOption [CDouble D] (longest : Nat) (option : OptEntry D W) : Option HelpLine :=
  match option.type with
  | .int params _ => helpPrintOptionInt longest option params
  | .double params _ => helpPrintOptionDouble longest option params
  | .string _ => helpPrintOptionString longest option
  | .counter _ => helpPrintOptionCounter longest option
  | _ => some (.option longest (nameText option.name) (nameText option.help))

/-- `ae_opt_help_print_group`; `strlen` of no name crashes. -/
def helpPrintGroup (option : OptEntry D W) : Option HelpLine := do
  let name ← option.name
  pure (.heading (40 + name.length / 2) name option.help)

/-- `longest` behind a heading, if entries follow it. -/
def longestBehind (options : List (OptEntry D W)) (longest : Nat) : Option Nat :=
  if options = [] then some longest else groupGetLongest options 0

/-- The loop of `ae_opt_help_print`, for the entries from `i` on. -/
def helpPrintOptions [CDouble D] : List (OptEntry D W) → Nat → Option (List HelpLine)
  | [], _ => some []
  | option :: options, longest =>
    if option.type.isGroup then do
      let heading ← helpPrintGroup option
      let longest ← longestBehind options longest
      let lines ← helpPrintOptions options longest
      pure (heading :: lines)
    else if option.help = none then helpPrintOptions options longest
    else do
      let line ← helpPrintOption longest option
      let lines ← helpPrintOptions options longest
      pure (line :: lines)

/-- The first line of `ae_opt_help_print`. -/
def usage (self : OptProgram D W) : Text :=
  ascii "Usage " ++ nameText self.programName ++ ascii ": " ++ nameText self.help ++ [newline]

/-- `ae_opt_help_print`. -/
def helpPrint [CDouble D] (self : OptProgram D W) : Option HelpOutput := do
  let longest ← groupGetLongest self.options 0
  let lines ← helpPrintOptions self.options longest
  pure ⟨usage self, lines⟩

/-! ## What is printed and what is measured -/

/-- The lines between two headings line up: each first column is wide enough, and the
separators are in one column. -/
structure LinedUp (block : List HelpLine) : Prop where
  fits : ∀ l ∈ block, l.Fits
  column : ∀ l ∈ block, ∀ l' ∈ block, l.column = l'.column

/-- All lines do so, between the headings. -/
def AllLinedUp (lines : List HelpLine) : Prop :=
  ∀ block ∈ lines.splitOnP HelpLine.isHeading, LinedUp block

/-- The type is printed with its parameter. -/
def formats : OptType D → Bool
  | .int .. | .double .. | .string .. | .counter .. => true
  | _ => false

/-- The type is measured with its parameter. -/
def measures : OptType D → Bool
  | .int .. | .string .. => true
  | _ => false

/-- `field1`, where its text does not overrun `param_help`. -/
def field1 (option : OptEntry D W) : Text :=
  (nameText option.name ++ paramHelp option).take (field1Size - 1)

/-- The text that is printed in the first column. -/
def columnText (option : OptEntry D W) : Text :=
  if formats option.type then field1 option else nameText option.name

/-- The length that is measured. -/
def measured (option : OptEntry D W) : Nat :=
  if measures option.type then (field1 option).length else (nameText option.name).length

/-- The entry is printed, with a text that overruns `param_help`. -/
def Overruns (option : OptEntry D W) : Prop :=
  option.type.isGroup = false ∧ option.help ≠ none ∧ formats option.type = true ∧
    paramHelpSize ≤ (paramHelp option).length

/-- The entry is as `ae_opt_init` leaves one with a name. -/
def Measured (option : OptEntry D W) : Prop :=
  ∃ name, option.name = some name ∧ option.nameLen = name.length

theorem measure_measured {option : OptOption D W} {name : Text} (h : option.name = some name)
    (help helpParam : Option Text) : Measured ⟨measure option, help, helpParam⟩ :=
  ⟨name, by rw [measure_name, h], by rw [measure, h]⟩

/-- The entry is printed with a parameter that is not measured. -/
def Understated (option : OptEntry D W) : Prop :=
  option.help ≠ none ∧ formats option.type = true ∧ measures option.type = false ∧
    option.argOk = true

section Printing
variable {option : OptEntry D W} {longest : Nat}

theorem formatOptionField1_eq (h : (paramHelp option).length < paramHelpSize) :
    formatOptionField1 option field1Size = some (field1 option) := if_pos h

theorem printField1_eq (longest : Nat) (params : Text)
    (h : (paramHelp option).length < paramHelpSize) :
    printField1 longest option params =
      some (.option longest (field1 option) (nameText option.help ++ params)) := by
  rw [printField1, formatOptionField1_eq h]
  rfl

/-- What is measured with its parameter is printed with it. -/
theorem formats_of_measures {type : OptType D} (h : measures type = true) :
    formats type = true := by
  cases type with
  | int | string => rfl
  | _ => cases h

/-- **The pass that measures** finds this length. -/
theorem optionField1Width_eq (hmeasured : Measured option)
    (hfits : formats option.type = true → (paramHelp option).length < paramHelpSize) :
    optionField1Width option = some (measured option) := by
  obtain ⟨name, hname, hlen⟩ := hmeasured
  have hnamed : option.nameLen = (nameText option.name).length := by
    rw [hname, hlen]
    rfl
  unfold optionField1Width measured
  cases htype : option.type with
  | int | string =>
    rw [htype] at hfits
    simp only [measures, if_true]
    rw [field1Width, formatOptionField1_eq (hfits rfl)]
    rfl
  | _ => exact congrArg some hnamed

/-- The bounds behind the help text. -/
def paramsText [CDouble D] : OptType D → Text
  | .int params _ => intParams params
  | .double params _ => doubleParams params
  | _ => []

/-- The line of the entry. -/
def line [CDouble D] (longest : Nat) (option : OptEntry D W) : HelpLine :=
  .option longest (columnText option) (nameText option.help ++ paramsText option.type)

/-- **The printers** print this line. -/
theorem helpPrintOption_eq [CDouble D] (longest : Nat)
    (hfits : formats option.type = true → (paramHelp option).length < paramHelpSize) :
    helpPrintOption longest option = some (line longest option) := by
  unfold helpPrintOption line columnText
  cases htype : option.type with
  | int | double | string | counter =>
    rw [htype] at hfits
    exact printField1_eq longest _ (hfits rfl)
  | _ => simp [formats, paramsText]

/-- Where the buffer is overrun nothing is printed. -/
theorem helpPrintOption_none [CDouble D] (longest : Nat) (h : Overruns option) :
    helpPrintOption longest option = none := by
  obtain ⟨-, -, hformats, hlong⟩ := h
  have hnone : ∀ params, printField1 longest option params = none := by
    intro params
    rw [printField1, formatOptionField1, if_neg (Nat.not_lt.mpr hlong)]
    rfl
  unfold helpPrintOption
  cases htype : option.type with
  | int | double | string | counter => exact hnone _
  | _ =>
    rw [htype] at hformats
    cases hformats

/-- What is printed is as long as what is measured, or the entry is understated. -/
theorem columnText_le (h : option.help ≠ none) :
    (columnText option).length ≤ measured option ∨ Understated option := by
  unfold columnText measured
  cases hformats : formats option.type with
  | false =>
    have hmeasures : measures option.type = false := by
      cases hm : measures option.type with
      | true => rw [formats_of_measures hm] at hformats; cases hformats
      | false => rfl
    rw [hmeasures]
    exact .inl (Nat.le_refl _)
  | true =>
    cases hmeasures : measures option.type with
    | true => exact .inl (Nat.le_refl _)
    | false =>
      cases hok : option.argOk with
      | true => exact .inr ⟨h, hformats, hmeasures, hok⟩
      | false =>
        -- without a parameter the name is all there is
        have hnone : paramHelp option = [] := by
          have hrequired : option.isRequired = .none := by simpa [OptOption.argOk] using hok
          simp [paramHelp, hrequired]
        refine .inl ?_
        simp only [if_true, field1, hnone, List.append_nil, List.length_take, Bool.false_eq_true,
          if_false]
        exact Nat.min_le_right _ _

end Printing

/-! ## Group by group -/

/-- The entries that are printed. -/
def printed (block : List (OptEntry D W)) : List (OptEntry D W) :=
  block.filter (fun option => option.help ≠ none)

/-- The greatest length that is measured. -/
def longestOf (block : List (OptEntry D W)) (longest : Nat) : Nat :=
  (printed block).foldl (fun n option => max n (measured option)) longest

/-- The entries of a group: none of them is a heading, and all can be measured and printed. -/
structure Block (block : List (OptEntry D W)) : Prop where
  plain : ∀ option ∈ block, option.type.isGroup = false
  measured : ∀ option ∈ block, Measured option
  sound : ∀ option ∈ block, ¬ Overruns option

/-- No entry is longer than all that is measured. -/
def Covered (block : List (OptEntry D W)) : Prop :=
  ∀ option ∈ block, Understated option →
    ∃ other ∈ block, other.help ≠ none ∧ (field1 option).length ≤ measured other

section Blocks
variable {block rest : List (OptEntry D W)} {option : OptEntry D W}

theorem mem_printed : option ∈ printed block ↔ option ∈ block ∧ option.help ≠ none := by
  simp [printed]

theorem le_longestOf {n m : Nat} :
    m ≤ longestOf block n ↔ m ≤ n ∨ ∃ option ∈ block, option.help ≠ none ∧ m ≤ measured option := by
  have hfold : ∀ (l : List (OptEntry D W)) n,
      m ≤ l.foldl (fun n option => max n (measured option)) n ↔
        m ≤ n ∨ ∃ option ∈ l, m ≤ measured option := by
    intro l
    induction l with
    | nil => simp
    | cons option l ih =>
      intro n
      rw [List.foldl_cons, ih, le_max_iff, List.exists_mem_cons_iff, or_assoc]
  rw [longestOf, hfold]
  simp only [mem_printed, and_assoc]

theorem Block.head (h : Block (option :: block)) : ¬ option.type.isGroup = true := by
  rw [h.plain option List.mem_cons_self]
  exact Bool.false_ne_true

theorem Block.tail (h : Block (option :: block)) : Block block :=
  ⟨fun o ho => h.plain o (List.mem_cons_of_mem _ ho),
    fun o ho => h.measured o (List.mem_cons_of_mem _ ho),
    fun o ho => h.sound o (List.mem_cons_of_mem _ ho)⟩

/-- A printed entry of a group does not overrun the buffer. -/
theorem Block.fits (h : Block block) (hmem : option ∈ block) (hhelp : option.help ≠ none)
    (hformats : formats option.type = true) : (paramHelp option).length < paramHelpSize :=
  Nat.lt_of_not_le fun hlong => h.sound option hmem ⟨h.plain option hmem, hhelp, hformats, hlong⟩

/-- **The width of a group**, up to the next heading. -/
theorem groupGetLongest_eq (h : Block block)
    (htail : ∀ option ∈ rest.head?, option.type.isGroup = true) (n : Nat) :
    groupGetLongest (block ++ rest) n = some (longestOf block n) := by
  induction block generalizing n with
  | nil =>
    cases rest with
    | nil => rfl
    | cons heading rest => simp [groupGetLongest, htail heading rfl, longestOf, printed]
  | cons option block ih =>
    rw [List.cons_append, groupGetLongest, if_neg h.head]
    by_cases hhelp : option.help = none
    · rw [if_pos hhelp, ih h.tail]
      simp [longestOf, printed, hhelp]
    · have hwidth := optionField1Width_eq (h.measured option List.mem_cons_self)
        (h.fits List.mem_cons_self hhelp)
      have hmax : (if measured option > n then measured option else n) =
          max n (measured option) := by
        rw [Nat.max_def]
        split <;> split <;> omega
      rw [if_neg hhelp, hwidth]
      show groupGetLongest (block ++ rest) (if measured option > n then measured option else n) = _
      rw [hmax, ih h.tail]
      simp [longestOf, printed, hhelp]

variable [CDouble D]

/-- **The lines of a group.** -/
theorem helpPrintOptions_eq (h : Block block) (longest : Nat) :
    helpPrintOptions (block ++ rest) longest =
      (helpPrintOptions rest longest).map ((printed block).map (line longest) ++ ·) := by
  induction block with
  | nil => simp [printed]
  | cons option block ih =>
    rw [List.cons_append, helpPrintOptions, if_neg h.head]
    by_cases hhelp : option.help = none
    · rw [if_pos hhelp, ih h.tail]
      simp [printed, hhelp]
    · rw [if_neg hhelp, helpPrintOption_eq longest (h.fits List.mem_cons_self hhelp), ih h.tail]
      cases helpPrintOptions rest longest with
      | none => rfl
      | some lines => simp [printed, hhelp]

/-- **A group lines up** exactly if it is covered. -/
theorem linedUp_iff (block : List (OptEntry D W)) :
    LinedUp ((printed block).map (line (longestOf block 0))) ↔ Covered block := by
  constructor
  · intro h option hmem hunder
    obtain ⟨hhelp, hformats, -⟩ := hunder
    have hfits := h.fits _ (List.mem_map_of_mem (mem_printed.mpr ⟨hmem, hhelp⟩))
    have hle : (columnText option).length ≤ longestOf block 0 := hfits
    rw [columnText, if_pos hformats] at hle
    rcases le_longestOf.mp hle with hzero | ⟨other, hother, hprinted, hlen⟩
    · exact ⟨option, hmem, hhelp, Nat.le_trans hzero (Nat.zero_le _)⟩
    · exact ⟨other, hother, hprinted, hlen⟩
  · intro h
    have hwide : ∀ option ∈ printed block, (columnText option).length ≤ longestOf block 0 := by
      intro option hoption
      obtain ⟨hmem, hhelp⟩ := mem_printed.mp hoption
      rcases columnText_le hhelp with hle | hunder
      · exact le_longestOf.mpr (.inr ⟨option, hmem, hhelp, hle⟩)
      · rw [columnText, if_pos hunder.2.1]
        exact le_longestOf.mpr (.inr (h option hmem hunder))
    have hcolumn : ∀ l ∈ (printed block).map (line (longestOf block 0)),
        l.column = some (4 + longestOf block 0) := by
      rw [List.forall_mem_map]
      intro option hoption
      rw [line, HelpLine.column, Nat.max_eq_left (hwide option hoption)]
    refine ⟨List.forall_mem_map.mpr hwide, fun l hl l' hl' => ?_⟩
    rw [hcolumn l hl, hcolumn l' hl']

/-- The lines of a group are no headings. -/
theorem line_not_heading (longest : Nat) :
    ∀ l ∈ (printed block).map (line longest), l.isHeading = false :=
  List.forall_mem_map.mpr fun _ _ => rfl

end Blocks

/-! ## The table -/

/-- A list is a block without headings, or goes on with a heading behind one. -/
theorem headings_induction {α : Type} (p : α → Bool) {motive : List α → Prop}
    (last : ∀ block, (∀ x ∈ block, p x = false) → motive block)
    (more : ∀ block heading rest, (∀ x ∈ block, p x = false) → p heading = true → motive rest →
      motive (block ++ heading :: rest)) (l : List α) : motive l := by
  have hbehind : ∀ block, (∀ x ∈ block, p x = false) → motive (block ++ l) := by
    induction l with
    | nil =>
      intro block hblock
      rw [List.append_nil]
      exact last block hblock
    | cons x l ih =>
      intro block hblock
      cases hx : p x with
      | true => exact more block x l hblock hx (ih [] (by simp))
      | false =>
        rw [List.append_cons]
        refine ih (block ++ [x]) (List.forall_mem_append.mpr ⟨hblock, ?_⟩)
        exact List.forall_mem_singleton.mpr hx
  exact hbehind [] (by simp)

/-- All groups of the table are covered. -/
def AllCovered (options : List (OptEntry D W)) : Prop :=
  ∀ block ∈ options.splitOnP (fun option => option.type.isGroup), Covered block

section Tables
variable [CDouble D] {options : List (OptEntry D W)} {lines : List HelpLine} {longest : Nat}

/-- What is printed does not overrun the buffer. -/
theorem sound_of_printed (h : helpPrintOptions options longest = some lines) :
    ∀ option ∈ options, ¬ Overruns option := by
  induction options generalizing longest lines with
  | nil => simp
  | cons option options ih =>
    rw [helpPrintOptions] at h
    rw [List.forall_mem_cons]
    split at h
    · next hgroup =>
      simp only [Option.bind_eq_bind, Option.bind_eq_some_iff] at h
      obtain ⟨_, -, _, -, lines', hlines, -⟩ := h
      refine ⟨fun hover => ?_, ih hlines⟩
      rw [hover.1] at hgroup
      cases hgroup
    · split at h
      · next hhelp => exact ⟨fun hover => hover.2.1 hhelp, ih h⟩
      · simp only [Option.bind_eq_bind, Option.bind_eq_some_iff] at h
        obtain ⟨_, hline, lines', hlines, -⟩ := h
        refine ⟨fun hover => ?_, ih hlines⟩
        rw [helpPrintOption_none longest hover] at hline
        cases hline

/-- Behind a heading the width is that of the next group, if there is anything to print. -/
theorem lines_behind (before : Nat) (hlongest : groupGetLongest options 0 = some longest)
    (hlines : helpPrintOptions options longest = some lines) :
    ∃ longest, longestBehind options before = some longest ∧
      helpPrintOptions options longest = some lines := by
  by_cases hend : options = []
  · rw [hend] at hlines ⊢
    exact ⟨before, rfl, hlines⟩
  · exact ⟨longest, (if_neg hend).trans hlongest, hlines⟩

/-- A heading, and the lines behind it. -/
theorem helpPrintOptions_heading {heading : OptEntry D W} {name : Text}
    (hheading : heading.type.isGroup = true) (hname : heading.name = some name) (before : Nat)
    (hlongest : groupGetLongest options 0 = some longest)
    (hlines : helpPrintOptions options longest = some lines) :
    helpPrintOptions (heading :: options) before =
      some (.heading (40 + name.length / 2) name heading.help :: lines) := by
  obtain ⟨longest, hnext, hrest⟩ := lines_behind before hlongest hlines
  have hgroup : helpPrintGroup heading =
      some (.heading (40 + name.length / 2) name heading.help) := by
    rw [helpPrintGroup, hname]
    rfl
  rw [helpPrintOptions, if_pos hheading, hgroup]
  simp [hnext, hrest]

/-- **The lines of a table** whose entries can be measured and printed line up exactly if its
groups are covered, heading by heading. -/
theorem allLinedUp_iff (hmeasured : ∀ option ∈ options, Measured option)
    (hsound : ∀ option ∈ options, ¬ Overruns option) :
    ∃ longest lines, groupGetLongest options 0 = some longest ∧
      helpPrintOptions options longest = some lines ∧ (AllLinedUp lines ↔ AllCovered options) := by
  induction options using headings_induction (fun option : OptEntry D W => option.type.isGroup) with
  | last block hplain =>
    have hblock : Block block := ⟨hplain, hmeasured, hsound⟩
    have hlongest : groupGetLongest (block ++ []) 0 = some (longestOf block 0) :=
      groupGetLongest_eq hblock (by simp) 0
    have hlines : helpPrintOptions (block ++ []) (longestOf block 0) =
        some ((printed block).map (line (longestOf block 0)) ++ []) :=
      helpPrintOptions_eq hblock (longestOf block 0)
    rw [List.append_nil] at hlongest hlines
    refine ⟨_, _, hlongest, hlines, ?_⟩
    rw [List.append_nil, AllLinedUp, AllCovered, List.splitOnP_eq_singleton hplain,
      List.splitOnP_eq_singleton (line_not_heading _), List.forall_mem_singleton,
      List.forall_mem_singleton]
    exact linedUp_iff block
  | more block heading rest hplain hheading ih =>
    rw [List.forall_mem_append, List.forall_mem_cons] at hmeasured hsound
    obtain ⟨name, hname, -⟩ := hmeasured.2.1
    obtain ⟨longest', lines', hlongest', hlines', hiff⟩ := ih hmeasured.2.2 hsound.2.2
    have hblock : Block block := ⟨hplain, hmeasured.1, hsound.1⟩
    have hlongest : groupGetLongest (block ++ heading :: rest) 0 = some (longestOf block 0) :=
      groupGetLongest_eq hblock (by simpa using hheading) 0
    have hlines : helpPrintOptions (block ++ heading :: rest) (longestOf block 0) = _ :=
      helpPrintOptions_eq hblock (longestOf block 0)
    rw [helpPrintOptions_heading hheading hname _ hlongest' hlines'] at hlines
    refine ⟨_, _, hlongest, hlines, ?_⟩
    rw [AllLinedUp, AllCovered, List.splitOnP_append_cons_of_forall_mem hplain heading hheading,
      List.splitOnP_append_cons_of_forall_mem (line_not_heading _) _ rfl, List.forall_mem_cons,
      List.forall_mem_cons, linedUp_iff block]
    exact and_congr_right fun _ => hiff

/-- **When the help columns line up.**  For every table as `ae_opt_init` leaves one of named
entries: there is an output, and between two headings every first column is wide enough and
all separators are in one column, exactly if no text overruns `param_help`, and in each group
no `double` and no counter is longer with its parameter than all that was measured. -/
theorem aligned_iff (self : OptProgram D W)
    (hmeasured : ∀ option ∈ self.options, Measured option) :
    (∃ out, helpPrint self = some out ∧ AllLinedUp out.lines) ↔
      (∀ option ∈ self.options, ¬ Overruns option) ∧ AllCovered self.options := by
  constructor
  · rintro ⟨out, hout, hlined⟩
    simp only [helpPrint, Option.bind_eq_bind, Option.bind_eq_some_iff] at hout
    obtain ⟨longest, hlongest, lines, hlines, hout⟩ := hout
    obtain rfl := Option.some.inj hout
    have hsound := sound_of_printed hlines
    obtain ⟨longest', lines', hlongest', hlines', hiff⟩ := allLinedUp_iff hmeasured hsound
    rw [hlongest] at hlongest'
    obtain rfl := Option.some.inj hlongest'
    rw [hlines] at hlines'
    obtain rfl := Option.some.inj hlines'
    exact ⟨hsound, hiff.mp hlined⟩
  · rintro ⟨hsound, hcovered⟩
    obtain ⟨longest, lines, hlongest, hlines, hiff⟩ := allLinedUp_iff hmeasured hsound
    refine ⟨⟨usage self, lines⟩, ?_, hiff.mpr hcovered⟩
    simp only [helpPrint, Option.bind_eq_bind, Option.bind_eq_some_iff]
    exact ⟨longest, hlongest, lines, hlines, rfl⟩

end Tables

/-- An entry of one name, with a flag behind it. -/
def helped (type : OptType Unit) : OptProgram Unit Unit where
  programName := some (ascii "tool")
  help := some (ascii "[options]")
  options :=
    [⟨measure ⟨some (ascii "x"), 0, type, .required, none⟩, some (ascii "scale"),
        some (ascii "value")⟩,
      ⟨measure ⟨some (ascii "v"), 0, .flag (some 0), .none, none⟩, some (ascii "verbose"), none⟩]

theorem helped_measured (type : OptType Unit) :
    ∀ option ∈ (helped type).options, Measured option := by
  simp only [helped, List.forall_mem_cons]
  exact ⟨measure_measured rfl _ _, measure_measured rfl _ _, by simp⟩

/-- An `int` lines up with the flag. -/
theorem aligned_int :
    ∃ out, helpPrint (helped (.int none (some 0))) = some out ∧ AllLinedUp out.lines := by
  refine (aligned_iff _ (helped_measured _)).mpr ⟨?_, ?_⟩
  · simp only [helped, List.forall_mem_cons]
    refine ⟨fun h => ?_, fun h => ?_, by simp⟩
    · exact absurd h.2.2.2 (by decide)
    · exact absurd h.2.2.2 (by decide)
  · have hgroups : (helped (.int none (some 0))).options.splitOnP
        (fun option => option.type.isGroup) = [(helped (.int none (some 0))).options] := rfl
    rw [AllCovered, hgroups, List.forall_mem_singleton]
    simp only [Covered, helped, List.forall_mem_cons]
    refine ⟨fun h => ?_, fun h => ?_, by simp⟩
    · exact absurd h.2.2.1 (by decide)
    · exact absurd h.2.1 (by decide)

/-- A `double` does not: its separator is in column 13, and that of the flag in column 5. -/
theorem double_sticks_out :
    ¬ ∀ self : OptProgram Unit Unit, (∀ option ∈ self.options, Measured option) →
      (∀ option ∈ self.options, (nameText option.name ++ paramHelp option).length < field1Size) →
      ∃ out, helpPrint self = some out ∧ AllLinedUp out.lines := by
  intro h
  have hshort : ∀ option ∈ (helped (.double none (some 0))).options,
      (nameText option.name ++ paramHelp option).length < field1Size := by
    simp only [helped, List.forall_mem_cons]
    exact ⟨by decide, by decide, by simp⟩
  obtain ⟨out, hout, hlined⟩ := h _ (helped_measured (.double none (some 0))) hshort
  have hlines : helpPrint (helped (.double none (some 0))) = some ⟨usage (helped .help),
      [.option 1 (ascii "x=<value>") (ascii "scale"),
        .option 1 (ascii "v") (ascii "verbose")]⟩ := rfl
  rw [hlines] at hout
  obtain rfl := Option.some.inj hout
  have hblock := hlined _ List.mem_cons_self
  have hcolumn := hblock.column _ List.mem_cons_self _ (List.mem_cons_of_mem _ List.mem_cons_self)
  have hnumbers : some (4 + max 1 9) = some (4 + max 1 1) := hcolumn
  exact absurd hnumbers (by decide)

end Opt
end Libae
