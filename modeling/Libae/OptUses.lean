import Libae.OptSwitches

/-! # Options written out

A use of an option is its entry and a parameter, or none.  Written out it is the name behind
two dashes, and the parameter as an element of its own (`OptUse.words`).  `ae_opt_process` reads
back what was written: for a command line of uses it does what `ae_opt_option_process` does for
one use after the other, up to the first that fails or ends the program (`process_uses`).

The parameter has to be one that the entry takes and that is no option itself; a use without
one may stand anywhere but before an element that would be taken for its parameter.
-/
namespace Libae
open Fallible

/-- An option and the parameter it is given, if any. -/
structure OptUse (D W : Type) where
  option : OptOption D W
  param : Option Text

namespace OptUse
variable {D W : Type}

/-- The elements of the command line. -/
def words (use : OptUse D W) : List Text :=
  (Opt.dashes ++ Opt.nameText use.option.name) :: use.param.toList

/-- One element further, the entry is processed. -/
def run [CDouble D] (use : OptUse D W) : Fallible (OptState D W) Unit := do
  modify (fun s => { s with optind := s.optind + 1 })
  Opt.optionProcess use.param use.option

/-- One use after the other. -/
def runAll [CDouble D] : List (OptUse D W) → Fallible (OptState D W) Unit
  | [] => pure ()
  | use :: uses => do
    use.run
    runAll uses

/-- The use can be written: its entry is in the table and has a name, and its parameter is one
that the entry takes, and no option. -/
structure Writable (options : List (OptOption D W)) (use : OptUse D W) : Prop where
  mem : use.option ∈ options
  entry : use.option.type.isGroup = false
  name : ∃ name, use.option.name = some name ∧ name ≠ [] ∧ Opt.equals ∉ name
  param : ∀ p ∈ use.param, use.option.argOk = true ∧ Opt.argumentIsValid p = false

/-- The first element spells the name. -/
theorem Writable.spells {options : List (OptOption D W)} {use : OptUse D W}
    (h : use.Writable options) :
    ∃ name, use.option.name = some name ∧ Opt.nameText use.option.name = name ∧ name ≠ [] ∧
      Opt.Spells (Opt.dashes ++ Opt.nameText use.option.name) name none := by
  obtain ⟨name, hname, hne, heq⟩ := h.name
  have htext : Opt.nameText use.option.name = name := by
    rw [hname, Opt.nameText, Option.getD_some]
  refine ⟨name, hname, htext, hne, ?_⟩
  rw [htext]
  exact ⟨rfl, heq⟩

end OptUse

namespace Opt
variable {D W : Type}

/-- What may follow the uses: nothing, `"--"`, or an element that is no option, unless it would
be taken for the parameter of the last use. -/
def Closes (uses : List (OptUse D W)) (rest : List Text) : Prop :=
  ∀ arg ∈ rest.head?, arg = dashes ∨
    argumentIsValid arg = false ∧ ∀ use ∈ uses.getLast?, use.param.isSome = true

/-- `"--"` is read, any other element is left. -/
def close (rest : List Text) : Fallible (OptState D W) Unit :=
  modify (fun s => { s with optind := s.optind + if rest.head? = some dashes then 1 else 0 })

/-! ## One use -/

section Uses
variable {use : OptUse D W} {uses : List (OptUse D W)} {options : List (OptOption D W)}
  {rest argv : List Text} {s t : OptState D W}

/-- The uses that follow start with an option. -/
theorem closes_head (hwritable : ∀ use ∈ uses, use.Writable options)
    (hcloses : Closes (use :: uses) rest) (hparam : use.param = none) :
    ∀ arg ∈ (uses.flatMap OptUse.words ++ rest).head?, argumentIsValid arg = true := by
  intro arg harg
  cases uses with
  | nil =>
    -- the use is the last one, and has no parameter
    obtain rfl | ⟨-, hlast⟩ := hcloses arg harg
    · rfl
    · have hsome := hlast use (by rw [List.getLast?_singleton]; rfl)
      rw [hparam] at hsome
      cases hsome
  | cons next uses =>
    obtain ⟨name, -, -, -, hspells⟩ := (hwritable next List.mem_cons_self).spells
    obtain rfl : dashes ++ nameText next.option.name = arg := Option.some.inj harg
    exact hspells.split.1

/-- **The parameter that is written is the one that is read.** -/
theorem paramFrom_words (h : use.Writable options)
    (hwritable : ∀ use ∈ uses, use.Writable options) (hcloses : Closes (use :: uses) rest) :
    paramFrom (dashes ++ nameText use.option.name)
      (use.param.toList ++ (uses.flatMap OptUse.words ++ rest)) = use.param := by
  obtain ⟨name, -, -, -, hspells⟩ := h.spells
  rw [paramFrom, hspells.split.2.2]
  show ((use.param.toList ++ _).head?.filter _) = use.param
  cases hparam : use.param with
  | some p =>
    have hp := (h.param p hparam).2
    simp [hp]
  | none =>
    have hhead := closes_head hwritable hcloses hparam
    rw [Option.toList_none, List.nil_append, Option.filter_eq_none_iff]
    intro arg harg
    simp [hhead arg harg]

/-- Some elements further. -/
theorem At.skip {l : List Text} (h : At argv (l ++ rest) s) (ht : t.optind = s.optind + l.length) :
    At argv rest t := by
  have hnonneg := h.nonneg
  have hlen := h.optind
  rw [List.length_append] at hlen
  refine ⟨by omega, ?_, by omega⟩
  have hdrop := congrArg (List.drop l.length) h.left
  rw [List.drop_drop, List.drop_left] at hdrop
  rw [← hdrop]
  congr 1
  omega

/-- Nothing asks for the length of the name any more. -/
theorem optionProcess_measure [CDouble D] (p : Option Text) (option : OptOption D W) :
    optionProcess p (measure option) = optionProcess p option := by
  unfold measure
  split <;> rfl

/-- The index moves over the words of a use. -/
theorem use_optind [CDouble D] (h : use.Writable options) (s : OptState D W) :
    (use.run.run s).2.optind = s.optind + use.words.length := by
  have htrace := congrArg Prod.fst
    (optionProcess_trace use.param use.option { s with optind := s.optind + 1 })
  have hmoved : (use.run.run s).2.optind =
      s.optind + 1 + if takes use.option use.param then 1 else 0 := htrace
  rw [hmoved, OptUse.words, List.length_cons]
  cases hparam : use.param with
  | none => simp [takes]
  | some p =>
    have hok := (h.param p hparam).1
    simp [takes, hok]
    omega

end Uses

/-! ## A command line of uses -/

section CommandLine
variable [CDouble D] {uses : List (OptUse D W)} {options : List (OptOption D W)}
  {rest argv : List Text} {s : OptState D W}

/-- **One round** reads one use. -/
theorem round_use {cb : Option (OptCallback W Text)} {use : OptUse D W}
    (htable : Table (init cb options).options) (huse : use.Writable options)
    (hwritable : ∀ use ∈ uses, use.Writable options) (hcloses : Closes (use :: uses) rest)
    (hat : At argv (use.words ++ (uses.flatMap OptUse.words ++ rest)) s) :
    (processArg (init cb options) argv).run s =
      (use.run >>= fun _ => (pure true : Fallible (OptState D W) Bool)).run s := by
  obtain ⟨name, hname, htext, hne, hspells⟩ := huse.spells
  obtain ⟨hvalid, hsplit, -⟩ := hspells.split
  have hdash : dashes ++ nameText use.option.name ≠ dashes := by
    rw [htext]
    exact fun h => hne (List.append_right_eq_self.mp h)
  -- the entry that is found is the one of the use
  have hfound : lookup (init cb options).options
      (nameOf (dashes ++ nameText use.option.name)) = some (measure use.option) := by
    rw [hsplit]
    refine lookup_of_mem htable.distinct (List.mem_map_of_mem huse.mem) ?_ ?_
    · rw [measure_type]
      exact huse.entry
    · rw [measure_name]
      exact hname
  have hcons : At argv ((dashes ++ nameText use.option.name) ::
      (use.param.toList ++ (uses.flatMap OptUse.words ++ rest))) s := hat
  have hround := processArg_known htable hcons hvalid hdash hfound
  rw [paramFrom_words huse hwritable hcloses, optionProcess_measure] at hround
  exact hround

/-- The loop ends behind the uses. -/
theorem loop_closes {cb : Option (OptCallback W Text)} (htable : Table (init cb options).options)
    (hcloses : Closes ([] : List (OptUse D W)) rest) (hat : At argv rest s) {fuel : Nat}
    (hfuel : rest.length ≤ fuel) :
    (processLoop (init cb options) argv fuel).run s = (close rest).run s := by
  have hlen := hat.optind
  show _ = (some (), { s with optind := s.optind + _ })
  cases rest with
  | nil =>
    rw [loop_ends (by simp at hlen; omega)]
    simp
  | cons arg rest =>
    obtain ⟨fuel, rfl⟩ : ∃ n, fuel = n + 1 := ⟨fuel - 1, by simp at hfuel; omega⟩
    rw [loop_round (by simp at hlen; omega)]
    obtain rfl | ⟨hvalid, -⟩ := hcloses arg rfl
    · rw [round_terminator hat]
      simp
    · have hne : arg ≠ dashes := by
        rintro rfl
        cases hvalid
      rw [round_positional htable hat hvalid]
      simp [hne]

omit [CDouble D] in
/-- What follows all the uses follows those behind the first one. -/
theorem Closes.tail {use : OptUse D W} (h : Closes (use :: uses) rest) : Closes uses rest := by
  intro arg harg
  refine (h arg harg).imp_right (And.imp_right fun hlast use' huse' => hlast use' ?_)
  rw [List.getLast?_cons, huse']
  rfl

/-- **The loop** makes one round for each use, by induction on them, and then closes. -/
theorem loop_uses {cb : Option (OptCallback W Text)} (htable : Table (init cb options).options)
    (hwritable : ∀ use ∈ uses, use.Writable options) (hcloses : Closes uses rest)
    (hat : At argv (uses.flatMap OptUse.words ++ rest) s) {fuel : Nat}
    (hfuel : (uses.flatMap OptUse.words ++ rest).length ≤ fuel) :
    (processLoop (init cb options) argv fuel).run s =
      (do OptUse.runAll uses; close rest).run s := by
  induction uses generalizing s fuel with
  | nil => exact loop_closes htable hcloses hat hfuel
  | cons use uses ih =>
    rw [List.forall_mem_cons] at hwritable
    obtain ⟨huse, hwritable⟩ := hwritable
    have hwords : (use :: uses).flatMap OptUse.words ++ rest =
        use.words ++ (uses.flatMap OptUse.words ++ rest) := by
      rw [List.flatMap_cons, List.append_assoc]
    rw [hwords] at hat hfuel
    have hlen := hat.optind
    have hone : 1 ≤ use.words.length := by simp [OptUse.words]
    rw [List.length_append] at hlen hfuel
    obtain ⟨fuel, rfl⟩ : ∃ n, fuel = n + 1 := ⟨fuel - 1, by omega⟩
    have hoptind := use_optind huse s
    rw [loop_round (by omega), round_use htable huse hwritable hcloses hat, bind_run, bind_run,
      OptUse.runAll, bind_run]
    -- a use that fails ends both
    rcases hr : use.run.run s with ⟨_ | _, t⟩
    · rfl
    · rw [hr] at hoptind
      have hfuel' : (uses.flatMap OptUse.words ++ rest).length ≤ fuel := by omega
      have hrest := ih hwritable hcloses.tail (hat.skip hoptind) hfuel'
      rw [bind_run] at hrest
      exact hrest

omit [CDouble D] in
/-- The elements behind those that are read. -/
theorem At.behind {before l : List Text} (h : s.optind = before.length) :
    At (before ++ l) l s := by
  have hlen : (before ++ l).length = before.length + l.length := List.length_append
  refine ⟨by omega, ?_, by omega⟩
  rw [h, Int.toNat_natCast, List.drop_left]

/-- The call, from the first word of the uses on. -/
theorem call_uses {cb : Option (OptCallback W Text)} (htable : Table (init cb options).options)
    (hwritable : ∀ use ∈ uses, use.Writable options) (hcloses : Closes uses rest)
    (hat : At argv (uses.flatMap OptUse.words ++ rest) s) :
    (process (init cb options) argv).run s = (do OptUse.runAll uses; close rest).run s := by
  have hlen := hat.optind
  rw [process_loop (by omega)]
  exact loop_uses htable hwritable hcloses hat (by omega)

/-- **What is written is what is read.**  For every table with different names, every list of
uses that can be written, whatever stands before them and with what may follow them: from the
first of their words on, `ae_opt_process` does what one use after the other does, with the same
result and the same state, and then reads `"--"` if it follows. -/
theorem process_uses (cb : Option (OptCallback W Text)) (before : List Text)
    (hentry : ∃ option ∈ options, option.type.isGroup = false)
    (hnamed : ∀ option ∈ options, option.type.isGroup = false → option.name ≠ none)
    (hdistinct :
      ((options.filter (fun option => !option.type.isGroup)).map OptOption.name).Nodup)
    (hwritable : ∀ use ∈ uses, use.Writable options) (hcloses : Closes uses rest)
    (hstart : s.optind = before.length) :
    (process (init cb options) (before ++ (uses.flatMap OptUse.words ++ rest))).run s =
      (do OptUse.runAll uses; close rest).run s :=
  call_uses (init_table cb hentry hnamed hdistinct) hwritable hcloses (At.behind hstart)

end CommandLine

/-- `prog --file a -- x`, from behind `prog` on. -/
theorem process_uses_file : (process (init none [file])
      ([ascii "prog"] ++ ([OptUse.mk file (some (ascii "a"))].flatMap OptUse.words ++
        [dashes, ascii "x"]))).run { start with optind := 1 } =
    (do OptUse.runAll [OptUse.mk file (some (ascii "a"))]; close [dashes, ascii "x"]).run
      { start with optind := 1 } := by
  refine process_uses none [ascii "prog"] ⟨file, List.mem_cons_self, rfl⟩ ?_
    (List.nodup_singleton _) ?_ ?_ rfl
  · simp [file]
  · rw [List.forall_mem_singleton]
    exact ⟨List.mem_cons_self, rfl, ⟨_, rfl, by simp [ascii], by decide⟩, by simp; decide⟩
  · intro arg harg
    cases harg
    exact .inl rfl

end Opt
end Libae
