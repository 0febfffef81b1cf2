import Libae.Fallible
import Libae.Res
import Mathlib.Logic.Function.Basic

/-! # Option parsing

`ae_opt_t` (`opt.h`, `opt.c`): a table of options and the loop over the command line.

An entry of the table says by its type what its `in` and `out` point to, so the two are
arguments of the type here.  Outputs are addresses, and there is a memory for each C
type (`Outputs`); two entries may have the same address.  `ae_opt_t.optind` is part of
the state, as the calls change it.  Callbacks act on a world `W` of their own and do not
touch the parser; a `double` is what the library functions make of it (`CDouble`).

A run that crashes or exits stops at that point, which `OptState.ended` records; a run
that merely returns `false` leaves it empty.  The calls of `ae_opt_option_process` and
of the global callback are written to a log (`OptState.calls`).
-/
namespace Libae
open Fallible

/-! ## The table -/

/-- `ae_opt_required_t`. -/
inductive OptParam
  | none
  | optional
  | required
  deriving DecidableEq

/-- What `in` points to for a number: the default and the bounds. -/
structure OptRange (α : Type) where
  default : α
  min : α
  max : α

/-- `ae_opt_type_t`, with `in` and `out`. -/
inductive OptType (D : Type)
  | group
  | help
  | version
  | flag (out : Option Nat)
  | int (params : Option (OptRange Int)) (out : Option Nat)
  | double (params : Option (OptRange D)) (out : Option Nat)
  | string (out : Option Nat)
  | bit (whichBits : UInt64) (out : Option Nat)
  | counter (out : Option Nat)
  | callbackOnly

/-- The entry is `AE_OPT_TYPE_GROUP`. -/
def OptType.isGroup {D : Type} : OptType D → Bool
  | .group => true
  | _ => false

/-- What a callback makes of an argument and its world: the value it returns and the
messages it adds to `e`. -/
abbrev OptCallback (W α : Type) := W → α → Bool × List Msg × W

/-- `ae_opt_option_t`, with the callback applied to `ctx`. -/
structure OptOption (D W : Type) where
  name : Option Text
  nameLen : Nat
  type : OptType D
  isRequired : OptParam
  callback : Option (OptCallback W (Option Text))

/-- `arg_ok`: the entry takes a parameter. -/
def OptOption.argOk {D W : Type} (option : OptOption D W) : Bool := option.isRequired ≠ .none

/-- `ae_opt_t`, with the callback applied to `ctx`. -/
structure Opt (D W : Type) where
  callback : Option (OptCallback W Text)
  options : List (OptOption D W)

/-! ## The state -/

/-- What the outputs point to. -/
structure Outputs (D : Type) where
  bools : Nat → Bool
  ints : Nat → Int
  doubles : Nat → D
  strings : Nat → Option Text
  bits : Nat → UInt32

/-- A call of `ae_opt_option_process`, or of the global callback. -/
inductive OptCall
  | option (name : Option Text) (param : Option Text)
  | unknown (argument : Text)
  deriving DecidableEq

/-- What is printed before `exit(0)`. -/
inductive OptPrinted
  | help
  | version

/-- Why a run stopped without returning. -/
inductive OptEnded
  | crashed
  | exited (printed : OptPrinted)

/-- What a call changes. -/
structure OptState (D W : Type) where
  optind : Int
  outputs : Outputs D
  e : List Msg
  calls : List OptCall
  world : W
  ended : Option OptEnded

/-- `double`: `sscanf` with `%lg`, `<`, `printf` with `%g`, and the value -1. -/
class CDouble (D : Type) where
  scan : Text → Option D
  lt : D → D → Bool
  format : D → Text
  negOne : D

namespace Opt
variable {D W : Type}

/-- `option->name_len = strlen(option->name)`, if there is a name. -/
def measure (option : OptOption D W) : OptOption D W :=
  match option.name with
  | some name => { option with nameLen := name.length }
  | none => option

/-- `ae_opt_init`, which leaves `optind` as it is. -/
def init (cb : Option (OptCallback W Text)) (options : List (OptOption D W)) : Opt D W where
  callback := cb
  options := options.map measure

/-- The run ends here. -/
def stop (ended : OptEnded) : Fallible (OptState D W) Unit := do
  modify (fun s => { s with ended := some ended })
  fail

/-- `ae_res_err(e, …)`. -/
def resErr (text : Text) : Fallible (OptState D W) Unit :=
  modify (fun s => { s with e := s.e ++ [⟨.err, text⟩] })

/-- A callback is called. -/
def runCallback {α : Type} (cb : OptCallback W α) (a : α) : Fallible (OptState D W) Unit := do
  let r := cb (← get).world a
  modify (fun s => { s with e := s.e ++ r.2.1, world := r.2.2 })
  if r.1 then pure () else fail

/-- A callback that may be `NULL` is called. -/
def callIfAny {α : Type} (cb : Option (OptCallback W α)) (a : α) :
    Fallible (OptState D W) Unit :=
  match cb with
  | some cb => runCallback cb a
  | none => pure ()

/-- `printf` of a name with `%s`. -/
def nameText (name : Option Text) : Text := name.getD (ascii "(null)")

/-- `printf` with `%d`. -/
def intText (v : Int) : Text := ascii (toString v)

/-! ## `sscanf` with `%d` -/

/-- `isspace`. -/
def isSpace (c : UInt8) : Bool := c == 32 || (9 ≤ c && c ≤ 13)

/-- `isdigit`. -/
def isDigit (c : UInt8) : Bool := 48 ≤ c && c ≤ 57

/-- The number that decimal digits denote. -/
def digitsValue (digits : Text) : Nat := digits.foldl (fun n c => 10 * n + (c.toNat - 48)) 0

/-- A value reduced to an `int`. -/
def toInt (v : Int) : Int := v.bmod (2 ^ 32)

/-- A sign, if there is one, and what follows it. -/
def sign : Text → Bool × Text
  | c :: rest => if c == 45 then (true, rest) else (false, if c == 43 then rest else c :: rest)
  | [] => (false, [])

/-- `sscanf(arg, "%d", …)`: the value, if something is converted. -/
def scanInt (arg : Text) : Option Int :=
  let signed := sign (arg.dropWhile isSpace)
  let digits := signed.2.takeWhile isDigit
  if digits = [] then none
  else some (toInt (if signed.1 then -(digitsValue digits : Int) else digitsValue digits))

/-! ## The types -/

/-- `if(!out)`: the message of a `NULL` output. -/
def nullOutput (name : Option Text) : Fallible (OptState D W) Unit := do
  resErr (ascii "programmer error: '" ++ nameText name ++ ascii "' null output argument")
  fail

/-- `ae_opt_parse_flag`. -/
def parseFlag (name : Option Text) : Option Nat → Fallible (OptState D W) Unit
  | none => nullOutput name
  | some out => modify (fun s =>
      { s with outputs := { s.outputs with bools := Function.update s.outputs.bools out true } })

/-- `*out = v` for an `int`. -/
def setInt (out : Nat) (v : Int) (s : OptState D W) : OptState D W :=
  { s with outputs := { s.outputs with ints := Function.update s.outputs.ints out v } }

/-- `*out = v` for a `double`. -/
def setDouble (out : Nat) (v : D) (s : OptState D W) : OptState D W :=
  { s with outputs := { s.outputs with doubles := Function.update s.outputs.doubles out v } }

/-- The range check of `ae_opt_parse_int`. -/
def checkInt (name : Option Text) (out : Nat) :
    Option (OptRange Int) → Fallible (OptState D W) Unit
  | none => pure ()
  | some params => do
    let v := (← get).outputs.ints out
    if v < params.min ∨ v > params.max then
      resErr (ascii "'" ++ nameText name ++ ascii "': " ++ intText v ++
        ascii " is out of range (" ++ intText params.min ++ ascii "-" ++ intText params.max ++
        ascii ")")
      fail
    else pure ()

/-- `ae_opt_parse_int`. -/
def parseInt (name : Option Text) (params : Option (OptRange Int)) (arg : Option Text) :
    Option Nat → Fallible (OptState D W) Unit
  | none => nullOutput name
  | some out =>
    match arg with
    | some arg =>
      match scanInt arg with
      | some v => do
        modify (setInt out v)
        checkInt name out params
      | none => do
        resErr (ascii "'" ++ nameText name ++ ascii "': '" ++ arg ++ ascii "' is not an integer")
        fail
    | none => do
      modify (setInt out (params.elim (-1) OptRange.default))
      checkInt name out params

/-- The range check of `ae_opt_parse_double`. -/
def checkDouble [CDouble D] (name : Option Text) (out : Nat) :
    Option (OptRange D) → Fallible (OptState D W) Unit
  | none => pure ()
  | some params => do
    let v := (← get).outputs.doubles out
    if CDouble.lt v params.min ∨ CDouble.lt params.max v then
      resErr (ascii "'" ++ nameText name ++ ascii "': " ++ CDouble.format v ++
        ascii " is out of range (" ++ CDouble.format params.min ++ ascii " - " ++
        CDouble.format params.max ++ ascii ")")
      fail
    else pure ()

/-- `ae_opt_parse_double`. -/
def parseDouble [CDouble D] (name : Option Text) (params : Option (OptRange D))
    (arg : Option Text) : Option Nat → Fallible (OptState D W) Unit
  | none => nullOutput name
  | some out =>
    match arg with
    | some arg =>
      match CDouble.scan arg with
      | some v => do
        modify (setDouble out v)
        checkDouble name out params
      | none => do
        resErr (ascii "'" ++ nameText name ++ ascii "': '" ++ arg ++
          ascii "' is not a valid value")
        fail
    | none => do
      modify (setDouble out (params.elim CDouble.negOne OptRange.default))
      checkDouble name out params

/-- `ae_opt_parse_bit`. -/
def parseBit (name : Option Text) (whichBits : UInt64) :
    Option Nat → Fallible (OptState D W) Unit
  | none => nullOutput name
  | some out => modify (fun s =>
      let v := s.outputs.bits out ||| whichBits.toUInt32
      { s with outputs := { s.outputs with bits := Function.update s.outputs.bits out v } })

/-- `ae_opt_parse_counter`, which returns `true` also when `arg` is no integer. -/
def parseCounter (name : Option Text) (arg : Option Text) :
    Option Nat → Fallible (OptState D W) Unit
  | none => nullOutput name
  | some out =>
    match arg with
    | none => modify (fun s => setInt out (toInt (s.outputs.ints out + 1)) s)
    | some arg =>
      match scanInt arg with
      | none =>
        resErr (ascii "'" ++ nameText name ++ ascii "': '" ++ arg ++ ascii "' is not an integer")
      | some tmp => modify (fun s => setInt out (toInt (s.outputs.ints out + tmp)) s)

/-- `ae_opt_parse_string`, which does not look whether there is an output. -/
def parseString (arg : Option Text) : Option Nat → Fallible (OptState D W) Unit
  | none => stop .crashed
  | some out => modify (fun s =>
      { s with outputs := { s.outputs with strings := Function.update s.outputs.strings out arg } })

/-- What `ae_opt_option_process` does for the type of an entry. -/
def parseType [CDouble D] (name : Option Text) (param : Option Text) :
    OptType D → Fallible (OptState D W) Unit
  | .help => stop (.exited .help)
  | .version => stop (.exited .version)
  | .flag out => parseFlag name out
  | .int params out => parseInt name params param out
  | .double params out => parseDouble name params param out
  | .string out => parseString param out
  | .bit whichBits out => parseBit name whichBits out
  | .counter out => parseCounter name param out
  | .group | .callbackOnly => pure ()

/-! ## The command line -/

/-- `"--"`. -/
def dashes : Text := [45, 45]

/-- `'='`. -/
def equals : UInt8 := 61

/-- `ae_opt_argument_is_valid`: the argument begins with two dashes. -/
def argumentIsValid : Text → Bool
  | c :: d :: _ => c == 45 && d == 45
  | _ => false

/-- `argv[i]`, within the array. -/
def argAt (argv : List Text) (i : Int) : Option Text := if 0 ≤ i then argv[i.toNat]? else none

/-- `ae_opt_arg_get`. -/
def argGet (argv : List Text) (optind : Int) : Option Text :=
  (argAt argv optind).filter (fun maybe => ¬ argumentIsValid maybe)

/-- `ae_opt_option_process`. -/
def optionProcess [CDouble D] (param : Option Text) (option : OptOption D W) :
    Fallible (OptState D W) Unit := do
  modify (fun s => { s with calls := s.calls ++ [.option option.name param] })
  if option.argOk ∧ param.isSome then
    modify (fun s => { s with optind := s.optind + 1 })
  parseType option.name param option.type
  callIfAny option.callback param

/-- `&arg[2]` up to its first `'='`. -/
def nameOf (arg : Text) : Text := (arg.drop 2).takeWhile (· ≠ equals)

/-- What follows the first `'='` of `&arg[2]`. -/
def valueOf (arg : Text) : Option Text :=
  if equals ∈ arg.drop 2 then some ((arg.drop 2).drop ((nameOf arg).length + 1)) else none

/-- `param`: what follows the `'='`, or the next element. -/
def paramOf (argv : List Text) (arg : Text) (optind : Int) : Option Text :=
  match valueOf arg with
  | some value => some value
  | none => argGet argv optind

/-- How the loop over the table ended: at an element that is no option, or at the
table's end. -/
inductive Scan
  | stopped
  | done (processed : Bool)

/-- The loop over the table. -/
def scanOptions [CDouble D] (argv : List Text) (arg : Text) :
    List (OptOption D W) → Bool → Fallible (OptState D W) Scan
  | [], processed => pure (.done processed)
  | option :: options, processed =>
    if option.type.isGroup then scanOptions argv arg options processed
    else if ¬ argumentIsValid arg then do
      modify (fun s => { s with optind := s.optind - 1 })
      pure .stopped
    else
      let limit := (nameOf arg).length
      if limit ≠ option.nameLen then scanOptions argv arg options processed
      else
        match option.name with
        | none => do
          stop .crashed
          pure .stopped
        | some name =>
          -- `strncmp` of at most `limit` characters
          if name.take limit ≠ (arg.drop 2).take limit then scanOptions argv arg options processed
          else do
            let optind := (← get).optind
            optionProcess (paramOf argv arg optind) option
            scanOptions argv arg options true

/-- `ae_opt_default_callback`, or the global callback. -/
def unknown (self : Opt D W) (arg : Text) : Fallible (OptState D W) Unit := do
  modify (fun s => { s with calls := s.calls ++ [.unknown arg] })
  match self.callback with
  | some cb => runCallback cb arg
  | none =>
    resErr (ascii "unknown option: " ++ arg)
    fail

/-- One round of the loop; `true` if it goes on. -/
def processArg [CDouble D] (self : Opt D W) (argv : List Text) :
    Fallible (OptState D W) Bool := do
  match argAt argv (← get).optind with
  | none =>
    stop .crashed
    pure false
  | some arg =>
    modify (fun s => { s with optind := s.optind + 1 })
    if arg = dashes then pure false
    else
      match ← scanOptions argv arg self.options false with
      | .stopped => pure false
      | .done true => pure true
      | .done false =>
        unknown self arg
        pure true

/-- The loop, for at most so many rounds. -/
def processLoop [CDouble D] (self : Opt D W) (argv : List Text) :
    Nat → Fallible (OptState D W) Unit
  | 0 => pure ()
  | fuel + 1 => do
    if (← get).optind < argv.length then
      if ← processArg self argv then processLoop self argv fuel else pure ()
    else pure ()

/-- `ae_opt_process`: every round of the loop, but the last, moves `optind` forward. -/
def process [CDouble D] (self : Opt D W) (argv : List Text) : Fallible (OptState D W) Unit := do
  let optind := (← get).optind
  if optind > argv.length then
    resErr (ascii "option processing is complete (optind: " ++ intText optind ++
      ascii ", argc: " ++ intText argv.length ++ ascii ")")
    fail
  else processLoop self argv (argv.length - optind).toNat

end Opt
end Libae
