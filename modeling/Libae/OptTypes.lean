import Libae.Opt

/-! # What the types make of a parameter

`ae_opt_parse_int` and `ae_opt_parse_double` are one parser of two kinds of numbers
(`Numbers`): a parameter is read or takes its default, is written to the output, and is
compared with the bounds afterwards.  `ae_opt_parse_counter` reads the same way, adds
what it has read, and succeeds in any case.

From a state it is thus settled by the parameter what each type does: which parameters
it refuses (`Refuses`), and of which two of them it makes the same (`Alike`).
-/
namespace Libae
open Fallible

namespace Opt
variable {D W : Type}

/-- `ae_res_err` has added an error. -/
def withErr (text : Text) (s : OptState D W) : OptState D W :=
  { s with e := s.e ++ [⟨.err, text⟩] }

/-! ## Numbers -/

/-- The number a parameter stands for, and the default of one that is missing. -/
def reading {α : Type} (scan : Text → Option α) (default : α) : Option Text → Option α
  | some arg => scan arg
  | none => some default

/-- The bounds, if there are any, exclude the number. -/
def outside {α : Type} (lt : α → α → Bool) (params : Option (OptRange α)) (v : α) : Bool :=
  params.any (fun params => lt v params.min || lt params.max v)

/-- A parser of numbers: how it reads, which numbers it refuses, how it writes one to the
output, and what it reports.  Different numbers are written differently, and different
failures are reported differently. -/
structure Numbers (α D W : Type) where
  scan : Text → Option α
  default : α
  outside : α → Bool
  set : α → OptState D W → OptState D W
  unread : Text → Text
  unfit : α → Text
  set_e : ∀ v s, (set v s).e = s.e
  set_ended : ∀ v s, (set v s).ended = s.ended
  set_inj : ∀ {p p' v v' s}, reading scan default p = some v → reading scan default p' = some v' →
    (set v s).outputs = (set v' s).outputs → v = v'
  unread_inj : ∀ {arg arg'}, unread arg = unread arg' → arg = arg'
  unread_ne : ∀ arg v, unread arg ≠ unfit v

namespace Numbers
variable {α : Type} (n : Numbers α D W) {p p' : Option Text} {v : α} {s : OptState D W}

/-- What is read. -/
def read (p : Option Text) : Option α := reading n.scan n.default p

/-- A number is written, and then compared with the bounds. -/
def fit (v : α) (s : OptState D W) : Option Unit × OptState D W :=
  if n.outside v then (none, withErr (n.unfit v) (n.set v s)) else (some (), n.set v s)

/-- The parser. -/
def parse (p : Option Text) (s : OptState D W) : Option Unit × OptState D W :=
  match n.read p with
  | none => (none, withErr (n.unread (p.getD [])) s)
  | some v => n.fit v s

theorem parse_none (h : n.read p = none) :
    n.parse p s = (none, withErr (n.unread (p.getD [])) s) := by
  simp [parse, h]

theorem parse_some (h : n.read p = some v) : n.parse p s = n.fit v s := by
  simp [parse, h]

theorem fit_outside (h : n.outside v = true) :
    n.fit v s = (none, withErr (n.unfit v) (n.set v s)) := if_pos h

theorem fit_inside (h : n.outside v = false) : n.fit v s = (some (), n.set v s) := by
  simp [fit, h]

/-- The parser refuses what it cannot read, and what is out of its bounds. -/
theorem parse_fst : (n.parse p s).1 = none ↔ ∀ v, n.read p = some v → n.outside v = true := by
  unfold parse
  cases n.read p with
  | none => simp
  | some v => cases h : n.outside v <;> simp [fit, h]

theorem parse_read (h : n.read p = some v) : (n.parse p s).2.outputs = (n.set v s).outputs := by
  rw [n.parse_some h, fit]
  split <;> rfl

/-- A parser of numbers leaves alone what its writes and its messages leave alone. -/
theorem parse_frame {γ : Type} {f : OptState D W → γ} (hset : ∀ v s, f (n.set v s) = f s)
    (herr : ∀ text s, f (withErr text s) = f s) (p : Option Text) (s : OptState D W) :
    f (n.parse p s).2 = f s := by
  cases h : n.read p with
  | none =>
    rw [n.parse_none h]
    exact herr _ s
  | some v =>
    rw [n.parse_some h, fit]
    split
    · exact (herr _ _).trans (hset v s)
    · exact hset v s

theorem parse_ended : (n.parse p s).2.ended = s.ended :=
  n.parse_frame n.set_ended (fun _ _ => rfl) p s

theorem read_eq_none (h : n.read p = none) : ∃ arg, p = some arg := by
  cases p with
  | none => cases h
  | some arg => exact ⟨arg, rfl⟩

/-- What cannot be read is told apart from anything else by the message. -/
theorem parse_unread (hne : p ≠ p') (h : n.read p = none) :
    (n.parse p s).2.e ≠ (n.parse p' s).2.e := by
  obtain ⟨arg, rfl⟩ := n.read_eq_none h
  have hleft : (n.parse (some arg) s).2.e = s.e ++ [⟨.err, n.unread arg⟩] := by
    rw [n.parse_none h]
    rfl
  rw [hleft]
  intro he
  cases h' : n.read p' with
  | none =>
    obtain ⟨arg', rfl⟩ := n.read_eq_none h'
    simp only [parse, h', withErr, Option.getD_some, List.append_cancel_left_eq, List.cons.injEq,
      Msg.mk.injEq, and_true, true_and] at he
    exact hne (congrArg some (n.unread_inj he))
  | some v' =>
    simp only [parse, h', fit] at he
    split at he
    · simp only [withErr, n.set_e, List.append_cancel_left_eq, List.cons.injEq, Msg.mk.injEq,
        and_true, true_and] at he
      exact n.unread_ne arg v' he
    · simp [n.set_e] at he

/-- **Two parameters cannot be told apart** by what they leave in the outputs and in `e`
exactly if the same number is read. -/
theorem agree_iff (hne : p ≠ p') :
    ((n.parse p s).2.outputs = (n.parse p' s).2.outputs ∧ (n.parse p s).2.e = (n.parse p' s).2.e) ↔
      ∃ v, n.read p = some v ∧ n.read p' = some v := by
  constructor
  · rintro ⟨hout, he⟩
    cases h : n.read p with
    | none => exact absurd he (n.parse_unread hne h)
    | some v =>
      cases h' : n.read p' with
      | none => exact absurd he.symm (n.parse_unread hne.symm h')
      | some v' =>
        rw [n.parse_read h, n.parse_read h'] at hout
        exact ⟨v, rfl, congrArg some (n.set_inj h h' hout).symm⟩
  · rintro ⟨v, h, h'⟩
    rw [n.parse_some h, n.parse_some h']
    exact ⟨rfl, rfl⟩

end Numbers

/-! ## The parsers -/

section Parsers
variable (name : Option Text) (p : Option Text) (out : Nat) {s : OptState D W}

/-- The two reports of a parser of numbers end differently. -/
theorem report_ne {a b x y : Text} {c d : UInt8} (hx : x.getLast? = some c)
    (hy : y.getLast? = some d) (hcd : c ≠ d) : a ++ x ≠ b ++ y := by
  intro h
  have hlast := congrArg List.getLast? h
  rw [List.getLast?_append, List.getLast?_append, hx, hy] at hlast
  exact hcd (Option.some.inj hlast)

theorem report_inj {a b x y : Text} (h : a ++ x ++ b = a ++ y ++ b) : x = y := by
  rw [List.append_assoc, List.append_assoc] at h
  exact List.append_cancel_right (List.append_cancel_left h)

/-- What `ae_opt_parse_int` reads. -/
def readInt (params : Option (OptRange Int)) : Option Text → Option Int :=
  reading scanInt (params.elim (-1) OptRange.default)

/-- `ae_opt_parse_int`. -/
def intNumbers (params : Option (OptRange Int)) : Numbers Int D W where
  scan := scanInt
  default := params.elim (-1) OptRange.default
  outside := outside (fun v w => decide (v < w)) params
  set := setInt out
  unread arg := ascii "'" ++ nameText name ++ ascii "': '" ++ arg ++ ascii "' is not an integer"
  unfit v := ascii "'" ++ nameText name ++ ascii "': " ++ intText v ++
    ascii " is out of range (" ++ intText (params.elim 0 OptRange.min) ++ ascii "-" ++
    intText (params.elim 0 OptRange.max) ++ ascii ")"
  set_e _ _ := rfl
  set_ended _ _ := rfl
  set_inj _ _ h := by simpa [setInt] using congrFun (congrArg Outputs.ints h) out
  unread_inj := report_inj
  unread_ne _ _ := report_ne rfl rfl (by decide)

/-- What `ae_opt_parse_double` reads. -/
def readDouble [CDouble D] (params : Option (OptRange D)) : Option Text → Option D :=
  reading CDouble.scan (params.elim CDouble.negOne OptRange.default)

/-- `ae_opt_parse_double`. -/
def doubleNumbers [CDouble D] (params : Option (OptRange D)) : Numbers D D W where
  scan := CDouble.scan
  default := params.elim CDouble.negOne OptRange.default
  outside := outside CDouble.lt params
  set := setDouble out
  unread arg := ascii "'" ++ nameText name ++ ascii "': '" ++ arg ++ ascii "' is not a valid value"
  unfit v := ascii "'" ++ nameText name ++ ascii "': " ++ CDouble.format v ++
    ascii " is out of range (" ++ params.elim [] (CDouble.format ∘ OptRange.min) ++ ascii " - " ++
    params.elim [] (CDouble.format ∘ OptRange.max) ++ ascii ")"
  set_e _ _ := rfl
  set_ended _ _ := rfl
  set_inj _ _ h := by simpa [setDouble] using congrFun (congrArg Outputs.doubles h) out
  unread_inj := report_inj
  unread_ne _ _ := report_ne rfl rfl (by decide)

/-- What `ae_opt_parse_counter` adds. -/
def readDelta : Option Text → Option Int := reading scanInt 1

/-- A number that is read is an `int`. -/
theorem readDelta_int {v : Int} (h : readDelta p = some v) : toInt v = v := by
  cases p with
  | none =>
    cases h
    decide
  | some arg =>
    simp only [readDelta, reading, scanInt] at h
    split at h
    · cases h
    · cases h
      exact Int.bmod_bmod

/-- `ae_opt_parse_counter`, but for what it returns. -/
def counterNumbers : Numbers Int D W where
  scan := scanInt
  default := 1
  outside _ := false
  set v s := setInt out (toInt (s.outputs.ints out + v)) s
  unread arg := ascii "'" ++ nameText name ++ ascii "': '" ++ arg ++ ascii "' is not an integer"
  unfit _ := []
  set_e _ _ := rfl
  set_ended _ _ := rfl
  set_inj {p p' v v' s} hv hv' h := by
    have hsum : toInt (s.outputs.ints out + v) = toInt (s.outputs.ints out + v') := by
      simpa [setInt] using congrFun (congrArg Outputs.ints h) out
    rw [← readDelta_int p hv, ← readDelta_int p' hv']
    exact (Int.bmod_add_cancel_left _).mp hsum
  unread_inj := report_inj
  unread_ne _ _ := by simp [ascii]

theorem checkInt_run (params : Option (OptRange Int)) (v : Int) :
    (do modify (setInt out v); checkInt name out params).run s =
      (intNumbers name out params).fit v s := by
  cases params with
  | none => rfl
  | some params =>
    have hv : (setInt out v s).outputs.ints out = v := by simp [setInt]
    simp only [bind_run, modify_run, checkInt, get_run, hv]
    by_cases h : v < params.min ∨ v > params.max
    · have hout : outside (fun v w => decide (v < w)) (some params) v = true := by
        simpa [outside] using h
      rw [if_pos h, Numbers.fit_outside _ hout]
      rfl
    · have hout : outside (fun v w => decide (v < w)) (some params) v = false := by
        simpa [outside] using h
      rw [if_neg h, Numbers.fit_inside _ hout]
      rfl

theorem parseInt_run (params : Option (OptRange Int)) :
    (parseInt name params p (some out)).run s = (intNumbers name out params).parse p s := by
  cases p with
  | none => exact checkInt_run name out params _
  | some arg =>
    cases h : scanInt arg with
    | none =>
      rw [Numbers.parse_none (intNumbers name out params) (p := some arg) h]
      simp only [parseInt, h]
      rfl
    | some v =>
      rw [Numbers.parse_some (intNumbers name out params) (p := some arg) h]
      simp only [parseInt, h]
      exact checkInt_run name out params v

theorem checkDouble_run [CDouble D] (params : Option (OptRange D)) (v : D) :
    (do modify (setDouble out v); checkDouble name out params).run s =
      (doubleNumbers name out params).fit v s := by
  cases params with
  | none => rfl
  | some params =>
    have hv : (setDouble out v s).outputs.doubles out = v := by simp [setDouble]
    simp only [bind_run, modify_run, checkDouble, get_run, hv]
    by_cases h : CDouble.lt v params.min = true ∨ CDouble.lt params.max v = true
    · have hout : outside CDouble.lt (some params) v = true := by
        simpa [outside] using h
      rw [if_pos h, Numbers.fit_outside _ hout]
      rfl
    · have hout : outside CDouble.lt (some params) v = false := by
        simpa [outside] using h
      rw [if_neg h, Numbers.fit_inside _ hout]
      rfl

theorem parseDouble_run [CDouble D] (params : Option (OptRange D)) :
    (parseDouble name params p (some out)).run s = (doubleNumbers name out params).parse p s := by
  cases p with
  | none => exact checkDouble_run name out params _
  | some arg =>
    cases h : (CDouble.scan arg : Option D) with
    | none =>
      rw [Numbers.parse_none (doubleNumbers name out params) (p := some arg) h]
      simp only [parseDouble, h]
      rfl
    | some v =>
      rw [Numbers.parse_some (doubleNumbers name out params) (p := some arg) h]
      simp only [parseDouble, h]
      exact checkDouble_run name out params v

/-- The counter never refuses. -/
theorem parseCounter_run :
    (parseCounter name p (some out)).run s =
      (some (), ((counterNumbers name out).parse p s).2) := by
  cases p with
  | none => rfl
  | some arg =>
    cases h : scanInt arg with
    | none =>
      rw [Numbers.parse_none (counterNumbers name out) (p := some arg) h]
      simp only [parseCounter, h]
      rfl
    | some v =>
      rw [Numbers.parse_some (counterNumbers name out) (p := some arg) h]
      simp only [parseCounter, h]
      rfl

end Parsers

/-! ## The types -/

section Types
variable [CDouble D] {p p' : Option Text}

/-- For the parameter the type's parser returns `false`, or it does not return. -/
def Refuses (p : Option Text) : OptType D → Prop
  | .help | .version => True
  | .group | .callbackOnly => False
  | .flag out | .bit _ out | .string out | .counter out => out = none
  | .int params out => out = none ∨
      ∀ v, readInt params p = some v → outside (fun v w => decide (v < w)) params v = true
  | .double params out => out = none ∨
      ∀ v, readDouble params p = some v → outside CDouble.lt params v = true

/-- The type makes the same of two parameters. -/
def Alike (p p' : Option Text) : OptType D → Prop
  | .help | .version | .group | .callbackOnly | .flag _ | .bit _ _ => True
  | .string out => out = none
  | .int params out => out = none ∨ ∃ v, readInt params p = some v ∧ readInt params p' = some v
  | .double params out =>
      out = none ∨ ∃ v, readDouble params p = some v ∧ readDouble params p' = some v
  | .counter out => out = none ∨ ∃ v, readDelta p = some v ∧ readDelta p' = some v

/-- **What a type refuses** does not depend on the state. -/
theorem parseType_refuses (name p : Option Text) (type : OptType D) (s : OptState D W) :
    ((parseType name p type).run s).1 = none ↔ Refuses p type := by
  cases type with
  | help | version => exact iff_of_true rfl trivial
  | group | callbackOnly => exact iff_of_false (by simp [parseType]) id
  | flag out | bit whichBits out | string out =>
    cases out with
    | none => exact iff_of_true rfl rfl
    | some out => exact iff_of_false nofun nofun
  | counter out =>
    cases out with
    | none => exact iff_of_true rfl rfl
    | some out =>
      rw [parseType, parseCounter_run]
      exact iff_of_false nofun nofun
  | int params out =>
    cases out with
    | none => exact iff_of_true rfl (.inl rfl)
    | some out =>
      rw [parseType, parseInt_run, Numbers.parse_fst, Refuses]
      simp only [reduceCtorEq, false_or]
      exact Iff.rfl
  | double params out =>
    cases out with
    | none => exact iff_of_true rfl (.inl rfl)
    | some out =>
      rw [parseType, parseDouble_run, Numbers.parse_fst, Refuses]
      simp only [reduceCtorEq, false_or]
      exact Iff.rfl

/-- **Two parameters** leave the same in the outputs and in `e` exactly if the type makes the
same of them. -/
theorem parseType_alike (name : Option Text) (type : OptType D) (s : OptState D W) (hne : p ≠ p') :
    (((parseType name p type).run s).2.outputs = ((parseType name p' type).run s).2.outputs ∧
      ((parseType name p type).run s).2.e = ((parseType name p' type).run s).2.e) ↔
      Alike p p' type := by
  cases type with
  | help | version | group | callbackOnly => exact iff_of_true ⟨rfl, rfl⟩ trivial
  | flag out | bit whichBits out => exact iff_of_true ⟨rfl, rfl⟩ trivial
  | string out =>
    cases out with
    | none => exact iff_of_true ⟨rfl, rfl⟩ rfl
    | some out =>
      refine iff_of_false (fun h => hne ?_) nofun
      have hs := congrFun (congrArg Outputs.strings h.1) out
      simpa [parseType, parseString] using hs
  | counter out =>
    cases out with
    | none => exact iff_of_true ⟨rfl, rfl⟩ (.inl rfl)
    | some out =>
      rw [parseType, parseType, parseCounter_run, parseCounter_run, Alike]
      simp only [reduceCtorEq, false_or]
      exact (counterNumbers name out).agree_iff hne
  | int params out =>
    cases out with
    | none => exact iff_of_true ⟨rfl, rfl⟩ (.inl rfl)
    | some out =>
      rw [parseType, parseType, parseInt_run, parseInt_run, Alike]
      simp only [reduceCtorEq, false_or]
      exact (intNumbers name out params).agree_iff hne
  | double params out =>
    cases out with
    | none => exact iff_of_true ⟨rfl, rfl⟩ (.inl rfl)
    | some out =>
      rw [parseType, parseType, parseDouble_run, parseDouble_run, Alike]
      simp only [reduceCtorEq, false_or]
      exact (doubleNumbers name out params).agree_iff hne

end Types

end Opt
end Libae
