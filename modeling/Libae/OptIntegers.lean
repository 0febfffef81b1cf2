import Libae.OptArity
import Libae.OptOutputs
import Mathlib.Data.List.Induction
import Mathlib.Data.Nat.Digits.Defs

/-! # The integers that are accepted

What is an integer is said by a grammar (`Denotes`): digits, with a sign or without, behind
white space.  `sscanf` with `%d` reads the integer in front of a text, as far as its digits go,
and delivers it reduced to an `int` (`scanInt_iff`).  What follows the digits is left alone, and
the range is checked after the reduction.

So an option of type `AE_OPT_TYPE_INT` takes the integers in its range, and only these, exactly
if its parameter starts with no integer, or with one that is out of range once it is reduced, or
is an integer that fits an `int` (`integers_iff`).
-/
namespace Libae
open Fallible

namespace Opt
variable {D W : Type}

/-! ## Integers -/

/-- The number that decimal digits denote. -/
def decimal (digits : Text) : Nat := Nat.ofDigits 10 (digits.reverse.map (fun c => c.toNat - 48))

/-- The text is a decimal integer, and denotes this one. -/
inductive Denotes : Text → Int → Prop
  | digits {ds : Text} : ds ≠ [] → (∀ c ∈ ds, isDigit c = true) → Denotes ds (decimal ds)
  | plus {ds : Text} : ds ≠ [] → (∀ c ∈ ds, isDigit c = true) → Denotes (43 :: ds) (decimal ds)
  | minus {ds : Text} : ds ≠ [] → (∀ c ∈ ds, isDigit c = true) →
      Denotes (45 :: ds) (-(decimal ds : Int))
  | space {c : UInt8} {text : Text} {v : Int} : isSpace c = true → Denotes text v →
      Denotes (c :: text) v

/-- The number is an `int`. -/
def Fits (v : Int) : Prop := -(2 ^ 31) ≤ v ∧ v < 2 ^ 31

/-- Between the bounds, if there are any. -/
def Within (params : Option (OptRange Int)) (v : Int) : Prop := ∀ r ∈ params, r.min ≤ v ∧ v ≤ r.max

/-- The text is an integer that fits an `int` and lies between the bounds. -/
def IntegerFor (params : Option (OptRange Int)) (text : Text) : Prop :=
  ∃ v, Denotes text v ∧ Fits v ∧ Within params v

/-- No digit follows. -/
def Stops (rest : Text) : Prop := ∀ c ∈ rest.head?, isDigit c = false

/-- The text starts with the integer `n`, as far as its digits go, and `rest` follows. -/
def Leads (text : Text) (n : Int) (rest : Text) : Prop :=
  ∃ lead, text = lead ++ rest ∧ Denotes lead n ∧ Stops rest

/-- The sign and the digits that `%d` reads, and what it leaves. -/
def scanned (text : Text) : Bool × Text × Text :=
  let signed := sign (text.dropWhile isSpace)
  (signed.1, signed.2.takeWhile isDigit, signed.2.dropWhile isDigit)

/-- The number of a sign and digits. -/
def signedValue (neg : Bool) (ds : Text) : Int := if neg then -(decimal ds : Int) else decimal ds

section Scanning
variable {ds text rest : Text} {n : Int} {c : UInt8}

/-- Digit by digit, from the last one on. -/
theorem digitsValue_eq (ds : Text) : digitsValue ds = decimal ds := by
  induction ds using List.reverseRecOn with
  | nil => rfl
  | append_singleton ds c ih =>
    have hlast : digitsValue (ds ++ [c]) = 10 * digitsValue ds + (c.toNat - 48) := by
      simp [digitsValue]
    have hfirst : decimal (ds ++ [c]) = (c.toNat - 48) + 10 * decimal ds := by
      simp [decimal, Nat.ofDigits_cons]
    rw [hlast, hfirst, ih, Nat.add_comm]

theorem scanInt_scanned (text : Text) :
    scanInt text = if (scanned text).2.1 = [] then none
      else some (toInt (signedValue (scanned text).1 (scanned text).2.1)) := by
  rw [scanInt, digitsValue_eq]
  rfl

theorem isSpace_of_isDigit (h : isDigit c = true) : isSpace c = false := by
  simp only [isDigit, Bool.and_eq_true, decide_eq_true_eq, UInt8.le_iff_toNat_le] at h
  have hlarge : 48 ≤ c.toNat := h.1
  have hblank : c ≠ 32 := by
    rintro rfl
    exact absurd hlarge (by decide)
  have hcontrol : ¬ c ≤ 13 := by
    rw [UInt8.le_iff_toNat_le]
    exact fun hle => absurd (Nat.le_trans hlarge hle) (by decide)
  simp [isSpace, hblank, hcontrol]

/-- All digits are read, up to what follows them. -/
theorem takeWhile_digits (hds : ∀ c ∈ ds, isDigit c = true) (hrest : Stops rest) :
    (ds ++ rest).takeWhile isDigit = ds ∧ (ds ++ rest).dropWhile isDigit = rest := by
  rw [List.takeWhile_append_of_pos hds, List.dropWhile_append_of_pos hds]
  cases rest with
  | nil => exact ⟨List.append_nil ds, rfl⟩
  | cons c rest =>
    have hc : ¬ isDigit c = true := Bool.eq_false_iff.mp (hrest c rfl)
    rw [List.takeWhile_cons_of_neg hc, List.dropWhile_cons_of_neg hc, List.append_nil]
    exact ⟨rfl, rfl⟩

/-- Digits have no sign, and no white space in front of them. -/
theorem scanned_digits (hne : ds ≠ []) (hds : ∀ c ∈ ds, isDigit c = true) (hrest : Stops rest) :
    scanned (ds ++ rest) = (false, ds, rest) := by
  obtain ⟨htake, hdrop⟩ := takeWhile_digits hds hrest
  cases ds with
  | nil => exact absurd rfl hne
  | cons c ds =>
    have hc := hds c List.mem_cons_self
    have hspace : ((c :: ds) ++ rest).dropWhile isSpace = (c :: ds) ++ rest :=
      List.dropWhile_cons_of_neg (Bool.eq_false_iff.mp (isSpace_of_isDigit hc))
    have hminus : c ≠ 45 := by
      rintro rfl
      exact absurd hc (by decide)
    have hplus : c ≠ 43 := by
      rintro rfl
      exact absurd hc (by decide)
    have hsign : sign ((c :: ds) ++ rest) = (false, (c :: ds) ++ rest) := by
      simp [sign, hminus, hplus]
    rw [scanned, hspace, hsign]
    dsimp only
    rw [htake, hdrop]

theorem scanned_plus (hds : ∀ c ∈ ds, isDigit c = true) (hrest : Stops rest) :
    scanned (43 :: (ds ++ rest)) = (false, ds, rest) := by
  obtain ⟨htake, hdrop⟩ := takeWhile_digits hds hrest
  have hsign : sign (43 :: (ds ++ rest)) = (false, ds ++ rest) := rfl
  rw [scanned, List.dropWhile_cons_of_neg (by decide), hsign]
  dsimp only
  rw [htake, hdrop]

theorem scanned_minus (hds : ∀ c ∈ ds, isDigit c = true) (hrest : Stops rest) :
    scanned (45 :: (ds ++ rest)) = (true, ds, rest) := by
  obtain ⟨htake, hdrop⟩ := takeWhile_digits hds hrest
  have hsign : sign (45 :: (ds ++ rest)) = (true, ds ++ rest) := rfl
  rw [scanned, List.dropWhile_cons_of_neg (by decide), hsign]
  dsimp only
  rw [htake, hdrop]

theorem stops_dropWhile (text : Text) : Stops (text.dropWhile isDigit) := by
  intro c hc
  have hhead := List.head?_dropWhile_not isDigit text
  rw [hc] at hhead
  exact hhead

/-- White space is skipped. -/
theorem scanned_space (h : isSpace c = true) (text : Text) :
    scanned (c :: text) = scanned text := by
  rw [scanned, scanned, List.dropWhile_cons_of_pos h]

/-- An integer in front is what is read. -/
theorem Leads.scanned_eq (h : Leads text n rest) :
    ∃ neg ds, scanned text = (neg, ds, rest) ∧ ds ≠ [] ∧ n = signedValue neg ds := by
  obtain ⟨lead, rfl, hdenotes, hrest⟩ := h
  induction hdenotes with
  | digits hne hds => exact ⟨_, _, scanned_digits hne hds hrest, hne, rfl⟩
  | plus hne hds => exact ⟨_, _, scanned_plus hds hrest, hne, rfl⟩
  | minus hne hds => exact ⟨_, _, scanned_minus hds hrest, hne, rfl⟩
  | space hc _ ih =>
    rw [List.cons_append, scanned_space hc]
    exact ih

theorem Leads.space (hc : isSpace c = true) (h : Leads text n rest) : Leads (c :: text) n rest := by
  obtain ⟨lead, rfl, hdenotes, hrest⟩ := h
  exact ⟨c :: lead, rfl, .space hc hdenotes, hrest⟩

/-- What is read is an integer in front. -/
theorem leads_scanned (text : Text) (hne : (scanned text).2.1 ≠ []) :
    Leads text (signedValue (scanned text).1 (scanned text).2.1) (scanned text).2.2 := by
  induction text with
  | nil => exact absurd rfl hne
  | cons c text ih =>
    by_cases hc : isSpace c = true
    · rw [scanned_space hc] at hne ⊢
      exact (ih hne).space hc
    · have hspace : (c :: text).dropWhile isSpace = c :: text := List.dropWhile_cons_of_neg hc
      have hsplit : ∀ u : Text, u = u.takeWhile isDigit ++ u.dropWhile isDigit :=
        fun u => List.takeWhile_append_dropWhile.symm
      have hdigits : ∀ u : Text, ∀ d ∈ u.takeWhile isDigit, isDigit d = true :=
        fun u d hd => List.mem_takeWhile_imp hd
      rw [scanned, hspace] at hne ⊢
      -- the digits start behind the sign, or with `c`
      by_cases hminus : c = 45
      · subst hminus
        exact ⟨_, congrArg (45 :: ·) (hsplit text), .minus hne (hdigits text), stops_dropWhile text⟩
      by_cases hplus : c = 43
      · subst hplus
        exact ⟨_, congrArg (43 :: ·) (hsplit text), .plus hne (hdigits text), stops_dropWhile text⟩
      have hsign : sign (c :: text) = (false, c :: text) := by simp [sign, hminus, hplus]
      rw [hsign] at hne ⊢
      exact ⟨_, hsplit _, .digits hne (hdigits _), stops_dropWhile _⟩

/-- **What `%d` reads**: the integer in front, as far as its digits go, reduced to an `int`. -/
theorem scanInt_iff {v : Int} :
    scanInt text = some v ↔ ∃ n rest, Leads text n rest ∧ v = toInt n := by
  rw [scanInt_scanned]
  constructor
  · intro h
    by_cases hne : (scanned text).2.1 = []
    · rw [if_pos hne] at h
      cases h
    · rw [if_neg hne] at h
      exact ⟨_, _, leads_scanned text hne, (Option.some.inj h).symm⟩
  · rintro ⟨n, rest, hleads, rfl⟩
    obtain ⟨neg, ds, hscanned, hne, rfl⟩ := hleads.scanned_eq
    rw [hscanned, if_neg hne]

/-- There is one such integer at most. -/
theorem Leads.unique {m : Int} {rest' : Text} (h : Leads text n rest) (h' : Leads text m rest') :
    n = m ∧ rest = rest' := by
  obtain ⟨neg, ds, hscanned, -, rfl⟩ := h.scanned_eq
  obtain ⟨neg', ds', hscanned', -, rfl⟩ := h'.scanned_eq
  rw [hscanned] at hscanned'
  cases hscanned'
  exact ⟨rfl, rfl⟩

/-- A text is an integer if it starts with one and nothing follows. -/
theorem leads_nil : Leads text n [] ↔ Denotes text n := by
  constructor
  · rintro ⟨lead, rfl, hdenotes, -⟩
    rw [List.append_nil]
    exact hdenotes
  · exact fun h => ⟨text, (List.append_nil text).symm, h, nofun⟩

/-- An `int` is reduced to itself. -/
theorem Fits.toInt_eq (h : Fits n) : toInt n = n := by
  obtain ⟨hmin, hmax⟩ := h
  exact Int.bmod_eq_of_le (by omega) (by omega)

end Scanning

/-! ## The option -/

section Options
variable [CDouble D] {option : OptOption D W} {params : Option (OptRange Int)} {out : Option Nat}
  {p rest : Text} {n : Int} {s : OptState D W}

theorem outside_eq_false {v : Int} :
    outside (fun v w => decide (v < w)) params v = false ↔ Within params v := by
  cases params with
  | none => simp [outside, Within]
  | some r => simp [outside, Within]

/-- From the state, the option takes the parameter exactly if it is an integer in range, and
stores that integer. -/
structure TakesInteger (option : OptOption D W) (params : Option (OptRange Int))
    (out : Option Nat) (p : Text) (s : OptState D W) : Prop where
  accepts : ((optionProcess (some p) option).run s).1 = some () ↔ IntegerFor params p
  stores : ((optionProcess (some p) option).run s).1 = some () → ∃ a v, out = some a ∧
    Denotes p v ∧ ((optionProcess (some p) option).run s).2.outputs.ints a = v

omit [CDouble D] in
/-- The callback, if there is one, returns `true`. -/
def Approves (option : OptOption D W) (p : Text) (w : W) : Prop :=
  ∀ cb, option.callback = some cb → (cb w (some p)).1 = true

/-- An integer in range is in front of itself, and not reduced. -/
theorem IntegerFor.leads (h : IntegerFor params p) :
    ∃ n, Leads p n [] ∧ Within params (toInt n) := by
  obtain ⟨v, hdenotes, hfits, hwithin⟩ := h
  refine ⟨v, leads_nil.mpr hdenotes, ?_⟩
  rw [hfits.toInt_eq]
  exact hwithin

/-- A text with an integer in front that is in range once it is reduced is an integer in range
if nothing follows, and nothing was lost. -/
theorem Leads.integerFor_iff (h : Leads p n rest) (hwithin : Within params (toInt n)) :
    IntegerFor params p ↔ rest = [] ∧ Fits n := by
  constructor
  · rintro ⟨v, hdenotes, hfits, -⟩
    obtain ⟨rfl, rfl⟩ := (leads_nil.mpr hdenotes).unique h
    exact ⟨rfl, hfits⟩
  · rintro ⟨rfl, hfits⟩
    rw [hfits.toInt_eq] at hwithin
    exact ⟨n, leads_nil.mp h, hfits, hwithin⟩

/-- **When the option takes a parameter**: it has an output, an integer is in front that is in
range once it is reduced, and the callback agrees. -/
theorem int_takes_iff (htype : option.type = .int params out) :
    ((optionProcess (some p) option).run s).1 = some () ↔
      out ≠ none ∧ (∃ n rest, Leads p n rest ∧ Within params (toInt n)) ∧
        Approves option p s.world := by
  have hfails := optionProcess_fails option (some p) s
  have hread : readInt params (some p) = scanInt p := rfl
  rw [Fails, htype, Refuses, hread] at hfails
  have hsome : ((optionProcess (some p) option).run s).1 = some () ↔
      ¬ ((optionProcess (some p) option).run s).1 = none := by
    cases ((optionProcess (some p) option).run s).1 <;> simp
  have hscan : (∃ n rest, Leads p n rest ∧ Within params (toInt n)) ↔
      ∃ v, scanInt p = some v ∧ Within params v := by
    constructor
    · rintro ⟨n, rest, hleads, hwithin⟩
      exact ⟨toInt n, scanInt_iff.mpr ⟨n, rest, hleads, rfl⟩, hwithin⟩
    · rintro ⟨v, hv, hwithin⟩
      obtain ⟨n, rest, hleads, rfl⟩ := scanInt_iff.mp hv
      exact ⟨n, rest, hleads, hwithin⟩
  rw [hsome, hfails, hscan]
  simp only [Approves, ← outside_eq_false, not_or, not_forall, not_exists, not_and,
    exists_prop, Bool.not_eq_true, Bool.not_eq_false, and_assoc, ne_eq]

/-- An integer is stored as it is. -/
theorem int_stores {a : Nat} {v : Int} (htype : option.type = .int params (some a))
    (hdenotes : Denotes p v) (hfits : Fits v) :
    ((optionProcess (some p) option).run s).2.outputs.ints a = v := by
  have hread : readInt params (some p) = some v :=
    scanInt_iff.mpr ⟨v, [], leads_nil.mpr hdenotes, hfits.toInt_eq.symm⟩
  rw [int_outputs htype, hread]
  simp [Outputs.stored]

/-- The condition: without an output the parameter is no integer in range; with one, if the
parameter starts with an integer that is in range once it is reduced, then nothing follows it
and it fits exactly if the callback agrees. -/
def ReadWhole (option : OptOption D W) (params : Option (OptRange Int)) (p : Text) (w : W) :
    Option Nat → Prop
  | none => ¬ IntegerFor params p
  | some _ => ∀ n rest, Leads p n rest → Within params (toInt n) →
      ((rest = [] ∧ Fits n) ↔ Approves option p w)

/-- **When exactly the integers are accepted.**  For every option of type `AE_OPT_TYPE_INT`, with
bounds or without, and every parameter. -/
theorem integers_iff (htype : option.type = .int params out) (p : Text) (s : OptState D W) :
    TakesInteger option params out p s ↔ ReadWhole option params p s.world out := by
  have htakes := int_takes_iff (p := p) (s := s) htype
  cases out with
  | none =>
    have hrefused : ¬ ((optionProcess (some p) option).run s).1 = some () :=
      fun h => (htakes.mp h).1 rfl
    constructor
    · exact fun h hint => hrefused (h.accepts.mpr hint)
    · exact fun h => ⟨iff_of_false hrefused h, fun hok => absurd hok hrefused⟩
  | some a =>
    by_cases hfront : ∃ n rest, Leads p n rest ∧ Within params (toInt n)
    · obtain ⟨n, rest, hleads, hwithin⟩ := hfront
      have hcallback : ((optionProcess (some p) option).run s).1 = some () ↔
          Approves option p s.world := by
        rw [htakes]
        exact ⟨fun h => h.2.2, fun h => ⟨by simp, ⟨n, rest, hleads, hwithin⟩, h⟩⟩
      constructor
      · intro h m rest' hleads' hwithin'
        rw [← hleads'.integerFor_iff hwithin', ← h.accepts, hcallback]
      · intro h
        have haccepts : IntegerFor params p ↔ ((optionProcess (some p) option).run s).1 = some () :=
          (hleads.integerFor_iff hwithin).trans ((h n rest hleads hwithin).trans hcallback.symm)
        refine ⟨haccepts.symm, fun hok => ?_⟩
        obtain ⟨v, hdenotes, hfits, -⟩ := haccepts.mpr hok
        exact ⟨a, v, rfl, hdenotes, int_stores htype hdenotes hfits⟩
    · -- nothing is stored that would pass, and no integer is in range
      have hrefused : ¬ ((optionProcess (some p) option).run s).1 = some () :=
        fun h => hfront (htakes.mp h).2.1
      refine iff_of_true ⟨iff_of_false hrefused fun hint => ?_, fun hok => absurd hok hrefused⟩
        fun n rest hleads hwithin => absurd ⟨n, rest, hleads, hwithin⟩ hfront
      obtain ⟨n, hleads, hwithin⟩ := hint.leads
      exact hfront ⟨n, [], hleads, hwithin⟩

end Options

/-- The parameter `5` is taken. -/
theorem integers_iff_five :
    TakesInteger percent (some ⟨50, 0, 100⟩) (some 0) (ascii "5") start := by
  have hfive : Leads (ascii "5") 5 [] :=
    leads_nil.mpr (.digits (List.cons_ne_nil _ _) (List.forall_mem_singleton.mpr rfl))
  refine (integers_iff rfl (ascii "5") start).mpr fun n rest hleads _ => ?_
  obtain ⟨rfl, rfl⟩ := hfive.unique hleads
  exact iff_of_true ⟨rfl, by decide, by decide⟩ nofun

/-- The text `12abc` is no integer, and is taken for 12. -/
theorem trailing_text_accepted :
    ¬ ∀ p s, TakesInteger percent (some ⟨50, 0, 100⟩) (some 0) p s := by
  intro h
  have hok : ((optionProcess (some (ascii "12abc")) percent).run start).1 = some () := rfl
  obtain ⟨v, hdenotes, -⟩ := (h (ascii "12abc") start).accepts.mp hok
  obtain ⟨neg, ds, hscanned, -⟩ := (leads_nil.mpr hdenotes).scanned_eq
  have hleft : ascii "abc" = [] := congrArg (fun r => r.2.2) hscanned
  cases hleft

end Opt
end Libae
