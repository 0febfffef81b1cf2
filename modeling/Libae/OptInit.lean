import Libae.OptGrammar

/-! # What `ae_opt_init` initialises

An `ae_opt_t` is often an object on the stack, and `ae_opt_init` is given it with
whatever was there.  It sets every field but one: `optind`, at which `ae_opt_process`
begins.  So the calls that follow depend on the previous contents of the object, and on
nothing of them but that field (`parse_determined_iff`).
-/
namespace Libae
open Fallible

/-- `ae_opt_t`, as an object in memory. -/
structure OptObject (D W : Type) where
  programName : Option Text
  version : Option Text
  help : Option Text
  opt : Opt D W
  optind : Int

namespace OptObject
variable {D W : Type}

/-- `ae_opt_init`, field by field. -/
def init (self : OptObject D W) (name version help : Option Text)
    (cb : Option (OptCallback W Text)) (options : List (OptOption D W)) : OptObject D W :=
  { self with
    programName := name
    version := version
    help := help
    opt := Opt.init cb options }

/-- `ae_opt_process` on the object: what is returned, what the call leaves, and the object
after it.  The index of the state is the one of the object. -/
def process [CDouble D] (self : OptObject D W) (argv : List Text) (s : OptState D W) :
    Option Unit × OptState D W × OptObject D W :=
  let r := (Opt.process self.opt argv).run { s with optind := self.optind }
  (r.1, r.2, { self with optind := r.2.optind })

section Parse
variable [CDouble D] (self : OptObject D W) (name version help : Option Text)
  (cb : Option (OptCallback W Text)) (options : List (OptOption D W)) (argv : List Text)
  (s : OptState D W)

/-- `ae_opt_init`, and `ae_opt_process` after it. -/
def parse : Option Unit × OptState D W × OptObject D W :=
  (self.init name version help cb options).process argv s

/-- Of the previous contents the calls see the index. -/
theorem parse_congr {self other : OptObject D W} (h : self.optind = other.optind) :
    self.parse name version help cb options argv s =
      other.parse name version help cb options argv s := by
  simp [parse, process, init, h]

/-- An empty command line leaves the index where it was. -/
theorem parse_nil_optind :
    (self.parse name version help cb options [] s).2.2.optind = self.optind := by
  show ((Opt.process _ []).run { s with optind := self.optind }).2.optind = self.optind
  simp only [Opt.process, bind_run, get_run]
  split
  · rfl
  · cases ((([] : List Text).length : Int) - self.optind).toNat with
    | zero => rfl
    | succ fuel =>
      rcases Int.lt_or_le self.optind 0 with hneg | hpos
      · -- there is no element in front of the first
        have harg : Opt.argAt [] self.optind = none := by simp [Opt.argAt]
        rw [Opt.loop_round (by simpa using hneg)]
        rw [Opt.processArg_none harg]
      · rw [Opt.loop_ends (by simpa using hpos)]

/-- **What `ae_opt_init` has to be given.**  For two previous contents of the object, the same
arguments of `ae_opt_init` and the same starting state: `ae_opt_init` and `ae_opt_process`
do the same on every command line, if and only if the two contents agree in `optind`. -/
theorem parse_determined_iff (other : OptObject D W) :
    (∀ argv, self.parse name version help cb options argv s =
      other.parse name version help cb options argv s) ↔ self.optind = other.optind := by
  constructor
  · intro h
    have hempty := congrArg (fun r => r.2.2.optind) (h [])
    simpa only [parse_nil_optind] using hempty
  · exact fun h argv => parse_congr name version help cb options argv s h

end Parse

/-- Whatever was on the stack. -/
def garbage (optind : Int) : OptObject Unit Unit :=
  ⟨none, none, none, ⟨none, []⟩, optind⟩

/-- `--file a` is read from 0 on, and refused from 7 on. -/
theorem garbage_decides :
    ((garbage 0).parse none none none none [Opt.file] [ascii "--file", ascii "a"] Opt.start).1 =
        some () ∧
      ((garbage 7).parse none none none none [Opt.file] [ascii "--file", ascii "a"] Opt.start).1 =
        none :=
  ⟨rfl, rfl⟩

end OptObject
end Libae
