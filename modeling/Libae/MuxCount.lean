import Libae.Mux

/-! # The counter of the mux

`mux.h` says that `count` is the number of file descriptors registered.
`ae_mux_ctl` adds one to it on every success, also when it only changed the entry of
a descriptor that was registered already, and `ae_mux_rm` leaves it alone when the
descriptor is closed, although the kernel has then dropped the entry.

`counts_iff` is exact: along a run in which every registered descriptor that is
closed is passed to `ae_mux_rm` just before or just after, the counter is right after
every call exactly if no call is of one of these two kinds, and none closes a
descriptor that the kernel refused to delete.
-/
namespace Libae
open Fallible Runs

namespace Mux
variable {C X δ : Type}

/-- What a program does with a mux and its descriptors: it opens and closes
descriptors, calls the functions of the mux, and closes a descriptor just after, or
just before, it passes it to `ae_mux_rm`. -/
inductive Op (C X δ : Type)
  | opened (fd : Int) (h : 0 ≤ fd ∧ fd < 2 ^ 31)
  | closed (fd : Int)
  | add (ptr : δ) (d : MuxEvent C X) (faults : EpollOp → Option Text)
  | mod (fd : Int) (ptr : δ) (d : MuxEvent C X) (faults : EpollOp → Option Text)
  | rm (fd : Int) (faults : EpollOp → Option Text)
  | rmClose (fd : Int) (faults : EpollOp → Option Text)
  | closeRm (fd : Int) (faults : EpollOp → Option Text)

/-- Close a descriptor. -/
def closeFd (s : Mux δ) (fd : Int) : Mux δ := { s with epoll := s.epoll.close fd }

/-- The descriptor is registered. -/
def Registered (s : Mux δ) (fd : Int) : Prop := fd ∈ s.epoll.interest.keys

/-- The mux after an operation. -/
def call (s : Mux δ) : Op C X δ → Mux δ
  | .opened fd h => { s with epoll := s.epoll.openFd fd h }
  | .closed fd => s.closeFd fd
  | .add ptr d faults => ((add ptr d faults).run s).2
  | .mod fd ptr d faults => ((mod fd ptr d faults).run s).2
  | .rm fd faults => ((rm fd faults).run s).2
  | .rmClose fd faults => ((rm fd faults).run s).2.closeFd fd
  | .closeRm fd faults => ((rm fd faults).run (s.closeFd fd)).2

/-- A mux from `ae_mux_init` on, whose registered descriptors are not closed without
a call of `ae_mux_rm`. -/
def disciplined (C X δ : Type) : System (Mux δ) (Op C X δ) where
  init s := s.count = 0 ∧ s.epoll.interest = ∅
  step s op t := (∀ fd, op = .closed fd → ¬ s.Registered fd) ∧ t = s.call op

/-- The counter is the number of registered descriptors. -/
def Counts (s : Mux δ) : Prop := s.count = s.epoll.size

/-- The operation does not change the entry of a descriptor that is registered
already, does not close a registered descriptor before it is removed, nor after the
kernel refused to delete it. -/
def Faithful (s : Mux δ) : Op C X δ → Prop
  | .add _ d faults => ¬ (s.Registered d.fd ∧ faults .add = none ∧ faults .mod = none)
  | .mod _ _ d faults => ¬ (s.Registered d.fd ∧ faults .mod = none)
  | .rmClose fd faults => s.Registered fd → faults .del = none
  | .closeRm fd _ => ¬ s.Registered fd
  | .opened .. | .closed _ | .rm .. => True

/-! ## One call -/

section Calls
variable {s : Mux δ} {fd : Int}

/-- The counter is too small to wrap. -/
theorem Counts.succ (hs : s.Counts) : Word.add s.count 1 = s.epoll.size + 1 := by
  have hle := s.epoll.size_le
  rw [hs, Word.add_eq (by omega)]

variable (ptr : δ) (d : MuxEvent C X) {op : EpollOp} {faults : EpollOp → Option Text}
  {epoll : Epoll (EpollEvent δ)} {errno : Errno}

theorem ctl_ok
    (h : s.epoll.ctl op d.fd (some ⟨eventToFlags d, ptr⟩) (faults op) = .ok epoll) :
    (ctl ptr d op faults).run s =
      (some (), { s with epoll := epoll, count := Word.add s.count 1 }) := by
  simp [ctl, bind_run, h, setEpoll]

theorem ctl_error
    (h : s.epoll.ctl op d.fd (some ⟨eventToFlags d, ptr⟩) (faults op) = .error errno)
    (hne : ¬ (op = .add ∧ errno = .exist)) :
    (ctl ptr d op faults).run s =
      (none, { s with e := s.e ++ [⟨.err, ascii "epoll: " ++ strerror errno⟩] }) := by
  simp [ctl, bind_run, h, hne, resErr]

/-- The addition of a registered descriptor is a modification. -/
theorem ctl_exist
    (h : s.epoll.ctl .add d.fd (some ⟨eventToFlags d, ptr⟩) (faults .add) = .error .exist) :
    (ctl ptr d .add faults).run s = (ctl ptr d .mod faults).run s := by
  cases hmod : s.epoll.ctl .mod d.fd (some ⟨eventToFlags d, ptr⟩) (faults .mod) with
  | ok epoll =>
    rw [ctl_ok ptr d hmod]
    simp [ctl, bind_run, h, hmod, setEpoll]
  | error errno =>
    rw [ctl_error ptr d hmod (by simp)]
    simp [ctl, bind_run, h, hmod, resErr]

/-- **`ae_mux_mod`** counts a registered descriptor once more, or changes nothing. -/
theorem mod_cases (s : Mux δ) (faults : EpollOp → Option Text) :
    (s.Registered d.fd ∧ faults .mod = none ∧ ∃ h, (ctl ptr d .mod faults).run s =
        (some (), { s with epoll := s.epoll.enter d.fd ⟨eventToFlags d, ptr⟩ h,
                           count := Word.add s.count 1 })) ∨
      (¬ (s.Registered d.fd ∧ faults .mod = none) ∧
        ∃ e, (ctl ptr d .mod faults).run s = (none, { s with e := e })) := by
  rcases s.epoll.ctl_mod_cases d.fd ⟨eventToFlags d, ptr⟩ (faults .mod) with
    ⟨hold, hf, h, hok⟩ | ⟨hnot, errno, herr⟩
  · exact .inl ⟨hold, hf, h, ctl_ok ptr d hok⟩
  · exact .inr ⟨hnot, _, ctl_error ptr d herr (by simp)⟩

/-- **`ae_mux_add`** counts a new descriptor, or one that it only modifies, or changes
nothing. -/
theorem add_cases (s : Mux δ) (faults : EpollOp → Option Text) :
    (¬ s.Registered d.fd ∧ ∃ h, (add ptr d faults).run s =
        (some (), { s with epoll := s.epoll.enter d.fd ⟨eventToFlags d, ptr⟩ h,
                           count := Word.add s.count 1 })) ∨
      (s.Registered d.fd ∧ faults .add = none ∧ faults .mod = none ∧ ∃ h,
        (add ptr d faults).run s =
          (some (), { s with epoll := s.epoll.enter d.fd ⟨eventToFlags d, ptr⟩ h,
                             count := Word.add s.count 1 })) ∨
      (¬ (s.Registered d.fd ∧ faults .add = none ∧ faults .mod = none) ∧
        ∃ e, (add ptr d faults).run s = (none, { s with e := e })) := by
  unfold add
  rcases s.epoll.ctl_add_cases d.fd ⟨eventToFlags d, ptr⟩ (faults .add) with
    ⟨hnew, h, hok⟩ | ⟨hold, hf, hexist⟩ | ⟨hfault, errno, hne, herr⟩
  · exact .inl ⟨hnew, h, ctl_ok ptr d hok⟩
  · rw [ctl_exist ptr d hexist]
    obtain ⟨-, hm, hok⟩ | ⟨hnot, herr⟩ := mod_cases ptr d s faults
    · exact .inr (.inl ⟨hold, hf, hm, hok⟩)
    · exact .inr (.inr ⟨fun hmod => hnot ⟨hmod.1, hmod.2.2⟩, herr⟩)
  · refine .inr (.inr ⟨fun hmod => hfault hmod.1 hmod.2.1, _, ctl_error ptr d herr ?_⟩)
    exact fun hexist => hne hexist.2

/-- A modification counts a descriptor once more. -/
theorem mod_counts (hs : s.Counts) :
    ((ctl ptr d .mod faults).run s).2.Counts ↔ ¬ (s.Registered d.fd ∧ faults .mod = none) := by
  -- the set is as large as before
  obtain ⟨hold, hf, h, hok⟩ | ⟨hnot, e, herr⟩ := mod_cases ptr d s faults
  · have hsize := Epoll.size_enter_old ⟨eventToFlags d, ptr⟩ h hold
    simp [hok, Counts, hsize, hs.succ, hold, hf]
  · rw [herr]
    exact iff_of_true hs hnot

/-- An addition counts a descriptor that is new, and one that it only modifies. -/
theorem add_counts (hs : s.Counts) :
    ((add ptr d faults).run s).2.Counts ↔
      ¬ (s.Registered d.fd ∧ faults .add = none ∧ faults .mod = none) := by
  obtain ⟨hnew, h, hok⟩ | ⟨hold, hadd, hmod, h, hok⟩ | ⟨hnot, e, herr⟩ := add_cases ptr d s faults
  · have hsize := Epoll.size_enter_new ⟨eventToFlags d, ptr⟩ h hnew
    simp [hok, Counts, hsize, hs.succ, hnew]
  · have hsize := Epoll.size_enter_old ⟨eventToFlags d, ptr⟩ h hold
    simp [hok, Counts, hsize, hs.succ, hold, hadd, hmod]
  · rw [herr]
    exact iff_of_true hs hnot

end Calls

/-! ### Removing -/

section Rm
variable {s : Mux δ}

theorem rm_closed {fd : Int} {faults : EpollOp → Option Text} (h : fd ∉ s.epoll.opened) :
    (rm fd faults).run s = (some (), s) := by
  simp [rm, bind_run, h]

/-- **`ae_mux_rm`** counts a registered descriptor off, or changes nothing. -/
theorem rm_cases (s : Mux δ) (fd : Int) (faults : EpollOp → Option Text) :
    (s.Registered fd ∧ faults .del = none ∧ (rm fd faults).run s =
        (some (), { s with epoll := s.epoll.delete fd, count := Word.sub s.count 1 })) ∨
      (¬ (s.Registered fd ∧ faults .del = none) ∧
        ∃ r e, (rm fd faults).run s = (r, { s with e := e })) := by
  by_cases ho : fd ∈ s.epoll.opened
  · rcases s.epoll.ctl_del_cases fd (faults .del) with ⟨hold, hf, hok⟩ | ⟨hnot, errno, herr⟩
    · exact .inl ⟨hold, hf, by simp [rm, bind_run, ho, hok, setEpoll]⟩
    · refine .inr ⟨hnot, none, ?_⟩
      simp [rm, bind_run, ho, herr, resErr]
  · exact .inr ⟨fun h => ho (s.epoll.registered fd h.1), some (), s.e, rm_closed ho⟩

/-- Removing a descriptor keeps the counter right; the descriptor is registered
afterwards only if the kernel refused to delete it. -/
theorem rm_counts (hs : s.Counts) (fd : Int) (faults : EpollOp → Option Text) :
    ((rm fd faults).run s).2.Counts ∧
      (((rm fd faults).run s).2.Registered fd ↔ s.Registered fd ∧ faults .del ≠ none) := by
  obtain ⟨hold, hf, hok⟩ | ⟨hnot, r, e, herr⟩ := rm_cases s fd faults
  · have hsize := Epoll.size_delete hold
    have hle := s.epoll.size_le
    rw [hok]
    constructor
    · show Word.sub s.count 1 = (s.epoll.delete fd).size
      rw [hs, Word.sub_eq (by omega) (by omega)]
      omega
    · simp [Registered, Epoll.delete, s.epoll.interest.keys_nodup.mem_erase_iff, hf]
  · rw [herr]
    exact ⟨hs, fun h => ⟨h, fun hf => hnot ⟨h, hf⟩⟩, fun h => h.1⟩

/-- Closing a descriptor keeps the counter right unless it is registered. -/
theorem closeFd_counts (hs : s.Counts) (fd : Int) : (s.closeFd fd).Counts ↔ ¬ s.Registered fd := by
  by_cases hold : s.Registered fd
  · have hsize := Epoll.size_close_old hold
    have hne : s.count ≠ (s.epoll.close fd).size := by
      rw [hs]
      omega
    simp [Counts, closeFd, hold, hne]
  · have hsize := Epoll.size_close hold
    simp [Counts, closeFd, hold, hsize, show s.count = s.epoll.size from hs]

end Rm

/-! ## Runs -/

/-- **One operation** leaves the counter right exactly if it is faithful. -/
theorem call_counts {s : Mux δ} {op : Op C X δ} (hs : s.Counts)
    (hd : ∀ fd, op = .closed fd → ¬ s.Registered fd) : (s.call op).Counts ↔ s.Faithful op := by
  cases op with
  | opened fd h => exact iff_of_true hs trivial
  | closed fd => simpa [call, Faithful, hd fd rfl] using closeFd_counts hs fd
  | add ptr d faults => exact add_counts ptr d hs
  | mod fd ptr d faults => exact mod_counts ptr d hs
  | rm fd faults => simpa [call, Faithful] using (rm_counts hs fd faults).1
  | rmClose fd faults =>
    obtain ⟨hrm, hreg⟩ := rm_counts hs fd faults
    rw [call, closeFd_counts hrm fd, hreg, Faithful]
    tauto
  | closeRm fd faults =>
    -- `fcntl` fails, and the counter is left alone
    have hclosed : fd ∉ (s.closeFd fd).epoll.opened := by simp [closeFd, Epoll.close]
    rw [call, rm_closed hclosed, Faithful]
    exact closeFd_counts hs fd

/-- **When the mux counts its registrations.**  Along a run, the counter is the number
of registered descriptors after every call exactly if every call is faithful. -/
theorem counts_iff {s t : Mux δ} {τs : List (Transition (Mux δ) (Op C X δ))}
    (hs : (disciplined C X δ).init s) (hr : (disciplined C X δ).Run s τs t) :
    (∀ τ ∈ τs, τ.after.Counts) ↔ ∀ τ ∈ τs, τ.before.Faithful τ.action := by
  have hinit : s.Counts := by
    obtain ⟨hcount, hnone⟩ := hs
    simp [Counts, Epoll.size, hcount, hnone]
  refine hr.forall_iff (I := Counts) (Q := fun _ _ t => t.Counts) ?_ ?_ hinit
  · rintro s op t hs ⟨hd, rfl⟩ hgood
    exact (call_counts hs hd).mpr hgood
  · rintro s op t hs ⟨hd, rfl⟩
    exact call_counts hs hd

/-! ### A modified entry is counted twice -/

/-- No kernel fault. -/
def noFaults : EpollOp → Option Text := fun _ => none

/-- An event record without handlers, for the descriptor 3. -/
def record : MuxEvent Unit Unit := ⟨3, (), none⟩

theorem three_range : (0 : Int) ≤ 3 ∧ (3 : Int) < 2 ^ 31 := by decide

/-- A fresh mux, with nothing open. -/
def fresh : Mux Unit := ⟨0, .empty, []⟩

/-- The descriptor 3 is opened, added, and modified. -/
def modified : List (Transition (Mux Unit) (Op Unit Unit Unit)) :=
  let opened := fresh.call (.opened 3 three_range : Op Unit Unit Unit)
  let added := opened.call (.add () record noFaults)
  [⟨fresh, .opened 3 three_range, opened⟩, ⟨opened, .add () record noFaults, added⟩,
    ⟨added, .mod 3 () record noFaults, added.call (.mod 3 () record noFaults)⟩]

theorem modified_run : ∃ t, (disciplined Unit Unit Unit).Run fresh modified t := by
  refine ⟨_, ((System.Run.single ?_).snoc ?_).snoc ?_⟩
  · exact ⟨fun _ => nofun, rfl⟩
  · exact ⟨fun _ => nofun, rfl⟩
  · exact ⟨fun _ => nofun, rfl⟩

/-- Counting is right as long as the entry is not modified. -/
theorem counts_iff_modified : (∀ τ ∈ modified, τ.after.Counts) ↔
    ∀ τ ∈ modified, τ.before.Faithful τ.action := by
  obtain ⟨t, hr⟩ := modified_run
  exact counts_iff ⟨rfl, rfl⟩ hr

/-- After the modification the counter is two, with one descriptor registered. -/
theorem modified_miscounted : (∃ t, (disciplined Unit Unit Unit).Run fresh modified t) ∧
    ¬ ∀ τ ∈ modified, τ.after.Counts := by
  refine ⟨modified_run, fun h => ?_⟩
  have hlast := h _ (List.mem_cons_of_mem _ (List.mem_cons_of_mem _ List.mem_cons_self))
  exact absurd (show 2 = 1 from hlast) (by decide)

end Mux
end Libae
