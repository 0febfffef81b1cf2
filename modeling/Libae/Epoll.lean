import Mathlib.Data.List.AList
import Mathlib.Data.Int.Interval

/-! # Polling descriptors: the kernel's side

A process has open descriptors, and an epoll instance an interest list, which
holds at most one entry for a descriptor.  A descriptor that is closed leaves the
interest list.  Both facts, and that descriptors are non-negative `int`s, are
fields of the state, so that the number of entries never reaches `2 ^ 31 + 1`
(`size_le`).

`ctl` is `epoll_ctl`.  It may fail for a reason of its own, and otherwise answers as
the manual says: `EEXIST` to the addition of a descriptor that is in the list,
`ENOENT` to the modification or deletion of one that is not, `EBADF` for a
descriptor that is not open.
-/

/-- The event bits of an entry, or of a report. -/
structure EpollFlags where
  inp : Bool
  out : Bool
  rdhup : Bool
  hup : Bool
  pri : Bool
  err : Bool
  deriving DecidableEq, Repr

/-- The operations of `epoll_ctl`. -/
inductive EpollOp
  | add
  | mod
  | del
  deriving DecidableEq

/-- Why a call failed. -/
inductive Errno
  | badf
  | exist
  | fault
  | noent
  | other (text : List UInt8)
  deriving DecidableEq

/-- The open descriptors, and the interest list with entries in `ι`. -/
structure Epoll (ι : Type) where
  opened : Finset Int
  interest : AList (fun _ : Int => ι)
  range : ∀ fd ∈ opened, 0 ≤ fd ∧ fd < 2 ^ 31
  registered : ∀ fd ∈ interest.keys, fd ∈ opened

namespace Epoll
variable {ι : Type}

/-- Nothing is open. -/
def empty : Epoll ι := ⟨∅, ∅, by simp, by simp⟩

/-- The number of registered descriptors. -/
def size (k : Epoll ι) : Nat := k.interest.keys.length

/-- Open the descriptor `fd`. -/
def openFd (k : Epoll ι) (fd : Int) (h : 0 ≤ fd ∧ fd < 2 ^ 31) : Epoll ι where
  opened := insert fd k.opened
  interest := k.interest
  range := by
    intro x hx
    rcases Finset.mem_insert.mp hx with rfl | hx
    · exact h
    · exact k.range x hx
  registered := fun x hx => Finset.mem_insert_of_mem (k.registered x hx)

/-- Close the descriptor `fd`. -/
def close (k : Epoll ι) (fd : Int) : Epoll ι where
  opened := k.opened.erase fd
  interest := k.interest.erase fd
  range := fun x hx => k.range x (Finset.mem_of_mem_erase hx)
  registered := by
    intro x hx
    obtain ⟨hne, hx⟩ := AList.mem_erase.mp (AList.mem_keys.mpr hx)
    exact Finset.mem_erase.mpr ⟨hne, k.registered x (AList.mem_keys.mp hx)⟩

/-- Set the entry of an open descriptor. -/
def enter (k : Epoll ι) (fd : Int) (entry : ι) (h : fd ∈ k.opened) : Epoll ι where
  opened := k.opened
  interest := k.interest.insert fd entry
  range := k.range
  registered := by
    intro x hx
    rcases (AList.mem_insert k.interest).mp (AList.mem_keys.mpr hx) with rfl | hx
    · exact h
    · exact k.registered x (AList.mem_keys.mp hx)

/-- Delete the entry of a descriptor. -/
def delete (k : Epoll ι) (fd : Int) : Epoll ι where
  opened := k.opened
  interest := k.interest.erase fd
  range := k.range
  registered := by
    intro x hx
    obtain ⟨-, hx⟩ := AList.mem_erase.mp (AList.mem_keys.mpr hx)
    exact k.registered x (AList.mem_keys.mp hx)

/-- `epoll_ctl`; the entry is `none` for a `NULL` event. -/
def ctl (k : Epoll ι) (op : EpollOp) (fd : Int) (entry : Option ι) (fault : Option (List UInt8)) :
    Except Errno (Epoll ι) :=
  match fault with
  | some text => .error (.other text)
  | none =>
    if h : fd ∈ k.opened then
      match op, entry with
      | .add, some entry =>
        if fd ∈ k.interest.keys then .error .exist else .ok (k.enter fd entry h)
      | .mod, some entry =>
        if fd ∈ k.interest.keys then .ok (k.enter fd entry h) else .error .noent
      | .del, _ => if fd ∈ k.interest.keys then .ok (k.delete fd) else .error .noent
      | _, none => .error .fault
    else .error .badf

/-! ### The answers of `ctl` -/

section Answers
variable {k : Epoll ι} {fd : Int}

/-- An addition enters a new descriptor; of one that is in the list the answer is
`EEXIST`, unless the call fails anyway. -/
theorem ctl_add_cases (k : Epoll ι) (fd : Int) (entry : ι) (fault : Option (List UInt8)) :
    (fd ∉ k.interest.keys ∧ ∃ h, k.ctl .add fd (some entry) fault = .ok (k.enter fd entry h)) ∨
      (fd ∈ k.interest.keys ∧ fault = none ∧
        k.ctl .add fd (some entry) fault = .error .exist) ∨
      ((fd ∈ k.interest.keys → fault ≠ none) ∧
        ∃ errno, errno ≠ .exist ∧ k.ctl .add fd (some entry) fault = .error errno) := by
  cases fault with
  | some text => exact .inr (.inr ⟨fun _ => nofun, .other text, nofun, rfl⟩)
  | none =>
    by_cases hold : fd ∈ k.interest.keys
    · exact .inr (.inl ⟨hold, rfl, by simp [ctl, k.registered fd hold, hold]⟩)
    · by_cases h : fd ∈ k.opened
      · exact .inl ⟨hold, h, by simp [ctl, h, hold]⟩
      · exact .inr (.inr ⟨fun hmem => absurd hmem hold, .badf, nofun, by simp [ctl, h]⟩)

/-- Only an addition can be about a descriptor that is not in the list. -/
theorem ctl_refused (k : Epoll ι) {op : EpollOp} (hop : op ≠ .add) (fd : Int) (entry : Option ι)
    (fault : Option (List UInt8)) (hno : ¬ (fd ∈ k.interest.keys ∧ fault = none)) :
    ∃ errno, k.ctl op fd entry fault = .error errno := by
  cases fault with
  | some text => exact ⟨.other text, rfl⟩
  | none =>
    have hnew : fd ∉ k.interest.keys := fun hold => hno ⟨hold, rfl⟩
    by_cases h : fd ∈ k.opened
    · cases op with
      | add => contradiction
      | del => exact ⟨.noent, by simp [ctl, h, hnew]⟩
      | mod =>
        cases entry with
        | none => exact ⟨.fault, by simp [ctl, h]⟩
        | some entry => exact ⟨.noent, by simp [ctl, h, hnew]⟩
    · exact ⟨.badf, by simp [ctl, h]⟩

/-- A modification changes the entry of a descriptor that is in the list. -/
theorem ctl_mod_cases (k : Epoll ι) (fd : Int) (entry : ι) (fault : Option (List UInt8)) :
    (fd ∈ k.interest.keys ∧ fault = none ∧
        ∃ h, k.ctl .mod fd (some entry) fault = .ok (k.enter fd entry h)) ∨
      (¬ (fd ∈ k.interest.keys ∧ fault = none) ∧
        ∃ errno, k.ctl .mod fd (some entry) fault = .error errno) := by
  by_cases hin : fd ∈ k.interest.keys ∧ fault = none
  · obtain ⟨hold, rfl⟩ := hin
    have h := k.registered fd hold
    exact .inl ⟨hold, rfl, h, by simp [ctl, h, hold]⟩
  · exact .inr ⟨hin, k.ctl_refused (by simp) fd (some entry) fault hin⟩

/-- A deletion drops the entry of a descriptor that is in the list. -/
theorem ctl_del_cases (k : Epoll ι) (fd : Int) (fault : Option (List UInt8)) :
    (fd ∈ k.interest.keys ∧ fault = none ∧ k.ctl .del fd none fault = .ok (k.delete fd)) ∨
      (¬ (fd ∈ k.interest.keys ∧ fault = none) ∧
        ∃ errno, k.ctl .del fd none fault = .error errno) := by
  by_cases hin : fd ∈ k.interest.keys ∧ fault = none
  · obtain ⟨hold, rfl⟩ := hin
    exact .inl ⟨hold, rfl, by simp [ctl, k.registered fd hold, hold]⟩
  · exact .inr ⟨hin, k.ctl_refused (by simp) fd none fault hin⟩

/-- A closed descriptor has no entry. -/
theorem lookup_close (x : Int) :
    (k.close fd).interest.lookup x = if x = fd then none else k.interest.lookup x := by
  by_cases hx : x = fd
  · rw [if_pos hx, hx]
    exact AList.lookup_erase fd k.interest
  · rw [if_neg hx]
    exact AList.lookup_erase_ne hx

end Answers

/-! ### The number of registered descriptors -/

theorem size_le (k : Epoll ι) : k.size ≤ 2 ^ 31 := by
  have hsub : k.interest.keys.toFinset ⊆ Finset.Ico (0 : Int) (2 ^ 31) := by
    intro fd hfd
    rw [List.mem_toFinset] at hfd
    exact Finset.mem_Ico.mpr (k.range fd (k.registered fd hfd))
  have hcard := Finset.card_le_card hsub
  rw [List.toFinset_card_of_nodup k.interest.keys_nodup, Int.card_Ico] at hcard
  exact hcard

variable {k : Epoll ι} {fd : Int}

theorem size_enter_new (entry : ι) (h : fd ∈ k.opened) (hnew : fd ∉ k.interest.keys) :
    (k.enter fd entry h).size = k.size + 1 := by
  simp [size, enter, List.erase_of_not_mem hnew]

theorem size_enter_old (entry : ι) (h : fd ∈ k.opened) (hold : fd ∈ k.interest.keys) :
    (k.enter fd entry h).size = k.size := by
  have hpos := List.length_pos_of_mem hold
  simp only [size, enter, AList.keys_insert, List.length_cons, List.length_erase_of_mem hold]
  omega

theorem size_delete (hold : fd ∈ k.interest.keys) : (k.delete fd).size + 1 = k.size := by
  have hpos := List.length_pos_of_mem hold
  simp only [size, delete, AList.keys_erase, List.length_erase_of_mem hold]
  omega

theorem size_close (hnew : fd ∉ k.interest.keys) : (k.close fd).size = k.size := by
  simp [size, close, List.erase_of_not_mem hnew]

theorem size_close_old (hold : fd ∈ k.interest.keys) : (k.close fd).size + 1 = k.size := by
  have hpos := List.length_pos_of_mem hold
  simp only [size, close, AList.keys_erase, List.length_erase_of_mem hold]
  omega

end Epoll
