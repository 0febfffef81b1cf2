import Libae.Io
import Mathlib.Data.Set.Finite.Lattice
import Mathlib.Order.Interval.Finset.Nat

/-! # Writing in full

`io.c`: `ae_io_write` is one `write`, and `ae_io_write_all` repeats it until the descriptor
has accepted a whole buffer.  The kernel accepts any part of what it is given, also nothing,
or fails.  `write` clears `errno` before the call, so an `errno` with a count of 0 is an error
as well (`Refused`).

At every point of the loop the descriptor has accepted exactly the bytes before the pointer
(`Sent`).  Only an answer that accepts nothing lets the loop stand still, so it ends if there
are finitely many of these.
-/
namespace Libae
open ByteMemory Fallible Loops

/-- An answer of `write`: an error, or as many bytes as it is given, but not more than
`size`, and then `errno` if it has been set. -/
inductive WriteAnswer
  | failed (errno : Text)
  | accept (size : Nat) (errno : Option Text)
deriving DecidableEq

/-- What the functions work on: what the descriptor has accepted, the number of calls of
`write`, the memory, and the messages added to `e`. -/
structure WriteState where
  accepted : List UInt8
  writes : Nat
  mem : Mem
  e : List Msg

namespace IoWrite

/-- The answers of the kernel, one for each call of `write`. -/
abbrev Kernel := Nat → WriteAnswer

/-- `ae_res_err(e, …)`. -/
def resErr (text : Text) : Fallible WriteState Unit :=
  modify (fun s => { s with e := s.e ++ [⟨.err, text⟩] })

/-- `write(fd, buf, count)`: the number of bytes and `errno`, or the text of the error. -/
def sysWrite (kernel : Kernel) (buf count : Nat) :
    Fallible WriteState (Except Text (Nat × Option Text)) := do
  let s ← get
  modify (fun s => { s with writes := s.writes + 1 })
  match kernel s.writes with
  | .failed errno => return .error errno
  | .accept size errno =>
    let n := min count size
    modify (fun s => { s with accepted := s.accepted ++ load s.mem buf n })
    return .ok (n, errno)

/-- The end of `ae_io_write` at `error_exit`.  The message says `read`. -/
def writeError (errno : Text) : Fallible WriteState Nat := do
  resErr (ascii "read: " ++ errno)
  fail

/-- `ae_io_write`: what is stored through `out_written`. -/
def write (kernel : Kernel) (buf bufLen : Nat) : Fallible WriteState Nat := do
  match ← sysWrite kernel buf bufLen with
  | .error errno => writeError errno
  | .ok (0, some errno) => writeError errno
  | .ok (res, _) => return res

/-- Where `ae_io_write_all` stands in its loop. -/
structure WriteAll where
  iter : Nat
  bufLen : Nat
  io : WriteState

/-- A round of `ae_io_write_all`; it returns whether the call succeeds, and what it leaves. -/
def writeAllRound (kernel : Kernel) (s : WriteAll) : Round WriteAll (Bool × WriteState) :=
  if s.bufLen = 0 then .returns (true, s.io)
  else
    match (write kernel s.iter s.bufLen).run s.io with
    | (none, io) => .returns (false, io)
    | (some bytesWritten, io) => .goOn ⟨s.iter + bytesWritten, s.bufLen - bytesWritten, io⟩

/-- `ae_io_write_all`, for at most so many rounds of its loop. -/
def writeAll (kernel : Kernel) (buf bufLen : Nat) (fuel : Nat) (io : WriteState) :
    Option (Bool × WriteState) :=
  Loops.run (writeAllRound kernel) fuel ⟨buf, bufLen, io⟩

/-- The `i`-th call of `write` fails, or it accepts nothing and sets `errno`. -/
def Refused (kernel : Kernel) (i : Nat) : Prop :=
  ∃ errno, kernel i = .failed errno ∨ kernel i = .accept 0 (some errno)

/-! ## One write -/

/-- The kernel has accepted `n` bytes. -/
structure Accepted (buf bufLen n : Nat) (s t : WriteState) : Prop where
  le : n ≤ bufLen
  accepted : t.accepted = s.accepted ++ load s.mem buf n
  writes : t.writes = s.writes + 1
  mem : t.mem = s.mem

variable {kernel : Kernel} {buf bufLen : Nat}

/-- **`ae_io_write`** fails, where the kernel has refused, and then nothing has been accepted,
or part of the buffer has. -/
theorem write_cases (kernel : Kernel) (buf : Nat) (s : WriteState) (hpos : 0 < bufLen) :
    (∃ t, (write kernel buf bufLen).run s = (none, t) ∧ t.accepted = s.accepted ∧
      t.writes = s.writes + 1 ∧ Refused kernel s.writes) ∨
    (∃ n t, (write kernel buf bufLen).run s = (some n, t) ∧ Accepted buf bufLen n s t ∧
      (n = 0 → kernel s.writes = .accept 0 none)) := by
  cases hk : kernel s.writes with
  | failed errno =>
    refine .inl ⟨{ s with
      writes := s.writes + 1, e := s.e ++ [⟨.err, ascii "read: " ++ errno⟩] },
      ?_, rfl, rfl, errno, .inl hk⟩
    simp [write, sysWrite, bind_run, hk, writeError, resErr]
  | accept size errno =>
    obtain ⟨n, hn⟩ : ∃ n, min bufLen size = n := ⟨_, rfl⟩
    cases n with
    | zero =>
      have hsize : size = 0 := by omega
      cases errno with
      | some errno =>
        refine .inl ⟨{ s with
          accepted := s.accepted ++ load s.mem buf 0
          writes := s.writes + 1, e := s.e ++ [⟨.err, ascii "read: " ++ errno⟩] },
          ?_, ?_, rfl, errno, .inr (hsize ▸ hk)⟩
        · simp [write, sysWrite, bind_run, hk, hn, writeError, resErr]
        · simp [load]
      | none =>
        refine .inr ⟨0, { s with
          accepted := s.accepted ++ load s.mem buf 0, writes := s.writes + 1 }, ?_, ?_, ?_⟩
        · simp [write, sysWrite, bind_run, hk, hn]
        · exact ⟨Nat.zero_le _, rfl, rfl, rfl⟩
        · rintro -
          rw [hsize]
    | succ n =>
      refine .inr ⟨n + 1, { s with
        accepted := s.accepted ++ load s.mem buf (n + 1), writes := s.writes + 1 }, ?_, ?_, ?_⟩
      · simp [write, sysWrite, bind_run, hk, hn]
      · exact ⟨by omega, rfl, rfl, rfl⟩
      · intro hzero
        cases hzero

/-- **A round of `ae_io_write_all`**: all is written, or a write fails and has done nothing,
or a part is written. -/
theorem writeAllRound_cases (kernel : Kernel) (s : WriteAll) :
    (s.bufLen = 0 ∧ writeAllRound kernel s = .returns (true, s.io)) ∨
    (∃ t, t.accepted = s.io.accepted ∧ t.writes = s.io.writes + 1 ∧
      Refused kernel s.io.writes ∧ writeAllRound kernel s = .returns (false, t)) ∨
    (0 < s.bufLen ∧ ∃ n t, Accepted s.iter s.bufLen n s.io t ∧
      (n = 0 → kernel s.io.writes = .accept 0 none) ∧
      writeAllRound kernel s = .goOn ⟨s.iter + n, s.bufLen - n, t⟩) := by
  by_cases hzero : s.bufLen = 0
  · exact .inl ⟨hzero, by rw [writeAllRound, if_pos hzero]⟩
  · have hpos : 0 < s.bufLen := Nat.pos_of_ne_zero hzero
    rw [writeAllRound, if_neg hzero]
    obtain ⟨t, hrun, hsame, hnext, hno⟩ | ⟨n, t, hrun, ha, hnone⟩ :=
      write_cases kernel s.iter s.io hpos
    · exact .inr (.inl ⟨t, hsame, hnext, hno, by rw [hrun]⟩)
    · exact .inr (.inr ⟨hpos, n, t, ha, hnone, by rw [hrun]⟩)

/-! ## Writing in full is exact -/

/-- The loop stands behind the `d` bytes that the descriptor has accepted since `start`. -/
structure Sent (start : WriteAll) (d : Nat) (s : WriteAll) : Prop where
  le : d ≤ start.bufLen
  iter : s.iter = start.iter + d
  bufLen : s.bufLen = start.bufLen - d
  accepted : s.io.accepted = start.io.accepted ++ load start.io.mem start.iter d
  mem : s.io.mem = start.io.mem
  writes : start.io.writes ≤ s.io.writes

variable {start s s' : WriteAll} {d : Nat}

theorem Sent.refl (start : WriteAll) : Sent start 0 start :=
  ⟨Nat.zero_le _, rfl, rfl, by simp [load], rfl, le_refl _⟩

/-- **A write continues where the last one has stopped.** -/
theorem Sent.accept {n : Nat} {t : WriteState} (h : Sent start d s)
    (ha : Accepted s.iter s.bufLen n s.io t) :
    Sent start (d + n) ⟨s.iter + n, s.bufLen - n, t⟩ := by
  have hle := ha.le
  have hbound := h.le
  rw [h.bufLen] at hle
  have hsince := h.writes
  refine ⟨by omega, ?_, ?_, ?_, ha.mem.trans h.mem, ?_⟩
  · rw [h.iter, Nat.add_assoc]
  · rw [h.bufLen, Nat.sub_sub]
  · dsimp only
    rw [ha.accepted, h.accepted, h.mem, h.iter, load_add, List.append_assoc]
  · dsimp only
    rw [ha.writes]
    omega

/-- A round that goes on keeps count. -/
theorem Sent.goOn (h : Sent start d s) (hgo : writeAllRound kernel s = .goOn s') :
    ∃ n, Sent start (d + n) s' := by
  obtain ⟨-, hr⟩ | ⟨t, -, -, -, hr⟩ | ⟨-, n, t, ha, -, hr⟩ := writeAllRound_cases kernel s
  · cases hr.symm.trans hgo
  · cases hr.symm.trans hgo
  · cases hr.symm.trans hgo
    exact ⟨n, h.accept ha⟩

/-- What has been accepted at the end: everything, or a beginning if the kernel has refused. -/
theorem Sent.returns {ok : Bool} {t : WriteState} (h : Sent start d s)
    (hr : writeAllRound kernel s = .returns (ok, t)) :
    t.accepted = start.io.accepted ++ load start.io.mem start.iter d ∧
      (ok = true → d = start.bufLen) ∧
      (ok = false → ∃ i, start.io.writes ≤ i ∧ i < t.writes ∧ Refused kernel i) := by
  obtain ⟨hzero, hround⟩ | ⟨t', hsame, hnext, hno, hround⟩ | ⟨-, n, t', -, -, hround⟩ :=
    writeAllRound_cases kernel s
  · cases hround.symm.trans hr
    have hle := h.le
    have hlen := h.bufLen
    refine ⟨h.accepted, fun _ => by omega, fun hfalse => ?_⟩
    cases hfalse
  · cases hround.symm.trans hr
    refine ⟨hsame.trans h.accepted, fun htrue => ?_, fun _ => ?_⟩
    · cases htrue
    · exact ⟨s.io.writes, h.writes, by omega, hno⟩
  · cases hround.symm.trans hr

/-- From the write on behind which none is left that accepts nothing, every round makes the
rest shorter. -/
theorem returns_of_accepting {last : Nat}
    (hlast : ∀ i errno, kernel i = .accept 0 errno → i ≤ last) (s : WriteAll) :
    Returns (writeAllRound kernel) s := by
  refine returns_of_measure (I := fun _ => True)
    (fun s => s.bufLen + (last + 1 - s.io.writes)) (fun s s' _ hgo => ⟨trivial, ?_⟩) trivial
  obtain ⟨-, hr⟩ | ⟨t, -, -, -, hr⟩ | ⟨hpos, n, t, ha, hnone, hr⟩ :=
    writeAllRound_cases kernel s
  · cases hr.symm.trans hgo
  · cases hr.symm.trans hgo
  · cases hr.symm.trans hgo
    have hwrites := ha.writes
    have hle := ha.le
    dsimp only
    cases n with
    | zero =>
      have hbefore := hlast _ _ (hnone rfl)
      omega
    | succ n => omega

/-- **Writing in full is exact under any chunking.**  For every buffer and all answers of the
kernel, whenever `ae_io_write_all` returns, the descriptor has accepted a beginning of the
buffer, and all of it if the call returns true.  If it returns false, the kernel has refused
one of its calls of `write`.  It does return if there are only finitely many answers that
accept nothing. -/
theorem writeAll_exact (kernel : Kernel) (buf bufLen : Nat) (io : WriteState) :
    (∀ fuel ok t, writeAll kernel buf bufLen fuel io = some (ok, t) →
      ∃ sent, t.accepted = io.accepted ++ sent ∧ sent <+: load io.mem buf bufLen ∧
        (ok = true → sent = load io.mem buf bufLen) ∧
        (ok = false → ∃ i, io.writes ≤ i ∧ i < t.writes ∧ Refused kernel i)) ∧
    ({i | ∃ errno, kernel i = .accept 0 errno}.Finite →
      ∃ fuel r, writeAll kernel buf bufLen fuel io = some r) := by
  constructor
  · intro fuel ok t h
    have hyields : Yields (writeAllRound kernel) ⟨buf, bufLen, io⟩ (ok, t) := ⟨fuel, h⟩
    obtain ⟨d, hle, haccepted, hall, hrefused⟩ := hyields.of_invariant
      (I := fun s => ∃ d, Sent ⟨buf, bufLen, io⟩ d s)
      (Q := fun r => ∃ d, d ≤ bufLen ∧ r.2.accepted = io.accepted ++ load io.mem buf d ∧
        (r.1 = true → d = bufLen) ∧
        (r.1 = false → ∃ i, io.writes ≤ i ∧ i < r.2.writes ∧ Refused kernel i))
      (fun s s' ⟨d, hs⟩ hgo => by
        obtain ⟨n, hs'⟩ := hs.goOn hgo
        exact ⟨d + n, hs'⟩)
      (fun s r ⟨d, hs⟩ hr => ⟨d, hs.le, hs.returns hr⟩) ⟨0, .refl _⟩
    refine ⟨load io.mem buf d, haccepted, ?_, fun hok => by rw [hall hok], hrefused⟩
    rw [← load_take hle]
    exact List.take_prefix _ _
  · intro hfinite
    obtain ⟨last, hlast⟩ := hfinite.bddAbove
    exact returns_of_accepting (fun i errno h => hlast ⟨errno, h⟩) _

/-- The first `write` accepts nothing, the others one byte. -/
def slow : Kernel := fun i => .accept (min i 1) none

/-- Two bytes are written in three calls, and as none is refused, that is all of them. -/
theorem two_bytes_written : ∃ fuel t,
    writeAll slow 0 2 fuel ⟨[], 0, fun a => a.toUInt8 + 7, []⟩ = some (true, t) ∧
      t.accepted = [7, 8] := by
  have h := writeAll_exact slow 0 2 ⟨[], 0, fun a => a.toUInt8 + 7, []⟩
  have hfinite : {i | ∃ errno, slow i = .accept 0 errno}.Finite := by
    refine Set.Finite.subset (Set.finite_le_nat 0) ?_
    rintro i ⟨errno, hi⟩
    have hmin : min i 1 = 0 := (WriteAnswer.accept.inj hi).1
    show i ≤ 0
    omega
  obtain ⟨fuel, ⟨ok, t⟩, hrun⟩ := h.2 hfinite
  obtain ⟨sent, haccepted, -, hall, hrefused⟩ := h.1 fuel ok t hrun
  cases ok with
  | true =>
    refine ⟨fuel, t, hrun, ?_⟩
    rw [haccepted, hall rfl]
    rfl
  | false =>
    obtain ⟨i, -, -, errno, hno | hno⟩ := hrefused rfl
    · cases hno
    · cases (WriteAnswer.accept.inj hno).2

end IoWrite
end Libae
