import Libae.ByteMemory
import Libae.Fallible
import Libae.Loops
import Libae.Res

/-! # Reading from a descriptor

`io.c`: `ae_io_read` is one `read`, and `ae_io_read_all` repeats it until a buffer is
full.  What the descriptor delivers is a list of bytes.  The kernel hands them out in pieces
of any size, or fails; when there are none left, `read` returns 0.

`out_was_eof` may be `NULL`: what it points to is an `Option` here.
-/
namespace Libae
open ByteMemory Fallible Loops

/-- An answer of `read`: an error, or as many bytes as there are, but not more than
requested and not more than `size`. -/
inductive ReadAnswer
  | failed (errno : Text)
  | deliver (size : Nat) (pos : 0 < size)

/-- What the functions work on: what the descriptor has not delivered yet, the number of
calls of `read`, the memory and the writes to it, what `out_was_eof` points to, and the
messages added to `e`. -/
structure IoState where
  left : List UInt8
  reads : Nat
  mem : Mem
  written : List Write
  eof : Option Bool
  e : List Msg

namespace Io

/-- The answers of the kernel, one for each call of `read`. -/
abbrev Kernel := Nat → ReadAnswer

/-- `ae_res_err(e, …)`. -/
def resErr (text : Text) : Fallible IoState Unit :=
  modify (fun s => { s with e := s.e ++ [⟨.err, text⟩] })

/-- The kernel hands out the next `n` bytes, if there are so many. -/
def deliver (buf n : Nat) (s : IoState) : IoState :=
  { s with
    left := s.left.drop n
    mem := commit s.mem (span buf (s.left.take n))
    written := s.written ++ span buf (s.left.take n) }

/-- `read(fd, buf, count)`: the number of bytes, or the text of the error. -/
def sysRead (kernel : Kernel) (buf count : Nat) : Fallible IoState (Except Text Nat) := do
  let s ← get
  modify (fun s => { s with reads := s.reads + 1 })
  match kernel s.reads with
  | .failed errno => return .error errno
  | .deliver size _ =>
    let n := min (min count size) s.left.length
    modify (deliver buf n)
    return .ok n

/-- `ae_io_read`: what is stored through `out_read`. -/
def read (kernel : Kernel) (buf bufLen : Nat) : Fallible IoState Nat := do
  match ← sysRead kernel buf bufLen with
  | .error errno =>
    resErr (ascii "read: " ++ errno)
    fail
  | .ok res =>
    if res = 0 then
      modify (fun s => { s with eof := s.eof.map (fun _ => true) })
    return res

/-- Where `ae_io_read_all` stands in its loop. -/
structure ReadAll where
  iter : Nat
  bufLen : Nat
  io : IoState

/-- A round of `ae_io_read_all`; it returns whether the call succeeds, and what it leaves. -/
def readAllRound (kernel : Kernel) (s : ReadAll) : Round ReadAll (Bool × IoState) :=
  if s.bufLen = 0 then .returns (true, s.io)
  else
    match (read kernel s.iter s.bufLen).run s.io with
    | (none, io) => .returns (false, io)
    | (some bytesRead, io) =>
      if io.eof = some true then .returns (true, io)
      else .goOn ⟨s.iter + bytesRead, s.bufLen - bytesRead, io⟩

/-- `ae_io_read_all`, for at most so many rounds of its loop. -/
def readAll (kernel : Kernel) (buf bufLen : Nat) (fuel : Nat) (io : IoState) :
    Option (Bool × IoState) :=
  Loops.run (readAllRound kernel) fuel ⟨buf, bufLen, io⟩

/-! ## One read -/

/-- `ae_io_read` has got `n` bytes. -/
structure Delivered (buf bufLen n : Nat) (s t : IoState) : Prop where
  le : n ≤ bufLen
  left : t.left = s.left.drop n
  le_left : n ≤ s.left.length
  reads : t.reads = s.reads + 1
  eof : t.eof = if n = 0 then s.eof.map (fun _ => true) else s.eof
  ended : n = 0 → s.left = []
  mem : t.mem = commit s.mem (span buf (s.left.take n))
  written : t.written = s.written ++ span buf (s.left.take n)

variable {kernel : Kernel} {buf bufLen : Nat} {s : IoState}

/-- **`ae_io_read`** fails with the kernel, and otherwise gets bytes, none only at the end. -/
theorem read_cases (kernel : Kernel) (buf : Nat) (s : IoState) (hpos : 0 < bufLen) :
    (∃ errno, kernel s.reads = .failed errno ∧
      (read kernel buf bufLen).run s = (none, { s with
        reads := s.reads + 1, e := s.e ++ [⟨.err, ascii "read: " ++ errno⟩] })) ∨
    (∀ errno, kernel s.reads ≠ .failed errno) ∧
      ∃ n t, (read kernel buf bufLen).run s = (some n, t) ∧ Delivered buf bufLen n s t := by
  cases hk : kernel s.reads with
  | failed errno => exact .inl ⟨errno, rfl, by simp [read, sysRead, bind_run, hk, resErr]⟩
  | deliver size hsize =>
    obtain ⟨n, hn⟩ : ∃ n, min (min bufLen size) s.left.length = n := ⟨_, rfl⟩
    have hrun : (read kernel buf bufLen).run s = (some n, { deliver buf n s with
        reads := s.reads + 1, eof := if n = 0 then s.eof.map (fun _ => true) else s.eof }) := by
      simp only [read, sysRead, bind_run, get_run, modify_run, hk, pure_run, hn]
      by_cases hzero : n = 0
      · rw [if_pos hzero, if_pos hzero]
        rfl
      · rw [if_neg hzero, if_neg hzero]
        rfl
    refine .inr ⟨by simp, n, _, hrun, ?_⟩
    refine ⟨by omega, rfl, by omega, rfl, rfl, fun hzero => ?_, rfl, rfl⟩
    -- there was room for a byte
    exact List.length_eq_zero_iff.mp (by omega)

/-- How many bytes come. -/
theorem read_size {size n : Nat} {hsize : 0 < size} {t : IoState}
    (hk : kernel s.reads = .deliver size hsize)
    (h : (read kernel buf bufLen).run s = (some n, t)) :
    n = min (min bufLen size) s.left.length := by
  obtain ⟨m, hm⟩ : ∃ m, min (min bufLen size) s.left.length = m := ⟨_, rfl⟩
  simp only [read, sysRead, bind_run, get_run, modify_run, hk, pure_run, hm] at h
  rw [hm]
  by_cases hzero : m = 0
  · rw [if_pos hzero] at h
    exact (Option.some.inj (congrArg Prod.fst h)).symm
  · rw [if_neg hzero] at h
    exact (Option.some.inj (congrArg Prod.fst h)).symm

/-- **A round of `ae_io_read_all`**: the buffer is full, or a `read` fails, or it gets bytes
and the flag decides. -/
theorem readAllRound_cases (kernel : Kernel) (s : ReadAll) :
    (s.bufLen = 0 ∧ readAllRound kernel s = .returns (true, s.io)) ∨
    (0 < s.bufLen ∧ ∃ errno, kernel s.io.reads = .failed errno ∧
      readAllRound kernel s = .returns (false, { s.io with
        reads := s.io.reads + 1, e := s.io.e ++ [⟨.err, ascii "read: " ++ errno⟩] })) ∨
    (0 < s.bufLen ∧ (∀ errno, kernel s.io.reads ≠ .failed errno) ∧
      ∃ n t, (read kernel s.iter s.bufLen).run s.io = (some n, t) ∧
        Delivered s.iter s.bufLen n s.io t ∧ readAllRound kernel s =
          if t.eof = some true then .returns (true, t)
          else .goOn ⟨s.iter + n, s.bufLen - n, t⟩) := by
  by_cases hzero : s.bufLen = 0
  · exact .inl ⟨hzero, by rw [readAllRound, if_pos hzero]⟩
  · have hpos : 0 < s.bufLen := Nat.pos_of_ne_zero hzero
    rw [readAllRound, if_neg hzero]
    obtain ⟨errno, hfail, hread⟩ | ⟨hok, n, t, hread, hd⟩ := read_cases kernel s.iter s.io hpos
    · exact .inr (.inl ⟨hpos, errno, hfail, by rw [hread]⟩)
    · exact .inr (.inr ⟨hpos, hok, n, t, hread, hd, by rw [hread]⟩)

end Io
end Libae
