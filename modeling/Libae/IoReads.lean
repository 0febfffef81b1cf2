import Libae.Io

/-! # When reading ends

`ae_io_read_all` counts the bytes that it still wants.  At the end of the file that number
stands still, and what ends the loop there is the flag behind `out_was_eof`.  The pointer
may be `NULL`, and then nothing does.  So the call returns exactly if it is given a flag,
or there are bytes enough, or a `read` fails (`readAll_returns_iff`).
-/
namespace Libae
open ByteMemory Fallible Loops

namespace Io
variable {kernel : Kernel} {s s' : ReadAll}

/-- **What a round that goes on has read**: a byte at least, unless there is no flag and the
descriptor is at its end. -/
theorem goOn_cases (h : readAllRound kernel s = .goOn s') :
    0 < s.bufLen ∧ (∀ errno, kernel s.io.reads ≠ .failed errno) ∧ ∃ n,
      s' = ⟨s.iter + n, s.bufLen - n, s'.io⟩ ∧ Delivered s.iter s.bufLen n s.io s'.io ∧
        (n = 0 → s.io.eof = none) := by
  obtain ⟨-, hr⟩ | ⟨-, errno, -, hr⟩ | ⟨hpos, hok, n, t, -, hd, hr⟩ := readAllRound_cases kernel s
  · simp [hr] at h
  · simp [hr] at h
  · rw [hr] at h
    split at h
    · cases h
    · next hflag =>
      cases h
      refine ⟨hpos, hok, n, rfl, hd, fun hzero => ?_⟩
      -- a flag would have been set
      have heof := hd.eof
      rw [if_pos hzero] at heof
      cases hs : s.io.eof with
      | none => rfl
      | some b => exact absurd (by rw [heof, hs]; rfl) hflag

/-- A flag stays where it is. -/
theorem Delivered.flag {buf bufLen n : Nat} {s t : IoState} (h : Delivered buf bufLen n s t) :
    t.eof = none ↔ s.eof = none := by
  rw [h.eof]
  split <;> simp

/-- With a flag every round that goes on has read a byte. -/
theorem returns_of_flag (h : s.io.eof ≠ none) : Returns (readAllRound kernel) s := by
  refine returns_of_measure (I := fun s => s.io.eof ≠ none) ReadAll.bufLen ?_ h
  intro s s' hflag hgo
  obtain ⟨hpos, -, n, heq, hd, hzero⟩ := goOn_cases hgo
  have hn : n ≠ 0 := fun h => hflag (hzero h)
  have hlen : s'.bufLen = s.bufLen - n := by rw [heq]
  exact ⟨fun hnone => hflag (hd.flag.mp hnone), by omega⟩

/-- With bytes enough every round that goes on has read one. -/
theorem returns_of_enough (h : s.bufLen ≤ s.io.left.length) : Returns (readAllRound kernel) s := by
  refine returns_of_measure (I := fun s => s.bufLen ≤ s.io.left.length) ReadAll.bufLen ?_ h
  intro s s' henough hgo
  obtain ⟨hpos, -, n, heq, hd, -⟩ := goOn_cases hgo
  have hn : n ≠ 0 := by
    intro hzero
    rw [hd.ended hzero, List.length_nil] at henough
    omega
  have hlen : s'.bufLen = s.bufLen - n := by rw [heq]
  have hleft : s'.io.left.length = s.io.left.length - n := by rw [hd.left, List.length_drop]
  exact ⟨by omega, by omega⟩

/-- A `read` that fails is the last one. -/
theorem returns_of_failure {i : Nat} {errno : Text} (hfail : kernel i = .failed errno)
    (h : s.io.reads ≤ i) : Returns (readAllRound kernel) s := by
  refine returns_of_measure (I := fun s => s.io.reads ≤ i) (fun s => i - s.io.reads) ?_ h
  intro s s' hle hgo
  obtain ⟨-, hok, n, -, hd, -⟩ := goOn_cases hgo
  have hne : s.io.reads ≠ i := by
    rintro rfl
    exact hok errno hfail
  have hreads := hd.reads
  exact ⟨by omega, by omega⟩

/-- The state of a call that waits for bytes that do not come. -/
structure Starved (kernel : Kernel) (s : ReadAll) : Prop where
  noFlag : s.io.eof = none
  short : s.io.left.length < s.bufLen
  noError : ∀ i, s.io.reads ≤ i → ∀ errno, kernel i ≠ .failed errno

/-- **Such a call goes on for ever.** -/
theorem Starved.not_returns (h : Starved kernel s) : ¬ Returns (readAllRound kernel) s := by
  refine not_returns_of_invariant (fun s hs => ?_) h
  have hshort := hs.short
  obtain ⟨hzero, -⟩ | ⟨-, errno, hfail, -⟩ | ⟨-, -, n, t, -, hd, hround⟩ :=
    readAllRound_cases kernel s
  · omega
  · exact absurd hfail (hs.noError _ (le_refl _) errno)
  · have hnone : t.eof = none := hd.flag.mpr hs.noFlag
    rw [if_neg (by simp [hnone])] at hround
    refine ⟨_, hround, hnone, ?_, ?_⟩
    · have hle := hd.le_left
      show t.left.length < s.bufLen - n
      rw [hd.left, List.length_drop]
      omega
    · intro i hi
      have hreads := hd.reads
      apply hs.noError i
      have hi' : t.reads ≤ i := hi
      omega

/-- **When reading ends.**  For every buffer, every descriptor and every way of the kernel to
hand out its bytes, `ae_io_read_all` returns after finitely many reads, if and only if
`out_was_eof` is not `NULL`, or at least `buf_len` bytes are left, or a `read` fails. -/
theorem readAll_returns_iff (kernel : Kernel) (buf bufLen : Nat) (io : IoState) :
    (∃ fuel r, readAll kernel buf bufLen fuel io = some r) ↔
      io.eof ≠ none ∨ bufLen ≤ io.left.length ∨
        ∃ i, io.reads ≤ i ∧ ∃ errno, kernel i = .failed errno := by
  constructor
  · intro hreturns
    by_contra hno
    push Not at hno
    obtain ⟨hflag, hshort, herror⟩ := hno
    exact Starved.not_returns (s := ⟨buf, bufLen, io⟩) ⟨hflag, hshort, herror⟩ hreturns
  · rintro (hflag | henough | ⟨i, hi, errno, hfail⟩)
    · exact returns_of_flag (s := ⟨buf, bufLen, io⟩) hflag
    · exact returns_of_enough (s := ⟨buf, bufLen, io⟩) henough
    · exact returns_of_failure (s := ⟨buf, bufLen, io⟩) hfail hi

/-- A descriptor at its end, and no flag. -/
def atEnd : IoState := ⟨[], 0, fun _ => 0, [], none, []⟩

/-- One byte is wanted of it. -/
theorem atEnd_never_returns :
    ¬ ∃ fuel r, readAll (fun _ => .deliver 1 Nat.one_pos) 0 1 fuel atEnd = some r := by
  refine Starved.not_returns (s := ⟨0, 1, atEnd⟩) ⟨rfl, Nat.one_pos, ?_⟩
  exact fun _ _ _ h => by cases h

end Io
end Libae
