import Libae.IoReads

/-! # What reading in full leaves

However the kernel splits the bytes, `ae_io_read_all` has at every point of its loop put a
beginning of the stream at the beginning of the buffer, and taken as much from the
descriptor (`Progress`).  So with a flag that is clear at the call, the result and the flag
say how much that is (`readAll_exact`).

The flag is not cleared by the functions.  One that is still set from an earlier call ends
the loop after the first chunk (`readAll_forgets_flag_iff`).
-/
namespace Libae
open ByteMemory Fallible Loops

namespace Io
variable {kernel : Kernel} {start s s' : ReadAll} {d n buf bufLen : Nat}

/-- `d` bytes of the stream have been read since `start`. -/
structure Took (start : ReadAll) (d : Nat) (io : IoState) : Prop where
  le : d ≤ start.bufLen
  le_left : d ≤ start.io.left.length
  left : io.left = start.io.left.drop d
  mem : io.mem = commit start.io.mem (span start.iter (start.io.left.take d))
  written : io.written = start.io.written ++ span start.iter (start.io.left.take d)
  reads : start.io.reads ≤ io.reads

/-- The loop stands behind the `d` bytes that it has read. -/
structure Progress (start : ReadAll) (d : Nat) (s : ReadAll) : Prop extends Took start d s.io where
  iter : s.iter = start.iter + d
  bufLen : s.bufLen = start.bufLen - d

theorem Progress.refl (start : ReadAll) : Progress start 0 start where
  le := Nat.zero_le _
  le_left := Nat.zero_le _
  left := rfl
  mem := by simp [span]
  written := by simp [span]
  reads := le_refl _
  iter := rfl
  bufLen := rfl

/-- **A read continues where the last one has stopped.** -/
theorem Progress.delivered {t : IoState} (h : Progress start d s)
    (hd : Delivered s.iter s.bufLen n s.io t) : Took start (d + n) t := by
  have hlen : (start.io.left.take d).length = d := by
    rw [List.length_take]
    exact Nat.min_eq_left h.le_left
  have hspan : span start.iter (start.io.left.take (d + n)) =
      span start.iter (start.io.left.take d) ++ span s.iter (s.io.left.take n) := by
    rw [List.take_add, span_append, hlen, h.iter, h.left]
  have hle := hd.le
  have hle_left := hd.le_left
  rw [h.bufLen] at hle
  rw [h.left, List.length_drop] at hle_left
  have hbound := h.le
  have hbound' := h.le_left
  refine ⟨by omega, by omega, ?_, ?_, ?_, ?_⟩
  · rw [hd.left, h.left, List.drop_drop]
  · rw [hd.mem, h.mem, hspan, commit_append]
  · rw [hd.written, h.written, hspan, List.append_assoc]
  · have hreads := hd.reads
    have hsofar := h.reads
    omega

/-- A round that goes on keeps count. -/
theorem Progress.goOn (h : Progress start d s) (hgo : readAllRound kernel s = .goOn s') :
    ∃ n, Progress start (d + n) s' := by
  obtain ⟨-, -, n, heq, hd, -⟩ := goOn_cases hgo
  refine ⟨n, h.delivered hd, ?_, ?_⟩
  · rw [heq, h.iter, Nat.add_assoc]
  · rw [heq, h.bufLen, Nat.sub_sub]

/-- The flag while the loop runs: as it was, and not set by the last read. -/
theorem goOn_flag (hgo : readAllRound kernel s = .goOn s') (h : s.io.eof = some false) :
    s'.io.eof = some false := by
  obtain ⟨-, -, n, -, hd, hzero⟩ := goOn_cases hgo
  have hn : n ≠ 0 := fun hn => by simp [hzero hn] at h
  rw [hd.eof, if_neg hn, h]

/-! ## Reading in full is exact -/

/-- What `ae_io_read_all` says of the `d` bytes that it has read. -/
inductive Reported (kernel : Kernel) (start : ReadAll) (d : Nat) : Bool → IoState → Prop
  | full {t : IoState} (flag : t.eof = some false) (all : d = start.bufLen) :
      Reported kernel start d true t
  | ended {t : IoState} (flag : t.eof = some true) (all : d = start.io.left.length)
      (short : d < start.bufLen) : Reported kernel start d true t
  | failed {t : IoState} {i : Nat} {errno : Text} (flag : t.eof = some false)
      (since : start.io.reads ≤ i) (before : i < t.reads) (failure : kernel i = .failed errno) :
      Reported kernel start d false t

/-- **A round that returns.** -/
theorem Progress.returns {ok : Bool} {t : IoState} (h : Progress start d s)
    (hflag : s.io.eof = some false) (hr : readAllRound kernel s = .returns (ok, t)) :
    ∃ d, Took start d t ∧ Reported kernel start d ok t := by
  have hbound := h.le
  have hbound' := h.le_left
  have hlen := h.bufLen
  obtain ⟨hzero, hround⟩ | ⟨-, errno, hfail, hround⟩ | ⟨hpos, -, n, t', -, hd, hround⟩ :=
    readAllRound_cases kernel s
  · cases hround.symm.trans hr
    exact ⟨d, h.toTook, .full hflag (by omega)⟩
  · cases hround.symm.trans hr
    exact ⟨d, ⟨hbound, hbound', h.left, h.mem, h.written, Nat.le_succ_of_le h.reads⟩,
      .failed hflag h.reads (Nat.lt_succ_self _) hfail⟩
  · rw [hround] at hr
    split at hr
    · next hset =>
      cases hr
      -- only a read at the end sets the flag
      have hn : n = 0 := by
        by_contra hn
        have heof := hd.eof
        rw [if_neg hn, hflag, hset] at heof
        cases heof
      have hend := hd.ended hn
      rw [h.left, List.drop_eq_nil_iff] at hend
      exact ⟨d + n, h.delivered hd, .ended hset (by omega) (by omega)⟩
    · cases hr

/-- The whole call. -/
theorem readAll_reported {fuel : Nat} {io t : IoState} {ok : Bool} (hflag : io.eof = some false)
    (h : readAll kernel buf bufLen fuel io = some (ok, t)) :
    ∃ d, Took ⟨buf, bufLen, io⟩ d t ∧ Reported kernel ⟨buf, bufLen, io⟩ d ok t := by
  have hyields : Yields (readAllRound kernel) ⟨buf, bufLen, io⟩ (ok, t) := ⟨fuel, h⟩
  refine hyields.of_invariant
    (I := fun s => s.io.eof = some false ∧ ∃ d, Progress ⟨buf, bufLen, io⟩ d s)
    (Q := fun r => ∃ d, Took ⟨buf, bufLen, io⟩ d r.2 ∧ Reported kernel ⟨buf, bufLen, io⟩ d r.1 r.2)
    ?_ ?_ ⟨hflag, 0, .refl _⟩
  · rintro s s' ⟨hclear, d, hs⟩ hgo
    obtain ⟨n, hs'⟩ := hs.goOn hgo
    exact ⟨goOn_flag hgo hclear, d + n, hs'⟩
  · rintro s r ⟨hclear, d, hs⟩ hr
    exact hs.returns hclear hr

/-- The bytes read stand at the beginning of the buffer. -/
theorem Took.load {io : IoState} (h : Took start d io) :
    load io.mem start.iter d = start.io.left.take d := by
  have hlen : (start.io.left.take d).length = d := by
    rw [List.length_take]
    exact Nat.min_eq_left h.le_left
  have hload := load_commit_span start.io.mem start.iter (start.io.left.take d)
  rwa [hlen, ← h.mem] at hload

/-- **Reading in full is exact under any chunking.**  For every length, every stream and
every way of the kernel to split it, to end it or to fail, with a flag that is clear at the
call: `ae_io_read_all` returns.  If it returns true and the flag is still clear, the buffer
holds the next `buf_len` bytes of the stream, and they are what was consumed.  If it returns
true and the flag is set, there were fewer, and the buffer begins with all of them.  If it
returns false, a `read` has failed.  It writes to the buffer and nowhere else. -/
theorem readAll_exact (kernel : Kernel) (buf bufLen : Nat) (io : IoState)
    (hflag : io.eof = some false) :
    (∃ fuel r, readAll kernel buf bufLen fuel io = some r) ∧
      ∀ fuel ok t, readAll kernel buf bufLen fuel io = some (ok, t) →
        (ok = true → t.eof = some false → bufLen ≤ io.left.length ∧
          load t.mem buf bufLen = io.left.take bufLen ∧ t.left = io.left.drop bufLen) ∧
        (ok = true → t.eof ≠ some false → t.eof = some true ∧ io.left.length < bufLen ∧
          load t.mem buf io.left.length = io.left ∧ t.left = []) ∧
        (ok = false → ∃ i errno, io.reads ≤ i ∧ i < t.reads ∧ kernel i = .failed errno) ∧
        ∃ writes, t.written = io.written ++ writes ∧ t.mem = commit io.mem writes ∧
          ∀ w ∈ writes, buf ≤ w.1 ∧ w.1 < buf + bufLen := by
  refine ⟨returns_of_flag (s := ⟨buf, bufLen, io⟩) (by simp [hflag]), fun fuel ok t h => ?_⟩
  obtain ⟨d, took, reported⟩ := readAll_reported hflag h
  have hload := took.load
  have hleft := took.left
  have hle := took.le
  have hle_left := took.le_left
  dsimp only at hload hleft hle hle_left
  refine ⟨fun hok hclear => ?_, fun hok hset => ?_, fun hok => ?_, ?_⟩
  · cases reported with
    | full flag all =>
      subst all
      exact ⟨hle_left, hload, hleft⟩
    | ended flag all short => simp [flag] at hclear
    | failed => cases hok
  · cases reported with
    | full flag all => exact absurd flag hset
    | ended flag all short =>
      subst all
      rw [List.take_length] at hload
      rw [List.drop_length] at hleft
      exact ⟨flag, short, hload, hleft⟩
    | failed => cases hok
  · cases reported with
    | full => cases hok
    | ended => cases hok
    | failed flag since before failure => exact ⟨_, _, since, before, failure⟩
  · refine ⟨_, took.written, took.mem, fun w hw => ?_⟩
    have hin := mem_span hw
    have hlen : (io.left.take d).length ≤ d := List.length_take_le _ _
    dsimp only at hin
    omega

/-- A stream of three bytes. -/
def threeBytes : IoState := ⟨[1, 2, 3], 0, fun _ => 0, [], some false, []⟩

/-- A kernel that hands out one byte at a time. -/
def oneByOne : Kernel := fun _ => .deliver 1 Nat.one_pos

/-- Two of the bytes are wanted. -/
theorem threeBytes_exact :
    (∃ fuel r, readAll oneByOne 0 2 fuel threeBytes = some r) ∧
      ∀ fuel t, readAll oneByOne 0 2 fuel threeBytes = some (true, t) → t.eof = some false →
        load t.mem 0 2 = [1, 2] ∧ t.left = [3] := by
  have h := readAll_exact oneByOne 0 2 threeBytes rfl
  exact ⟨h.1, fun fuel t hrun hclear => ((h.2 fuel true t hrun).1 rfl hclear).2⟩

/-! ## The flag as an input -/

/-- Two results that a caller cannot tell apart. -/
def SameOutcome (buf bufLen : Nat) (r r' : Bool × IoState) : Prop :=
  r.1 = r'.1 ∧ load r.2.mem buf bufLen = load r'.2.mem buf bufLen ∧
    r.2.left = r'.2.left ∧ r.2.eof = r'.2.eof

/-- What the flag was at the call makes no difference. -/
def ForgetsFlag (kernel : Kernel) (buf bufLen : Nat) (io : IoState) : Prop :=
  ∀ b b' : Bool, ∃ r r',
    (∃ fuel, readAll kernel buf bufLen fuel { io with eof := some b } = some r) ∧
    (∃ fuel, readAll kernel buf bufLen fuel { io with eof := some b' } = some r') ∧
    SameOutcome buf bufLen r r'

/-- The stream is shorter than the buffer and comes in one piece, and the read after it,
which finds the end, does not fail. -/
def EndsAtOnce (kernel : Kernel) (bufLen : Nat) (io : IoState) : Prop :=
  io.left.length < bufLen ∧
    (∃ size pos, kernel io.reads = .deliver size pos ∧ io.left.length ≤ size) ∧
    (io.left ≠ [] → ∀ errno, kernel (io.reads + 1) ≠ .failed errno)

variable {io : IoState}

/-- With a flag that is set, the first `read` is the last. -/
theorem yields_of_set {r : Bool × IoState} (hset : s.io.eof = some true)
    (h : Yields (readAllRound kernel) s r) :
    r.2.eof = some true ∧ (r.1 = true → 0 < s.bufLen → ∃ size pos n,
      kernel s.io.reads = .deliver size pos ∧ n ≤ size ∧ r.2.left = s.io.left.drop n) := by
  obtain ⟨hzero, hround⟩ | ⟨hpos, errno, hfail, hround⟩ | ⟨hpos, hok, n, t, hread, hd, hround⟩ :=
    readAllRound_cases kernel s
  · cases (yields_of_returns hround).mp h
    exact ⟨hset, fun _ hpos => absurd hzero (Nat.ne_of_gt hpos)⟩
  · cases (yields_of_returns hround).mp h
    exact ⟨hset, fun htrue => by cases htrue⟩
  · have heof : t.eof = some true := by
      rw [hd.eof, hset]
      split <;> rfl
    rw [if_pos heof] at hround
    cases (yields_of_returns hround).mp h
    refine ⟨heof, fun _ _ => ?_⟩
    cases hk : kernel s.io.reads with
    | failed errno => exact absurd hk (hok errno)
    | deliver size pos =>
      have hsize := read_size hk hread
      exact ⟨size, pos, n, rfl, by omega, hd.left⟩

/-- With a flag that is clear, the second `read` counts if the first one has got a byte, but
not all that are wanted. -/
theorem second_read {r : Bool × IoState} (hclear : s.io.eof = some false)
    (hleft : s.io.left ≠ []) (hshort : s.io.left.length < s.bufLen)
    (h : Yields (readAllRound kernel) s r) (htrue : r.1 = true) (errno : Text) :
    kernel (s.io.reads + 1) ≠ .failed errno := by
  intro hsecond
  obtain ⟨hzero, -⟩ | ⟨-, errno', -, hround⟩ | ⟨-, -, n, t, -, hd, hround⟩ :=
    readAllRound_cases kernel s
  · omega
  · rw [(yields_of_returns hround).mp h] at htrue
    cases htrue
  · have hn : n ≠ 0 := fun hn => hleft (hd.ended hn)
    have heof : t.eof = some false := by rw [hd.eof, if_neg hn, hclear]
    rw [heof, if_neg (by simp)] at hround
    rw [yields_of_goOn hround] at h
    have hle := hd.le_left
    have hreads := hd.reads
    obtain ⟨hzero, -⟩ | ⟨-, errno', -, hround'⟩ | ⟨-, hok, -⟩ :=
      readAllRound_cases kernel ⟨s.iter + n, s.bufLen - n, t⟩
    · dsimp only at hzero
      omega
    · rw [(yields_of_returns hround').mp h] at htrue
      cases htrue
    · dsimp only at hok
      rw [hreads] at hok
      exact hok errno hsecond

/-- A read that finds the end is the last, if there is a flag, and changes nothing else. -/
theorem yields_at_end {b : Bool} (hleft : s.io.left = []) (hpos : 0 < s.bufLen)
    (hflag : s.io.eof = some b) (hok : ∀ errno, kernel s.io.reads ≠ .failed errno) :
    ∃ t, Yields (readAllRound kernel) s (true, t) ∧ t.eof = some true ∧ t.left = [] ∧
      t.mem = s.io.mem := by
  obtain ⟨hzero, -⟩ | ⟨-, errno, hfail, -⟩ | ⟨-, -, n, t, -, hd, hround⟩ :=
    readAllRound_cases kernel s
  · omega
  · exact absurd hfail (hok errno)
  · have hn : n = 0 := by
      have hle_left := hd.le_left
      rw [hleft, List.length_nil] at hle_left
      omega
    have heof : t.eof = some true := by
      rw [hd.eof, if_pos hn, hflag]
      rfl
    rw [if_pos heof] at hround
    refine ⟨t, (yields_of_returns hround).mpr rfl, heof, ?_, ?_⟩
    · rw [hd.left, hleft, List.drop_nil]
    · rw [hd.mem, hn, List.take_zero]
      rfl

/-- What a stream that ends at once leaves, whatever the flag was. -/
theorem EndsAtOnce.yields (h : EndsAtOnce kernel bufLen io) (b : Bool) :
    ∃ t, Yields (readAllRound kernel) ⟨buf, bufLen, { io with eof := some b }⟩ (true, t) ∧
      t.eof = some true ∧ t.left = [] ∧ t.mem = commit io.mem (span buf io.left) := by
  obtain ⟨hshort, ⟨size, pos, hk, hle⟩, hnext⟩ := h
  obtain ⟨s, hs⟩ : ∃ s : ReadAll, s = ⟨buf, bufLen, { io with eof := some b }⟩ := ⟨_, rfl⟩
  rw [← hs]
  have hk' : kernel s.io.reads = .deliver size pos := by rw [hs, hk]
  obtain ⟨hzero, -⟩ | ⟨-, errno, hfail, -⟩ | ⟨-, -, n, t, hread, hd, hround⟩ :=
    readAllRound_cases kernel s
  · rw [hs] at hzero
    dsimp only at hzero
    omega
  · rw [hk'] at hfail
    cases hfail
  · -- the first read gets the whole stream
    have hn : n = io.left.length := by
      have hsize := read_size hk' hread
      rw [hs] at hsize
      dsimp only at hsize
      omega
    have hleft : t.left = [] := by rw [hd.left, hs, hn, List.drop_length]
    have hmem : t.mem = commit io.mem (span buf io.left) := by
      rw [hd.mem, hs, hn, List.take_length]
    by_cases hflag : t.eof = some true
    · rw [if_pos hflag] at hround
      exact ⟨t, (yields_of_returns hround).mpr rfl, hflag, hleft, hmem⟩
    · rw [if_neg hflag] at hround
      have hne : n ≠ 0 := by
        intro hzero
        rw [hd.eof, if_pos hzero, hs] at hflag
        exact hflag rfl
      have hsome : t.eof = some b := by rw [hd.eof, if_neg hne, hs]
      have hreads : t.reads = io.reads + 1 := by rw [hd.reads, hs]
      have hok : ∀ errno, kernel t.reads ≠ .failed errno := by
        rw [hreads]
        exact hnext (fun hnil => hne (by rw [hn, hnil, List.length_nil]))
      have hpos : 0 < s.bufLen - n := by
        rw [hs, hn]
        exact Nat.sub_pos_of_lt hshort
      -- the second one finds the end
      obtain ⟨u, hu, heof, hnil, hsame⟩ :=
        yields_at_end (s := ⟨s.iter + n, s.bufLen - n, t⟩) hleft hpos hsome hok
      exact ⟨u, (yields_of_goOn hround).mpr hu, heof, hnil, hsame.trans hmem⟩

/-- **Where the flag is an input.**  A call of `ae_io_read_all` gives the same result, the same
bytes, the same rest of the stream and the same flag, whatever the flag was before, exactly if
the stream is shorter than the buffer and the first `read` gets all of it, and the one behind
it, if there is one, does not fail. -/
theorem readAll_forgets_flag_iff (kernel : Kernel) (buf bufLen : Nat) (io : IoState) :
    ForgetsFlag kernel buf bufLen io ↔ EndsAtOnce kernel bufLen io := by
  constructor
  · intro hforgets
    obtain ⟨r, ⟨ok, t⟩, hset, ⟨fuel, hclear⟩, hresult, -, hleft, heof⟩ := hforgets true false
    obtain ⟨hflag, hfirst⟩ :=
      yields_of_set (s := ⟨buf, bufLen, { io with eof := some true }⟩) rfl hset
    obtain ⟨d, took, reported⟩ := readAll_reported rfl hclear
    rw [hflag] at heof
    -- the flag that was clear is set at the end, so that call has got the whole stream
    cases reported with
    | full flag all => simp [flag] at heof
    | failed flag => simp [flag] at heof
    | ended flag all short =>
      dsimp only at all short hresult hleft
      have hnil : t.left = [] := by
        rw [took.left, all]
        exact List.drop_length
      obtain ⟨size, pos, n, hk, hn, hdrop⟩ := hfirst hresult (by dsimp only; omega)
      rw [hleft, hnil] at hdrop
      have hlen : io.left.length ≤ n := List.drop_eq_nil_iff.mp hdrop.symm
      refine ⟨by omega, ⟨size, pos, hk, by omega⟩, fun hne errno => ?_⟩
      exact second_read (s := ⟨buf, bufLen, { io with eof := some false }⟩) rfl hne
        (by dsimp only; omega) ⟨fuel, hclear⟩ rfl errno
  · intro h b b'
    obtain ⟨t, hyields, heof, hleft, hmem⟩ := h.yields b
    obtain ⟨t', hyields', heof', hleft', hmem'⟩ := h.yields b'
    refine ⟨(true, t), (true, t'), hyields, hyields', rfl, ?_, ?_, ?_⟩
    · rw [hmem, hmem']
    · rw [hleft, hleft']
    · rw [heof, heof']

/-- Of the three bytes two are wanted.  With a flag that is still set one is read. -/
theorem stale_flag_stops : ¬ ForgetsFlag oneByOne 0 2 threeBytes := by
  intro hforgets
  obtain ⟨r, r', hset, hclear, -, -, hleft, -⟩ := hforgets true false
  have hone : ∃ t, t.left = [2, 3] ∧
      readAll oneByOne 0 2 1 { threeBytes with eof := some true } = some (true, t) :=
    ⟨_, rfl, rfl⟩
  have htwo : ∃ t, t.left = [3] ∧
      readAll oneByOne 0 2 3 { threeBytes with eof := some false } = some (true, t) :=
    ⟨_, rfl, rfl⟩
  obtain ⟨t, ht, hone⟩ := hone
  obtain ⟨t', ht', htwo⟩ := htwo
  rw [Yields.unique hset ⟨1, hone⟩, Yields.unique hclear ⟨3, htwo⟩, ht, ht'] at hleft
  simp at hleft

end Io
end Libae
