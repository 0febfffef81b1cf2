import Libae.IoExact
import Libae.IoWrites
import Libae.Progress

/-! # Two ends of a stream

One thread makes calls of `ae_io_write_all` and then closes its end; another makes calls of
`ae_io_read_all`.  Between them is a stream (a pipe, or a socket) that holds `cap` bytes.
`write` accepts any part, though not nothing, of what there is room for, and `read` delivers
any part of what there is, or the end once the writer has closed; where there is nothing to
accept or to deliver, they block.

`piping` are the steps of both, in any interleaving and with any sizes of the parts: a step is
a round of the loop of `ae_io_write_all` or `ae_io_read_all`.  Each call that reads gets the
frame of its size, as `frames` cuts the stream, however it was cut by the writer and by the
kernel (`received_prefix`), and no reader is left waiting.  The writer is left waiting exactly
if it writes more than is read and the stream holds (`reads_return`).
-/
namespace Libae
open ByteMemory Fallible Loops Runs

/-! ## Frames -/

/-- A stream cut into frames of these sizes; there is none where the stream ends inside. -/
def frames {α : Type*} : List Nat → List α → List (Option (List α))
  | [], _ => []
  | n :: ns, xs =>
    if n ≤ xs.length then some (xs.take n) :: frames ns (xs.drop n) else none :: frames ns []

section Frames
variable {α : Type*} {n : Nat} {ns : List Nat} {xs ys : List α}

@[simp] theorem frames_nil (xs : List α) : frames [] xs = [] := rfl

/-- A frame that is there. -/
theorem frames_append (h : xs.length = n) :
    frames (n :: ns) (xs ++ ys) = some xs :: frames ns ys := by
  subst h
  rw [frames, if_pos (by simp), List.take_left, List.drop_left]

/-- The end inside a frame. -/
theorem frames_short (h : xs.length < n) : frames (n :: ns) xs = none :: frames ns [] := by
  rw [frames, if_neg (Nat.not_le_of_lt h)]

/-- The frames of a stream of messages are the messages. -/
theorem frames_messages (msgs : List (List α)) :
    frames (msgs.map List.length) msgs.flatten = msgs.map some := by
  induction msgs with
  | nil => rfl
  | cons msg msgs ih =>
    rw [List.map_cons, List.flatten_cons, frames_append rfl, ih, List.map_cons]

end Frames

/-! ## The two ends -/

/-- A buffer that is passed to a call: its address and its length. -/
abbrev IoBuf := Nat × Nat

/-- The stream, the calls of the writer, with the one it is in, and those of the reader, with
what they have returned: the bytes of the buffer, or none with `out_was_eof` set. -/
structure Piped where
  stream : List UInt8
  closed : Bool
  writes : List IoBuf
  writer : Option IoWrite.WriteAll
  reads : List IoBuf
  reader : Option (IoBuf × Io.ReadAll)
  mem : Mem
  received : List (Option (List UInt8))

/-- What one of the two does next; `size` is how much the kernel is ready to move. -/
inductive PipeAction
  | writeAll
  | write (size : Nat)
  | wrote
  | close
  | readAll
  | read (size : Nat)
  | returned (size : Nat)

namespace Piped

/-- The writer's next round: what the descriptor has accepted is the stream. -/
def writeRound (size : Nat) (stream : List UInt8) (w : IoWrite.WriteAll) :
    Round IoWrite.WriteAll (Bool × WriteState) :=
  IoWrite.writeAllRound (fun _ => .accept size none)
    { w with io := { w.io with accepted := stream } }

/-- The reader's next round: what the descriptor has not delivered is the stream. -/
def readRound (size : Nat) (pos : 0 < size) (stream : List UInt8) (r : Io.ReadAll) :
    Round Io.ReadAll (Bool × IoState) :=
  Io.readAllRound (fun _ => .deliver size pos) { r with io := { r.io with left := stream } }

/-- What a call that has read into the buffer returns. -/
def result (b : IoBuf) (io : IoState) : Option (List UInt8) :=
  if io.eof = some true then none else some (load io.mem b.1 b.2)

/-- One step, for a stream of `cap` bytes, a writer with the memory `wmem`, and `out_was_eof`
cleared before each call. -/
inductive Step (cap : Nat) (wmem : Mem) : Piped → PipeAction → Piped → Prop
  | writeAll {s : Piped} {b : IoBuf} {rest : List IoBuf} : s.writer = none → s.writes = b :: rest →
      Step cap wmem s .writeAll
        { s with writes := rest, writer := some ⟨b.1, b.2, ⟨[], 0, wmem, []⟩⟩ }
  | write {s : Piped} {w w' : IoWrite.WriteAll} {size : Nat} : s.writer = some w → 0 < size →
      s.stream.length + size ≤ cap → writeRound size s.stream w = .goOn w' →
      Step cap wmem s (.write size) { s with writer := some w', stream := w'.io.accepted }
  | wrote {s : Piped} {w : IoWrite.WriteAll} {io : WriteState} : s.writer = some w →
      writeRound 1 s.stream w = .returns (true, io) →
      Step cap wmem s .wrote { s with writer := none, stream := io.accepted }
  | close {s : Piped} : s.writer = none → s.writes = [] → s.closed = false →
      Step cap wmem s .close { s with closed := true }
  | readAll {s : Piped} {b : IoBuf} {rest : List IoBuf} : s.reader = none → s.reads = b :: rest →
      Step cap wmem s .readAll { s with
        reads := rest, reader := some (b, ⟨b.1, b.2, ⟨[], 0, s.mem, [], some false, []⟩⟩) }
  | read {s : Piped} {b : IoBuf} {r r' : Io.ReadAll} {size : Nat} {pos : 0 < size} :
      s.reader = some (b, r) → s.stream ≠ [] →
      readRound size pos s.stream r = .goOn r' →
      Step cap wmem s (.read size) { s with reader := some (b, r'), stream := r'.io.left }
  | returned {s : Piped} {b : IoBuf} {r : Io.ReadAll} {size : Nat} {pos : 0 < size} {io : IoState} :
      s.reader = some (b, r) → r.bufLen = 0 ∨ s.stream ≠ [] ∨ s.closed = true →
      readRound size pos s.stream r = .returns (true, io) →
      Step cap wmem s (.returned size) { s with
        reader := none, stream := io.left, mem := io.mem, received := s.received ++ [result b io] }

/-- Nothing is written or read yet. -/
def start (writes reads : List IoBuf) (mem : Mem) : Piped :=
  ⟨[], false, writes, none, reads, none, mem, []⟩

end Piped

/-- A writer and a reader at the two ends of a stream. -/
def piping (cap : Nat) (wmem rmem : Mem) (writes reads : List IoBuf) :
    System Piped PipeAction where
  init s := s = Piped.start writes reads rmem
  step := Piped.Step cap wmem

namespace Piped

/-! ## One round -/

section Rounds
variable {size : Nat} {r : Io.ReadAll}

/-- A round of the writer moves some of its bytes into the stream, until none is left. -/
theorem writeRound_cases (stream : List UInt8) (w : IoWrite.WriteAll) (hpos : 0 < size) :
    (w.bufLen = 0 ∧ writeRound size stream w = .returns (true, { w.io with accepted := stream })) ∨
    (0 < w.bufLen ∧ ∃ n io, 0 < n ∧ n ≤ w.bufLen ∧ n ≤ size ∧ io.mem = w.io.mem ∧
      io.accepted = stream ++ load w.io.mem w.iter n ∧
      writeRound size stream w = .goOn ⟨w.iter + n, w.bufLen - n, io⟩) := by
  by_cases hzero : w.bufLen = 0
  · exact .inl ⟨hzero, by rw [writeRound, IoWrite.writeAllRound, if_pos hzero]⟩
  · have hlen : 0 < w.bufLen := Nat.pos_of_ne_zero hzero
    obtain ⟨n, hn⟩ : ∃ n, min w.bufLen size = n + 1 := Nat.exists_eq_succ_of_ne_zero (by omega)
    refine .inr ⟨hlen, n + 1, { w.io with
      accepted := stream ++ load w.io.mem w.iter (n + 1), writes := w.io.writes + 1 },
      Nat.succ_pos n, by omega, by omega, rfl, rfl, ?_⟩
    rw [writeRound, IoWrite.writeAllRound, if_neg hzero]
    simp [IoWrite.write, IoWrite.sysWrite, bind_run, hn]

/-- A round of the reader moves some bytes of the stream into its buffer, until there is no room
left, or sees the end. -/
theorem readRound_cases (pos : 0 < size) (stream : List UInt8) (hflag : r.io.eof = some false) :
    (r.bufLen = 0 ∧ readRound size pos stream r = .returns (true, { r.io with left := stream })) ∨
    (0 < r.bufLen ∧ stream = [] ∧ ∃ io, io.left = [] ∧ io.mem = r.io.mem ∧ io.eof = some true ∧
      readRound size pos stream r = .returns (true, io)) ∨
    (0 < r.bufLen ∧ ∃ n io, 0 < n ∧ n ≤ r.bufLen ∧ n ≤ stream.length ∧ io.left = stream.drop n ∧
      io.mem = commit r.io.mem (span r.iter (stream.take n)) ∧ io.eof = some false ∧
      readRound size pos stream r = .goOn ⟨r.iter + n, r.bufLen - n, io⟩) := by
  obtain ⟨hzero, hr⟩ | ⟨hlen, errno, hfail, -⟩ | ⟨hlen, -, n, io, hread, hd, hr⟩ :=
    Io.readAllRound_cases (fun _ => .deliver size pos) { r with io := { r.io with left := stream } }
  · exact .inl ⟨hzero, hr⟩
  · cases hfail
  · have hsize := Io.read_size rfl hread
    have heof := hd.eof
    have hmem := hd.mem
    have hleft := hd.left
    dsimp only at hlen hsize heof hmem hleft
    cases stream with
    | nil =>
      -- the end
      have hn : n = 0 := by simpa using hsize
      subst hn
      rw [if_pos rfl, hflag] at heof
      refine .inr (.inl ⟨hlen, rfl, io, hleft, hmem, heof, ?_⟩)
      exact hr.trans (if_pos heof)
    | cons c cs =>
      have hn : n ≠ 0 := by
        rw [hsize, List.length_cons]
        omega
      rw [if_neg hn, hflag] at heof
      have hle : n ≤ r.bufLen ∧ n ≤ (c :: cs).length := by omega
      refine .inr (.inr
        ⟨hlen, n, io, Nat.pos_of_ne_zero hn, hle.1, hle.2, hleft, hmem, heof, ?_⟩)
      refine hr.trans (if_neg ?_)
      rw [heof]
      simp

end Rounds

/-! ## Nothing is lost, added or moved -/

/-- The bytes of the stream that the call of the reader has put into its buffer. -/
def partly (s : Piped) : List UInt8 :=
  match s.reader with
  | some (b, r) => load r.io.mem b.1 (b.2 - r.bufLen)
  | none => []

/-- The sizes of the call of the reader and of those it still makes. -/
def awaited (s : Piped) : List Nat :=
  match s.reader with
  | some (b, _) => b.2 :: s.reads.map Prod.snd
  | none => s.reads.map Prod.snd

/-- What all these calls write. -/
def contents (wmem : Mem) (writes : List IoBuf) : List UInt8 :=
  (writes.map (fun b => load wmem b.1 b.2)).flatten

/-- What the writer has not written yet. -/
def unsent (wmem : Mem) (s : Piped) : List UInt8 :=
  match s.writer with
  | some w => load wmem w.iter w.bufLen ++ contents wmem s.writes
  | none => contents wmem s.writes

/-- What every step keeps: the frames of the stream are those received so far and those of what
is in the buffer of the reader, in the stream and with the writer. -/
structure Inv (wmem : Mem) (all : List (Option (List UInt8))) (s : Piped) : Prop where
  frames : s.received ++ frames s.awaited (s.partly ++ (s.stream ++ s.unsent wmem)) = all
  writer : ∀ w, s.writer = some w → w.io.mem = wmem
  reader : ∀ b r, s.reader = some (b, r) →
    r.bufLen ≤ b.2 ∧ r.iter = b.1 + (b.2 - r.bufLen) ∧ r.io.eof = some false
  closed : s.closed = true → s.writer = none ∧ s.writes = []

section Invariant
variable {cap : Nat} {wmem rmem : Mem} {writes reads : List IoBuf}
  {all : List (Option (List UInt8))} {s t : Piped} {a : PipeAction}

theorem contents_cons (wmem : Mem) (b : IoBuf) (rest : List IoBuf) :
    contents wmem (b :: rest) = load wmem b.1 b.2 ++ contents wmem rest := by
  rw [contents, List.map_cons, List.flatten_cons]
  rfl

theorem inv_start : (start writes reads rmem).Inv wmem
    (Libae.frames (reads.map Prod.snd) (contents wmem writes)) where
  frames := rfl
  writer _ h := by cases h
  reader _ _ h := by cases h
  closed h := by cases h

/-- The bytes that a round of the reader has put behind those in the buffer. -/
theorem load_delivered (mem : Mem) (buf d : Nat) {n : Nat} {stream : List UInt8}
    (h : n ≤ stream.length) :
    load (commit mem (span (buf + d) (stream.take n))) buf (d + n) =
      load mem buf d ++ stream.take n := by
  have hlen : (stream.take n).length = n := List.length_take_of_le h
  rw [load_add, load_commit_span_outside (.inl (Nat.le_refl _))]
  have hnew := load_commit_span mem (buf + d) (stream.take n)
  rw [hlen] at hnew
  rw [hnew]

/-- A round of the writer that moves some of its bytes. -/
theorem Inv.write (hs : s.Inv wmem all) {w w' : IoWrite.WriteAll} {size : Nat}
    (hw : s.writer = some w) (hpos : 0 < size)
    (hround : writeRound size s.stream w = .goOn w') :
    Inv wmem all { s with writer := some w', stream := w'.io.accepted } := by
  obtain ⟨hframes, hwriter, hreader, hclosed⟩ := hs
  obtain ⟨-, hr⟩ | ⟨-, n, io, -, hle, -, hmem, haccepted, hr⟩ :=
    writeRound_cases s.stream w hpos
  · cases hr.symm.trans hround
  · cases hr.symm.trans hround
    refine ⟨?_, ?_, hreader, ?_⟩
    · rw [← hframes]
      have hbytes : load wmem w.iter w.bufLen =
          load wmem w.iter n ++ load wmem (w.iter + n) (w.bufLen - n) := by
        rw [← load_add, Nat.add_sub_cancel' hle]
      simp only [unsent, hw, hbytes, haccepted, hwriter w hw, List.append_assoc]
      rfl
    · rintro w' ⟨⟩
      exact hmem.trans (hwriter w hw)
    · intro hc
      rw [(hclosed hc).1] at hw
      cases hw

/-- The round of the writer that finds nothing left. -/
theorem Inv.wrote (hs : s.Inv wmem all) {w : IoWrite.WriteAll} {io : WriteState}
    (hw : s.writer = some w) (hround : writeRound 1 s.stream w = .returns (true, io)) :
    Inv wmem all { s with writer := none, stream := io.accepted } := by
  obtain ⟨hframes, hwriter, hreader, hclosed⟩ := hs
  obtain ⟨hzero, hr⟩ | ⟨-, n, io, -, -, -, -, -, hr⟩ :=
    writeRound_cases s.stream w Nat.zero_lt_one
  · cases hr.symm.trans hround
    refine ⟨?_, (fun _ h => by cases h), hreader, fun hc => ⟨rfl, (hclosed hc).2⟩⟩
    rw [← hframes]
    simp only [unsent, hw, hzero, load, List.range_zero, List.map_nil, List.nil_append]
    rfl
  · cases hr.symm.trans hround

/-- A round of the reader that moves some bytes into its buffer. -/
theorem Inv.read (hs : s.Inv wmem all) {b : IoBuf} {r r' : Io.ReadAll} {size : Nat}
    {pos : 0 < size} (hr : s.reader = some (b, r))
    (hround : readRound size pos s.stream r = .goOn r') :
    Inv wmem all { s with reader := some (b, r'), stream := r'.io.left } := by
  obtain ⟨hframes, hwriter, hreader, hclosed⟩ := hs
  obtain ⟨hle, hiter, hflag⟩ := hreader b r hr
  obtain ⟨-, hr'⟩ | ⟨-, -, io, -, -, -, hr'⟩ | ⟨-, n, io, -, hn, hlen, hleft, hmem, heof, hr'⟩ :=
    readRound_cases pos s.stream hflag
  · cases hr'.symm.trans hround
  · cases hr'.symm.trans hround
  · cases hr'.symm.trans hround
    have hsub : b.2 - (r.bufLen - n) = b.2 - r.bufLen + n := by omega
    refine ⟨?_, hwriter, ?_, hclosed⟩
    · rw [← hframes]
      have hloaded := load_delivered r.io.mem b.1 (b.2 - r.bufLen) hlen
      simp only [awaited, partly, hr, hleft, hmem, hsub, hiter]
      rw [hloaded, List.append_assoc, ← List.append_assoc (s.stream.take n),
        List.take_append_drop]
      rfl
    · rintro b' r' ⟨⟩
      refine ⟨Nat.le_trans (Nat.sub_le _ _) hle, ?_, heof⟩
      show r.iter + n = b.1 + (b.2 - (r.bufLen - n))
      omega

/-- The round of the reader that finds its buffer full, or the writer gone. -/
theorem Inv.returned (hs : s.Inv wmem all) {b : IoBuf} {r : Io.ReadAll} {size : Nat}
    {pos : 0 < size} {io : IoState} (hr : s.reader = some (b, r))
    (hready : r.bufLen = 0 ∨ s.stream ≠ [] ∨ s.closed = true)
    (hround : readRound size pos s.stream r = .returns (true, io)) :
    Inv wmem all { s with
      reader := none, stream := io.left, mem := io.mem,
      received := s.received ++ [result b io] } := by
  obtain ⟨hframes, hwriter, hreader, hclosed⟩ := hs
  obtain ⟨hle, hiter, hflag⟩ := hreader b r hr
  obtain ⟨hzero, hr'⟩ | ⟨hlen, hend, io', hleft, hmem, heof, hr'⟩ |
    ⟨-, n, io', -, -, -, -, -, -, hr'⟩ :=
    readRound_cases pos s.stream hflag
  · -- the buffer is full
    cases hr'.symm.trans hround
    refine ⟨?_, hwriter, (fun _ _ h => by cases h), hclosed⟩
    rw [← hframes]
    have hresult : result b { r.io with left := s.stream } = some (load r.io.mem b.1 b.2) := by
      rw [result, hflag]
      rfl
    simp only [awaited, partly, hr, hzero, Nat.sub_zero, hresult, List.append_assoc]
    rw [frames_append (load_length ..)]
    rfl
  · -- the writer has closed its end
    cases hr'.symm.trans hround
    have hdone : s.writer = none ∧ s.writes = [] := by
      rcases hready with hno | hno | hc
      · omega
      · exact absurd hend hno
      · exact hclosed hc
    refine ⟨?_, hwriter, (fun _ _ h => by cases h), hclosed⟩
    rw [← hframes]
    have hunsent : s.unsent wmem = [] := by
      rw [unsent, hdone.1, hdone.2]
      rfl
    have hshort : (load r.io.mem b.1 (b.2 - r.bufLen)).length < b.2 := by
      rw [load_length]
      omega
    have hafter : unsent wmem { s with
        reader := none, stream := io.left, mem := io.mem,
        received := s.received ++ [result b io] } = s.unsent wmem := rfl
    rw [hafter, hunsent]
    simp only [awaited, partly, hr, hend, hleft, List.append_nil, result, heof, if_true]
    rw [frames_short hshort, List.append_assoc]
    rfl
  · cases hr'.symm.trans hround

/-- **Every step** keeps the invariant. -/
theorem Inv.step (hs : s.Inv wmem all) (h : Step cap wmem s a t) : t.Inv wmem all := by
  cases h with
  | @writeAll b rest hnone hwrites =>
    refine ⟨?_, ?_, hs.reader, ?_⟩
    · rw [← hs.frames]
      simp only [unsent, hnone, hwrites, contents_cons]
      rfl
    · rintro w ⟨⟩
      rfl
    · intro hc
      rw [(hs.closed hc).2] at hwrites
      cases hwrites
  | write hw hpos _ hround => exact hs.write hw hpos hround
  | wrote hw hround => exact hs.wrote hw hround
  | close hnone hwrites _ => exact ⟨hs.frames, hs.writer, hs.reader, fun _ => ⟨hnone, hwrites⟩⟩
  | @readAll b rest hnone hreads =>
    refine ⟨?_, hs.writer, ?_, hs.closed⟩
    · rw [← hs.frames]
      simp only [awaited, partly, hnone, hreads, Nat.sub_self]
      rfl
    · rintro b' r' ⟨⟩
      exact ⟨Nat.le_refl _, by rw [Nat.sub_self]; rfl, rfl⟩
  | read hr _ hround => exact hs.read hr hround
  | returned hr hready hround => exact hs.returned hr hready hround

theorem inv_reachable (hs : (piping cap wmem rmem writes reads).Reachable s) :
    s.Inv wmem (Libae.frames (reads.map Prod.snd) (contents wmem writes)) :=
  hs.invariant (fun _ h => h ▸ inv_start) fun _ _ _ => Inv.step

/-- **Reading gets what was written.**  In every state that a writer and a reader can reach,
whatever the sizes of their buffers and of the parts in which the kernel moves the bytes, the
calls of `ae_io_read_all` that have returned have got the first frames of the bytes that the
calls of `ae_io_write_all` write, in order, and after their end only the flag. -/
theorem received_prefix (hs : (piping cap wmem rmem writes reads).Reachable s) :
    s.received <+: Libae.frames (reads.map Prod.snd) (contents wmem writes) :=
  ⟨_, (inv_reachable hs).frames⟩

end Invariant

/-! ## Nobody is left waiting -/

section Progress
variable {cap : Nat} {wmem rmem : Mem} {writes reads : List IoBuf} {s t : Piped} {a : PipeAction}

/-- The steps of the writer's call. -/
def writerWork (s : Piped) : Nat := if s.writer.isSome then 1 else 0

/-- The steps of the reader's call. -/
def readerWork (s : Piped) : Nat := if s.reader.isSome then 1 else 0

/-- The steps that the two still take at most: each byte is written and read, and each call is
made and returns. -/
def work (wmem : Mem) (s : Piped) : Nat :=
  2 * (s.unsent wmem).length + s.stream.length + (2 * s.writes.length + s.writerWork) +
    (2 * s.reads.length + s.readerWork) + if s.closed then 0 else 1

/-- The reader has made all its calls. -/
def Done (s : Piped) : Prop := s.reader = none ∧ s.reads = []

theorem work_decreases {all : List (Option (List UInt8))} (hs : s.Inv wmem all)
    (h : Step cap wmem s a t) : t.work wmem < s.work wmem := by
  obtain ⟨-, hwriter, hreader, -⟩ := hs
  cases h with
  | @writeAll b rest hnone hwrites =>
    simp [work, writerWork, readerWork, unsent, hnone, hwrites, contents_cons]
    omega
  | @write w w' size hw hpos _ hround =>
    obtain ⟨-, hr⟩ | ⟨-, n, io, hn, hle, -, hmem, haccepted, hr⟩ :=
      writeRound_cases s.stream w hpos
    · cases hr.symm.trans hround
    · cases hr.symm.trans hround
      simp [work, writerWork, readerWork, unsent, hw, haccepted]
      omega
  | @wrote w io hw hround =>
    obtain ⟨hzero, hr⟩ | ⟨-, n, io, -, -, -, -, -, hr⟩ :=
      writeRound_cases s.stream w Nat.zero_lt_one
    · cases hr.symm.trans hround
      simp [work, writerWork, readerWork, unsent, hw, hzero]
    · cases hr.symm.trans hround
  | close hnone hwrites hopen => simp [work, writerWork, readerWork, unsent, hnone, hwrites, hopen]
  | @readAll b rest hnone hreads =>
    simp [work, writerWork, readerWork, unsent, hnone, hreads]
    omega
  | @read b r r' size pos hr _ hround =>
    obtain ⟨-, -, hflag⟩ := hreader b r hr
    obtain ⟨-, hr'⟩ | ⟨-, -, io, -, -, -, hr'⟩ | ⟨-, n, io, hn, -, hlen, hleft, -, -, hr'⟩ :=
      readRound_cases pos s.stream hflag
    · cases hr'.symm.trans hround
    · cases hr'.symm.trans hround
    · cases hr'.symm.trans hround
      simp [work, writerWork, readerWork, unsent, hr, hleft]
      omega
  | @returned b r size pos io hr hready hround =>
    obtain ⟨-, -, hflag⟩ := hreader b r hr
    obtain ⟨-, hr'⟩ | ⟨-, hend, io', hleft, -, -, hr'⟩ | ⟨-, n, io', -, -, -, -, -, -, hr'⟩ :=
      readRound_cases pos s.stream hflag
    · cases hr'.symm.trans hround
      simp [work, writerWork, readerWork, unsent, hr]
    · cases hr'.symm.trans hround
      simp [work, writerWork, readerWork, unsent, hr, hleft, hend]
    · cases hr'.symm.trans hround

/-- **The reader waits only for the writer**, and the writer then has room. -/
theorem moves {all : List (Option (List UInt8))} (hcap : 0 < cap) (hs : s.Inv wmem all)
    (hno : ¬ s.Done) : ∃ a t, Step cap wmem s a t := by
  cases hr : s.reader with
  | none =>
    cases hreads : s.reads with
    | nil => exact absurd ⟨hr, hreads⟩ hno
    | cons b rest => exact ⟨_, _, .readAll hr hreads⟩
  | some p =>
    obtain ⟨b, r⟩ := p
    obtain ⟨-, -, hflag⟩ := hs.reader b r hr
    by_cases hready : r.bufLen = 0 ∨ s.stream ≠ [] ∨ s.closed = true
    · obtain ⟨-, hr'⟩ | ⟨-, -, io, -, -, -, hr'⟩ | ⟨-, n, io, hn, -, hlen, -, -, -, hr'⟩ :=
        readRound_cases Nat.zero_lt_one s.stream hflag
      · exact ⟨_, _, .returned hr hready hr'⟩
      · exact ⟨_, _, .returned hr hready hr'⟩
      · have hsome : s.stream ≠ [] := by
          intro hnil
          rw [hnil, List.length_nil] at hlen
          omega
        exact ⟨_, _, .read hr hsome hr'⟩
    · -- the stream is empty and not closed
      obtain ⟨-, hready⟩ := not_or.mp hready
      obtain ⟨hempty, hopen⟩ := not_or.mp hready
      have hnil : s.stream = [] := not_not.mp hempty
      cases hw : s.writer with
      | none =>
        cases hwrites : s.writes with
        | nil => exact ⟨_, _, .close hw hwrites (Bool.eq_false_iff.mpr hopen)⟩
        | cons b rest => exact ⟨_, _, .writeAll hw hwrites⟩
      | some w =>
        obtain ⟨-, hr'⟩ | ⟨-, n, io, -, -, -, -, -, hr'⟩ :=
          writeRound_cases s.stream w Nat.zero_lt_one
        · exact ⟨_, _, .wrote hw hr'⟩
        · exact ⟨_, _, .write hw Nat.zero_lt_one (by rw [hnil]; exact hcap) hr'⟩

theorem pipe_progress (hcap : 0 < cap) : (piping cap wmem rmem writes reads).Progress
    (Inv wmem (Libae.frames (reads.map Prod.snd) (contents wmem writes))) (work wmem) Done :=
  ⟨fun _ _ _ => Inv.step, fun _ _ _ => work_decreases, fun _ => moves hcap⟩

/-- What the reader has when it has made all its calls. -/
theorem received_of_done {all : List (Option (List UInt8))} (hs : s.Inv wmem all) (h : s.Done) :
    s.received = all := by
  simpa [awaited, h.1, h.2] using hs.frames

/-! ### The writer -/

/-- The writer has made all its calls, and has closed its end. -/
def Written (s : Piped) : Prop := s.writer = none ∧ s.writes = [] ∧ s.closed = true

/-- The bytes that no call of the reader has returned: those in its buffer, in the stream and
with the writer. -/
def held (wmem : Mem) (s : Piped) : Nat :=
  s.partly.length + s.stream.length + (s.unsent wmem).length

/-- How many bytes there are, if `written` are written and `asked` are asked for. -/
structure Balanced (cap : Nat) (wmem : Mem) (written asked : Nat) (s : Piped) : Prop where
  room : s.stream.length ≤ cap
  taken : written + s.awaited.sum ≤ s.held wmem + asked
  left : written ≤ asked + cap → s.held wmem ≤ s.awaited.sum + cap

theorem contents_length (wmem : Mem) (writes : List IoBuf) :
    (contents wmem writes).length = (writes.map Prod.snd).sum := by
  induction writes with
  | nil => rfl
  | cons b rest ih =>
    rw [contents_cons, List.length_append, load_length, ih, List.map_cons, List.sum_cons]

theorem balanced_start : (start writes reads rmem).Balanced cap wmem
    (writes.map Prod.snd).sum (reads.map Prod.snd).sum where
  room := Nat.zero_le _
  taken := by
    have hlen := contents_length wmem writes
    simp [awaited, start, held, partly, unsent, hlen]
  left h := by
    have hlen := contents_length wmem writes
    simpa [awaited, start, held, partly, unsent, hlen] using h

/-- Bytes that are only moved do not change it. -/
theorem Balanced.moved {written asked : Nat} (hb : s.Balanced cap wmem written asked)
    (hroom : t.stream.length ≤ cap) (hheld : t.held wmem = s.held wmem)
    (hawaited : t.awaited = s.awaited) : t.Balanced cap wmem written asked := by
  refine ⟨hroom, ?_, ?_⟩
  · rw [hheld, hawaited]
    exact hb.taken
  · rw [hheld, hawaited]
    exact hb.left

/-- A round of the writer that moves some of its bytes. -/
theorem Balanced.write {written asked : Nat} (hb : s.Balanced cap wmem written asked)
    {w w' : IoWrite.WriteAll} {size : Nat} (hw : s.writer = some w) (hpos : 0 < size)
    (hfits : s.stream.length + size ≤ cap)
    (hround : writeRound size s.stream w = .goOn w') :
    Balanced cap wmem written asked
      { s with writer := some w', stream := w'.io.accepted } := by
  obtain ⟨-, hr⟩ | ⟨-, n, io, -, hle, hsize, -, haccepted, hr⟩ := writeRound_cases s.stream w hpos
  · cases hr.symm.trans hround
  · cases hr.symm.trans hround
    have hlen : io.accepted.length = s.stream.length + n := by
      rw [haccepted, List.length_append, load_length]
    refine hb.moved ?_ ?_ rfl
    · show io.accepted.length ≤ cap
      omega
    · simp only [held, unsent, hw, hlen, List.length_append, load_length]
      show s.partly.length + (s.stream.length + n) + _ = s.partly.length + _ + _
      omega

/-- The round of the writer that finds nothing left. -/
theorem Balanced.wrote {written asked : Nat} (hb : s.Balanced cap wmem written asked)
    {w : IoWrite.WriteAll} {io : WriteState} (hw : s.writer = some w)
    (hround : writeRound 1 s.stream w = .returns (true, io)) :
    Balanced cap wmem written asked { s with writer := none, stream := io.accepted } := by
  obtain ⟨hzero, hr⟩ | ⟨-, n, io, -, -, -, -, -, hr⟩ :=
    writeRound_cases s.stream w Nat.zero_lt_one
  · cases hr.symm.trans hround
    refine hb.moved hb.room ?_ rfl
    simp only [held, unsent, hw, hzero, List.length_append, load_length, Nat.zero_add]
    rfl
  · cases hr.symm.trans hround

/-- A round of the reader that moves some bytes into its buffer. -/
theorem Balanced.read {all : List (Option (List UInt8))} {written asked : Nat}
    (hb : s.Balanced cap wmem written asked) (hs : s.Inv wmem all) {b : IoBuf}
    {r r' : Io.ReadAll} {size : Nat} {pos : 0 < size} (hr : s.reader = some (b, r))
    (hround : readRound size pos s.stream r = .goOn r') :
    Balanced cap wmem written asked
      { s with reader := some (b, r'), stream := r'.io.left } := by
  have hroom := hb.room
  obtain ⟨hle, -, hflag⟩ := hs.reader b r hr
  obtain ⟨-, hr'⟩ | ⟨-, -, io, -, -, -, hr'⟩ | ⟨-, n, io, -, hn, hlen, hrest, -, -, hr'⟩ :=
    readRound_cases pos s.stream hflag
  · cases hr'.symm.trans hround
  · cases hr'.symm.trans hround
  · cases hr'.symm.trans hround
    have hshort : io.left.length = s.stream.length - n := by rw [hrest, List.length_drop]
    refine hb.moved ?_ ?_ ?_
    · show io.left.length ≤ cap
      omega
    · simp only [held, partly, hr, hshort, load_length]
      show _ + (s.unsent wmem).length = _
      omega
    · simp only [awaited, hr]

/-- The round of the reader that finds its buffer full, or the writer gone: only the second
returns less than it has asked for, and then nothing is left. -/
theorem Balanced.returned {all : List (Option (List UInt8))} {written asked : Nat}
    (hb : s.Balanced cap wmem written asked) (hs : s.Inv wmem all) {b : IoBuf}
    {r : Io.ReadAll} {size : Nat} {pos : 0 < size} {io : IoState}
    (hr : s.reader = some (b, r))
    (hready : r.bufLen = 0 ∨ s.stream ≠ [] ∨ s.closed = true)
    (hround : readRound size pos s.stream r = .returns (true, io)) :
    Balanced cap wmem written asked { s with
      reader := none, stream := io.left, mem := io.mem,
      received := s.received ++ [result b io] } := by
  obtain ⟨hroom, htaken, hleft⟩ := hb
  obtain ⟨hle, -, hflag⟩ := hs.reader b r hr
  simp only [held, partly, hr, load_length, awaited, List.sum_cons] at htaken hleft
  have hawaited : awaited { s with
      reader := none, stream := io.left, mem := io.mem,
      received := s.received ++ [result b io] } = s.reads.map Prod.snd := rfl
  have hmoved : held wmem { s with
      reader := none, stream := io.left, mem := io.mem,
      received := s.received ++ [result b io] } =
      io.left.length + (s.unsent wmem).length := by
    rw [held, partly, List.length_nil, Nat.zero_add]
    rfl
  obtain ⟨hzero, hr'⟩ | ⟨hpart, hend, io', hrest, -, -, hr'⟩ |
    ⟨-, n, io', -, -, -, -, -, -, hr'⟩ := readRound_cases pos s.stream hflag
  · -- the buffer is full
    cases hr'.symm.trans hround
    refine ⟨hroom, ?_, fun hsum => ?_⟩
    · rw [hmoved, hawaited]
      dsimp only
      omega
    · rw [hmoved, hawaited]
      have hbefore := hleft hsum
      dsimp only
      omega
  · -- the writer has closed its end, and has nothing left
    cases hr'.symm.trans hround
    have hunsent : s.unsent wmem = [] := by
      obtain hno | hno | hc := hready
      · omega
      · exact absurd hend hno
      · rw [unsent, (hs.closed hc).1, (hs.closed hc).2]
        rfl
    rw [hend, hunsent] at htaken
    refine ⟨?_, ?_, fun _ => ?_⟩
    · show io.left.length ≤ cap
      rw [hrest]
      exact Nat.zero_le _
    · rw [hmoved, hawaited, hrest, hunsent]
      simp only [List.length_nil] at htaken ⊢
      omega
    · rw [hmoved, hrest, hunsent]
      exact Nat.zero_le _
  · cases hr'.symm.trans hround

/-- **The balance is kept.** -/
theorem Balanced.step {all : List (Option (List UInt8))} {written asked : Nat}
    (hb : s.Balanced cap wmem written asked) (hs : s.Inv wmem all) (h : Step cap wmem s a t) :
    t.Balanced cap wmem written asked := by
  cases h with
  | @writeAll b rest hnone hwrites =>
    refine hb.moved hb.room ?_ rfl
    simp only [held, unsent, hnone, hwrites, contents_cons]
    rfl
  | write hw hpos hfits hround => exact hb.write hw hpos hfits hround
  | wrote hw hround => exact hb.wrote hw hround
  | close => exact hb.moved hb.room rfl rfl
  | @readAll b rest hnone hreads =>
    refine hb.moved hb.room ?_ ?_
    · simp only [held, partly, hnone, load_length, Nat.sub_self, List.length_nil]
      rfl
    · simp only [awaited, hnone, hreads, List.map_cons]
  | read hr _ hround => exact hb.read hs hr hround
  | returned hr hready hround => exact hb.returned hs hr hready hround

theorem balanced_reachable (hs : (piping cap wmem rmem writes reads).Reachable s) :
    s.Balanced cap wmem (writes.map Prod.snd).sum (reads.map Prod.snd).sum :=
  (hs.invariant
    (I := fun s => s.Inv wmem (Libae.frames (reads.map Prod.snd) (contents wmem writes)) ∧
      s.Balanced cap wmem (writes.map Prod.snd).sum (reads.map Prod.snd).sum)
    (fun _ h => h ▸ ⟨inv_start, balanced_start⟩)
    fun _ _ _ hs h => ⟨hs.1.step h, hs.2.step hs.1 h⟩).2

/-- **The writer waits only for room**: where no step is left and the reader has made all its
calls, the writer has finished, or the stream is full and bytes are left. -/
theorem written_or_full (hb : s.stream.length ≤ cap) (hstuck : ∀ a u, ¬ Step cap wmem s a u) :
    s.Written ∨ (s.stream.length = cap ∧ 0 < (s.unsent wmem).length) := by
  cases hw : s.writer with
  | none =>
    cases hwrites : s.writes with
    | nil =>
      cases hclosed : s.closed with
      | true => exact .inl ⟨hw, hwrites, hclosed⟩
      | false => exact absurd (.close hw hwrites hclosed) (hstuck _ _)
    | cons b rest => exact absurd (.writeAll hw hwrites) (hstuck _ _)
  | some w =>
    obtain ⟨-, hr⟩ | ⟨hlen, n, io, -, -, -, -, -, hr⟩ :=
      writeRound_cases s.stream w Nat.zero_lt_one
    · exact absurd (.wrote hw hr) (hstuck _ _)
    · by_cases hfull : s.stream.length = cap
      · refine .inr ⟨hfull, ?_⟩
        rw [unsent, hw, List.length_append, load_length]
        omega
      · exact absurd (.write hw Nat.zero_lt_one (by omega) hr) (hstuck _ _)

/-- Where the two have stopped, the writer has finished unless it writes more than is asked for
and the stream holds. -/
theorem Balanced.written_iff {written asked : Nat} (hb : s.Balanced cap wmem written asked)
    (hdone : s.Done) (hstuck : ∀ a u, ¬ Step cap wmem s a u) :
    s.Written ↔ written ≤ asked + cap := by
  obtain ⟨hroom, htaken, hleft⟩ := hb
  have hawaited : s.awaited.sum = 0 := by simp [awaited, hdone.1, hdone.2]
  have hheld : s.held wmem = s.stream.length + (s.unsent wmem).length := by
    simp [held, partly, hdone.1]
  rw [hawaited, hheld] at htaken hleft
  constructor
  · rintro ⟨hw, hwrites, -⟩
    have hunsent : s.unsent wmem = [] := by
      rw [unsent, hw, hwrites]
      rfl
    rw [hunsent, List.length_nil] at htaken
    omega
  · intro hsum
    have hbound := hleft hsum
    obtain hwritten | ⟨hfull, hsome⟩ := written_or_full hroom hstuck
    · exact hwritten
    · omega

/-- **Reading in full ends.**  Over a stream that holds at least one byte, a writer and a reader
take at most `work` steps from any state they can reach, in whatever order, and where they stop
every call of `ae_io_read_all` has returned.  Then the calls have got the frames of the bytes
written, and if their sizes are those of the calls of `ae_io_write_all`, exactly the buffers
that were written, one by one.  The calls of `ae_io_write_all` have returned as well, and the
writer has closed its end, if and only if it does not write more bytes than the reader asks for
and the stream holds. -/
theorem reads_return (hcap : 0 < cap) (hs : (piping cap wmem rmem writes reads).Reachable s)
    {τs : List (Transition Piped PipeAction)}
    (hr : (piping cap wmem rmem writes reads).Run s τs t) :
    τs.length ≤ s.work wmem ∧ ((∀ a u, ¬ Step cap wmem t a u) → t.Done) ∧
      (t.Done → t.received = Libae.frames (reads.map Prod.snd) (contents wmem writes) ∧
        (reads.map Prod.snd = writes.map Prod.snd →
          t.received = writes.map (fun b => some (load wmem b.1 b.2)))) ∧
      ((∀ a u, ¬ Step cap wmem t a u) →
        (t.Written ↔ (writes.map Prod.snd).sum ≤ (reads.map Prod.snd).sum + cap)) := by
  have hinv := inv_reachable hs
  have hlen := (pipe_progress hcap).length_le hr hinv
  have hends := (pipe_progress hcap).ends hr hinv
  have hbalanced := balanced_reachable (hs.run hr)
  refine ⟨by omega, hends, fun hdone => ?_, fun hstuck =>
    hbalanced.written_iff (hends hstuck) hstuck⟩
  have hreceived := received_of_done (inv_reachable (hs.run hr)) hdone
  refine ⟨hreceived, fun hsizes => ?_⟩
  have hlengths : (writes.map (fun b => load wmem b.1 b.2)).map List.length =
      writes.map Prod.snd := by
    rw [List.map_map]
    exact List.map_congr_left fun b _ => load_length ..
  rw [hreceived, hsizes, ← hlengths, contents, frames_messages, List.map_map]
  rfl

/-- Two bytes that are written at once and read one by one, over a stream that holds one. -/
theorem reads_return_two : ∃ t,
    (piping 1 (fun a => a.toUInt8) (fun _ => 0) [(7, 2)] [(0, 1), (0, 1)]).Reachable t ∧
      t.received = [some [7], some [8]] ∧ t.Written := by
  have hs := System.Reachable.of_init
    (M := piping 1 (fun a => a.toUInt8) (fun _ => 0) [(7, 2)] [(0, 1), (0, 1)]) rfl
  obtain ⟨τs, t, hr, hstuck⟩ := (pipe_progress Nat.zero_lt_one).stops (inv_reachable hs)
  obtain ⟨-, hends, hframes, hwritten⟩ := reads_return Nat.zero_lt_one hs hr
  exact ⟨t, hs.run hr, (hframes (hends hstuck)).1, (hwritten hstuck).mpr (by decide)⟩

/-- The end of the stream inside a frame. -/
theorem received_prefix_short : ∃ t,
    (piping 1 (fun a => a.toUInt8) (fun _ => 0) [(7, 2)] [(0, 3)]).Reachable t ∧ t.Done ∧
      t.received <+: [none] := by
  have hs := System.Reachable.of_init
    (M := piping 1 (fun a => a.toUInt8) (fun _ => 0) [(7, 2)] [(0, 3)]) rfl
  obtain ⟨τs, t, hr, hdone⟩ := (pipe_progress Nat.zero_lt_one).finishes (inv_reachable hs)
  exact ⟨t, hs.run hr, hdone, received_prefix (hs.run hr)⟩

end Progress

end Piped

end Libae
