import Libae.Res
import Libae.Runs

/-! # Where result messages are written

`ae_res_msg_addv` computes the room left in a record's buffer, takes one byte of
it for the separator and hands the rest to `ae_str_printv`, which stores a NUL
before it looks at the size.  With one byte of room the separator takes it all,
and that NUL lands behind the buffer.

`ResMsg.Brimful` is that situation: `head` stands on the last byte and there is
a message to separate from.  From any other record with `head` inside the buffer
a call writes only inside it, ends its text, leaves `head` inside and touches no
other record (`Res.addv_inside`).  Since a brimful record arises from messages
that all fit, no bound on a single message excludes it: the condition is on the
fill level, and `Res.bounded_iff` says that it is exact for every sequence of
calls.
-/
namespace Libae
open ByteMemory Runs

/-! ## One call -/

namespace Str

/-- What `ae_str_printv` leaves in its buffer ends with a NUL: behind the text if
it fits, at the last byte if it was cut. -/
theorem commit_printv_end {m : Mem} {buf bufLen : Nat} {text : Text} (hpos : 0 < bufLen)
    (hword : buf + bufLen < 2 ^ 64) :
    commit m (printv buf bufLen text).2 (buf + min text.length (bufLen - 1)) = nul := by
  rcases Nat.lt_or_ge text.length bufLen with h | h
  · -- the text fits, and its own NUL ends it
    have htake : text.take (bufLen - 1) = text := List.take_of_length_le (by omega)
    rw [printv_of_lt h, Nat.min_eq_left (by omega), commit_cons]
    simp only [vsnprintf, htake, if_neg (by omega : ¬ bufLen = 0)]
    rw [commit_span_inside (by simp)]
    simp
  · -- the text is cut, and the NUL stored last ends it
    have hlast : Word.add buf (Word.sub bufLen 1) = buf + (bufLen - 1) := by
      rw [Word.sub_eq (by omega) (by omega), Word.add_eq (by omega)]
    rw [printv_of_le h, Nat.min_eq_right (by omega), hlast, commit_cons, commit_append,
      commit_cons]
    simp

end Str

namespace ResMsg

/-- Where the text of the next message goes: behind the separator, if there is
one. -/
def start (self : ResMsg) : Nat := if self.count ≠ 0 then self.head + 1 else self.head

/-- The separator, as a write. -/
def sep (self : ResMsg) : List Write := if self.count ≠ 0 then [(self.head, newline)] else []

theorem size_lt_word : size < 2 ^ 64 := by decide

theorem head_le_start (self : ResMsg) : self.head ≤ self.start := by
  unfold start
  split <;> omega

theorem start_lt {self : ResMsg} (hhead : self.head < size) (hfit : ¬ self.Brimful) :
    self.start < size := by
  unfold start
  split
  · rename_i hcount
    have hne : self.head ≠ size - 1 := fun h => hfit ⟨h, hcount⟩
    unfold size at hhead hne ⊢
    omega
  · exact hhead

/-- Inside the buffer, the word arithmetic of `ae_res_msg_addv` is exact. -/
theorem addv_eq {self : ResMsg} (text : Text) (hhead : self.head < size) :
    self.addv text =
      ({ self with head := self.start + (Str.printv self.start (size - self.start) text).1,
                   count := self.count + 1 },
        self.sep ++ (Str.printv self.start (size - self.start) text).2) := by
  have hremain : Word.sub size self.head = size - self.head :=
    Word.sub_eq (by decide) (Nat.le_of_lt hhead)
  have hpos : ¬ size - self.head = 0 := by omega
  have hless : Word.sub (size - self.head) 1 = size - (self.head + 1) := by
    rw [Word.sub_eq (by unfold size; omega) (by omega)]
    omega
  unfold addv start sep
  rw [hremain, if_neg hpos]
  by_cases hcount : self.count = 0
  · simp [hcount]
  · simp [hcount, hless]

/-- A record that is not brimful takes a message inside its buffer. -/
theorem addv_inside {self : ResMsg} (text : Text) (hhead : self.head < size)
    (hfit : ¬ self.Brimful) :
    (∀ w ∈ (self.addv text).2, self.head ≤ w.1 ∧ w.1 < size) ∧
      (self.addv text).1.head < size := by
  have hstart := start_lt hhead hfit
  have hle := self.head_le_start
  rw [addv_eq text hhead]
  constructor
  · intro w hw
    rcases List.mem_append.mp hw with hw | hw
    · unfold sep at hw
      split at hw
      · rw [List.mem_singleton] at hw
        subst hw
        exact ⟨Nat.le_refl _, hhead⟩
      · cases hw
    · have := Str.mem_printv (by omega) (by have := size_lt_word; omega) hw
      omega
  · have := Str.printv_fst_lt self.start text (by omega : 0 < size - self.start)
    simp only
    omega

/-- A brimful record takes a separator, and a NUL behind its buffer. -/
theorem addv_of_brimful {self : ResMsg} (text : Text) (hfull : self.Brimful) :
    self.addv text = ({ self with head := size, count := self.count + 1 },
      [(size - 1, newline), (size, nul), (size - 1, nul)]) := by
  obtain ⟨hhead, hcount⟩ := hfull
  have hlt : self.head < size := by
    rw [hhead]
    decide
  have hstart : self.start = size := by
    rw [start, if_pos hcount, hhead]
    rfl
  have hlast : Word.add size (Word.sub 0 1) = size - 1 := by decide
  rw [addv_eq text hlt, hstart, Nat.sub_self, Str.printv_of_le (Nat.zero_le _), sep,
    if_pos hcount, hhead, hlast]
  rfl

/-- A record whose buffer is used up takes nothing more. -/
theorem addv_of_full {self : ResMsg} (text : Text) (hfull : self.head = size) :
    self.addv text = (self, []) := by
  have hzero : Word.sub size self.head = 0 := by
    rw [hfull]
    decide
  rw [addv, hzero]
  rfl

/-- No call writes beyond the first byte behind the buffer, nor moves `head`
beyond it. -/
theorem addv_le {self : ResMsg} (text : Text) (hhead : self.head ≤ size) :
    (∀ w ∈ (self.addv text).2, w.1 ≤ size) ∧ (self.addv text).1.head ≤ size := by
  rcases Nat.lt_or_eq_of_le hhead with hlt | hfull
  · by_cases hbrim : self.Brimful
    · rw [addv_of_brimful text hbrim]
      refine ⟨?_, Nat.le_refl _⟩
      intro w hw
      simp only [List.mem_cons, List.not_mem_nil, or_false] at hw
      rcases hw with rfl | rfl | rfl
      · decide
      · exact Nat.le_refl _
      · decide
    · obtain ⟨hwrites, hnew⟩ := addv_inside text hlt hbrim
      exact ⟨fun w hw => Nat.le_of_lt (hwrites w hw).2, Nat.le_of_lt hnew⟩
  · rw [addv_of_full text hfull]
    exact ⟨fun w hw => absurd hw List.not_mem_nil, hhead⟩

/-- What a record that is not brimful shows after a message ends inside the
buffer. -/
theorem addv_terminated {self : ResMsg} (text : Text) (hhead : self.head < size)
    (hfit : ¬ self.Brimful) : ∃ i < size, commit self.msg (self.addv text).2 i = nul := by
  have hstart := start_lt hhead hfit
  refine ⟨self.start + min text.length (size - self.start - 1), by omega, ?_⟩
  rw [addv_eq text hhead, commit_append]
  exact Str.commit_printv_end (by omega) (by have := size_lt_word; omega)

end ResMsg

namespace Res

/-- What one byte leaves alone, all of them leave alone. -/
theorem foldl_poke_same {γ : Type} {f : Res → γ} {type : ResN}
    (h : ∀ r w, f (r.poke type w) = f r) (ws : List Write) (self : Res) :
    f (ws.foldl (fun r w => r.poke type w) self) = f self := by
  induction ws generalizing self with
  | nil => rfl
  | cons w ws ih => exact (ih _).trans (h self w)

/-- Bytes stored inside the buffer change that buffer and nothing else. -/
theorem foldl_poke_inside {self : Res} {type : ResN} {ws : List Write}
    (h : ∀ w ∈ ws, w.1 < ResMsg.size) :
    ws.foldl (fun r w => r.poke type w) self =
      self.setMsg type { self.msg type with msg := commit (self.msg type).msg ws } := by
  induction ws generalizing self with
  | nil => simp [setMsg]
  | cons w ws ih =>
    rw [List.foldl_cons, ih (fun v hv => h v (List.mem_cons_of_mem _ hv)), poke,
      if_pos (h w List.mem_cons_self)]
    simp [setMsg, commit_cons]

/-- Storing a byte never moves a `head`. -/
theorem poke_head (self : Res) (type t : ResN) (w : Write) :
    ((self.poke type w).msg t).head = (self.msg t).head := by
  unfold poke
  split
  · by_cases ht : t = type
    · subst ht
      simp
    · rw [setMsg_msg_of_ne ht]
  · split
    · rename_i u _
      split
      · by_cases ht : t = u
        · subst ht
          simp
        · rw [setMsg_msg_of_ne ht]
      · rfl
    · rfl

/-- What the caller of `ae_res_add` relies on, for one call: every byte written
lies inside the buffer of the type added to, its `head` stays within the buffer
or just behind it, its text ends inside the buffer, and the other records are
unchanged. -/
structure AddBounded (before : Res) (type : ResN) (text : Text) (after : Res) : Prop where
  inside : ∀ w ∈ (before.addv type text).2, w.1 < ResMsg.size
  head_le : (after.msg type).head ≤ ResMsg.size
  terminated : ∃ i < ResMsg.size, (after.msg type).msg i = nul
  others : ∀ t, t ≠ type → after.msg t = before.msg t

/-- Every `head` stands on a byte of its buffer. -/
def HeadsInside (self : Res) : Prop := ∀ t, (self.msg t).head < ResMsg.size

theorem init_headsInside (self : Res) : self.init.HeadsInside := by
  intro t
  rw [init_head]
  decide

/-- The record added to, when the call writes inside its buffer. -/
theorem addv_msg_self {self : Res} {type : ResN} (text : Text)
    (hhead : (self.msg type).head < ResMsg.size) (hfit : ¬ (self.msg type).Brimful) :
    (self.addv type text).1.msg type =
      { ((self.msg type).addv text).1 with
        msg := commit (self.msg type).msg ((self.msg type).addv text).2 } := by
  obtain ⟨hwrites, -⟩ := ResMsg.addv_inside text hhead hfit
  have hmsg : ((self.msg type).addv text).1.msg = (self.msg type).msg := by
    rw [ResMsg.addv_eq text hhead]
  simp only [addv]
  rw [foldl_poke_inside (fun w hw => (hwrites w hw).2)]
  simp [hmsg]

/-- The other records, when the call writes inside the buffer. -/
theorem addv_msg_of_ne {self : Res} {type t : ResN} (text : Text)
    (hhead : (self.msg type).head < ResMsg.size) (hfit : ¬ (self.msg type).Brimful)
    (ht : t ≠ type) :
    (self.addv type text).1.msg t = self.msg t := by
  obtain ⟨hwrites, -⟩ := ResMsg.addv_inside text hhead hfit
  simp only [addv]
  rw [foldl_poke_inside (fun w hw => (hwrites w hw).2), setMsg_msg_of_ne ht, setMsg_msg_of_ne ht]

theorem addv_inside {self : Res} {type : ResN} (text : Text) (hheads : self.HeadsInside)
    (hfit : ¬ (self.msg type).Brimful) :
    AddBounded self type text (self.addv type text).1 ∧
      (self.addv type text).1.HeadsInside := by
  obtain ⟨hwrites, hhead⟩ := ResMsg.addv_inside text (hheads type) hfit
  obtain ⟨i, hi, hnul⟩ := ResMsg.addv_terminated text (hheads type) hfit
  have hself := addv_msg_self text (hheads type) hfit
  refine ⟨⟨fun w hw => (hwrites w hw).2, ?_, ⟨i, hi, ?_⟩, fun t ht => ?_⟩, fun t => ?_⟩
  · rw [hself]
    exact Nat.le_of_lt hhead
  · rw [hself]
    exact hnul
  · exact addv_msg_of_ne text (hheads type) hfit ht
  · by_cases ht : t = type
    · subst ht
      rw [hself]
      exact hhead
    · rw [addv_msg_of_ne text (hheads type) hfit ht]
      exact hheads t

theorem addBounded_iff {self : Res} {type : ResN} (text : Text) (hheads : self.HeadsInside) :
    AddBounded self type text (self.addv type text).1 ↔ ¬ (self.msg type).Brimful := by
  constructor
  · intro h hfull
    refine Nat.lt_irrefl _ (h.inside (ResMsg.size, nul) ?_)
    rw [addv, ResMsg.addv_of_brimful _ hfull]
    simp
  · exact fun hfit => (addv_inside text hheads hfit).1

/-! ## Sequences of calls -/

/-- A result object in use: `ae_res_init`, then calls of `ae_res_add` and
`ae_res_addv` with the types `ERR`, `WARN` and `INFO`. -/
def adding : System Res (ResN × Text) where
  init s := ∃ r : Res, s = r.init
  step s a t := a.1 ≠ .ok ∧ t = (s.addv a.1 a.2).1

/-- In every sequence of calls the bytes written lie inside the buffer of the
type added to or are the single byte behind it, which is all that `poke` has to
place. -/
theorem writes_le {s : Res} (hs : adding.Reachable s) (type : ResN) (text : Text) :
    ∀ w ∈ (s.addv type text).2, w.1 ≤ ResMsg.size := by
  have hheads : ∀ t, (s.msg t).head ≤ ResMsg.size := by
    refine hs.invariant (I := fun s => ∀ t, (s.msg t).head ≤ ResMsg.size) ?_ ?_
    · rintro s ⟨r, rfl⟩ t
      exact Nat.le_of_lt (init_headsInside r t)
    · rintro s a u hheads ⟨-, rfl⟩ t
      -- a stray NUL changes a count, never a `head`
      have hfold : ∀ (ws : List Write) (r : Res),
          ((ws.foldl (fun r w => r.poke a.1 w) r).msg t).head = (r.msg t).head :=
        foldl_poke_same (f := fun r => (r.msg t).head) (fun r w => poke_head r a.1 t w)
      simp only [addv, hfold]
      by_cases ht : t = a.1
      · subst ht
        rw [setMsg_msg_self]
        exact (ResMsg.addv_le a.2 (hheads a.1)).2
      · rw [setMsg_msg_of_ne ht]
        exact hheads t
  exact (ResMsg.addv_le text (hheads type)).1

/-- **Result messages stay inside their buffer exactly as long as no message is
added to a brimful record.** -/
theorem bounded_iff {s t : Res} {τs : List (Transition Res (ResN × Text))}
    (h₀ : adding.init s) (hr : adding.Run s τs t) :
    (∀ τ ∈ τs, AddBounded τ.before τ.action.1 τ.action.2 τ.after) ↔
      ∀ τ ∈ τs, ¬ (τ.before.msg τ.action.1).Brimful := by
  obtain ⟨r, rfl⟩ := h₀
  refine hr.forall_iff (I := HeadsInside)
    (Q := fun s a t => AddBounded s a.1 a.2 t)
    (G := fun s a => ¬ (s.msg a.1).Brimful) ?_ ?_ (init_headsInside r)
  · rintro s a t hs ⟨-, rfl⟩ hgood
    exact (addv_inside a.2 hs hgood).2
  · rintro s a t hs ⟨-, rfl⟩
    exact addBounded_iff a.2 hs

/-- An `ae_res_t` of zero bytes. -/
def zero : Res := ⟨0, fun _ => ⟨0, 0, fun _ => 0⟩⟩

/-- A first message of 3999 bytes fits, and makes its record brimful. -/
theorem init_addv_brimful (self : Res) (type : ResN) {text : Text} (hlen : text.length = 3999) :
    ((self.init.addv type text).1.msg type).Brimful := by
  have hfit : ¬ (self.init.msg type).Brimful := fun hb => hb.2 rfl
  have hheads := init_headsInside self
  have hstart : (self.init.msg type).start = 0 := rfl
  have hlt : text.length < ResMsg.size - 0 := by
    rw [hlen]
    decide
  rw [ResMsg.Brimful, addv_msg_self text (hheads type) hfit, ResMsg.addv_eq text (hheads type),
    hstart,
    Str.printv_of_lt hlt]
  exact ⟨by simp only [hlen]; decide, show (0 : UInt8) + 1 ≠ 0 by decide⟩

/-- There are messages of every length. -/
theorem exists_length (n : Nat) : ∃ text : Text, text.length = n :=
  ⟨List.replicate n 97, List.length_replicate⟩

/-- An error message fills its buffer, and a warning behind it stays in its own. -/
theorem bounded_iff_filled : ∃ s : Res, (∃ text, AddBounded zero.init .err text s) ∧
    (s.msg .err).Brimful ∧ AddBounded s .warn (ascii "x") (s.addv .warn (ascii "x")).1 := by
  obtain ⟨long, hlen⟩ := exists_length 3999
  have hfull := init_addv_brimful zero .err hlen
  have hempty : ∀ type, ¬ (zero.init.msg type).Brimful := fun type hb => hb.2 rfl
  have hwarn := addv_msg_of_ne long (init_headsInside zero .err) (hempty .err)
    (show ResN.warn ≠ .err by decide)
  obtain ⟨s, hs⟩ : ∃ s, (zero.init.addv .err long).1 = s := ⟨_, rfl⟩
  rw [hs] at hfull hwarn
  have hfirst : adding.step zero.init (.err, long) s := ⟨by simp, hs.symm⟩
  have hsecond : adding.step s (.warn, ascii "x") (s.addv .warn (ascii "x")).1 := ⟨by simp, rfl⟩
  have hiff := bounded_iff ⟨zero, rfl⟩ ((System.Run.single hfirst).snoc hsecond)
  rw [List.forall_mem_append, List.forall_mem_append] at hiff
  simp only [List.forall_mem_singleton, hwarn] at hiff
  obtain ⟨herr, hbounded⟩ := hiff.mpr ⟨hempty .err, hempty .warn⟩
  exact ⟨s, ⟨long, herr⟩, hfull, hbounded⟩

/-- After an error message of 3999 bytes, the next error message writes outside
the buffer. -/
theorem escapes_after_3999_bytes :
    ¬ ∀ s t τs, adding.init s → adding.Run s τs t →
      ∀ τ ∈ τs, AddBounded τ.before τ.action.1 τ.action.2 τ.after := by
  intro h
  obtain ⟨long, hlen⟩ := exists_length 3999
  have hfull := init_addv_brimful zero .err hlen
  have hfirst : adding.Run zero.init _ (zero.init.addv .err long).1 :=
    .single (a := (.err, long)) ⟨by simp, rfl⟩
  have hrun := hfirst.snoc (a := (.err, ascii "x")) ⟨by simp, rfl⟩
  have hbad := h _ _ _ ⟨zero, rfl⟩ hrun _ (List.mem_append_right _ List.mem_cons_self)
  refine Nat.lt_irrefl _ (hbad.inside (ResMsg.size, nul) ?_)
  rw [addv, ResMsg.addv_of_brimful _ hfull]
  simp

end Res
end Libae
