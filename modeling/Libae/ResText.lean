import Libae.ResBounds

/-! # What the messages of a result read as

A call of `ae_res_add` has one effect on the buffer of its type: behind `head` it stores a
separator, if there is a message already, and as much of the text as there is room for,
with a NUL (`ResMsg.commit_addv`).  `head` moves behind that only if all of it was stored.

So messages that all fit read as their newline join (`reads_joined`).  A text that was cut
stays visible behind `head`, where the next message is written over it: the next message
leaves it visible exactly if it begins with it (`kept_iff`).
-/
namespace Libae
open ByteMemory Runs

/-! ## The buffer of one record -/

/-- `ae_str_printv` stores what fits of the text, and a NUL. -/
theorem Str.commit_printv {m : Mem} {buf bufLen : Nat} {text : Text} (hpos : 0 < bufLen)
    (hword : buf + bufLen < 2 ^ 64) :
    commit m (printv buf bufLen text).2 =
      commit m (span buf (text.take (bufLen - 1) ++ [nul])) := by
  have hsnprintf : (vsnprintf buf bufLen text).2 = span buf (text.take (bufLen - 1) ++ [nul]) :=
    if_neg (by omega)
  -- the NUL stored first is overwritten
  have hfirst : ∀ ws, commit m ((buf, nul) :: (span buf (text.take (bufLen - 1) ++ [nul]) ++ ws)) =
      commit (commit m (span buf (text.take (bufLen - 1) ++ [nul]))) ws := by
    intro ws
    rw [← List.cons_append, commit_append]
    congr 1
    cases text.take (bufLen - 1) with
    | nil => exact commit_overwritten m buf nul nul []
    | cons c cs => exact commit_overwritten m buf nul c (cs ++ [nul])
  rcases Nat.lt_or_ge text.length bufLen with h | h
  · rw [printv_of_lt h, hsnprintf]
    simpa using hfirst []
  · -- the NUL stored last is there already
    have hlast : Word.add buf (Word.sub bufLen 1) = buf + (bufLen - 1) := by
      rw [Word.sub_eq (by omega) (by omega), Word.add_eq (by omega)]
    have htake : (text.take (bufLen - 1)).length = bufLen - 1 := by
      rw [List.length_take]
      omega
    rw [printv_of_le h, hlast, hsnprintf, hfirst, commit_same]
    rw [commit_span_inside (by simp [htake])]
    simp [htake]

namespace ResMsg

/-- What a message adds to the text of a record, if there is room. -/
def appended (self : ResMsg) (text : Text) : Text :=
  (if self.count ≠ 0 then [newline] else []) ++ text

/-- **The effect of a message on its buffer.** -/
theorem commit_addv {self : ResMsg} (text : Text) (hhead : self.head < size)
    (hfit : ¬ self.Brimful) :
    commit self.msg (self.addv text).2 = commit self.msg
      (span self.head ((self.appended text).take (size - 1 - self.head) ++ [nul])) := by
  have hstart := start_lt hhead hfit
  have hword := size_lt_word
  rw [addv_eq text hhead, commit_append, Str.commit_printv (by omega) (by omega), ← commit_append]
  unfold sep start appended
  by_cases hcount : self.count ≠ 0
  · have hless : size - (self.head + 1) - 1 = size - 1 - self.head - 1 := by omega
    have htake : (newline :: text).take (size - 1 - self.head) =
        newline :: text.take (size - 1 - self.head - 1) := by
      rw [start, if_pos hcount] at hstart
      exact List.take_cons (by omega)
    simp only [if_pos hcount, hless, List.cons_append, List.nil_append]
    rw [htake]
    rfl
  · have hless : size - self.head - 1 = size - 1 - self.head := by omega
    simp only [if_neg hcount, hless, List.nil_append]

end ResMsg

/-! ## The records of a result object -/

namespace Res
variable {self : Res} {type : ResN}

/-- A buffer that is used up takes nothing. -/
theorem addv_msg_full (text : Text) (hfull : (self.msg type).head = ResMsg.size) :
    (self.addv type text).1.msg = self.msg := by
  simp [addv, ResMsg.addv_of_full text hfull, setMsg]

/-- A brimful record is closed with a NUL, and clears the counter of the next one. -/
theorem addv_msg_brimful (text : Text) (hfull : (self.msg type).Brimful) (t : ResN) :
    (self.addv type text).1.msg t =
      if t = type then
        { count := (self.msg type).count + 1, head := ResMsg.size,
          msg := Function.update (self.msg type).msg (ResMsg.size - 1) nul }
      else if type.next = some t then { self.msg t with count := 0 }
      else self.msg t := by
  have hlast : ResMsg.size - 1 < ResMsg.size := by decide
  have hbehind : ¬ ResMsg.size < ResMsg.size := by decide
  simp only [addv, ResMsg.addv_of_brimful text hfull, List.foldl_cons, List.foldl_nil, poke,
    if_pos hlast, if_neg hbehind, if_true]
  by_cases ht : t = type
  · subst ht
    cases t <;> simp [setMsg, ResN.next, nul]
  · cases type <;> cases t <;> first | exact absurd rfl ht | simp [setMsg, ResN.next, nul]

/-- **What a message does to the records**: nothing, if the buffer is used up; a brimful
record is closed; otherwise only the record added to changes. -/
theorem addv_cases (type : ResN) (text : Text) (hhead : (self.msg type).head ≤ ResMsg.size) :
    ((self.msg type).head = ResMsg.size ∧ (self.addv type text).1.msg = self.msg) ∨
      ((self.msg type).Brimful ∧ ∀ t, (self.addv type text).1.msg t =
        if t = type then
          { count := (self.msg type).count + 1, head := ResMsg.size,
            msg := Function.update (self.msg type).msg (ResMsg.size - 1) nul }
        else if type.next = some t then { self.msg t with count := 0 }
        else self.msg t) ∨
      ((self.msg type).head < ResMsg.size ∧ ¬ (self.msg type).Brimful ∧
        (self.addv type text).1.msg type =
          { count := (self.msg type).count + 1, head := ((self.msg type).addv text).1.head,
            msg := commit (self.msg type).msg (span (self.msg type).head
              (((self.msg type).appended text).take (ResMsg.size - 1 - (self.msg type).head) ++
                [nul])) } ∧
        ∀ t, t ≠ type → (self.addv type text).1.msg t = self.msg t) := by
  rcases Nat.lt_or_eq_of_le hhead with hlt | hfull
  · by_cases hbrim : (self.msg type).Brimful
    · exact .inr (.inl ⟨hbrim, addv_msg_brimful text hbrim⟩)
    · refine .inr (.inr ⟨hlt, hbrim, ?_, fun t ht => addv_msg_of_ne text hlt hbrim ht⟩)
      rw [addv_msg_self text hlt hbrim, ResMsg.commit_addv text hlt hbrim,
        ResMsg.addv_eq text hlt]
  · exact .inl ⟨hfull, addv_msg_full text hfull⟩

/-- **What a message does to the counters**: it is counted unless the buffer is used up, and
a brimful record clears the counter of the next one. -/
theorem addv_count (text : Text) (hhead : (self.msg type).head ≤ ResMsg.size) :
    ((self.addv type text).1.msg type).count = (self.msg type).count +
        (if (self.msg type).head < ResMsg.size then 1 else 0) ∧
      ∀ t, t ≠ type → ((self.addv type text).1.msg t).count =
        if (self.msg type).Brimful ∧ type.next = some t then 0 else (self.msg t).count := by
  obtain ⟨hfull, hmsg⟩ | ⟨hbrim, hmsg⟩ | ⟨hlt, hfit, hmsg, hothers⟩ :=
    self.addv_cases type text hhead
  · have hfit : ¬ (self.msg type).Brimful := by
      rintro ⟨hlast, -⟩
      rw [hfull] at hlast
      exact absurd hlast (by decide)
    rw [hmsg]
    refine ⟨?_, fun t _ => ?_⟩
    · rw [if_neg (Nat.not_lt.mpr (Nat.le_of_eq hfull.symm)), UInt8.add_zero]
    · rw [if_neg (fun h => hfit h.1)]
  · have hlt : (self.msg type).head < ResMsg.size := by
      rw [hbrim.1]
      decide
    refine ⟨?_, fun t ht => ?_⟩
    · rw [hmsg, if_pos rfl, if_pos hlt]
    · rw [hmsg, if_neg ht]
      by_cases hnext : type.next = some t
      · rw [if_pos hnext, if_pos ⟨hbrim, hnext⟩]
      · rw [if_neg hnext, if_neg (fun h => hnext h.2)]
  · refine ⟨?_, fun t ht => ?_⟩
    · rw [hmsg, if_pos hlt]
    · rw [hothers t ht, if_neg (fun h => hfit h.1)]

/-- The other records keep their text. -/
theorem addv_other {t : ResN} (text : Text) (hhead : (self.msg type).head ≤ ResMsg.size)
    (ht : t ≠ type) :
    ((self.addv type text).1.msg t).head = (self.msg t).head ∧
      ((self.addv type text).1.msg t).msg = (self.msg t).msg := by
  obtain ⟨-, hmsg⟩ | ⟨-, hmsg⟩ | ⟨-, -, -, hmsg⟩ := self.addv_cases type text hhead
  · rw [hmsg]
    exact ⟨rfl, rfl⟩
  · rw [hmsg t, if_neg ht]
    split <;> exact ⟨rfl, rfl⟩
  · rw [hmsg t ht]
    exact ⟨rfl, rfl⟩

end Res

/-! ## Sequences of calls -/

/-- A result object, and the messages added to it so far. -/
structure ResHistory where
  res : Res
  added : List (ResN × Text)

/-- `ae_res_init` or `ae_res_clear`, then calls of `ae_res_add` with the types `ERR`,
`WARN` and `INFO`. -/
def reporting : System ResHistory (ResN × Text) where
  init s := s.added = [] ∧ ∃ r : Res, s.res = r.init ∨ s.res = r.clear
  step s a t := a.1 ≠ .ok ∧ t = ⟨(s.res.addv a.1 a.2).1, s.added ++ [a]⟩

namespace ResHistory
variable {s : ResHistory} {type : ResN}

/-- The messages of a type, in the order of their addition. -/
def texts (s : ResHistory) (type : ResN) : List Text :=
  (s.added.filter (fun a => a.1 = type)).map Prod.snd

/-- The string visible in `msg`; there is none before the first message. -/
def visible (s : ResHistory) (type : ResN) : Text :=
  if s.texts type = [] then [] else cString (s.res.msg type).msg 0 ResMsg.size

/-- After one more call. -/
def after (s : ResHistory) (type : ResN) (text : Text) : ResHistory :=
  ⟨(s.res.addv type text).1, s.added ++ [(type, text)]⟩

@[simp] theorem texts_after_self (s : ResHistory) (type : ResN) (text : Text) :
    (s.after type text).texts type = s.texts type ++ [text] := by
  simp [after, texts]

theorem texts_after_of_ne (s : ResHistory) {type t : ResN} (text : Text) (ht : t ≠ type) :
    (s.after type text).texts t = s.texts t := by
  simp [after, texts, ht.symm]

theorem texts_init (h : reporting.init s) (type : ResN) : s.texts type = [] := by
  simp [texts, h.1]

theorem msg_init (h : reporting.init s) (type : ResN) :
    (s.res.msg type).head = 0 ∧ (s.res.msg type).count = 0 := by
  obtain ⟨-, r, h | h⟩ := h <;> rw [h] <;> exact ⟨rfl, rfl⟩

end ResHistory

/-! ## Messages that fit -/

/-- The newline join. -/
def joined (texts : List Text) : Text := [newline].intercalate texts

theorem joined_concat (texts : List Text) (text : Text) :
    joined (texts ++ [text]) =
      joined texts ++ ((if texts = [] then [] else [newline]) ++ text) := by
  induction texts with
  | nil => simp [joined]
  | cons t texts ih =>
    have hne : texts ++ [text] ≠ [] := by simp
    rw [List.cons_append, joined, List.intercalate_cons_of_ne_nil hne]
    change t ++ [newline] ++ joined (texts ++ [text]) = _
    rw [ih]
    cases texts with
    | nil => simp [joined]
    | cons u us => simp [joined, List.intercalate_cons_cons]

/-- The record reads as the newline join of the texts: `head` points to its NUL, and
`count` counts them. -/
structure ResMsg.Reads (r : ResMsg) (texts : List Text) : Prop where
  count : r.count.toNat = texts.length
  head : r.head = (joined texts).length
  bytes : load r.msg 0 (joined texts).length = joined texts
  terminated : texts ≠ [] → r.msg r.head = nul

namespace ResMsg.Reads
variable {texts : List Text}

theorem count_eq_zero {r : ResMsg} (h : r.Reads texts) : r.count = 0 ↔ texts = [] := by
  have hlen := h.count
  constructor
  · intro hzero
    rw [hzero] at hlen
    exact List.length_eq_zero_iff.mp hlen.symm
  · intro hnil
    rw [hnil] at hlen
    exact UInt8.toNat_inj.mp hlen

/-- The next message continues the join. -/
theorem appended {r : ResMsg} (h : r.Reads texts) (text : Text) :
    joined (texts ++ [text]) = joined texts ++ r.appended text := by
  rw [joined_concat, ResMsg.appended]
  by_cases hnil : texts = []
  · simp [hnil, h.count_eq_zero.mpr hnil]
  · have hcount : r.count ≠ 0 := fun hzero => hnil (h.count_eq_zero.mp hzero)
    simp [hnil, hcount]

/-- **A message that fits** is joined to what its record reads as; the other records are
left alone. -/
theorem add {s : Res} {type : ResN} (h : (s.msg type).Reads texts) {text : Text}
    (hcount : texts.length < 255) (hlen : (joined (texts ++ [text])).length ≤ 3999) :
    ((s.addv type text).1.msg type).Reads (texts ++ [text]) ∧
      ∀ t, t ≠ type → (s.addv type text).1.msg t = s.msg t := by
  have happ := h.appended text
  rw [happ, List.length_append] at hlen
  have hhead := h.head
  have hlt : (s.msg type).head < ResMsg.size := by
    unfold ResMsg.size
    omega
  have hstart : (s.msg type).start + text.length =
      (s.msg type).head + ((s.msg type).appended text).length := by
    unfold ResMsg.start ResMsg.appended
    split
    · simp
      omega
    · simp
  have hfit : ¬ (s.msg type).Brimful := by
    rintro ⟨hlast, hne⟩
    rw [ResMsg.start, if_pos hne] at hstart
    unfold ResMsg.size at hlast
    omega
  have htake : ((s.msg type).appended text).take (ResMsg.size - 1 - (s.msg type).head) =
      (s.msg type).appended text := by
    apply List.take_of_length_le
    unfold ResMsg.size
    omega
  have hroom : text.length < ResMsg.size - (s.msg type).start := by
    unfold ResMsg.size
    omega
  obtain ⟨hfull, -⟩ | ⟨hbrim, -⟩ | ⟨-, -, hmsg, hothers⟩ :=
    s.addv_cases type text (Nat.le_of_lt hlt)
  · omega
  · exact absurd hbrim hfit
  refine ⟨?_, hothers⟩
  rw [hmsg, ResMsg.addv_eq text hlt, Str.printv_of_lt hroom, htake]
  refine ⟨?_, ?_, ?_, fun _ => ?_⟩
  · have hbyte : (1 : UInt8).toNat = 1 := rfl
    simp only [UInt8.toNat_add, h.count, hbyte, List.length_append, List.length_singleton]
    omega
  · rw [happ, List.length_append]
    simp only
    omega
  · -- the NUL behind the text is outside the join
    rw [happ, span_append, commit_append, load_commit_span_outside (.inl ?_)]
    · have hin : (s.msg type).head + ((s.msg type).appended text).length ≤
          (joined texts ++ (s.msg type).appended text).length := by
        rw [List.length_append]
        omega
      have hbehind := load_commit_span_inside (m := (s.msg type).msg) (a := 0) hin
      rw [Nat.zero_add] at hbehind
      rw [hbehind, load_take (by rw [List.length_append]; omega), hhead, h.bytes,
        List.drop_of_length_le (by simp), List.append_nil]
    · rw [List.length_append]
      omega
  · simp only
    rw [hstart, commit_span_inside (by simp)]
    simp

/-- Without a NUL in the texts, the string is the join. -/
theorem string_eq {r : ResMsg} (h : r.Reads texts) (hne : texts ≠ [])
    (hlen : (joined texts).length ≤ 3999) (hnul : nul ∉ joined texts) :
    cString r.msg 0 ResMsg.size = joined texts := by
  have hend : r.msg (0 + (joined texts).length) = 0 := by
    rw [Nat.zero_add, ← h.head]
    exact h.terminated hne
  apply ByteMemory.cString_eq h.bytes hend
  · unfold ResMsg.size
    omega
  · rintro c hc rfl
    exact hnul hc

end ResMsg.Reads

namespace ResHistory
variable {s t : ResHistory} {type : ResN}

/-- A longer history of a type has a longer join. -/
theorem texts_le (s : ResHistory) (type : ResN) (text : Text) (t : ResN) :
    (s.texts t).length ≤ ((s.after type text).texts t).length ∧
      (joined (s.texts t)).length ≤ (joined ((s.after type text).texts t)).length := by
  by_cases ht : t = type
  · subst ht
    rw [texts_after_self, joined_concat, List.length_append, List.length_append]
    exact ⟨Nat.le_add_right _ _, Nat.le_add_right _ _⟩
  · rw [texts_after_of_ne s text ht]
    exact ⟨Nat.le_refl _, Nat.le_refl _⟩

/-- At most 255 messages of each type, and joins that fit. -/
def Small (s : ResHistory) : Prop :=
  ∀ type, (s.texts type).length ≤ 255 ∧ (joined (s.texts type)).length ≤ 3999

theorem small_of_after {text : Text} (h : (s.after type text).Small) : s.Small := fun t =>
  ⟨Nat.le_trans (s.texts_le type text t).1 (h t).1, Nat.le_trans (s.texts_le type text t).2 (h t).2⟩

/-- As long as all messages fit, every record reads as their join. -/
theorem small_reads (hs : reporting.Reachable s) :
    s.Small → ∀ type, (s.res.msg type).Reads (s.texts type) := by
  refine hs.invariant
    (I := fun s => s.Small → ∀ type, (s.res.msg type).Reads (s.texts type)) ?_ ?_
  · intro s h _ type
    obtain ⟨hhead, hcount⟩ := msg_init h type
    rw [texts_init h type]
    refine ⟨?_, hhead, rfl, fun hne => absurd rfl hne⟩
    rw [hcount]
    rfl
  · rintro s ⟨type, text⟩ u ih ⟨-, rfl⟩ hsmall t
    change (s.after type text).Small at hsmall
    have hbefore := small_of_after hsmall
    obtain ⟨hcount, hlen⟩ := hsmall type
    rw [texts_after_self] at hcount hlen
    rw [List.length_append, List.length_singleton] at hcount
    obtain ⟨hself, hothers⟩ := (ih hbefore type).add (by omega) hlen
    change ((s.res.addv type text).1.msg t).Reads ((s.after type text).texts t)
    by_cases ht : t = type
    · subst ht
      rw [texts_after_self]
      exact hself
    · rw [hothers t ht, texts_after_of_ne s text ht]
      exact ih hbefore t

/-- **Messages that fit read as their newline join.**  `head` points to its NUL and `count`
counts the messages. -/
theorem reads_joined (hs : reporting.Reachable s) (hcount : ∀ t, (s.texts t).length ≤ 255)
    (hlen : ∀ t, (joined (s.texts t)).length ≤ 3999) (hsome : s.texts type ≠ []) :
    (s.res.msg type).Reads (s.texts type) ∧
      (nul ∉ joined (s.texts type) → s.visible type = joined (s.texts type)) := by
  have hreads := small_reads hs (fun t => ⟨hcount t, hlen t⟩) type
  refine ⟨hreads, fun hnul => ?_⟩
  rw [visible, if_neg hsome]
  exact hreads.string_eq hsome (hlen type) hnul

/-- Nothing added yet. -/
def none : ResHistory := ⟨Res.zero.init, []⟩

theorem none_init : reporting.init none := ⟨rfl, Res.zero, .inl rfl⟩

theorem reachable_after (hs : reporting.Reachable s) (hne : type ≠ .ok) (text : Text) :
    reporting.Reachable (s.after type text) :=
  hs.step (a := (type, text)) ⟨hne, rfl⟩

/-- Two errors, the second one empty, with a warning between them. -/
def threeAdded : ResHistory :=
  ((none.after .err (ascii "open")).after .warn (ascii "retry")).after .err []

/-- The calls that have added them. -/
def threeCalls : List (Transition ResHistory (ResN × Text)) :=
  script (fun s a => s.after a.1 a.2) none
    [(.err, ascii "open"), (.warn, ascii "retry"), (.err, [])]

theorem threeCalls_run : reporting.Run none threeCalls threeAdded :=
  System.Run.script (by simp [script, reporting, after])

theorem threeAdded_reachable : reporting.Reachable threeAdded :=
  ⟨none, threeCalls, none_init, threeCalls_run⟩

theorem opened_reachable : reporting.Reachable (none.after .err (ascii "open")) :=
  reachable_after (.of_init none_init) (by decide) _

theorem retried_reachable :
    reporting.Reachable ((none.after .err (ascii "open")).after .warn (ascii "retry")) :=
  reachable_after opened_reachable (by decide) _

theorem threeAdded_small : threeAdded.Small := by
  intro t
  cases t <;> decide

/-- The errors read as `"open\n"`. -/
theorem reads_joined_three : threeAdded.texts .err = [ascii "open", []] ∧
    (threeAdded.res.msg .err).Reads (threeAdded.texts .err) ∧
      (nul ∉ joined (threeAdded.texts .err) →
        threeAdded.visible .err = joined (threeAdded.texts .err)) := by
  exact ⟨rfl, reads_joined threeAdded_reachable (fun t => (threeAdded_small t).1)
    (fun t => (threeAdded_small t).2) (by decide)⟩

/-! ## Messages that do not fit -/

/-- The buffers of the types that were added to hold a string. -/
structure Inv (s : ResHistory) : Prop where
  head_le : ∀ t, (s.res.msg t).head ≤ ResMsg.size
  fresh : ∀ t, s.texts t = [] → (s.res.msg t).head = 0 ∧ (s.res.msg t).count = 0
  ends : ∀ t, s.texts t ≠ [] → (cString (s.res.msg t).msg 0 ResMsg.size).length < ResMsg.size

theorem inv_init (h : reporting.init s) : s.Inv := by
  refine ⟨fun t => ?_, fun t _ => msg_init h t, fun t hne => absurd (texts_init h t) hne⟩
  rw [(msg_init h t).1]
  exact Nat.zero_le _

/-- A record that was added to has texts from then on. -/
theorem texts_after_ne_nil (s : ResHistory) (type : ResN) (text : Text) :
    (s.after type text).texts type ≠ [] := by
  rw [texts_after_self]
  simp

/-- What is stored of a text leaves room for the NUL. -/
theorem stored_length {head : Nat} (text : Text) (h : head < ResMsg.size) :
    head + (text.take (ResMsg.size - 1 - head)).length < ResMsg.size := by
  rw [List.length_take]
  omega

/-- A record whose buffer holds a string is left with one. -/
theorem addv_ends (text : Text) (hhead : (s.res.msg type).head ≤ ResMsg.size)
    (hends : (s.res.msg type).head = ResMsg.size →
      (cString (s.res.msg type).msg 0 ResMsg.size).length < ResMsg.size) :
    ((s.res.addv type text).1.msg type).head ≤ ResMsg.size ∧
      (cString ((s.res.addv type text).1.msg type).msg 0 ResMsg.size).length < ResMsg.size := by
  obtain ⟨hfull, hmsg⟩ | ⟨hbrim, hmsg⟩ | ⟨hlt, hfit, hmsg, -⟩ :=
    s.res.addv_cases type text hhead
  · rw [hmsg]
    exact ⟨hhead, hends hfull⟩
  · -- the last byte of the buffer is a NUL now
    rw [hmsg, if_pos rfl]
    have hend : (Function.update (s.res.msg type).msg (ResMsg.size - 1) nul)
        (0 + (ResMsg.size - 1)) = 0 := by simp [nul]
    have hle := cString_length_le (n := ResMsg.size) hend
    exact ⟨Nat.le_refl _, Nat.lt_of_le_of_lt hle (by decide)⟩
  · -- a NUL is stored behind what there was room for
    rw [hmsg]
    have hstored := stored_length ((s.res.msg type).appended text) hlt
    refine ⟨Nat.le_of_lt (ResMsg.addv_inside text hlt hfit).2, ?_⟩
    refine Nat.lt_of_le_of_lt (cString_length_le ?_) hstored
    dsimp only
    rw [Nat.zero_add, commit_span_inside (by simp)]
    simp [nul]

theorem Inv.after (hs : s.Inv) (type : ResN) (text : Text) : (s.after type text).Inv := by
  have hown := addv_ends text (hs.head_le type) (fun hfull => hs.ends type fun hnil => by
    -- a buffer that is used up was added to
    rw [(hs.fresh type hnil).1] at hfull
    exact absurd hfull (by decide))
  refine ⟨fun t => ?_, fun t hnil => ?_, fun t hsome => ?_⟩
  · by_cases ht : t = type
    · rw [ht]
      exact hown.1
    · obtain ⟨hhead, -⟩ := s.res.addv_other text (hs.head_le type) ht
      exact Nat.le_trans (Nat.le_of_eq hhead) (hs.head_le t)
  · have ht : t ≠ type := by
      rintro rfl
      exact s.texts_after_ne_nil t text hnil
    rw [texts_after_of_ne s text ht] at hnil
    obtain ⟨hhead, -⟩ := s.res.addv_other text (hs.head_le type) ht
    have hcount := (s.res.addv_count text (hs.head_le type)).2 t ht
    rw [(hs.fresh t hnil).2, ite_self] at hcount
    exact ⟨hhead.trans (hs.fresh t hnil).1, hcount⟩
  · by_cases ht : t = type
    · rw [ht]
      exact hown.2
    · rw [texts_after_of_ne s text ht] at hsome
      obtain ⟨-, hmsg⟩ := s.res.addv_other text (hs.head_le type) ht
      have hends := hs.ends t hsome
      rw [← hmsg] at hends
      exact hends

/-- The next message begins with what the last one left behind `head`, when it did not
fit. -/
def Continues (s : ResHistory) (type : ResN) (text : Text) : Prop :=
  (s.visible type).drop (s.res.msg type).head <+: (s.res.msg type).appended text

/-- A text without NULs is a prefix of a string exactly if it is one of its bytes. -/
theorem isPrefix_takeWhile {l w : Text} (h : ∀ c ∈ l, c ≠ 0) :
    l <+: w.takeWhile (· ≠ 0) ↔ l <+: w := by
  constructor
  · exact fun hl => hl.trans (List.takeWhile_prefix _)
  · rintro ⟨rest, rfl⟩
    have hall : ∀ c ∈ l, decide (c ≠ 0) = true := fun c hc => by simpa using h c hc
    rw [List.takeWhile_append_of_pos hall]
    exact List.prefix_append _ _

/-- A text stored at `head` keeps the string as a prefix exactly if it begins with what the
string has behind `head`. -/
theorem kept_stored {m : Mem} {head : Nat} (gain : Text) (hhead : head < ResMsg.size)
    (hends : (cString m 0 ResMsg.size).length < ResMsg.size) :
    cString m 0 ResMsg.size <+:
        cString (commit m (span head (gain.take (ResMsg.size - 1 - head) ++ [nul]))) 0 ResMsg.size ↔
      (cString m 0 ResMsg.size).drop head <+: gain := by
  have hstored := stored_length gain hhead
  generalize hw : gain.take (ResMsg.size - 1 - head) = w at *
  rcases Nat.lt_or_ge (cString m 0 ResMsg.size).length head with hshort | hle
  · -- it is stored behind a NUL
    have hin : head + (w ++ [nul]).length ≤ ResMsg.size := by
      rw [List.length_append, List.length_singleton]
      omega
    have hbehind := cString_behind hshort hin
    rw [Nat.zero_add] at hbehind
    rw [hbehind, List.drop_of_length_le (Nat.le_of_lt hshort)]
    exact iff_of_true (List.prefix_refl _) List.nil_prefix
  · have hcontinued : cString (commit m (span (0 + head) (w ++ [nul]))) 0 ResMsg.size =
        (cString m 0 ResMsg.size).take head ++ w.takeWhile (· ≠ 0) := cString_continued hle hstored
    have hchars : ∀ c ∈ (cString m 0 ResMsg.size).drop head, c ≠ 0 :=
      fun c hc => cString_ne_nul (List.mem_of_mem_drop hc)
    have hroom : ((cString m 0 ResMsg.size).drop head).length ≤ ResMsg.size - 1 - head := by
      rw [List.length_drop]
      omega
    rw [Nat.zero_add] at hcontinued
    rw [hcontinued]
    calc cString m 0 ResMsg.size <+:
          (cString m 0 ResMsg.size).take head ++ w.takeWhile (· ≠ 0)
        ↔ (cString m 0 ResMsg.size).take head ++ (cString m 0 ResMsg.size).drop head <+:
            (cString m 0 ResMsg.size).take head ++ w.takeWhile (· ≠ 0) := by
          rw [List.take_append_drop]
      _ ↔ (cString m 0 ResMsg.size).drop head <+: w.takeWhile (· ≠ 0) :=
        List.prefix_append_right_inj _
      _ ↔ (cString m 0 ResMsg.size).drop head <+: w := isPrefix_takeWhile hchars
      _ ↔ (cString m 0 ResMsg.size).drop head <+: gain := by
        rw [← hw, List.prefix_take_iff]
        exact and_iff_left hroom

/-- **One message** leaves the visible text as a prefix exactly if it begins with what was
left behind `head`. -/
theorem Inv.kept (hs : s.Inv) (type : ResN) (text : Text) :
    s.visible type <+: (s.after type text).visible type ↔ s.Continues type text := by
  by_cases hnone : s.texts type = []
  · simp [Continues, visible, hnone]
  have hends := hs.ends type hnone
  have hafter : (s.after type text).visible type =
      cString ((s.res.addv type text).1.msg type).msg 0 ResMsg.size := by
    rw [visible, if_neg (s.texts_after_ne_nil type text)]
    rfl
  rw [Continues, hafter, visible, if_neg hnone]
  obtain ⟨hfull, hmsg⟩ | ⟨hbrim, hmsg⟩ | ⟨hlt, hfit, hmsg, hothers⟩ :=
    s.res.addv_cases type text (hs.head_le type)
  · have hnil : (cString (s.res.msg type).msg 0 ResMsg.size).drop (s.res.msg type).head = [] :=
      List.drop_of_length_le (by omega)
    rw [hmsg, hnil]
    exact iff_of_true (List.prefix_refl _) (List.nil_prefix)
  · -- the last byte of the buffer becomes a NUL, which it was or which does not show
    have hhead := hbrim.1
    have hnil : (cString (s.res.msg type).msg 0 ResMsg.size).drop (s.res.msg type).head = [] :=
      List.drop_of_length_le (by omega)
    have hlast : Function.update (s.res.msg type).msg (ResMsg.size - 1) nul =
        commit (s.res.msg type).msg (span (0 + (ResMsg.size - 1)) ([] ++ [0])) := rfl
    rw [hmsg, if_pos rfl, hnil, hlast]
    refine iff_of_true ?_ List.nil_prefix
    rcases Nat.lt_or_eq_of_le (Nat.le_sub_one_of_lt hends) with hshort | hfull
    · rewrite [cString_behind hshort (by decide)]
      exact List.prefix_refl _
    · rw [cString_continued (Nat.le_of_eq hfull.symm) (by decide), ← hfull]
      simp
  · rw [hmsg]
    exact kept_stored _ hlt hends

/-- **When messages stay visible.**  Along a run, every message leaves the text of its type as
a prefix exactly if it begins with what was left behind `head`. -/
theorem kept_iff {τs : List (Transition ResHistory (ResN × Text))} (hs : reporting.init s)
    (hr : reporting.Run s τs t) :
    (∀ τ ∈ τs, τ.before.visible τ.action.1 <+: τ.after.visible τ.action.1) ↔
      ∀ τ ∈ τs, τ.before.Continues τ.action.1 τ.action.2 := by
  refine hr.forall_iff (I := Inv) (Q := fun s a t => s.visible a.1 <+: t.visible a.1)
    (G := fun s a => s.Continues a.1 a.2) ?_ ?_ (inv_init hs)
  · rintro s a t hs ⟨-, rfl⟩ -
    exact hs.after a.1 a.2
  · rintro s a t hs ⟨-, rfl⟩
    exact hs.kept a.1 a.2

/-- Behind messages that fit, every message is stored at the end of their text. -/
theorem continues_of_small (hs : reporting.Reachable s) (hsmall : s.Small)
    (hnul : nul ∉ joined (s.texts type)) (text : Text) : s.Continues type text := by
  have hreads := small_reads hs hsmall type
  by_cases hnone : s.texts type = []
  · simp [Continues, visible, hnone]
  · rw [Continues, visible, if_neg hnone, hreads.string_eq hnone (hsmall type).2 hnul, hreads.head,
      List.drop_length]
    exact List.nil_prefix

/-- The second error leaves the first one visible. -/
theorem kept_iff_three : ∃ τs, reporting.Run none τs threeAdded ∧
    ∀ τ ∈ τs, τ.before.visible τ.action.1 <+: τ.after.visible τ.action.1 := by
  refine ⟨_, threeCalls_run, ?_⟩
  rw [kept_iff none_init threeCalls_run]
  have hsmall := small_of_after threeAdded_small
  simp only [threeCalls, script, List.forall_mem_cons, List.not_mem_nil, false_imp_iff,
    implies_true, and_true]
  refine ⟨?_, ?_, ?_⟩
  · exact continues_of_small (.of_init none_init) (small_of_after (small_of_after hsmall))
      (by decide) _
  · exact continues_of_small opened_reachable (small_of_after hsmall) (by decide) _
  · exact continues_of_small retried_reachable hsmall (by decide) _

/-- A first message that does not fit is visible behind a `head` that did not move. -/
theorem after_cut (c : UInt8) {rest : Text} (hc : c ≠ 0) (hlen : rest.length = 3999) :
    ((none.after .err (c :: rest)).res.msg .err).head = 0 ∧
      ((none.after .err (c :: rest)).res.msg .err).count ≠ 0 ∧
      ∃ seen, (none.after .err (c :: rest)).visible .err = c :: seen := by
  have hlt : (none.res.msg .err).head < ResMsg.size := by decide
  have hfit : ¬ (none.res.msg .err).Brimful := by decide
  have hcut : ResMsg.size - 0 ≤ (c :: rest).length := by
    rw [List.length_cons, hlen]
    decide
  have hstart : (none.res.msg .err).start = 0 := rfl
  have hmsg := Res.addv_msg_self (c :: rest) hlt hfit
  refine ⟨?_, ?_, ?_⟩
  · have hhead := congrArg ResMsg.head hmsg
    rw [ResMsg.addv_eq _ hlt, hstart, Str.printv_of_le hcut] at hhead
    exact hhead
  · have hcount := congrArg ResMsg.count hmsg
    rw [ResMsg.addv_eq _ hlt] at hcount
    have hone : ((none.after .err (c :: rest)).res.msg .err).count = 1 := hcount
    rw [hone]
    decide
  · have hmem := congrArg ResMsg.msg hmsg
    rw [ResMsg.commit_addv _ hlt hfit] at hmem
    have hvisible : (none.after .err (c :: rest)).visible .err =
        cString ((none.res.addv .err (c :: rest)).1.msg .err).msg 0 ResMsg.size := by
      rw [visible, if_neg (none.texts_after_ne_nil .err _)]
      rfl
    have htake : (c :: rest).take (ResMsg.size - 1 - 0) = c :: rest.take 3998 := rfl
    have hroom : 0 + (c :: rest.take 3998).length < ResMsg.size := by
      rw [List.length_cons, List.length_take, hlen]
      decide
    refine ⟨(rest.take 3998).takeWhile (· ≠ 0), ?_⟩
    rw [hvisible, hmem]
    apply (cString_continued (i := 0) (Nat.zero_le _) hroom).trans
    simp [hc]

/-- A message of 4000 bytes is cut, and the next one erases it. -/
theorem cut_message_erased :
    ¬ ∀ s t τs, reporting.init s → reporting.Run s τs t →
      ∀ τ ∈ τs, τ.before.visible τ.action.1 <+: τ.after.visible τ.action.1 := by
  intro h
  obtain ⟨rest, hlen⟩ := Res.exists_length 3999
  obtain ⟨hhead, hcount, seen, hseen⟩ := after_cut 97 (by decide) hlen
  have hfirst : reporting.Run none _ (none.after .err (97 :: rest)) :=
    .single (a := (.err, 97 :: rest)) ⟨show ResN.err ≠ .ok by decide, rfl⟩
  have hrun := hfirst.snoc (a := (.err, ascii "b")) ⟨by decide, rfl⟩
  have hkept := h _ _ _ none_init hrun _ (List.mem_append_right _ List.mem_cons_self)
  have hinv : (none.after .err (97 :: rest)).Inv := (inv_init none_init).after _ _
  have hcontinues := (hinv.kept .err (ascii "b")).mp hkept
  -- it would have to begin with the separator
  rw [Continues, hseen, hhead, ResMsg.appended, if_pos hcount] at hcontinues
  exact absurd (List.cons_prefix_cons.mp hcontinues).1 (by decide)

end ResHistory
end Libae
