import Libae.LogText
import Libae.ResMask
import Mathlib.Data.List.Induction

/-! # What a result says

A result holds a sheet for each type.  The lines of a sheet are the messages that fitted when
they were added; one that does not fit leaves its line empty, and is shown, as far as there is
room, until the next one is written over it.  Behind 256 messages the counter of a sheet is zero,
and the next message continues the line; and a sheet with one byte left, which that of the
separator takes, has its next message clear the counter of the sheet behind it.

That is all there is to it, for messages of any lengths in any order (`session_sheets`): neither
the memory of the buffers nor what an earlier use has left in them matters.
-/
namespace Libae
open ByteMemory Runs

/-- What a result says of one type: its lines, what is shown, if anything was added, and how many
messages were added since the counter was cleared. -/
structure Sheet where
  lines : Text
  shown : Option Text
  count : Nat

namespace Sheet

/-- Nothing added yet. -/
def blank : Sheet := ⟨[], none, 0⟩

/-- The lines, with the start of the next one. -/
def started (p : Sheet) : Text := p.lines ++ (if p.count % 256 = 0 then [] else [newline])

/-- One more message.  A sheet that is used up takes nothing. -/
def add (p : Sheet) (text : Text) : Sheet :=
  if p.lines.length < ResMsg.size then
    { lines := if (p.started ++ text).length < ResMsg.size then p.started ++ text else p.started
      shown := some ((p.started ++ text).take (ResMsg.size - 1))
      count := p.count + 1 }
  else p

/-- The string that can be read. -/
def text (p : Sheet) : Text := (p.shown.getD []).takeWhile (· ≠ 0)

/-- The next separator takes the last byte. -/
def Brimful (p : Sheet) : Prop := p.lines.length = ResMsg.size - 1 ∧ p.count % 256 ≠ 0

instance (p : Sheet) : Decidable p.Brimful := inferInstanceAs (Decidable (_ ∧ _))

/-- There is room for the separator. -/
theorem started_length_le (p : Sheet) (hroom : p.lines.length < ResMsg.size) :
    p.started.length ≤ ResMsg.size := by
  have hsep : (if p.count % 256 = 0 then [] else [newline] : Text).length ≤ 1 := by
    split <;> decide
  rw [started, List.length_append]
  omega

end Sheet

/-- The sheets of all types. -/
abbrev Sheets := ResN → Sheet

namespace Sheets

def blank : Sheets := fun _ => .blank

/-- What a call does. -/
def call (p : Sheets) : ResOp → Sheets
  | .init | .clear => blank
  | .add type text _ => fun t =>
    if t = type then (p type).add text
    else if (p type).Brimful ∧ type.next = some t then { p t with count := 0 }
    else p t

/-- After a list of calls. -/
def after (ops : List ResOp) : Sheets := ops.foldl call blank

theorem after_concat (ops : List ResOp) (op : ResOp) :
    after (ops ++ [op]) = (after ops).call op := List.foldl_append

theorem call_add_self (p : Sheets) {type : ResN} (text : Text) (h : type ≠ .ok) :
    p.call (.add type text h) type = (p type).add text := if_pos rfl

theorem call_add_of_ne (p : Sheets) {type t : ResN} (text : Text) (h : type ≠ .ok)
    (ht : t ≠ type) : p.call (.add type text h) t =
      if (p type).Brimful ∧ type.next = some t then { p t with count := 0 } else p t :=
  if_neg ht

end Sheets

/-! ## One record -/

/-- The record holds the sheet. -/
structure ResMsg.Holds (r : ResMsg) (p : Sheet) : Prop where
  head : r.head = p.lines.length
  head_le : r.head ≤ ResMsg.size
  count : r.count = UInt8.ofNat p.count
  fresh : p.shown = none → p.lines = [] ∧ p.count = 0
  shown : ∀ w, p.shown = some w → w.length < ResMsg.size ∧ load r.msg 0 w.length = w ∧
    r.msg w.length = nul ∧ p.lines.take (ResMsg.size - 1) <+: w

namespace ResMsg.Holds
variable {r : ResMsg} {p : Sheet}

theorem blank (r : ResMsg) : r.init.Holds .blank where
  head := rfl
  head_le := Nat.zero_le _
  count := rfl
  fresh _ := ⟨rfl, rfl⟩
  shown w hw := absurd hw (Option.some_ne_none w).symm

theorem count_eq_zero (h : r.Holds p) : r.count = 0 ↔ p.count % 256 = 0 := by
  rw [h.count, ← UInt8.toNat_inj, UInt8.toNat_ofNat']
  exact Iff.rfl

theorem brimful_iff (h : r.Holds p) : r.Brimful ↔ p.Brimful := by
  rw [ResMsg.Brimful, Sheet.Brimful, h.head, ne_eq, ne_eq, h.count_eq_zero]

theorem started (h : r.Holds p) (text : Text) :
    p.started ++ text = p.lines ++ r.appended text := by
  simp only [Sheet.started, ResMsg.appended, List.append_assoc, ne_eq, h.count_eq_zero, ite_not]

theorem start_eq (h : r.Holds p) : r.start = p.started.length := by
  rw [ResMsg.start, Sheet.started, List.length_append, ← h.head]
  simp only [ne_eq, h.count_eq_zero, ite_not]
  split <;> rfl

/-- The lines are at the start of the buffer, as far as a NUL fits behind them. -/
theorem load_lines (h : r.Holds p) :
    load r.msg 0 (p.lines.take (ResMsg.size - 1)).length = p.lines.take (ResMsg.size - 1) := by
  cases hshown : p.shown with
  | none =>
    rw [(h.fresh hshown).1]
    rfl
  | some w =>
    obtain ⟨-, hload, -, hpre⟩ := h.shown w hshown
    rw [← load_take hpre.length_le, hload]
    exact (List.prefix_iff_eq_take.mp hpre).symm

/-- A sheet that is used up stays as it is. -/
theorem add_full (h : r.Holds p) (hfull : r.head = ResMsg.size) (text : Text) :
    p.add text = p := by
  rw [h.head] at hfull
  exact if_neg (by omega)

/-- The counter is cleared. -/
theorem clear (h : r.Holds p) :
    Holds { r with count := 0 } { p with count := 0 } :=
  { h with count := rfl, fresh := fun hnone => ⟨(h.fresh hnone).1, rfl⟩ }

theorem count_add (h : r.Holds p) : r.count + 1 = UInt8.ofNat (p.count + 1) := by
  rw [h.count, UInt8.ofNat_add]
  rfl

/-- **A message that is stored inside the buffer.** -/
theorem add (h : r.Holds p) (text : Text) (hlt : r.head < ResMsg.size) (hfit : ¬ r.Brimful) :
    Holds { count := r.count + 1, head := (r.addv text).1.head,
            msg := commit r.msg
              (span r.head ((r.appended text).take (ResMsg.size - 1 - r.head) ++ [nul])) }
      (p.add text) := by
  have hstart := ResMsg.start_lt hlt hfit
  have hroom : p.lines.length < ResMsg.size := h.head ▸ hlt
  rw [h.start_eq] at hstart
  have hlines : p.lines.take (ResMsg.size - 1) = p.lines :=
    List.take_of_length_le (by omega)
  -- what is stored, behind the lines
  have hshown : (p.started ++ text).take (ResMsg.size - 1) =
      p.lines ++ (r.appended text).take (ResMsg.size - 1 - r.head) := by
    rw [h.started, List.take_append, hlines, h.head]
  have hload := h.load_lines
  rw [hlines] at hload
  have hend : r.head + ((r.appended text).take (ResMsg.size - 1 - r.head)).length < ResMsg.size :=
    ResHistory.stored_length _ hlt
  generalize (r.appended text).take (ResMsg.size - 1 - r.head) = stored at *
  rw [Sheet.add, if_pos hroom]
  refine ⟨?_, (ResMsg.addv_le text h.head_le).2, h.count_add,
    fun hnone => absurd hnone (Option.some_ne_none _), ?_⟩
  · rw [ResMsg.addv_eq text hlt, h.start_eq]
    simp only [List.length_append]
    by_cases htext : text.length < ResMsg.size - p.started.length
    · rw [Str.printv_of_lt htext, if_pos (by omega), List.length_append]
    · rw [Str.printv_of_le (Nat.le_of_not_lt htext), if_neg (by omega), Nat.add_zero]
  · rintro w hw
    obtain rfl := Option.some.inj hw
    refine ⟨?_, ?_, ?_, ?_⟩
    · rw [hshown, List.length_append, ← h.head]
      exact hend
    · rw [hshown, List.length_append, load_add, Nat.zero_add, ← h.head,
        load_commit_span_outside (.inl (Nat.le_of_eq (Nat.zero_add _))), h.head, hload,
        span_append, commit_append, load_commit_span_outside (.inl (Nat.le_refl _)),
        load_commit_span]
    · rw [hshown, List.length_append, ← h.head]
      refine (commit_span_inside (by simp)).trans ?_
      simp
    · split
      · exact List.prefix_refl _
      · refine List.prefix_take_iff.mpr ⟨(List.take_prefix _ _).trans (List.prefix_append _ _), ?_⟩
        rw [List.length_take]
        exact Nat.min_le_left _ _

/-- **A message that closes the buffer.** -/
theorem add_brimful (h : r.Holds p) (text : Text) (hfull : r.Brimful) :
    Holds { count := r.count + 1, head := ResMsg.size,
            msg := Function.update r.msg (ResMsg.size - 1) nul } (p.add text) := by
  obtain ⟨hlen, hcount⟩ := h.brimful_iff.mp hfull
  have hroom : p.lines.length < ResMsg.size := by
    rw [hlen]
    decide
  have hstarted : p.started = p.lines ++ [newline] := by
    rw [Sheet.started, if_neg hcount]
  have hlines : p.lines.take (ResMsg.size - 1) = p.lines :=
    List.take_of_length_le (Nat.le_of_eq hlen)
  have hload := h.load_lines
  rw [hlines] at hload
  have hsize : (p.lines ++ [newline]).length = ResMsg.size := by
    rw [List.length_append, hlen]
    rfl
  have hshown : (p.lines ++ [newline] ++ text).take (ResMsg.size - 1) = p.lines := by
    rw [List.append_assoc, ← hlen, List.take_left]
  have hcut : ¬ (p.lines ++ [newline] ++ text).length < ResMsg.size := by
    rw [List.length_append]
    omega
  rw [Sheet.add, if_pos hroom, hstarted, hshown, if_neg hcut]
  refine ⟨hsize.symm, Nat.le_refl _, h.count_add,
    fun hnone => absurd hnone (Option.some_ne_none _), ?_⟩
  rintro w hw
  obtain rfl := Option.some.inj hw
  refine ⟨hroom, ?_, ?_, ?_⟩
  · have hbefore : ∀ i < p.lines.length,
        Function.update r.msg (ResMsg.size - 1) nul (0 + i) = r.msg (0 + i) :=
      fun i hi => Function.update_of_ne (by omega) _ _
    exact (load_congr hbefore).trans hload
  · show Function.update r.msg (ResMsg.size - 1) nul p.lines.length = nul
    rw [hlen, Function.update_self]
  · have htake : (p.lines ++ [newline]).take (ResMsg.size - 1) = p.lines := by
      rw [← hlen, List.take_left]
    exact ⟨[], (List.append_nil _).trans htake⟩

/-- The string in the buffer, if there is one, is what the sheet shows. -/
theorem cString_eq (h : r.Holds p) (hsome : p.shown.isSome) :
    cString r.msg 0 ResMsg.size = p.text := by
  obtain ⟨w, hw⟩ := Option.isSome_iff_exists.mp hsome
  obtain ⟨hlen, hload, hend, -⟩ := h.shown w hw
  have hnul : r.msg (0 + w.length) = 0 := by
    rw [Nat.zero_add]
    exact hend
  rw [Sheet.text, hw, Option.getD_some, cString_of_load hload hnul hlen]

end ResMsg.Holds

/-! ## Runs -/

namespace ResHistory
variable {s t : ResHistory} {p : Sheets}

/-- The records hold the sheets, and a sheet shows something if a message was added. -/
structure Holds (s : ResHistory) (p : Sheets) : Prop where
  record : ∀ t, (s.res.msg t).Holds (p t)
  shown : ∀ t, (p t).shown.isSome ↔ s.texts t ≠ []

theorem holds_blank (r : Res) : Holds ⟨r.clear, []⟩ .blank :=
  ⟨fun t => ResMsg.Holds.blank (r.msg t), fun _ => iff_of_false Bool.false_ne_true (fun h => h rfl)⟩

theorem isSome_add {p : Sheet} (h : p.shown.isSome ∨ p.lines.length < ResMsg.size) (text : Text) :
    (p.add text).shown.isSome := by
  unfold Sheet.add
  split
  · rfl
  · next hfull => exact h.resolve_right hfull

/-- A message does to the records what it does to the sheets. -/
theorem Holds.record_add (h : s.Holds p) {type : ResN} (text : Text) (hne : type ≠ .ok)
    (t : ResN) : ((s.res.addv type text).1.msg t).Holds (p.call (.add type text hne) t) := by
  have htype := h.record type
  have hbrimful := htype.brimful_iff
  obtain ⟨hfull, hmsg⟩ | ⟨hbrim, hmsg⟩ | ⟨hlt, hfit, hmsg, hothers⟩ :=
    s.res.addv_cases type text htype.head_le
  · have hfit : ¬ (s.res.msg type).Brimful :=
      fun hbrim => absurd (hbrim.1.symm.trans hfull) (by decide)
    rw [hmsg]
    by_cases ht : t = type
    · rw [ht, p.call_add_self, htype.add_full hfull]
      exact htype
    · rw [p.call_add_of_ne text hne ht, if_neg (fun hb => hfit (hbrimful.mpr hb.1))]
      exact h.record t
  · rw [hmsg t]
    by_cases ht : t = type
    · rw [if_pos ht, ht, p.call_add_self]
      exact htype.add_brimful text hbrim
    rw [if_neg ht, p.call_add_of_ne text hne ht]
    by_cases hnext : type.next = some t
    · rw [if_pos hnext, if_pos ⟨hbrimful.mp hbrim, hnext⟩]
      exact (h.record t).clear
    · rw [if_neg hnext, if_neg (fun hb => hnext hb.2)]
      exact h.record t
  · by_cases ht : t = type
    · rw [ht, hmsg, p.call_add_self]
      exact htype.add text hlt hfit
    · rw [hothers t ht, p.call_add_of_ne text hne ht,
        if_neg (fun hb => hfit (hbrimful.mpr hb.1))]
      exact h.record t

/-- **Every call** does to the records what it does to the sheets. -/
theorem Holds.call (h : s.Holds p) (op : ResOp) : (s.call op).Holds (p.call op) := by
  cases op with
  | init => exact holds_blank { s.res with mask := 0 }
  | clear => exact holds_blank s.res
  | add type text hne =>
    refine ⟨h.record_add text hne, fun t => ?_⟩
    by_cases ht : t = type
    · rw [ht, p.call_add_self]
      refine iff_of_true (isSome_add ?_ text) (s.texts_after_ne_nil type text)
      -- a sheet that shows nothing is blank
      rcases Bool.eq_false_or_eq_true (p type).shown.isSome with hsome | hnone
      · exact .inl hsome
      · obtain ⟨hlines, -⟩ :=
          (h.record type).fresh (Option.isNone_iff_eq_none.mp (by simpa using hnone))
        exact .inr (by rw [hlines]; decide)
    · have htexts : (s.call (.add type text hne)).texts t = s.texts t :=
        s.texts_after_of_ne text ht
      rw [htexts, ← h.shown t, p.call_add_of_ne text hne ht]
      split <;> exact Iff.rfl

/-- Along a run the records hold the sheets. -/
theorem Holds.run {τs : List (Transition ResHistory ResOp)} (hs : session.init s)
    (hr : session.Run s τs t) : t.Holds (Sheets.after (τs.map Transition.action)) := by
  induction hr with
  | nil =>
    obtain ⟨res, added⟩ := s
    obtain ⟨rfl, r, rfl⟩ := hs
    exact holds_blank { r with mask := 0 }
  | snoc _ hstep ih =>
    obtain rfl := hstep
    rw [List.map_append, List.map_singleton, Sheets.after_concat]
    exact ih.call _

/-- What is read of a type is the text of its sheet. -/
theorem Holds.visible_eq (h : s.Holds p) (type : ResN) : s.visible type = (p type).text := by
  have hshown := h.shown type
  by_cases hnil : s.texts type = []
  · have hnone : (p type).shown = Option.none := by
      rw [← Option.not_isSome_iff_eq_none, hshown]
      exact fun hne => hne hnil
    rw [visible, if_pos hnil, Sheet.text, hnone]
    rfl
  · rw [visible, if_neg hnil]
    exact (h.record type).cString_eq (hshown.mpr hnil)

/-- What is logged are the sheets whose counters are not zero. -/
theorem Holds.logRes_eq (h : s.Holds p) {log : Log} (hopen : log.Open) :
    (log.logRes s.res).2 = (Log.severities.filter (fun q => (p q.1).count % 256 ≠ 0)).map
      (fun q => .handler q.2 ((Log.line q.2 (p q.1).text).take 3998)) := by
  obtain ⟨msg, hrecords, hmsg⟩ := Log.logRes_open hopen s.res
  have hcounted : Log.severities.filter (fun q => (s.res.msg q.1).count ≠ 0) =
      Log.severities.filter (fun q => (p q.1).count % 256 ≠ 0) :=
    List.filter_congr (fun q _ => by simp only [ne_eq, (h.record q.1).count_eq_zero])
  rw [hrecords, hcounted]
  refine List.map_congr_left (fun q hq => ?_)
  obtain ⟨hmem, hcount⟩ := List.mem_filter.mp hq
  have hsome : (p q.1).shown.isSome := by
    by_contra hnone
    rw [Option.not_isSome_iff_eq_none] at hnone
    rw [((h.record q.1).fresh hnone).2] at hcount
    exact absurd hcount (by decide)
  rw [hmsg q hmem, (h.record q.1).cString_eq hsome]

/-- **What a result says.**  After every run of `ae_res_init`, `ae_res_clear` and `ae_res_add`,
what is read of each type is the text of its sheet, and `ae_log_res` logs the sheets whose
counters are not zero, each cut behind the 3998th byte of its record. -/
theorem session_sheets {τs : List (Transition ResHistory ResOp)} (hs : session.init s)
    (hr : session.Run s τs t) :
    (∀ type, t.visible type = (Sheets.after (τs.map Transition.action) type).text) ∧
      ∀ log : Log, log.Open → (log.logRes t.res).2 =
        (Log.severities.filter
            (fun q => (Sheets.after (τs.map Transition.action) q.1).count % 256 ≠ 0)).map
          (fun q => .handler q.2
            ((Log.line q.2 (Sheets.after (τs.map Transition.action) q.1).text).take 3998)) :=
  ⟨(Holds.run hs hr).visible_eq, fun _ => (Holds.run hs hr).logRes_eq⟩

/-- An error is read, and logged. -/
theorem session_sheets_open :
    (none.after .err (ascii "open")).visible .err = ascii "open" ∧
      (Log.all.logRes (none.after .err (ascii "open")).res).2 =
        [.handler .err (ascii "ERROR \x7bopen\x7d")] := by
  have hrun : session.Run none [⟨none, .add .err (ascii "open") (by decide),
      none.after .err (ascii "open")⟩] (none.after .err (ascii "open")) := .single rfl
  obtain ⟨hread, hlogged⟩ := session_sheets ⟨rfl, Res.zero, rfl⟩ hrun
  exact ⟨hread .err, hlogged Log.all Log.all_open⟩

end ResHistory

/-! ## The lines -/

/-- The lines that messages leave: one that does not fit behind those before it is empty. -/
def keptLines (texts : List Text) : List Text :=
  texts.foldl (fun kept text =>
    kept ++ [if (joined (kept ++ [text])).length < ResMsg.size then text else []]) []

theorem keptLines_concat (texts : List Text) (text : Text) :
    keptLines (texts ++ [text]) = keptLines texts ++
      [if (joined (keptLines texts ++ [text])).length < ResMsg.size then text else []] :=
  List.foldl_append

theorem keptLines_length (texts : List Text) : (keptLines texts).length = texts.length := by
  induction texts using List.reverseRecOn with
  | nil => rfl
  | append_singleton texts text ih =>
    rw [keptLines_concat, List.length_append, ih, List.length_append]
    rfl

theorem take_joined {texts : List Text} {text : Text} {n : Nat} (h : n ≤ (joined texts).length) :
    (joined (texts ++ [text])).take n = (joined texts).take n := by
  rw [joined_concat, List.take_append_of_le_length h]

/-- The sheet has the lines of the texts, and shows all that there is room for of the last
one. -/
structure Sheet.Reads (p : Sheet) (texts : List Text) : Prop where
  lines : p.lines = (joined (keptLines texts)).take ResMsg.size
  count : p.lines.length < ResMsg.size → p.count = texts.length
  full : ResMsg.size ≤ p.lines.length →
    p.shown = some ((joined (keptLines texts)).take (ResMsg.size - 1))
  shown : ∀ earlier last, texts = earlier ++ [last] →
    p.shown = some ((joined (keptLines earlier ++ [last])).take (ResMsg.size - 1))

namespace Sheet.Reads
variable {p : Sheet} {texts : List Text}

theorem blank : Sheet.blank.Reads [] where
  lines := rfl
  count _ := rfl
  full hfull := absurd hfull (by decide)
  shown _ _ h := absurd h.symm (List.append_ne_nil_of_right_ne_nil _ (List.cons_ne_nil _ _))

/-- The next message is shown on a line of its own. -/
theorem started (h : p.Reads texts) (hroom : p.lines.length < ResMsg.size)
    (hcount : texts.length < 256) (text : Text) :
    p.started ++ text = joined (keptLines texts ++ [text]) := by
  have hlines : p.lines = joined (keptLines texts) := by
    have htake := h.lines
    rw [htake, List.length_take] at hroom
    rw [htake, List.take_of_length_le (by omega)]
  have hnil : keptLines texts = [] ↔ texts.length % 256 = 0 := by
    rw [← List.length_eq_zero_iff, keptLines_length, Nat.mod_eq_of_lt hcount]
  rw [Sheet.started, joined_concat, hlines, h.count hroom, List.append_assoc]
  simp only [hnil]

/-- What is shown is that of the last message. -/
theorem of_last {q : Sheet} {text : Text}
    (hlines : q.lines = (joined (keptLines (texts ++ [text]))).take ResMsg.size)
    (hcount : q.lines.length < ResMsg.size → q.count = (texts ++ [text]).length)
    (hfull : ResMsg.size ≤ q.lines.length →
      q.shown = some ((joined (keptLines (texts ++ [text]))).take (ResMsg.size - 1)))
    (hshown : q.shown = some ((joined (keptLines texts ++ [text])).take (ResMsg.size - 1))) :
    q.Reads (texts ++ [text]) := by
  refine ⟨hlines, hcount, hfull, fun earlier last heq => ?_⟩
  obtain ⟨rfl, hsingle⟩ := List.append_inj' heq rfl
  obtain rfl := List.singleton_inj.mp hsingle
  exact hshown

/-- A message on a sheet with room. -/
theorem add_room (h : p.Reads texts) (hroom : p.lines.length < ResMsg.size)
    (hcount : texts.length < 256) (text : Text) : (p.add text).Reads (texts ++ [text]) := by
  have hstarted := h.started hroom hcount
  have hline : p.started = joined (keptLines texts ++ [[]]) := by
    rw [← hstarted [], List.append_nil]
  have hlen := p.started_length_le hroom
  have hsum : (texts ++ [text]).length = p.count + 1 := by
    rw [h.count hroom, List.length_append]
    rfl
  rw [Sheet.add, if_pos hroom, hstarted]
  by_cases hfit : (joined (keptLines texts ++ [text])).length < ResMsg.size
  · have hkept : keptLines (texts ++ [text]) = keptLines texts ++ [text] := by
      rw [keptLines_concat, if_pos hfit]
    rw [if_pos hfit]
    refine of_last ?_ (fun _ => hsum.symm) (fun hfull => absurd hfit (Nat.not_lt.mpr hfull)) rfl
    rw [hkept, List.take_of_length_le (Nat.le_of_lt hfit)]
  · -- the line stays empty, and may take the last byte
    have hkept : keptLines (texts ++ [text]) = keptLines texts ++ [[]] := by
      rw [keptLines_concat, if_neg hfit]
    rw [if_neg hfit]
    refine of_last ?_ (fun _ => hsum.symm) (fun hfull => ?_) rfl
    · rw [hkept, ← hline, List.take_of_length_le hlen]
    · have hlong : ResMsg.size - 1 ≤ p.started.length := Nat.le_trans (Nat.sub_le _ _) hfull
      rw [hkept, ← hline, ← hstarted, List.take_append_of_le_length hlong]

/-- A message on a sheet that is used up. -/
theorem add_full (h : p.Reads texts) (hfull : ResMsg.size ≤ p.lines.length) (text : Text) :
    (p.add text).Reads (texts ++ [text]) := by
  have hlong : ResMsg.size ≤ (joined (keptLines texts)).length := by
    have hlines := hfull
    rw [h.lines, List.length_take] at hlines
    omega
  have hshown := h.full hfull
  rw [Sheet.add, if_neg (Nat.not_lt.mpr hfull)]
  refine of_last ?_ (fun hlt => absurd hfull (Nat.not_le.mpr hlt)) (fun _ => ?_) ?_
  · rw [keptLines_concat, take_joined hlong]
    exact h.lines
  · rw [keptLines_concat, take_joined (by omega)]
    exact hshown
  · rw [take_joined (by omega)]
    exact hshown

/-- **One more message.** -/
theorem add (h : p.Reads texts) (hcount : texts.length < 256) (text : Text) :
    (p.add text).Reads (texts ++ [text]) := by
  rcases Nat.lt_or_ge p.lines.length ResMsg.size with hroom | hfull
  · exact h.add_room hroom hcount text
  · exact h.add_full hfull text

end Sheet.Reads

namespace ResHistory
variable {s t : ResHistory} {type : ResN} {τs : List (Transition ResHistory ResOp)}

/-- The call clears the counter of the type, as the buffer before it is brimful. -/
def ClearsCount (s : ResHistory) (type : ResN) : ResOp → Prop
  | .init | .clear => False
  | .add u _ _ => (s.res.msg u).Brimful ∧ u.next = some type

/-- No buffer is before that of the errors. -/
theorem not_clearsCount_err (s : ResHistory) (op : ResOp) : ¬ s.ClearsCount .err op := by
  cases op with
  | init | clear => exact id
  | add u text hne =>
    rintro ⟨-, hnext⟩
    cases u with
    | ok => exact hne rfl
    | err | warn | info => cases hnext

/-- The sheet of a type whose counter is not cleared has the lines of its messages. -/
theorem sheet_reads (hs : session.init s) (hr : session.Run s τs t)
    (hkept : ∀ τ ∈ τs, ¬ τ.before.ClearsCount type τ.action)
    (hcount : (t.texts type).length ≤ 256) :
    (Sheets.after (τs.map Transition.action) type).Reads (t.texts type) := by
  induction hr with
  | nil =>
    have hnil : s.texts type = [] := by simp [texts, hs.1]
    rw [hnil]
    exact .blank
  | @snoc τs u v op hr hstep ih =>
    obtain rfl := hstep
    rw [List.forall_mem_append, List.forall_mem_singleton] at hkept
    rw [List.map_append, List.map_singleton, Sheets.after_concat]
    cases op with
    | init | clear => exact Sheet.Reads.blank
    | add other text hne =>
      have hcall : u.call (.add other text hne) = u.after other text := rfl
      rw [hcall] at hcount ⊢
      by_cases ht : type = other
      · subst ht
        rw [texts_after_self] at hcount ⊢
        rw [List.length_append] at hcount
        rw [Sheets.call_add_self]
        exact (ih hkept.1 (by omega)).add (Nat.lt_of_succ_le hcount) text
      · rw [texts_after_of_ne u text ht] at hcount ⊢
        have hbrimful := ((Holds.run hs hr).record other).brimful_iff
        have hkeeps : ¬ ((u.res.msg other).Brimful ∧ other.next = some type) := hkept.2
        rw [hbrimful] at hkeeps
        rw [Sheets.call_add_of_ne _ text hne ht, if_neg hkeeps]
        exact ih hkept.1 hcount

/-- **Each message on its line.**  Of at most 256 messages since the last `ae_res_init` or
`ae_res_clear`, each but the last one is read on a line of its own, whole if it fitted when it
was added, and not at all if it did not; of the last one as much as there is room for. -/
theorem reads_lines (hs : session.init s) (hr : session.Run s τs t)
    (hkept : ∀ τ ∈ τs, ¬ τ.before.ClearsCount type τ.action)
    (hcount : (t.texts type).length ≤ 256) {earlier : List Text} {last : Text}
    (htexts : t.texts type = earlier ++ [last]) :
    t.visible type = ((joined (keptLines earlier ++ [last])).take 3999).takeWhile (· ≠ 0) := by
  have hreads := sheet_reads hs hr hkept hcount
  rw [(Holds.run hs hr).visible_eq, Sheet.text, hreads.shown earlier last htexts]
  rfl

/-- Two errors are two lines. -/
theorem reads_lines_two :
    ((none.after .err (ascii "open")).after .err (ascii "read")).visible .err =
      ascii "open\nread" := by
  have hne : ResN.err ≠ .ok := by decide
  have hopen : session.step none (.add .err (ascii "open") hne)
      (none.after .err (ascii "open")) := rfl
  have hread : session.step (none.after .err (ascii "open")) (.add .err (ascii "read") hne)
      ((none.after .err (ascii "open")).after .err (ascii "read")) := rfl
  have htexts : ((none.after .err (ascii "open")).after .err (ascii "read")).texts .err =
      [ascii "open"] ++ [ascii "read"] := rfl
  exact reads_lines ⟨rfl, Res.zero, rfl⟩ ((System.Run.single hopen).snoc hread)
    (fun τ _ => not_clearsCount_err τ.before τ.action) (by decide) htexts

end ResHistory
end Libae
