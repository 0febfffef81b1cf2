import Libae.ResText

/-! # The log

`ae_log_t` (`log.h`, `log.c`): a record is formatted into the buffer of the log, as the name
of its level and a text, and goes to the handler or, without one, to `syslog`.  The lock is
left out, as a call holds it from its first write to its last.

`ae_log_res` logs a record for each type of a result whose `count` is not zero.  The counter
is one byte, and the byte behind the buffer of the type before: a type is silenced by the
message that wraps its counter around, and by one that the type before it takes as its
buffer is brimful.  There is no other way (`logged_iff`).
-/
namespace Libae
open ByteMemory Runs

/-- `ae_log_level_t`. -/
inductive LogLevel
  | trace
  | debug
  | info
  | warn
  | err
  deriving DecidableEq, Repr

/-- The priorities of `syslog` that are used. -/
inductive SyslogPriority
  | err
  | warning
  | info
  | debug
  deriving DecidableEq

namespace LogLevel

/-- The value of the enumerator. -/
def value : LogLevel → UInt32
  | trace => 1
  | debug => 2
  | info => 4
  | warn => 8
  | err => 16

/-- `ae_log_level_to_string`. -/
def toText : LogLevel → Text
  | trace => ascii "TRACE"
  | debug => ascii "DEBUG"
  | info => ascii "INFO "
  | warn => ascii "WARN "
  | err => ascii "ERROR"

/-- `ae_log_level_to_syslog`. -/
def toSyslog : LogLevel → SyslogPriority
  | trace => .warning
  | debug => .debug
  | info => .info
  | warn => .warning
  | err => .err

end LogLevel

/-- Where a text goes. -/
inductive LogRecord
  | handler (lvl : LogLevel) (msg : Text)
  | syslog (priority : SyslogPriority) (msg : Text)
  deriving DecidableEq

/-- `ae_log_t`; `handler` says whether there is one. -/
structure Log where
  buf : Mem
  mask : UInt32
  handler : Bool

namespace Log

/-- `sizeof(self->buf)`. -/
def size : Nat := 4000

/-- The mask lets the level through. -/
def Passes (self : Log) (lvl : LogLevel) : Prop := self.mask &&& lvl.value ≠ 0

instance (self : Log) (lvl : LogLevel) : Decidable (self.Passes lvl) :=
  inferInstanceAs (Decidable (_ ≠ _))

/-- The buffer of `ae_logv`, with the name of the level and the text printed to it. -/
def printed (self : Log) (lvl : LogLevel) (text : Text) : Mem :=
  let len := size - 1
  let level := Str.vsnprintf 0 len (lvl.toText ++ ascii " ")
  let rest := if 0 < level.1 ∧ level.1 ≤ len then (level.1, len - level.1) else (0, len)
  commit self.buf ((len, nul) :: level.2 ++ (Str.vsnprintf rest.1 rest.2 text).2)

/-- `ae_logv`, for a formatted text. -/
def logv (self : Log) (lvl : LogLevel) (text : Text) : Log × List LogRecord :=
  if self.Passes lvl then
    let buf := self.printed lvl text
    let msg := cString buf 0 size
    ({ self with buf := buf },
      [if self.handler then .handler lvl msg else .syslog lvl.toSyslog msg])
  else (self, [])

/-- `ae_log`. -/
def log (self : Log) (lvl : LogLevel) (text : Text) : Log × List LogRecord :=
  if self.Passes lvl then self.logv lvl text else (self, [])

/-- `ae_log_res` for one type. -/
def logMsg (self : Log) (res : Res) (type : ResN) (lvl : LogLevel) : Log × List LogRecord :=
  if (res.msg type).count ≠ 0 then
    self.log lvl (ascii "\x7b" ++ cString (res.msg type).msg 0 ResMsg.size ++ ascii "\x7d")
  else (self, [])

/-- `ae_log_res`. -/
def logRes (self : Log) (res : Res) : Log × List LogRecord :=
  let r₁ := self.logMsg res .info .info
  let r₂ := r₁.1.logMsg res .warn .warn
  let r₃ := r₂.1.logMsg res .err .err
  (r₃.1, r₁.2 ++ r₂.2 ++ r₃.2)

/-! ## What is logged of a result -/

/-- The types that are logged, in their order, and their levels. -/
def severities : List (ResN × LogLevel) := [(.info, .info), (.warn, .warn), (.err, .err)]

/-- A log with a handler whose mask lets all levels through. -/
structure Open (log : Log) : Prop where
  handler : log.handler = true
  passes : ∀ lvl, log.Passes lvl

/-- The name of a level is printed as six characters. -/
theorem level_length (lvl : LogLevel) : (lvl.toText ++ ascii " ").length = 6 := by
  cases lvl <;> rfl

theorem level_nul (lvl : LogLevel) : nul ∉ lvl.toText ++ ascii " " := by
  cases lvl <;> simp [LogLevel.toText, ascii, nul]

/-- The two texts are stored one behind the other. -/
theorem printed_eq (self : Log) (lvl : LogLevel) (text : Text) :
    self.printed lvl text = commit (commit (commit self.buf [(3999, nul)])
      (span (0 + 0) (lvl.toText ++ ascii " " ++ [0]))) (span (0 + 6) (text.take 3992 ++ [0])) := by
  have hlevel := level_length lvl
  have hfirst : Str.vsnprintf 0 (size - 1) (lvl.toText ++ ascii " ") =
      (6, span 0 (lvl.toText ++ ascii " " ++ [0])) := by
    rw [Str.vsnprintf, if_neg (by decide), List.take_of_length_le (by rw [hlevel]; decide), hlevel]
    rfl
  have hrest : (Str.vsnprintf 6 (size - 1 - 6) text).2 = span 6 (text.take 3992 ++ [0]) := by
    rw [Str.vsnprintf, if_neg (by decide)]
    rfl
  have hfits : 0 < 6 ∧ 6 ≤ size - 1 := by decide
  simp only [printed, hfirst, if_pos hfits, hrest]
  rw [← List.singleton_append, commit_append, commit_append]
  rfl

/-- **What is in the buffer**: the name of the level and the text, up to the 3998th byte. -/
theorem cString_printed (self : Log) (lvl : LogLevel) {text : Text} (htext : nul ∉ text) :
    cString (self.printed lvl text) 0 size = (lvl.toText ++ ascii " " ++ text).take 3998 := by
  have hlevel := level_length lvl
  have hchars : ∀ {bs : Text}, nul ∉ bs → bs.takeWhile (· ≠ 0) = bs := by
    intro bs hbs
    rw [List.takeWhile_eq_self_iff]
    intro c hc
    rw [decide_eq_true_eq]
    rintro rfl
    exact hbs hc
  have hname : cString (commit (commit self.buf [(3999, nul)])
      (span (0 + 0) (lvl.toText ++ ascii " " ++ [0]))) 0 size = lvl.toText ++ ascii " " := by
    rw [cString_continued (Nat.zero_le _) (by rw [hlevel]; decide), List.take_zero,
      List.nil_append, hchars (level_nul lvl)]
  have hkept : (lvl.toText ++ ascii " ").take 6 = lvl.toText ++ ascii " " :=
    List.take_of_length_le (Nat.le_of_eq hlevel)
  have hcut : (lvl.toText ++ ascii " " ++ text).take (6 + 3992) =
      lvl.toText ++ ascii " " ++ text.take 3992 := by
    rw [← hlevel, List.take_length_add_append]
  -- the text continues the name
  rw [printed_eq, cString_continued, hname, hkept, hchars (fun h => htext (List.mem_of_mem_take h))]
  · exact hcut.symm
  · rw [hname, hlevel]
  · rw [List.length_take]
    exact Nat.lt_of_le_of_lt (Nat.add_le_add_left (Nat.min_le_left _ _) 6) (by decide)

/-- A text is handed over as one record, as far as it is in the buffer, and leaves the log
open. -/
theorem logv_open {self : Log} (h : self.Open) (lvl : LogLevel) {text : Text} (htext : nul ∉ text) :
    (self.logv lvl text).2 = [.handler lvl ((lvl.toText ++ ascii " " ++ text).take 3998)] ∧
      (self.logv lvl text).1.Open := by
  rw [logv, if_pos (h.passes lvl)]
  refine ⟨?_, h.handler, h.passes⟩
  simp only [h.handler, if_true, cString_printed self lvl htext]

/-- The record of a text. -/
def line (lvl : LogLevel) (text : Text) : Text :=
  lvl.toText ++ ascii " " ++ (ascii "\x7b" ++ text ++ ascii "\x7d")

theorem logMsg_open {self : Log} (h : self.Open) (res : Res) (type : ResN) (lvl : LogLevel) :
    (self.logMsg res type lvl).2 = (if (res.msg type).count ≠ 0 then
        [.handler lvl ((line lvl (cString (res.msg type).msg 0 ResMsg.size)).take 3998)] else []) ∧
      (self.logMsg res type lvl).1.Open := by
  by_cases hcount : (res.msg type).count ≠ 0
  · rw [logMsg, if_pos hcount, if_pos hcount, log, if_pos (h.passes lvl)]
    apply logv_open h
    intro hmem
    rw [List.mem_append, List.mem_append] at hmem
    rcases hmem with (hbrace | hchar) | hbrace
    · exact absurd hbrace (by simp [ascii, nul])
    · exact cString_ne_nul hchar rfl
    · exact absurd hbrace (by simp [ascii, nul])
  · rw [logMsg, if_neg hcount, if_neg hcount]
    exact ⟨rfl, h⟩

/-- **`ae_log_res`** hands one record to the handler for each counter that is not zero. -/
theorem logRes_open {self : Log} (h : self.Open) (res : Res) :
    ∃ msg : ResN → Text, (self.logRes res).2 =
        (severities.filter (fun s => (res.msg s.1).count ≠ 0)).map
          (fun s => .handler s.2 (msg s.1)) ∧
      ∀ s ∈ severities,
        msg s.1 = (line s.2 (cString (res.msg s.1).msg 0 ResMsg.size)).take 3998 := by
  obtain ⟨hinfo, h₁⟩ := logMsg_open h res .info .info
  obtain ⟨hwarn, h₂⟩ := logMsg_open h₁ res .warn .warn
  obtain ⟨herr, -⟩ := logMsg_open h₂ res .err .err
  let msg (type : ResN) (lvl : LogLevel) : Text :=
    (line lvl (cString (res.msg type).msg 0 ResMsg.size)).take 3998
  refine ⟨fun type => if type = .info then msg .info .info else
    if type = .warn then msg .warn .warn else msg .err .err, ?_, ?_⟩
  · rw [logRes]
    simp only [hinfo, hwarn, herr, severities, List.filter_cons, List.filter_nil]
    by_cases hi : (res.msg .info).count = 0 <;> by_cases hw : (res.msg .warn).count = 0 <;>
      by_cases he : (res.msg .err).count = 0 <;> simp [hi, hw, he, msg]
  · intro s hs
    simp only [severities, List.mem_cons, List.not_mem_nil, or_false] at hs
    rcases hs with rfl | rfl | rfl <;> rfl

/-- The levels of the types are different. -/
theorem severities_inj {t type : ResN} {lvl : LogLevel} (ht : (t, lvl) ∈ severities)
    (htype : (type, lvl) ∈ severities) : t = type := by
  simp only [severities, List.mem_cons, List.not_mem_nil, or_false, Prod.mk.injEq] at ht htype
  grind

/-- A level is among the records for a selection of the types exactly if its type is
selected. -/
theorem mem_records {P : ResN × LogLevel → Bool} (msg : ResN → Text) {type : ResN}
    {lvl : LogLevel} (hmem : (type, lvl) ∈ severities) :
    (∃ m, LogRecord.handler lvl m ∈
        (severities.filter P).map (fun s => .handler s.2 (msg s.1))) ↔ P (type, lvl) = true := by
  constructor
  · rintro ⟨m, hm⟩
    obtain ⟨⟨t, l⟩, hsel, heq⟩ := List.mem_map.mp hm
    obtain ⟨hin, hP⟩ := List.mem_filter.mp hsel
    have hl : l = lvl := (LogRecord.handler.inj heq).1
    subst hl
    rw [severities_inj hin hmem] at hP
    exact hP
  · exact fun hP => ⟨msg type, List.mem_map.mpr ⟨_, List.mem_filter.mpr ⟨hmem, hP⟩, rfl⟩⟩

/-- A log that keeps everything. -/
def all : Log := ⟨fun _ => 0, 0xff, true⟩

theorem all_open : all.Open := ⟨rfl, fun lvl => by cases lvl <;> decide⟩

end Log

/-! ## Severities with messages -/

namespace ResHistory
variable {s t : ResHistory} {type : ResN}

/-- `ae_log_res` hands the handler one record for each type that was added to, and none for
the others. -/
def Reported (s : ResHistory) : Prop :=
  ∀ log : Log, log.Open → ∃ msg : ResN → Text, (log.logRes s.res).2 =
    (Log.severities.filter (fun p => s.texts p.1 ≠ [])).map (fun p => .handler p.2 (msg p.1))

theorem mem_severities (hne : type ≠ .ok) : ∃ lvl, (type, lvl) ∈ Log.severities := by
  cases type with
  | ok => exact absurd rfl hne
  | err => exact ⟨.err, by decide⟩
  | warn => exact ⟨.warn, by decide⟩
  | info => exact ⟨.info, by decide⟩

theorem ne_ok_of_mem_severities {p : ResN × LogLevel} (h : p ∈ Log.severities) : p.1 ≠ .ok := by
  simp only [Log.severities, List.mem_cons, List.not_mem_nil, or_false] at h
  rcases h with rfl | rfl | rfl <;> decide

/-- The counters tell the types that were added to. -/
def Counted (s : ResHistory) : Prop :=
  ∀ type, type ≠ .ok → ((s.res.msg type).count = 0 ↔ s.texts type = [])

theorem reported_iff : s.Reported ↔ s.Counted := by
  constructor
  · intro h type hne
    obtain ⟨lvl, hmem⟩ := mem_severities hne
    obtain ⟨msg, hmsg⟩ := h Log.all Log.all_open
    obtain ⟨msg', hmsg', -⟩ := Log.logRes_open Log.all_open s.res
    have hadded := Log.mem_records (P := fun p => s.texts p.1 ≠ []) msg hmem
    have hcounter := Log.mem_records (P := fun p => (s.res.msg p.1).count ≠ 0) msg' hmem
    rw [← hmsg] at hadded
    rw [← hmsg', hadded] at hcounter
    simpa using (not_congr hcounter).symm
  · intro h log hopen
    obtain ⟨msg, hmsg, -⟩ := Log.logRes_open hopen s.res
    refine ⟨msg, ?_⟩
    rw [hmsg]
    congr 1
    refine List.filter_congr (fun p hp => ?_)
    simp [h p.1 (ne_ok_of_mem_severities hp)]

/-- The counter of the type does not wrap around, and the message does not clear the counter
of the next type. -/
def Counts (s : ResHistory) (type : ResN) : Prop :=
  ((s.res.msg type).head < ResMsg.size → (s.res.msg type).count ≠ 255) ∧
    ((s.res.msg type).Brimful → ∀ t, type.next = some t → (s.res.msg t).count = 0)

/-- The counter is one byte. -/
theorem count_succ (n : UInt8) : n + 1 = 0 ↔ n = 255 := by
  constructor
  · intro h
    have hn := congrArg UInt8.toNat h
    rw [UInt8.toNat_add] at hn
    have hlt := n.toNat_lt
    apply UInt8.toNat_inj.mp
    change (n.toNat + 1) % 256 = 0 at hn
    change n.toNat = 255
    omega
  · rintro rfl
    rfl

/-- The counter of the type stays right exactly if it does not wrap around. -/
theorem Inv.counts_own (hs : s.Inv) (text : Text)
    (hcounted : (s.res.msg type).count = 0 ↔ s.texts type = []) :
    (((s.after type text).res.msg type).count = 0 ↔ (s.after type text).texts type = []) ↔
      ((s.res.msg type).head < ResMsg.size → (s.res.msg type).count ≠ 255) := by
  have hhave := s.texts_after_ne_nil type text
  have hcount : ((s.after type text).res.msg type).count = _ :=
    (s.res.addv_count text (hs.head_le type)).1
  rw [hcount]
  by_cases hlt : (s.res.msg type).head < ResMsg.size
  · rw [if_pos hlt, count_succ, iff_false_right hhave]
    exact (imp_iff_right hlt).symm
  · -- nothing is counted, and there are messages already
    have hsome : s.texts type ≠ [] := by
      intro hnil
      rw [(hs.fresh type hnil).1] at hlt
      exact hlt (by decide)
    rw [if_neg hlt, UInt8.add_zero, hcounted]
    exact iff_of_true (iff_of_false hsome hhave) fun h => absurd h hlt

/-- The counter of another type stays right exactly if it is not cleared in use. -/
theorem Inv.counts_other (hs : s.Inv) {t : ResN} (text : Text) (ht : t ≠ type)
    (hcounted : (s.res.msg t).count = 0 ↔ s.texts t = []) :
    (((s.after type text).res.msg t).count = 0 ↔ (s.after type text).texts t = []) ↔
      ((s.res.msg type).Brimful → type.next = some t → (s.res.msg t).count = 0) := by
  have hcount : ((s.after type text).res.msg t).count = _ :=
    (s.res.addv_count text (hs.head_le type)).2 t ht
  rw [hcount, texts_after_of_ne s text ht, ← hcounted]
  by_cases hcleared : (s.res.msg type).Brimful ∧ type.next = some t
  · rw [if_pos hcleared, iff_true_left rfl]
    exact ⟨fun h _ _ => h, fun h => h hcleared.1 hcleared.2⟩
  · rw [if_neg hcleared]
    exact iff_of_true Iff.rfl fun hbrim hnext => absurd ⟨hbrim, hnext⟩ hcleared

/-- **One message** keeps the counters right exactly if it neither wraps its counter around
nor clears one that is in use. -/
theorem Inv.counted (hs : s.Inv) (hcounted : s.Counted) (hne : type ≠ .ok) (text : Text) :
    (s.after type text).Counted ↔ s.Counts type := by
  have hnext : ∀ {t}, type.next = some t → t ≠ type ∧ t ≠ .ok := by
    intro t ht
    cases type <;> cases ht <;> decide
  constructor
  · refine fun h => ⟨(hs.counts_own text (hcounted type hne)).mp (h type hne), fun hbrim t ht => ?_⟩
    obtain ⟨hother, hok⟩ := hnext ht
    exact (hs.counts_other text hother (hcounted t hok)).mp (h t hok) hbrim ht
  · rintro ⟨hwrap, hclear⟩ t hok
    by_cases ht : t = type
    · rw [ht]
      exact (hs.counts_own text (hcounted type hne)).mpr hwrap
    · exact (hs.counts_other text ht (hcounted t hok)).mpr fun hbrim => hclear hbrim t

theorem counted_init (h : reporting.init s) : s.Counted :=
  fun type _ => iff_of_true (msg_init h type).2 (texts_init h type)

/-- **When severities are lost.**  Along a run, `ae_log_res` reports every severity that has
messages in every state exactly if no message wraps the counter of its type around or, as it
fills up its buffer, clears the counter of the type behind it. -/
theorem logged_iff {τs : List (Transition ResHistory (ResN × Text))} (hs : reporting.init s)
    (hr : reporting.Run s τs t) :
    (s.Reported ∧ ∀ τ ∈ τs, τ.after.Reported) ↔ ∀ τ ∈ τs, τ.before.Counts τ.action.1 := by
  have hiff := hr.forall_iff (I := fun s => s.Inv ∧ s.Counted) (Q := fun _ _ t => t.Reported)
    (G := fun s a => s.Counts a.1) ?keep ?iff ⟨inv_init hs, counted_init hs⟩
  · rw [hiff]
    exact and_iff_right (reported_iff.mpr (counted_init hs))
  case keep =>
    rintro s a t ⟨hinv, hcounted⟩ ⟨hne, rfl⟩ hgood
    exact ⟨hinv.after a.1 a.2, (hinv.counted hcounted hne a.2).mpr hgood⟩
  case iff =>
    rintro s a t ⟨hinv, hcounted⟩ ⟨hne, rfl⟩
    rw [reported_iff]
    exact hinv.counted hcounted hne a.2

/-- Messages that fit are counted, as long as they do not fill up a buffer. -/
theorem counts_of_small (hs : reporting.Reachable s) {text : Text}
    (hsmall : (s.after type text).Small) (hlen : (joined (s.texts type)).length < 3999) :
    s.Counts type := by
  have hreads := small_reads hs (small_of_after hsmall) type
  have hroom := (hsmall type).1
  rw [texts_after_self, List.length_append, List.length_singleton] at hroom
  refine ⟨fun _ hwraps => ?_, fun hbrim => ?_⟩
  · have hcount := hreads.count
    rw [hwraps] at hcount
    have hfull : 255 = (s.texts type).length := hcount
    omega
  · have hhead := hreads.head.symm.trans hbrim.1
    have hfull : (joined (s.texts type)).length = 3999 := hhead
    omega

/-- Two errors and a warning are reported. -/
theorem logged_iff_three : none.Reported ∧ ∀ τ ∈ threeCalls, τ.after.Reported := by
  rw [logged_iff none_init threeCalls_run]
  have hsmall := small_of_after threeAdded_small
  simp only [threeCalls, script, List.forall_mem_cons, List.not_mem_nil, false_imp_iff,
    implies_true, and_true]
  refine ⟨?_, ?_, ?_⟩
  · exact counts_of_small (.of_init none_init) (small_of_after hsmall) (by decide)
  · exact counts_of_small opened_reachable hsmall (by decide)
  · exact counts_of_small retried_reachable threeAdded_small (by decide)

/-- So many empty errors. -/
def empties : Nat → ResHistory
  | 0 => none
  | n + 1 => (empties n).after .err []

theorem empties_reachable (n : Nat) : reporting.Reachable (empties n) := by
  induction n with
  | zero => exact .of_init none_init
  | succ n ih => exact reachable_after ih (by decide) []

theorem texts_empties (n : Nat) (type : ResN) :
    (empties n).texts type = if type = .err then List.replicate n [] else [] := by
  induction n with
  | zero => simp [empties, none, texts]
  | succ n ih =>
    by_cases htype : type = .err
    · rw [if_pos htype] at ih ⊢
      rw [htype] at ih ⊢
      rw [empties, texts_after_self, ih, ← List.replicate_succ']
    · rw [if_neg htype] at ih ⊢
      rw [empties, texts_after_of_ne _ _ htype, ih]

theorem joined_empties (n : Nat) : (joined (List.replicate n [])).length ≤ n := by
  induction n with
  | zero => exact Nat.le_refl _
  | succ n ih =>
    rw [List.replicate_succ', joined_concat, List.length_append]
    apply Nat.add_le_add ih
    split <;> simp

/-- After 256 errors there are none. -/
theorem wrapped_silent : ¬ ∀ s, reporting.Reachable s → s.Reported := by
  intro h
  have hsmall : (empties 255).Small := by
    intro type
    rw [texts_empties]
    have hjoined := joined_empties 255
    split
    · rw [List.length_replicate]
      exact ⟨Nat.le_refl _, Nat.le_trans hjoined (by decide)⟩
    · exact ⟨Nat.zero_le _, Nat.zero_le _⟩
  have hreads := small_reads (empties_reachable 255) hsmall .err
  rw [texts_empties, if_pos rfl] at hreads
  have hcount : ((empties 255).res.msg .err).count = 255 := by
    apply UInt8.toNat_inj.mp
    rw [hreads.count, List.length_replicate]
    rfl
  have hhead : ((empties 255).res.msg .err).head < ResMsg.size := by
    rw [hreads.head]
    exact Nat.lt_of_le_of_lt (joined_empties 255) (by decide)
  have hbefore := reported_iff.mp (h _ (empties_reachable 255))
  have hafter := reported_iff.mp (h _ (empties_reachable 256))
  have hinv : (empties 255).Inv :=
    (empties_reachable 255).invariant (fun s => inv_init)
      (fun s a t hs ⟨_, ht⟩ => ht ▸ hs.after a.1 a.2)
  exact ((hinv.counted hbefore (by decide) []).mp hafter).1 hhead hcount

end ResHistory
end Libae
