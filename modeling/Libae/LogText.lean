import Libae.Log
import Mathlib.Data.List.TakeDrop

/-! # What the log keeps of a result

`ae_log_res` puts the text of a type between braces, and `ae_logv` prints it behind the name of
the level, into a buffer as large as the one the text comes from.  One byte of it is kept for a
NUL, which `vsnprintf` then leaves room for once more.  So a record is cut behind its 3998th
byte, and a text keeps its end and its brace exactly if it has at most 3990 (`whole_iff`).
-/
namespace Libae
open ByteMemory Runs

namespace Log

/-- A record is as much longer than its text. -/
theorem line_length (lvl : LogLevel) (text : Text) : (line lvl text).length = text.length + 8 := by
  have hbraces : (ascii "\x7b" ++ text ++ ascii "\x7d").length = text.length + 2 := by
    rw [List.length_append, List.length_append, Nat.add_comm (ascii "\x7b").length]
    rfl
  rw [line, List.length_append, level_length, hbraces]
  omega

/-- The buffer holds the whole record of a text of at most 3990 bytes. -/
theorem take_line {lvl : LogLevel} {text : Text} :
    (line lvl text).take 3998 = line lvl text ↔ text.length ≤ 3990 := by
  rw [List.take_eq_self_iff, line_length]
  omega

end Log

namespace ResHistory
variable {s : ResHistory} {type : ResN}

/-- Each record that `ae_log_res` hands to the handler is the name of a level and, in braces,
all of the text of its type. -/
def LoggedWhole (s : ResHistory) : Prop :=
  ∀ log : Log, log.Open → ∀ r ∈ (log.logRes s.res).2,
    ∃ p ∈ Log.severities, r = .handler p.2 (Log.line p.2 (s.visible p.1))

/-- **The records** of messages that fit their buffers: one for each type that was added to, cut
behind the 3998th byte. -/
theorem logRes_small (hs : reporting.Reachable s) (hsmall : s.Small) {log : Log}
    (hopen : log.Open) :
    (log.logRes s.res).2 = (Log.severities.filter (fun p => s.texts p.1 ≠ [])).map
      (fun p => .handler p.2 ((Log.line p.2 (s.visible p.1)).take 3998)) := by
  obtain ⟨msg, hrecords, hmsg⟩ := Log.logRes_open hopen s.res
  have hcounted : Log.severities.filter (fun p => (s.res.msg p.1).count ≠ 0) =
      Log.severities.filter (fun p => s.texts p.1 ≠ []) := by
    apply List.filter_congr
    intro p _
    simp only [ne_eq, (small_reads hs hsmall p.1).count_eq_zero]
  rw [hrecords, hcounted]
  apply List.map_congr_left
  intro p hp
  obtain ⟨hmem, hsome⟩ := List.mem_filter.mp hp
  rw [hmsg p hmem, visible, if_neg (of_decide_eq_true hsome)]

/-- A result whose messages fit their buffers is logged whole exactly if its texts have at most
3990 bytes. -/
theorem whole_iff (hs : reporting.Reachable s) (hsmall : s.Small) :
    s.LoggedWhole ↔ ∀ type, type ≠ .ok → (s.visible type).length ≤ 3990 := by
  constructor
  · intro hwhole type hne
    by_cases hnone : s.texts type = []
    · rw [visible, if_pos hnone]
      exact Nat.zero_le _
    obtain ⟨lvl, hmem⟩ := mem_severities hne
    have hrecord : LogRecord.handler lvl ((Log.line lvl (s.visible type)).take 3998) ∈
        (Log.all.logRes s.res).2 := by
      rw [logRes_small hs hsmall Log.all_open]
      have hin : (type, lvl) ∈ Log.severities.filter (fun p => s.texts p.1 ≠ []) :=
        List.mem_filter.mpr ⟨hmem, decide_eq_true hnone⟩
      exact List.mem_map.mpr ⟨_, hin, rfl⟩
    obtain ⟨⟨t, l⟩, hp, hline⟩ := hwhole Log.all Log.all_open _ hrecord
    obtain ⟨rfl, htake⟩ := LogRecord.handler.inj hline
    rw [Log.severities_inj hp hmem] at htake
    exact Log.take_line.mp htake
  · intro hshort log hopen r hr
    rw [logRes_small hs hsmall hopen] at hr
    obtain ⟨p, hp, rfl⟩ := List.mem_map.mp hr
    have hmem := (List.mem_filter.mp hp).1
    have htake : (Log.line p.2 (s.visible p.1)).take 3998 = Log.line p.2 (s.visible p.1) :=
      Log.take_line.mpr (hshort p.1 (ne_ok_of_mem_severities hmem))
    exact ⟨p, hmem, congrArg _ htake⟩

/-- **When the log loses text.**  For messages that fit their buffers, at most 255 of a type,
`ae_log_res` hands over the records of all types that were added to.  They are whole exactly if
no text has more than 3990 bytes. -/
theorem logged_whole_iff (hs : reporting.Reachable s) (hcount : ∀ t, (s.texts t).length ≤ 255)
    (hlen : ∀ t, (joined (s.texts t)).length ≤ 3999) :
    (s.LoggedWhole ↔ ∀ type, type ≠ .ok → (s.visible type).length ≤ 3990) ∧
      (∀ log : Log, log.Open → (log.logRes s.res).2 =
        (Log.severities.filter (fun p => s.texts p.1 ≠ [])).map
          (fun p => .handler p.2 ((Log.line p.2 (s.visible p.1)).take 3998))) ∧
      ∀ type, s.texts type ≠ [] → nul ∉ joined (s.texts type) →
        s.visible type = joined (s.texts type) := by
  have hsmall : s.Small := fun t => ⟨hcount t, hlen t⟩
  refine ⟨whole_iff hs hsmall, fun log => logRes_small hs hsmall, fun type hsome hnul => ?_⟩
  rw [visible, if_neg hsome]
  exact (small_reads hs hsmall type).string_eq hsome (hlen type) hnul

/-- Two errors and a warning are logged whole. -/
theorem logged_whole_iff_three :
    (threeAdded.LoggedWhole ↔ ∀ type, type ≠ .ok → (threeAdded.visible type).length ≤ 3990) ∧
      (∀ log : Log, log.Open → (log.logRes threeAdded.res).2 =
        (Log.severities.filter (fun p => threeAdded.texts p.1 ≠ [])).map
          (fun p => .handler p.2 ((Log.line p.2 (threeAdded.visible p.1)).take 3998))) ∧
      ∀ type, threeAdded.texts type ≠ [] → nul ∉ joined (threeAdded.texts type) →
        threeAdded.visible type = joined (threeAdded.texts type) := by
  apply logged_whole_iff threeAdded_reachable
  · intro t
    cases t <;> decide
  · intro t
    cases t <;> decide

/-- An error of 3991 bytes fits its buffer, and is logged without its closing brace. -/
theorem long_text_cut :
    ¬ ∀ s, reporting.Reachable s → (∀ t, (s.texts t).length ≤ 255) →
      (∀ t, (joined (s.texts t)).length ≤ 3999) → s.LoggedWhole := by
  intro h
  obtain ⟨text, hlen, hnul⟩ : ∃ text : Text, text.length = 3991 ∧ nul ∉ text :=
    ⟨List.replicate 3991 97, List.length_replicate,
      fun h => absurd (List.eq_of_mem_replicate h) (by decide)⟩
  have hreach : reporting.Reachable (none.after .err text) :=
    reachable_after (.of_init none_init) (by decide) text
  have htexts : (none.after .err text).texts .err = [text] := texts_after_self none .err text
  have hjoined : joined ((none.after .err text).texts .err) = text := by
    rw [htexts]
    exact List.intercalate_singleton
  have hsmall : (none.after .err text).Small := by
    intro t
    by_cases ht : t = .err
    · rw [ht, hjoined, hlen, htexts]
      exact ⟨Nat.le_add_left 1 254, by decide⟩
    · rw [texts_after_of_ne _ _ ht]
      exact ⟨Nat.zero_le _, Nat.zero_le _⟩
  have hvisible : (none.after .err text).visible .err = text := by
    have hsome := none.texts_after_ne_nil .err text
    have hstring := (small_reads hreach hsmall .err).string_eq hsome (hsmall .err).2
    rw [hjoined] at hstring
    rw [visible, if_neg hsome, hstring hnul]
  have hshort := (whole_iff hreach hsmall).mp
    (h _ hreach (fun t => (hsmall t).1) (fun t => (hsmall t).2)) .err (by decide)
  rw [hvisible, hlen] at hshort
  exact absurd hshort (by decide)

end ResHistory
end Libae
