import Libae.ByteMemory
import Libae.Words

/-! # Result objects

`ae_res_t` (`res.h`, `res.c`) and the bounded print of `str.c`.  A result object
holds one message record for each `ae_res_n_t`; a record is a counter, a write
position `head` and a buffer `msg` of 4000 bytes.  `head` is modelled as its
offset from the start of `msg`, and the buffer as a `ByteMemory` over offsets.

The functions return the writes they perform, as offsets from `msg`, because
nothing in the code keeps those inside the buffer: the four records of an
`ae_res_t` lie back to back and `msg` is the last member of a record without
padding after it, so the byte at offset 4000 is the `count` of the next record
(`Res.poke`).
-/
namespace Libae
open ByteMemory

/-- The characters of a C string, without its NUL. -/
abbrev Text := List UInt8

/-- The characters of a string literal. -/
def ascii (s : String) : Text := s.toList.map (fun c => c.toNat.toUInt8)

/-- `'\0'`. -/
def nul : UInt8 := 0

/-- `'\n'`. -/
def newline : UInt8 := 10

/-- `ae_res_n_t`. -/
inductive ResN
  | ok
  | err
  | warn
  | info
  deriving DecidableEq, Repr

namespace ResN

/-- The value of the enumerator. -/
def value : ResN → Nat
  | ok => 0
  | err => 1
  | warn => 2
  | info => 3

/-- The type whose record follows in `ae_res_t.msg`. -/
def next : ResN → Option ResN
  | ok => some err
  | err => some warn
  | warn => some info
  | info => none

end ResN

/-- A message that a function adds to the result object it is given. -/
structure Msg where
  type : ResN
  text : Text
  deriving DecidableEq, Repr

/-! ## Bounded printing -/

namespace Str

/-- `vsnprintf(buf, bufLen, …)`, for a formatted text: it writes at most `bufLen`
bytes, the last of them a NUL, and returns the full length of the text. -/
def vsnprintf (buf bufLen : Nat) (text : Text) : Nat × List Write :=
  (text.length, if bufLen = 0 then [] else span buf (text.take (bufLen - 1) ++ [nul]))

/-- `ae_str_printv`: the returned length and the writes. -/
def printv (buf bufLen : Nat) (text : Text) : Nat × List Write :=
  let printed := vsnprintf buf bufLen text
  if printed.1 ≥ bufLen then
    (0, (buf, nul) :: (printed.2 ++ [(Word.add buf (Word.sub bufLen 1), nul)]))
  else
    (printed.1, (buf, nul) :: printed.2)

theorem mem_vsnprintf {buf bufLen : Nat} {text : Text} {w : Write}
    (h : w ∈ (vsnprintf buf bufLen text).2) : buf ≤ w.1 ∧ w.1 < buf + bufLen := by
  unfold vsnprintf at h
  split at h
  · cases h
  · have hw := mem_span h
    simp only [List.length_append, List.length_take, List.length_singleton] at hw
    omega

/-- A text that does not fit is cut, and counts for nothing. -/
theorem printv_of_le {buf bufLen : Nat} {text : Text} (h : bufLen ≤ text.length) :
    printv buf bufLen text =
      (0, (buf, nul) :: ((vsnprintf buf bufLen text).2 ++
        [(Word.add buf (Word.sub bufLen 1), nul)])) :=
  if_pos h

/-- A text that fits is stored with its NUL. -/
theorem printv_of_lt {buf bufLen : Nat} {text : Text} (h : text.length < bufLen) :
    printv buf bufLen text = (text.length, (buf, nul) :: (vsnprintf buf bufLen text).2) :=
  if_neg (Nat.not_le.mpr h)

/-- The returned length leaves room for the NUL. -/
theorem printv_fst_lt (buf : Nat) {bufLen : Nat} (text : Text) (hpos : 0 < bufLen) :
    (printv buf bufLen text).1 < bufLen := by
  rcases Nat.lt_or_ge text.length bufLen with h | h
  · rw [printv_of_lt h]
    exact h
  · rw [printv_of_le h]
    exact hpos

/-- With room for one byte, `ae_str_printv` writes only inside its buffer. -/
theorem mem_printv {buf bufLen : Nat} {text : Text} {w : Write} (hpos : 0 < bufLen)
    (hword : buf + bufLen < 2 ^ 64) (h : w ∈ (printv buf bufLen text).2) :
    buf ≤ w.1 ∧ w.1 < buf + bufLen := by
  have hlast : Word.add buf (Word.sub bufLen 1) = buf + (bufLen - 1) := by
    rw [Word.sub_eq (by omega) (by omega), Word.add_eq (by omega)]
  rcases Nat.lt_or_ge text.length bufLen with hfit | hcut
  · rw [printv_of_lt hfit] at h
    rcases List.mem_cons.mp h with rfl | h
    · simp [hpos]
    · exact mem_vsnprintf h
  · rw [printv_of_le hcut, hlast] at h
    simp only [List.mem_cons, List.mem_append, List.not_mem_nil, or_false] at h
    rcases h with rfl | h | rfl
    · simp [hpos]
    · exact mem_vsnprintf h
    · constructor <;> simp only <;> omega

end Str

/-! ## Message records -/

/-- `ae_res_msg_t`. -/
structure ResMsg where
  count : UInt8
  head : Nat
  msg : Mem

namespace ResMsg

/-- `sizeof(self->msg)`. -/
def size : Nat := 4000

/-- `ae_res_msg_init`. -/
def init (self : ResMsg) : ResMsg := { self with count := 0, head := 0 }

/-- `ae_res_msg_addv`: the record with its new `count` and `head`, and the bytes
written from `msg` on.  The bytes are stored by `Res.poke`, which knows what lies
behind the buffer. -/
def addv (self : ResMsg) (text : Text) : ResMsg × List Write :=
  let remain := Word.sub size self.head
  if remain = 0 then
    (self, [])
  else
    let (head, remain, sep) :=
      if self.count ≠ 0 then (self.head + 1, Word.sub remain 1, [(self.head, newline)])
      else (self.head, remain, [])
    let (res, printed) := Str.printv head remain text
    ({ self with head := head + res, count := self.count + 1 }, sep ++ printed)

/-- The next message would start with a separator in the last byte of the
buffer and print behind it. -/
def Brimful (self : ResMsg) : Prop := self.head = size - 1 ∧ self.count ≠ 0

instance (self : ResMsg) : Decidable self.Brimful := inferInstanceAs (Decidable (_ ∧ _))

end ResMsg

/-! ## Result objects -/

/-- `ae_res_t`. -/
structure Res where
  mask : UInt8
  msg : ResN → ResMsg

namespace Res

/-- Change one record. -/
def setMsg (self : Res) (type : ResN) (r : ResMsg) : Res :=
  { self with msg := Function.update self.msg type r }

/-- Store one byte at an offset from `msg[type].msg`.  Offset 4000 is the first
byte of the next record, its `count`; behind the last record it is outside the
object.  No function writes at a larger offset (`ResMsg.addv_le`). -/
def poke (self : Res) (type : ResN) (w : Write) : Res :=
  if w.1 < ResMsg.size then
    self.setMsg type { self.msg type with msg := Function.update (self.msg type).msg w.1 w.2 }
  else
    match type.next with
    | some t => if w.1 = ResMsg.size then self.setMsg t { self.msg t with count := w.2 } else self
    | none => self

/-- `ae_res_clear`. -/
def clear (self : Res) : Res := { self with msg := fun t => (self.msg t).init }

/-- `ae_res_init`. -/
def init (self : Res) : Res := clear { self with mask := 0 }

/-- `ae_res_addv` (and `ae_res_add`), with the bytes written from
`msg[type].msg` on. -/
def addv (self : Res) (type : ResN) (text : Text) : Res × List Write :=
  let self := { self with mask := self.mask ||| UInt8.ofNat (1 <<< (type.value - 1)) }
  let (record, writes) := (self.msg type).addv text
  (writes.foldl (fun r w => r.poke type w) (self.setMsg type record), writes)

@[simp] theorem setMsg_msg_self (self : Res) (type : ResN) (r : ResMsg) :
    (self.setMsg type r).msg type = r := by simp [setMsg]

theorem setMsg_msg_of_ne {self : Res} {t type : ResN} {r : ResMsg} (h : t ≠ type) :
    (self.setMsg type r).msg t = self.msg t := by simp [setMsg, h]

@[simp] theorem init_head (self : Res) (t : ResN) : (self.init.msg t).head = 0 := rfl

end Res
end Libae
