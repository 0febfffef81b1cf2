import Libae.Fallible
import Libae.Res

/-! # The memory pool

`ae_pool_t` (`pool.h`, `pool.c`): one anonymous mapping handed out from its
start on, `next` being the first byte not handed out.  The functions run on a
`Heap`: the pool, the memory it lies in, and the messages added to the result
object `e`.  Addresses and sizes are 64-bit words; the build is the `_LP64` one,
so blocks are aligned to 16 bytes.

The kernel is a parameter.  `mremap` answers with an address or with
`MAP_FAILED` and an error text; it may answer differently at every call.
-/
namespace Libae
open ByteMemory Fallible

/-- `ae_pool_t`. -/
structure Pool where
  len : Nat
  start : Nat
  endPtr : Nat
  next : Nat
  deriving DecidableEq, Repr

/-- What the pool functions work on.  `written` records every write so far. -/
structure Heap where
  pool : Pool
  mem : Mem
  written : List Write
  e : List Msg

namespace Heap

/-- `ae_res_err(e, …)`. -/
def resErr (text : Text) : Fallible Heap Unit :=
  modify (fun h => { h with e := h.e ++ [⟨.err, text⟩] })

/-- Assign to the pool's fields. -/
def setPool (pool : Pool) : Fallible Heap Unit := modify (fun h => { h with pool := pool })

/-- The heap after some writes. -/
def store (h : Heap) (ws : List Write) : Heap :=
  { h with mem := commit h.mem ws, written := h.written ++ ws }

/-- `memset(a, 0, len)`. -/
def memset (a len : Nat) : Fallible Heap Unit :=
  modify (fun h => h.store (span a (List.replicate len 0)))

/-- `memcpy(d, s, len)`. -/
def memcpy (d s len : Nat) : Fallible Heap Unit :=
  modify (fun h => h.store (span d (load h.mem s len)))

end Heap

/-- `mremap(old_address, old_size, new_size, 0)`: the address, or the text of the
error. -/
abbrev Mremap := Nat → Nat → Nat → Except Text Nat

/-- `mmap(NULL, length, …)`: the address, or the text of the error. -/
abbrev Mmap := Nat → Except Text Nat

/-- `%p`. -/
def formatPointer (a : Nat) : Text :=
  ascii "0x" ++ (Nat.toDigits 16 a).map (fun c => c.toNat.toUInt8)

namespace Pool
open Heap

/-- `ALIGN_PTR`. -/
def alignPtr (p a : Nat) : Nat := Word.add p (Word.sub a 1) &&& Word.not (Word.sub a 1)

/-- `MAP_FAILED`. -/
def mapFailed : Nat := 2 ^ 64 - 1

/-- `pages_needed * page_size` for a size in bytes. -/
def pagesLen (page size : Nat) : Nat :=
  Word.mul (Word.sub (Word.add size page) 1 / page) page

variable (page : Nat)

/-- `ae_pool_init`. -/
def init (mmap : Mmap) (initialSize : Nat) : Fallible Heap Unit := do
  let self := (← get).pool
  let len := pagesLen page initialSize
  match mmap len with
  | .error errno =>
    setPool { self with len := len, start := mapFailed }
    resErr (ascii "mmap: " ++ errno)
    fail
  | .ok start =>
    setPool { len := len, start := start, next := start, endPtr := Word.add start len }

/-- `ae_pool_reset`. -/
def reset : Fallible Heap Unit := do
  let self := (← get).pool
  setPool { self with next := self.start }

/-- `ae_pool_remap`. -/
def remap (mremap : Mremap) (more : Nat) : Fallible Heap Unit := do
  let self := (← get).pool
  let newTotal := Word.add self.len more
  let newLen := pagesLen page newTotal
  match mremap self.start self.len newLen with
  | .error errno =>
    resErr (ascii "memory remap failure: " ++ errno)
    fail
  | .ok new =>
    if new ≠ self.start then
      resErr (ascii "remap did not return expected address! (expected=" ++
        formatPointer self.start ++ ascii ", got=" ++ formatPointer new ++ ascii ")")
      fail
    setPool { self with len := newLen, endPtr := Word.add self.start newLen }

/-- `ae_pool_alloc`: the address stored through the out parameter. -/
def alloc (mremap : Mremap) (len : Nat) : Fallible Heap Nat := do
  let next := alignPtr (← get).pool.next 16
  if Word.add next len > (← get).pool.endPtr then
    remap page mremap len
  let self := (← get).pool
  setPool { self with next := Word.add next len }
  return next

/-- `ae_pool_calloc`. -/
def calloc (mremap : Mremap) (len : Nat) : Fallible Heap Nat := do
  let out ← alloc page mremap len
  memset out len
  return out

/-- `ae_pool_realloc`. -/
def realloc (mremap : Mremap) (src srcLen newLen : Nat) : Fallible Heap Nat := do
  let self := (← get).pool
  if src = Word.sub self.next srcLen then
    resErr (ascii "this special case hasn't been implemented")
    fail
  let blob ← alloc page mremap newLen
  memcpy blob src srcLen
  return blob

/-- The length `ae_pool_strdup` asks for. -/
def strdupLen (src : Text) (srcLen : Int) : Nat :=
  Word.add (if srcLen = -1 then src.length else (srcLen % 2 ^ 64).toNat) 1

/-- `strncpy(out, src, len)`: the string, padded with NULs to `len` bytes. -/
def strncpy (src : Text) (len : Nat) : List UInt8 :=
  src.take len ++ List.replicate (len - src.length) nul

/-- `ae_pool_strdup`, for the C string `src`. -/
def strdup (mremap : Mremap) (src : Text) (srcLen : Int) : Fallible Heap Nat := do
  let len := strdupLen src srcLen
  let out ← alloc page mremap len
  modify (fun h => h.store (span out (strncpy src len)))
  return out

end Pool
end Libae
