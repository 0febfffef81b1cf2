import Libae.Pool

/-! # Pointer arrays

`ae_ptrarray_t` (`ptrarray.h`, `ptrarray.c`): a growing array of pointers whose
slots lie in a pool.  The functions run on the heap and the array they are called
on; the slots are 8 bytes wide.  `pool` is not a field here: every array of a
`Heap` is in its pool.
-/
namespace Libae
open ByteMemory Fallible

/-- `ae_ptrarray_t`. -/
structure PtrArray where
  len : Nat
  data : Nat
  capacity : Nat
  deriving DecidableEq, Repr

namespace PtrArray
open Heap

/-- `ae_ptrarray_at(self, index)`. -/
def ptrAt (h : Heap) (self : PtrArray) (index : Nat) : UInt64 :=
  loadWord h.mem (self.data + 8 * index)

/-- `ae_ptrarray_set(self, index, val)`. -/
def set (index : Nat) (val : UInt64) : Fallible (Heap × PtrArray) Unit :=
  modify (fun (h, self) => (h.store (storeWord (self.data + 8 * index) val), self))

variable (page : Nat) (mremap : Mremap)

/-- `ae_ptrarray_grow_capacity`. -/
def growCapacity (increaseBy : Nat) : Fallible (Heap × PtrArray) Unit := do
  let self := (← get).2
  let newCapacity := Word.add self.capacity increaseBy
  let new ← onFst (Pool.realloc page mremap self.data (Word.mul self.len 8)
    (Word.mul newCapacity 8))
  modify (fun (h, self) => (h, { self with capacity := newCapacity, data := new }))

/-- `ps_ptrarray_grow`. -/
def grow (increaseBy : Nat) : Fallible (Heap × PtrArray) Unit := do
  let self := (← get).2
  let newLen := Word.add self.len increaseBy
  if newLen < self.capacity then
    onFst (resErr (ascii "could not grow array to " ++ ascii (toString newLen)))
    fail
  if newLen > self.capacity then
    growCapacity page mremap (Word.sub newLen self.capacity)
  modify (fun (h, self) => (h, { self with len := newLen }))

/-- `ae_ptrarray_init`. -/
def init (initialSize : Nat) : Fallible (Heap × PtrArray) Unit := do
  let data ← onFst (Pool.alloc page mremap (Word.mul 8 initialSize))
  modify (fun (h, _) => (h, { len := 0, data := data, capacity := initialSize }))

/-- `ae_ptrarray_append`. -/
def append (item : UInt64) : Fallible (Heap × PtrArray) Unit := do
  let self := (← get).2
  if self.len = self.capacity then
    growCapacity page mremap 16
  modify (fun (h, self) => (h.store (storeWord (self.data + 8 * self.len) item),
    { self with len := Word.add self.len 1 }))

/-- `ae_ptrarray_remove`. -/
def remove (index : Nat) : Fallible (Heap × PtrArray) Unit := do
  let (h, self) ← get
  if self.len = 0 then
    return
  if self.len > 1 then
    set index (ptrAt h self (self.len - 1))
  modify (fun (h, self) => (h, { self with len := self.len - 1 }))

/-- `ae_ptrarray_shrink`. -/
def shrink (newSize : Nat) : Fallible (Heap × PtrArray) Unit := do
  let self := (← get).2
  if newSize ≥ self.len then
    return
  modify (fun (h, self) => (h, { self with len := newSize }))

/-- `ae_ptrarray_dup`: runs on the array `out`, which is left with the length and
the capacity of `self` also when the allocation fails. -/
def dup (self : PtrArray) : Fallible (Heap × PtrArray) Unit := do
  modify (fun (h, out) => (h, { out with len := self.len, capacity := self.capacity }))
  let nBytes := Word.mul self.capacity 8
  let data ← onFst (Pool.alloc page mremap nBytes)
  modify (fun (h, out) => (h, { out with data := data }))
  onFst (memcpy data self.data nBytes)

end PtrArray
end Libae
