import Libae.PtrArrayCapacity

/-! # What failed calls leave

When the kernel refuses to enlarge the mapping, the calls in progress return `false` one
after the other, up to four of them.  They assign behind the call that may fail, so what
was there before is there afterwards: the pool, the memory, the output pointer, and the
array.  One of them assigns in front of it: `ae_ptrarray_dup` gives its destination the
pool, the length and the capacity, and asks for the memory then.  So a failed call
leaves everything as it was, unless it is such a call (`failed_kept_iff`).
-/
namespace Libae
open Fallible

/-- `ae_ptrarray_t` with its `pool`. -/
structure PooledArray extends PtrArray where
  pool : Nat
  deriving DecidableEq

/-- What a call works on: the pool it allocates from and the memory, the pointer that `out`
points to, and the array. -/
structure Caller where
  heap : Heap
  out : Nat
  array : PooledArray

namespace Caller

/-- A call that is given the pool. -/
def onHeap {α : Type} (x : Fallible Heap α) : Fallible Caller α :=
  ⟨fun s => ((x.run s.heap).1, { s with heap := (x.run s.heap).2 })⟩

/-- A call that is given the array. -/
def onArray {α : Type} (x : Fallible (Heap × PtrArray) α) : Fallible Caller α :=
  ⟨fun s =>
    let r := x.run (s.heap, s.array.toPtrArray)
    (r.1, { s with heap := r.2.1, array := { s.array with toPtrArray := r.2.2 } })⟩

/-- `*out = a`. -/
def setOut (a : Nat) : Fallible Caller Unit := modify (fun s => { s with out := a })

/-- `self->pool = pool`. -/
def setPool (pool : Nat) : Fallible Caller Unit :=
  modify (fun s => { s with array := { s.array with pool := pool } })

variable (page : Nat) (mremap : Mremap)

/-- `ae_pool_alloc`, with the out parameter. -/
def alloc (len : Nat) : Fallible Caller Unit := do
  let next ← onHeap (Pool.alloc page mremap len)
  setOut next

/-- `ae_pool_calloc`, with the out parameter. -/
def calloc (len : Nat) : Fallible Caller Unit := do
  alloc page mremap len
  let out := (← get).out
  onHeap (Heap.memset out len)

/-- `ae_pool_realloc`, with the out parameter. -/
def realloc (src srcLen newLen : Nat) : Fallible Caller Unit := do
  let blob ← onHeap (Pool.realloc page mremap src srcLen newLen)
  setOut blob

/-- `ae_pool_strdup`, with the out parameter. -/
def strdup (src : Text) (srcLen : Int) : Fallible Caller Unit := do
  let len := Pool.strdupLen src srcLen
  alloc page mremap len
  let out := (← get).out
  onHeap (modify fun h => h.store (ByteMemory.span out (Pool.strncpy src len)))

/-- `ae_ptrarray_init`, with the pool. -/
def init (pool initialSize : Nat) : Fallible Caller Unit := do
  onArray (PtrArray.init page mremap initialSize)
  setPool pool

/-- `ae_ptrarray_dup`, with the pool. -/
def dup (self : PtrArray) (pool : Nat) : Fallible Caller Unit := do
  setPool pool
  onArray (PtrArray.dup page mremap self)

end Caller

/-- A call that allocates, with the kernel's answers. -/
inductive AllocCall
  | alloc (mremap : Mremap) (len : Nat)
  | calloc (mremap : Mremap) (len : Nat)
  | realloc (mremap : Mremap) (src srcLen newLen : Nat)
  | strdup (mremap : Mremap) (src : Text) (srcLen : Int)
  | init (mremap : Mremap) (pool initialSize : Nat)
  | append (mremap : Mremap) (item : UInt64)
  | growCapacity (mremap : Mremap) (increaseBy : Nat)
  | grow (mremap : Mremap) (increaseBy : Nat)
  | dup (mremap : Mremap) (self : PtrArray) (pool : Nat)

/-- The call. -/
def AllocCall.body (page : Nat) : AllocCall → Fallible Caller Unit
  | .alloc k len => Caller.alloc page k len
  | .calloc k len => Caller.calloc page k len
  | .realloc k src srcLen newLen => Caller.realloc page k src srcLen newLen
  | .strdup k src srcLen => Caller.strdup page k src srcLen
  | .init k pool initialSize => Caller.init page k pool initialSize
  | .append k item => Caller.onArray (PtrArray.append page k item)
  | .growCapacity k increaseBy => Caller.onArray (PtrArray.growCapacity page k increaseBy)
  | .grow k increaseBy => Caller.onArray (PtrArray.grow page k increaseBy)
  | .dup k self pool => Caller.dup page k self pool

/-! ## The pool -/

namespace Pool
variable {page : Nat} {mremap : Mremap}

/-- What the pool functions must not change when they fail. -/
def held (h : Heap) : Pool × ByteMemory.Mem := (h.pool, h.mem)

theorem frame_resErr (text : Text) : Frame held (Heap.resErr text) := .modify fun _ => rfl

theorem atomic_remap (more : Nat) : Atomic held (remap page mremap more) := by
  intro h hfail
  have hnew : pagesLen page (Word.add h.pool.len more) = _ := rfl
  obtain ⟨-, text, hr⟩ | ⟨-, hr⟩ := remap_granted mremap hnew
  · rw [hr]
    rfl
  · rw [hr] at hfail
    cases hfail

theorem atomic_alloc (len : Nat) : Atomic held (alloc page mremap len) := by
  have hlast : ∀ next, Total (do
      let self := (← get).pool
      Heap.setPool { self with next := Word.add next len }
      return next : Fallible Heap Nat) :=
    fun next => Total.get.bind fun _ => (Total.modify _).bind fun _ => .pure next
  refine Frame.get.bind_atomic (fun h => Frame.get.bind_atomic (fun h' => ?_))
  dsimp only
  split
  · exact (atomic_remap len).bind_total (fun _ => hlast _)
  · exact (hlast _).atomic

theorem atomic_realloc (src srcLen newLen : Nat) :
    Atomic held (realloc page mremap src srcLen newLen) := by
  refine Frame.get.bind_atomic (fun h => ?_)
  have hcopy : Atomic held (do
      let blob ← alloc page mremap newLen
      Heap.memcpy blob src srcLen
      return blob) :=
    (atomic_alloc newLen).bind_total fun blob => (Total.modify _).bind fun _ => .pure blob
  dsimp only
  split
  · exact ((frame_resErr _).bind fun _ => .fail).atomic
  · exact hcopy

/-- The pool cannot supply the block: it ends behind the mapping, and `mremap` does not
enlarge that in place. -/
def Short (page : Nat) (mremap : Mremap) (len : Nat) (p : Pool) : Prop :=
  Word.add (alignPtr p.next 16) len > p.endPtr ∧
    mremap p.start p.len (pagesLen page (Word.add p.len len)) ≠ .ok p.start

/-- **When `ae_pool_alloc` fails.** -/
theorem alloc_fails_iff {len : Nat} {h : Heap} :
    ((alloc page mremap len).run h).1 = none ↔ Short page mremap len h.pool := by
  rw [alloc, bind_of_some (get_run h), bind_of_some (get_run h), Short]
  by_cases hgrow : Word.add (alignPtr h.pool.next 16) len > h.pool.endPtr
  · rw [if_pos hgrow, and_iff_right hgrow, bind_run]
    have hnew : pagesLen page (Word.add h.pool.len len) = _ := rfl
    obtain ⟨hno, text, hr⟩ | ⟨hok, hr⟩ := remap_granted mremap hnew <;> rw [hr]
    · exact iff_of_true rfl hno
    · exact iff_of_false (Option.some_ne_none _) (not_not_intro hok)
  · rw [if_neg hgrow]
    exact iff_of_false (Option.some_ne_none _) (fun hshort => hgrow hshort.1)

end Pool

/-! ## The arrays -/

namespace PtrArray
variable {page : Nat} {mremap : Mremap}

/-- What the array functions must not change when they fail. -/
def held (s : Heap × PtrArray) : (Pool × ByteMemory.Mem) × PtrArray := (Pool.held s.1, s.2)

theorem atomic_growCapacity (increaseBy : Nat) :
    Atomic held (growCapacity page mremap increaseBy) := by
  refine Frame.get.bind_atomic (fun s => ?_)
  exact (Pool.atomic_realloc _ _ _).onFst.bind_total (fun _ => .modify _)

theorem atomic_grow (increaseBy : Nat) : Atomic held (grow page mremap increaseBy) := by
  refine Frame.get.bind_atomic (fun s => ?_)
  dsimp only
  split
  · -- the error is added, and nothing follows
    have herr : Frame held (onFst (Heap.resErr (ascii "could not grow array to " ++
        ascii (toString (Word.add s.2.len increaseBy)))) : Fallible (Heap × PtrArray) Unit) :=
      .modify fun _ => rfl
    exact herr.bind_atomic (fun _ _ _ => rfl)
  · split
    · exact (atomic_growCapacity _).bind_total (fun _ => .modify _)
    · exact (Total.modify _).atomic

theorem atomic_init (initialSize : Nat) : Atomic held (init page mremap initialSize) :=
  (Pool.atomic_alloc _).onFst.bind_total (fun _ => .modify _)

theorem atomic_append (item : UInt64) : Atomic held (append page mremap item) := by
  refine Frame.get.bind_atomic (fun s => ?_)
  dsimp only
  split
  · exact (atomic_growCapacity 16).bind_total (fun _ => .modify _)
  · exact (Total.modify _).atomic

end PtrArray

/-! ## The calls -/

namespace Caller
variable {page : Nat} {mremap : Mremap}

/-- What a failed call has to leave as it was: the pool, the memory, the output pointer, and
the array. -/
def held (s : Caller) : Pool × ByteMemory.Mem × Nat × PooledArray :=
  (s.heap.pool, s.heap.mem, s.out, s.array)

section Zoom
variable {α : Type}

theorem Total.onHeap {x : Fallible Heap α} (h : Total x) : Total (onHeap x) := fun s => h s.heap

theorem Atomic.onHeap {x : Fallible Heap α} (h : Atomic Pool.held x) : Atomic held (onHeap x) := by
  intro s hfail
  exact congrArg (fun p => (p.1, p.2, s.out, s.array)) (h s.heap hfail)

theorem Atomic.onArray {x : Fallible (Heap × PtrArray) α} (h : Atomic PtrArray.held x) :
    Atomic held (onArray x) := by
  intro s hfail
  exact congrArg (fun p => (p.1.1, p.1.2, s.out, { s.array with toPtrArray := p.2 }))
    (h (s.heap, s.array.toPtrArray) hfail)

end Zoom

theorem atomic_alloc (len : Nat) : Atomic held (alloc page mremap len) :=
  (Atomic.onHeap (Pool.atomic_alloc len)).bind_total (fun _ => .modify _)

theorem atomic_calloc (len : Nat) : Atomic held (calloc page mremap len) :=
  (atomic_alloc len).bind_total fun _ => Total.get.bind fun _ => Total.onHeap (.modify _)

theorem atomic_realloc (src srcLen newLen : Nat) :
    Atomic held (realloc page mremap src srcLen newLen) :=
  (Atomic.onHeap (Pool.atomic_realloc src srcLen newLen)).bind_total (fun _ => .modify _)

theorem atomic_strdup (src : Text) (srcLen : Int) : Atomic held (strdup page mremap src srcLen) :=
  (atomic_alloc _).bind_total fun _ => Total.get.bind fun _ => Total.onHeap (.modify _)

theorem atomic_init (pool initialSize : Nat) : Atomic held (init page mremap pool initialSize) :=
  (Atomic.onArray (PtrArray.atomic_init initialSize)).bind_total (fun _ => .modify _)

/-- The destination of `ae_ptrarray_dup` is as the call will leave it, but for the slots. -/
def Filled (array : PooledArray) (self : PtrArray) (pool : Nat) : Prop :=
  array.pool = pool ∧ array.len = self.len ∧ array.capacity = self.capacity

/-- **A failed `ae_ptrarray_dup`** has filled in the destination all the same. -/
theorem dup_fails {self : PtrArray} {pool : Nat} {s t : Caller}
    (hr : (dup page mremap self pool).run s = (none, t)) :
    t.held = (s.heap.pool, s.heap.mem, s.out,
      ⟨⟨self.len, s.array.data, self.capacity⟩, pool⟩) := by
  have hatomic : Atomic Pool.held (Pool.alloc page mremap (Word.mul self.capacity 8)) :=
    Pool.atomic_alloc _
  have hheld := hatomic s.heap
  simp only [dup, bind_run, setPool, modify_run, onArray, PtrArray.dup_run] at hr
  rcases ha : (Pool.alloc page mremap (Word.mul self.capacity 8)).run s.heap with ⟨_ | data, h⟩ <;>
    rw [ha] at hr hheld
  · cases hr
    exact congrArg (fun p => (p.1, p.2, s.out, _)) (hheld rfl)
  · cases hr

theorem dup_fails_iff {self : PtrArray} {pool : Nat} {s : Caller} :
    ((dup page mremap self pool).run s).1 = none ↔
      Pool.Short page mremap (Word.mul self.capacity 8) s.heap.pool := by
  rw [← Pool.alloc_fails_iff]
  simp only [dup, bind_run, setPool, modify_run, onArray, PtrArray.dup_run]
  rcases (Pool.alloc page mremap (Word.mul self.capacity 8)).run s.heap with ⟨_ | data, h⟩ <;> simp

end Caller

/-- **Every call but `ae_ptrarray_dup`** leaves everything as it was if it fails. -/
theorem AllocCall.atomic {page : Nat} {c : AllocCall}
    (hdup : ∀ k self pool, c ≠ .dup k self pool) : Atomic Caller.held (c.body page) := by
  cases c with
  | alloc k len => exact Caller.atomic_alloc len
  | calloc k len => exact Caller.atomic_calloc len
  | realloc k src srcLen newLen => exact Caller.atomic_realloc src srcLen newLen
  | strdup k src srcLen => exact Caller.atomic_strdup src srcLen
  | init k pool initialSize => exact Caller.atomic_init pool initialSize
  | append k item => exact Caller.Atomic.onArray (PtrArray.atomic_append item)
  | growCapacity k increaseBy =>
    exact Caller.Atomic.onArray (PtrArray.atomic_growCapacity increaseBy)
  | grow k increaseBy => exact Caller.Atomic.onArray (PtrArray.atomic_grow increaseBy)
  | dup k self pool => exact absurd rfl (hdup k self pool)

/-- **When failed calls leave everything as it was.**  For each of the nine calls, every state of
the pool, the memory, the output pointer and the array, all arguments and every answer of
`mremap`: if the call fails, everything is as before, if and only if the call is no
`ae_ptrarray_dup` that the pool cannot supply and whose destination has another pool,
length or capacity than the call assigns. -/
theorem failed_kept_iff (page : Nat) (c : AllocCall) (s : Caller) :
    (∀ t, (c.body page).run s = (none, t) → t.held = s.held) ↔
      ∀ k self pool, c = .dup k self pool →
        Pool.Short page k (Word.mul self.capacity 8) s.heap.pool →
          Caller.Filled s.array self pool := by
  by_cases hdup : ∃ k self pool, c = .dup k self pool
  · obtain ⟨k, self, pool, rfl⟩ := hdup
    constructor
    · rintro hkept k' self' pool' heq hshort
      cases heq
      obtain ⟨t, hr⟩ : ∃ t, (Caller.dup page k self pool).run s = (none, t) :=
        ⟨_, Prod.ext (Caller.dup_fails_iff.mpr hshort) rfl⟩
      have harray := congrArg (fun p => p.2.2.2) ((Caller.dup_fails hr).symm.trans (hkept t hr))
      have hfilled : s.array = ⟨⟨self.len, s.array.data, self.capacity⟩, pool⟩ := harray.symm
      rw [hfilled]
      exact ⟨rfl, rfl, rfl⟩
    · intro hfilled t hr
      have hshort := Caller.dup_fails_iff.mp (congrArg Prod.fst hr)
      obtain ⟨hpool, hlen, hcapacity⟩ := hfilled k self pool rfl hshort
      rw [Caller.dup_fails hr, ← hpool, ← hlen, ← hcapacity]
      rfl
  · push Not at hdup
    refine iff_of_true (fun t hr => ?_) (fun k self pool h => absurd h (hdup k self pool))
    have hatomic : Atomic Caller.held (c.body page) := AllocCall.atomic hdup
    have hheld := hatomic s
    rw [hr] at hheld
    exact hheld rfl

/-- A pool of one page, handed out to the end. -/
def fullPool : Caller where
  heap := ⟨⟨4096, 4096, 8192, 8192⟩, fun _ => 0, [], []⟩
  out := 0
  array := ⟨⟨0, 0, 0⟩, 0⟩

/-- `ae_ptrarray_dup` into a cleared array, in a pool that cannot grow: the array is said to
have the 2 items of the other one, and has no slots. -/
theorem dup_claims_items : ∃ t,
    (AllocCall.body 4096 (.dup (fun _ _ _ => .error []) ⟨2, 4096, 16⟩ 7)).run fullPool = (none, t) ∧
      t.array.len = 2 ∧ t.array.data = 0 ∧ fullPool.array.len = 0 :=
  ⟨_, rfl, rfl, rfl, rfl⟩

end Libae
