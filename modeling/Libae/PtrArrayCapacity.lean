import Libae.PoolLimits
import Libae.PtrArrayLists

/-! # The capacity of an array and the memory behind it

An array keeps its capacity in slots, and asks the pool for bytes.  Here the arguments of the
calls are any words, so the products may wrap: then the pool hands out a small block, and the
array records a large capacity for it.  And a request may be out of the pool's reach
(`Pool.InReach`): then the pool hands out a block that it has no memory for.

Beside each array stands the end of the block that its `data` points to, where the call that took
the block left `next`.  The size of the block is what is mapped between the two, in exact
arithmetic (`Pool.mapped`).  The capacity of every array is backed in every state exactly if in
each call that the pool serves no product wraps and the request is in reach, no call of
`ae_ptrarray_remove` has an index above the capacity, and no `ae_ptrarray_dup` fails into an array
with a smaller block, or with none (`backed_iff`).
-/
namespace Libae
open ByteMemory Fallible Runs

/-- The bytes from `a` up to `b` that lie in the mapping. -/
def Pool.mapped (p : Pool) (a b : Nat) : Nat := if p.start ≤ a then min b p.endPtr - a else 0

/-- The capacity of the array is backed by its block, which ends at `blockEnd`. -/
structure PtrArray.BackedBy (a : PtrArray) (p : Pool) (blockEnd : Nat) : Prop where
  len_le : a.len ≤ a.capacity
  fits : 8 * a.capacity ≤ p.mapped a.data blockEnd

/-- An `ae_ptrarray_t`, and the end of the block that `data` points to.  There is no such end
before the array was filled in, and it is 0 if the array was filled in without a block. -/
structure Backed where
  array : PtrArray
  blockEnd : Option Nat

/-- The capacity of the array, if it was filled in, is backed. -/
def Backed.Sound (b : Backed) (p : Pool) : Prop :=
  ∀ blockEnd, b.blockEnd = some blockEnd → b.array.BackedBy p blockEnd

/-- The calls a program makes on arrays, each with the kernel's answers, and its other uses of
the pool.  `ae_ptrarray_init` and `ae_ptrarray_dup` may be given an array that is in use. -/
inductive BackingOp
  | pool (op : Pool.Op)
  | init (mremap : Mremap) (i initialSize : Nat)
  | append (mremap : Mremap) (i : Nat) (item : UInt64)
  | growCapacity (mremap : Mremap) (i increaseBy : Nat)
  | grow (mremap : Mremap) (i increaseBy : Nat)
  | remove (i index : Nat)
  | shrink (i newSize : Nat)
  | dup (mremap : Mremap) (i out : Nat)

/-- A heap, and the program's arrays; those that were not filled in yet hold anything. -/
structure Backing where
  heap : Heap
  arrays : Nat → Backed

namespace Backing

/-- Run a function on the array `i`; `takes` says whether it takes a new block if it
succeeds. -/
def on (s : Backing) (i : Nat) (takes : PtrArray → Bool) (x : Fallible (Heap × PtrArray) Unit) :
    Backing :=
  let b := s.arrays i
  let r := x.run (s.heap, b.array)
  ⟨r.2.1, Function.update s.arrays i ⟨r.2.2,
    if r.1.isSome && takes b.array then some r.2.1.pool.next else b.blockEnd⟩⟩

/-- The array `i` is filled in, also if it gets no block. -/
def fillIn (s : Backing) (i : Nat) : Backing :=
  ⟨s.heap, Function.update s.arrays i
    ⟨(s.arrays i).array, some ((s.arrays i).blockEnd.getD 0)⟩⟩

/-- The arrays after a call. -/
def call (page : Nat) (s : Backing) : BackingOp → Backing
  | .pool op => ⟨(Pool.Session.call page ⟨s.heap, []⟩ op).heap, s.arrays⟩
  | .init k i initialSize => s.on i (fun _ => true) (PtrArray.init page k initialSize)
  | .append k i item => s.on i (fun a => a.len = a.capacity) (PtrArray.append page k item)
  | .growCapacity k i increaseBy =>
    s.on i (fun _ => true) (PtrArray.growCapacity page k increaseBy)
  | .grow k i increaseBy =>
    s.on i (fun a => a.capacity < Word.add a.len increaseBy) (PtrArray.grow page k increaseBy)
  | .remove i index => s.on i (fun _ => false) (PtrArray.remove index)
  | .shrink i newSize => s.on i (fun _ => false) (PtrArray.shrink newSize)
  | .dup k i out =>
    -- the length and the capacity are set before the pool is asked
    (s.fillIn out).on out (fun _ => true) (PtrArray.dup page k (s.arrays i).array)

/-- The array and the slot of it that the call writes an item to. -/
def slot (page : Nat) (s : Backing) : BackingOp → Option (Nat × Nat)
  | .append k i item =>
    if ((PtrArray.append page k item).run (s.heap, (s.arrays i).array)).1.isSome then
      some (i, (s.arrays i).array.len)
    else none
  | .remove i index => if 1 < (s.arrays i).array.len then some (i, index) else none
  | _ => none

/-- The capacities of all arrays are backed. -/
def AllSound (s : Backing) : Prop := ∀ i, (s.arrays i).Sound s.heap.pool

/-- The call leaves all capacities backed, and writes its item below the capacity. -/
structure Keeps (page : Nat) (s : Backing) (op : BackingOp) (t : Backing) : Prop where
  sound : t.AllSound
  below : ∀ i slot, s.slot page op = some (i, slot) → slot < (t.arrays i).array.capacity

/-- The pool supplies a block of so many bytes. -/
def Supplies (page : Nat) (mremap : Mremap) (h : Heap) (len : Nat) : Prop :=
  ((Pool.alloc page mremap len).run h).1.isSome

/-- The pool supplies the block that is asked for to give the array so many slots. -/
def Regrows (page : Nat) (mremap : Mremap) (h : Heap) (a : PtrArray) (newCapacity : Nat) : Prop :=
  ((Pool.realloc page mremap a.data (Word.mul a.len 8) (Word.mul newCapacity 8)).run h).1.isSome

/-- So many slots are a number of bytes, which is in the reach of the pool. -/
structure Reaches (page : Nat) (mremap : Mremap) (p : Pool) (capacity : Nat) : Prop where
  bytes_lt : 8 * capacity < 2 ^ 64
  inReach : Pool.InReach page mremap (8 * capacity) p

/-- In a call that the pool serves the block is in reach and no array loses capacity it uses, an
item is removed below the capacity, and an array that a failed `ae_ptrarray_dup` was to fill in
has a block for the capacity it is left with. -/
def Fits (page : Nat) (s : Backing) : BackingOp → Prop
  | .init k _ initialSize => Supplies page k s.heap (Word.mul 8 initialSize) →
    Reaches page k s.heap.pool initialSize
  | .append k i _ => (s.arrays i).array.len = (s.arrays i).array.capacity →
    Regrows page k s.heap (s.arrays i).array ((s.arrays i).array.capacity + 16) →
      Reaches page k s.heap.pool ((s.arrays i).array.capacity + 16)
  | .growCapacity k i increaseBy =>
    Regrows page k s.heap (s.arrays i).array (Word.add (s.arrays i).array.capacity increaseBy) →
      (s.arrays i).array.len ≤ Word.add (s.arrays i).array.capacity increaseBy ∧
        Reaches page k s.heap.pool (Word.add (s.arrays i).array.capacity increaseBy)
  | .grow k i increaseBy =>
    (s.arrays i).array.capacity < Word.add (s.arrays i).array.len increaseBy →
    Regrows page k s.heap (s.arrays i).array (Word.add (s.arrays i).array.len increaseBy) →
      Reaches page k s.heap.pool (Word.add (s.arrays i).array.len increaseBy)
  | .remove i index => 1 < (s.arrays i).array.len → index < (s.arrays i).array.capacity
  | .dup k i out =>
    (Supplies page k s.heap (8 * (s.arrays i).array.capacity) →
      Reaches page k s.heap.pool (s.arrays i).array.capacity) ∧
    (¬ Supplies page k s.heap (8 * (s.arrays i).array.capacity) →
      8 * (s.arrays i).array.capacity ≤
        s.heap.pool.mapped (s.arrays out).array.data ((s.arrays out).blockEnd.getD 0))
  | _ => True

/-- The array was filled in. -/
def Filled (s : Backing) (i : Nat) : Prop := (s.arrays i).blockEnd.isSome

/-- What a program may do: it uses arrays that were filled in, does not duplicate an array over
itself, as `memcpy` would copy a block over itself, and makes other uses of the pool in its reach.
The kernel maps what it grants. -/
def Permits (page : Nat) (s : Backing) : BackingOp → Prop
  | .pool op => ∀ k len, Pool.Session.asks ⟨s.heap, []⟩ op = some (k, len) →
    len < 2 ^ 64 ∧ Pool.Mremap.Lawful k ∧ Pool.InReach page k len s.heap.pool
  | .init k _ _ => Pool.Mremap.Lawful k
  | .append k i _ | .growCapacity k i _ | .grow k i _ => Pool.Mremap.Lawful k ∧ s.Filled i
  | .remove i _ | .shrink i _ => s.Filled i
  | .dup k i out => Pool.Mremap.Lawful k ∧ s.Filled i ∧ i ≠ out

end Backing

/-- Arrays of any sizes in a pool, from `ae_pool_init` on; none is filled in at first. -/
def backing (page : Nat) : System Backing BackingOp where
  init s := (∀ i, (s.arrays i).blockEnd = none) ∧ (Pool.session page).init ⟨s.heap, []⟩
  step s op t := s.Permits page op ∧ t = s.call page op

/-! ## What the functions do -/

namespace PtrArray
variable (page : Nat) (mremap : Mremap) {increaseBy : Nat} {h : Heap} {a : PtrArray}

/-- `ps_ptrarray_grow` refuses a length below the capacity. -/
theorem grow_below (hlt : Word.add a.len increaseBy < a.capacity) :
    ∃ h', (grow page mremap increaseBy).run (h, a) = (none, (h', a)) ∧ h'.pool = h.pool := by
  rw [grow, bind_of_some (get_run _), if_pos hlt]
  exact ⟨_, rfl, rfl⟩

theorem grow_level (heq : Word.add a.len increaseBy = a.capacity) :
    (grow page mremap increaseBy).run (h, a) = (some (), (h, { a with len := a.capacity })) := by
  have hnot : ¬ a.capacity < a.capacity := Nat.lt_irrefl _
  rw [grow, bind_of_some (get_run _)]
  simp only [heq, if_neg hnot]
  rfl

/-- A length above the capacity becomes the capacity. -/
theorem grow_above (hgt : a.capacity < Word.add a.len increaseBy) :
    (grow page mremap increaseBy).run (h, a) =
      match (growCapacity page mremap
        (Word.sub (Word.add a.len increaseBy) a.capacity)).run (h, a) with
      | (none, s) => (none, s)
      | (some _, (h', a')) => (some (), (h', { a' with len := Word.add a.len increaseBy })) := by
  have hnot : ¬ Word.add a.len increaseBy < a.capacity := by omega
  rw [grow, bind_of_some (get_run _)]
  simp only [if_neg hnot, gt_iff_lt, if_pos hgt, bind_run]
  rcases (growCapacity page mremap
    (Word.sub (Word.add a.len increaseBy) a.capacity)).run (h, a) with ⟨_ | _, h', a'⟩ <;> rfl

/-- `ae_ptrarray_dup` sets the length and the capacity before it asks for memory. -/
theorem dup_run (src : PtrArray) (h : Heap) (a : PtrArray) :
    (dup page mremap src).run (h, a) =
      match (Pool.alloc page mremap (Word.mul src.capacity 8)).run h with
      | (none, h') => (none, (h', { a with len := src.len, capacity := src.capacity }))
      | (some data, h') => (some (), (h'.store (span data (load h'.mem src.data
          (Word.mul src.capacity 8))), { src with data := data })) := by
  simp only [dup, bind_run, modify_run, onFst_run]
  rcases (Pool.alloc page mremap (Word.mul src.capacity 8)).run h with ⟨_ | data, h'⟩ <;> rfl

end PtrArray

/-! ## The size of a block -/

namespace Pool
variable {page : PageSize} {mremap : Mremap} {p p' : Pool}

/-- The mapping starts where it did, and does not shrink. -/
structure Extends (p p' : Pool) : Prop where
  start : p'.start = p.start
  end_le : p.endPtr ≤ p'.endPtr

theorem Extends.mapped_le (h : Extends p p') (a b : Nat) : p.mapped a b ≤ p'.mapped a b := by
  have hle := h.end_le
  unfold mapped
  rw [h.start]
  split
  · omega
  · exact Nat.le_refl 0

/-- A block that does not end inside the mapping. -/
theorem mapped_lt {a b len : Nat} (hpos : 0 < len) (hend : p.endPtr < a + len) :
    p.mapped a b < len := by
  unfold mapped
  split <;> omega

/-- A block handed out by the pool starts at the aligned `next`. -/
theorem alloc_addr {page len a : Nat} {h h' : Heap}
    (hr : (alloc page mremap len).run h = (some a, h')) : a = alignPtr h.pool.next 16 := by
  rw [alloc, bind_of_some (get_run h), bind_of_some (get_run h)] at hr
  split at hr
  · obtain ⟨_, h₁, -, hr⟩ := bind_eq_some hr
    cases hr
    rfl
  · cases hr
    rfl

/-- A mapping after a block was taken. -/
theorem Allocated.extended {len a : Nat} {h h' : Heap} (ha : Allocated page.bytes len h a h')
    (hl : Layout page.bytes h.pool) : Extends h.pool h'.pool := by
  obtain ⟨hl', -, -, -, hstart, hlen⟩ := ha.layout hl
  refine ⟨hstart, ?_⟩
  rw [hl.end_eq, hl'.end_eq, hstart]
  exact Nat.add_le_add_left hlen _

/-- Its block is mapped. -/
theorem Allocated.mapped_eq {len a : Nat} {h h' : Heap} (ha : Allocated page.bytes len h a h')
    (hl : Layout page.bytes h.pool) : h'.pool.mapped a h'.pool.next = len := by
  obtain ⟨hl', -, hge, hnext, hstart, -⟩ := ha.layout hl
  have hle := hl'.next_le
  have hfirst := hl.start_le
  rw [mapped, if_pos (by omega)]
  omega

/-- A request of no bytes is in reach. -/
theorem Layout.inReach_zero (hl : Layout page.bytes p) : InReach page.bytes mremap 0 p := by
  have halign := hl.align_le
  have hend := hl.end_lt
  exact ⟨by omega, fun h => absurd h.1 (by omega)⟩

end Pool

namespace Backing
open Pool (Layout)
variable {page : PageSize} {k : Mremap} {h h' : Heap} {s t : Backing} {i : Nat}

/-- A block for so many slots was taken: it is mapped if it was in reach, and else it is too
small. -/
inductive Taken (page : PageSize) (k : Mremap) (p p' : Pool) (data capacity : Nat) : Prop
  | reached : Reaches page.bytes k p capacity → Layout page.bytes p' → Pool.Extends p p' →
      p'.mapped data p'.next = 8 * capacity → Taken page k p p' data capacity
  | beyond : ¬ Reaches page.bytes k p capacity → p'.mapped data p'.next < 8 * capacity →
      Taken page k p p' data capacity

/-- **What the pool answers** to a request for slots. -/
theorem alloc_answers (hl : Layout page.bytes h.pool) (hk : Pool.Mremap.Lawful k)
    (capacity : Nat) :
    (∃ h', (Pool.alloc page.bytes k (Word.mul capacity 8)).run h = (none, h') ∧
        h'.pool = h.pool) ∨
      ∃ data h', (Pool.alloc page.bytes k (Word.mul capacity 8)).run h = (some data, h') ∧
        Taken page k h.pool h'.pool data capacity := by
  have hlen : Word.mul capacity 8 < 2 ^ 64 := Nat.mod_lt _ (by decide)
  have hbytes : 8 * capacity < 2 ^ 64 → Word.mul capacity 8 = 8 * capacity := by
    intro hlt
    rw [Word.mul_eq (by omega), Nat.mul_comm]
  have hless : Word.mul capacity 8 ≤ 8 * capacity := by
    unfold Word.mul
    omega
  obtain ⟨hreach, hserved⟩ | ⟨hfar, data, h', hr, hbehind⟩ := Pool.alloc_limits hk hl hlen
  · obtain ⟨text, hr⟩ | ⟨data, h', hr, ha⟩ := hserved
    · exact .inl ⟨_, hr, rfl⟩
    · refine .inr ⟨data, h', hr, ?_⟩
      have hmapped := ha.mapped_eq hl
      rcases Nat.lt_or_ge (8 * capacity) (2 ^ 64) with hlt | hwrap
      · rw [hbytes hlt] at hreach hmapped
        exact .reached ⟨hlt, hreach⟩ (ha.layout hl).1 (ha.extended hl) hmapped
      · -- the product wraps
        exact .beyond (fun hreaches => absurd hreaches.bytes_lt (by omega)) (by omega)
  · refine .inr ⟨data, h', hr, ?_⟩
    have hdata : data = Word.roundUp 16 h.pool.next := by
      rw [Pool.alloc_addr hr, Pool.alignPtr_eq hl.align_room]
    have hpos : 0 < Word.mul capacity 8 := by
      apply Nat.pos_of_ne_zero
      intro hzero
      rw [hzero] at hfar
      exact hfar hl.inReach_zero
    have hsmall : h'.pool.mapped data h'.pool.next < Word.mul capacity 8 :=
      Pool.mapped_lt hpos (hdata ▸ hbehind)
    refine .beyond (fun hreaches => hfar ?_) (Nat.lt_of_lt_of_le hsmall hless)
    rw [hbytes hreaches.bytes_lt]
    exact hreaches.inReach

/-- The same for `ae_pool_realloc`. -/
theorem realloc_answers (hl : Layout page.bytes h.pool) (hk : Pool.Mremap.Lawful k)
    (src srcLen capacity : Nat) :
    (∃ h', (Pool.realloc page.bytes k src srcLen (Word.mul capacity 8)).run h = (none, h') ∧
        h'.pool = h.pool) ∨
      ∃ data h', (Pool.realloc page.bytes k src srcLen (Word.mul capacity 8)).run h =
        (some data, h') ∧ Taken page k h.pool h'.pool data capacity := by
  by_cases hlast : src = Word.sub h.pool.next srcLen
  · exact .inl ⟨_, Pool.realloc_last k hlast, rfl⟩
  · rw [Pool.realloc_of_ne k hlast]
    obtain ⟨h', hr, hpool⟩ | ⟨data, h', hr, htaken⟩ := alloc_answers hl hk capacity
    · exact .inl ⟨h', bind_of_none hr, hpool⟩
    · exact .inr ⟨data, _, bind_of_some hr, htaken⟩

/-- `ae_ptrarray_grow_capacity` takes the block that it asks for, if the pool supplies it. -/
theorem growCapacity_answers (hl : Layout page.bytes h.pool) (hk : Pool.Mremap.Lawful k)
    (increaseBy : Nat) (a : PtrArray) :
    (¬ Regrows page.bytes k h a (Word.add a.capacity increaseBy) ∧ ∃ h',
        (PtrArray.growCapacity page.bytes k increaseBy).run (h, a) = (none, (h', a)) ∧
          h'.pool = h.pool) ∨
      (Regrows page.bytes k h a (Word.add a.capacity increaseBy) ∧ ∃ h' data,
        (PtrArray.growCapacity page.bytes k increaseBy).run (h, a) =
          (some (), (h', { a with capacity := Word.add a.capacity increaseBy, data := data })) ∧
        Taken page k h.pool h'.pool data (Word.add a.capacity increaseBy)) := by
  rw [Regrows, PtrArray.growCapacity_eq]
  obtain ⟨h', hr, hpool⟩ | ⟨data, h', hr, htaken⟩ :=
    realloc_answers hl hk a.data (Word.mul a.len 8) (Word.add a.capacity increaseBy)
  · rw [hr]
    exact .inl ⟨Bool.false_ne_true, h', rfl, hpool⟩
  · rw [hr]
    exact .inr ⟨rfl, h', data, rfl, htaken⟩

/-! ## One array changes -/

theorem on_self (takes : PtrArray → Bool) {x : Fallible (Heap × PtrArray) Unit}
    {r : Option Unit} {a' : PtrArray}
    (hr : x.run (s.heap, (s.arrays i).array) = (r, (h', a'))) :
    (s.on i takes x).arrays i = ⟨a', if r.isSome && takes (s.arrays i).array then
      some h'.pool.next else (s.arrays i).blockEnd⟩ ∧ (s.on i takes x).heap = h' := by
  simp only [on, hr, Function.update_self, and_self]

/-- The other arrays are left alone, so they stay backed as long as the mapping stays. -/
theorem on_others (hs : ∀ j, j ≠ i → (s.arrays j).Sound s.heap.pool) (takes : PtrArray → Bool)
    {x : Fallible (Heap × PtrArray) Unit} {r : Option Unit} {a' : PtrArray}
    (hr : x.run (s.heap, (s.arrays i).array) = (r, (h', a')))
    (hkeeps : Pool.Extends s.heap.pool h'.pool) :
    (s.on i takes x).AllSound ↔ ((s.on i takes x).arrays i).Sound h'.pool := by
  have hheap := (on_self takes hr).2
  constructor
  · intro h
    have hi := h i
    rw [hheap] at hi
    exact hi
  · intro hi j
    rw [hheap]
    by_cases hj : j = i
    · rw [hj]
      exact hi
    · have hsame : (s.on i takes x).arrays j = s.arrays j := Function.update_of_ne hj _ _
      rw [hsame]
      exact fun e he => ⟨(hs j hj e he).len_le,
        Nat.le_trans (hs j hj e he).fits (hkeeps.mapped_le _ _)⟩

/-- **A new block** backs the array exactly if it was in reach. -/
theorem on_taken (hs : ∀ j, j ≠ i → (s.arrays j).Sound s.heap.pool) (takes : PtrArray → Bool)
    {x : Fallible (Heap × PtrArray) Unit} {a' : PtrArray}
    (hr : x.run (s.heap, (s.arrays i).array) = (some (), (h', a')))
    (htakes : takes (s.arrays i).array = true)
    (htaken : Taken page k s.heap.pool h'.pool a'.data a'.capacity) :
    ((s.on i takes x).AllSound ↔
        a'.len ≤ a'.capacity ∧ Reaches page.bytes k s.heap.pool a'.capacity) ∧
      ((s.on i takes x).AllSound → Layout page.bytes (s.on i takes x).heap.pool) := by
  obtain ⟨hself, hheap⟩ := on_self takes hr
  simp only [Option.isSome_some, htakes, Bool.and_self, if_true] at hself
  cases htaken with
  | reached hreach hl' hkeeps hmapped =>
    refine ⟨?_, fun _ => hheap ▸ hl'⟩
    rw [on_others hs takes hr hkeeps, hself]
    constructor
    · exact fun h => ⟨(h _ rfl).len_le, hreach⟩
    · rintro ⟨hlen, -⟩ blockEnd ⟨⟩
      exact ⟨hlen, hmapped.ge⟩
  | beyond hnot hsmall =>
    have hbad : ¬ (s.on i takes x).AllSound := by
      intro h
      have hi := h i
      rw [hheap, hself] at hi
      exact absurd (hi _ rfl).fits (by simp only; omega)
    exact ⟨iff_of_false hbad (fun h => hnot h.2), fun h => absurd h hbad⟩

/-- A function that takes no block. -/
theorem on_kept (hs : ∀ j, j ≠ i → (s.arrays j).Sound s.heap.pool) (takes : PtrArray → Bool)
    {x : Fallible (Heap × PtrArray) Unit} {r : Option Unit} {a' : PtrArray}
    (hr : x.run (s.heap, (s.arrays i).array) = (r, (h', a')))
    (hno : (r.isSome && takes (s.arrays i).array) = false) (hpool : h'.pool = s.heap.pool) :
    ((s.on i takes x).AllSound ↔ Backed.Sound ⟨a', (s.arrays i).blockEnd⟩ s.heap.pool) ∧
      (s.on i takes x).heap.pool = s.heap.pool := by
  obtain ⟨hself, hheap⟩ := on_self takes hr
  simp only [hno, Bool.false_eq_true, if_false] at hself
  have hkeeps : Pool.Extends s.heap.pool h'.pool := by
    rw [hpool]
    exact ⟨rfl, Nat.le_refl _⟩
  rw [on_others hs takes hr hkeeps, hself, hheap, hpool]
  exact ⟨Iff.rfl, rfl⟩

/-- A function that fails, and leaves its array alone. -/
theorem on_failed (hs : s.AllSound) (takes : PtrArray → Bool)
    {x : Fallible (Heap × PtrArray) Unit}
    (hr : x.run (s.heap, (s.arrays i).array) = (none, (h', (s.arrays i).array)))
    (hpool : h'.pool = s.heap.pool) :
    (s.on i takes x).AllSound ∧ (s.on i takes x).heap.pool = s.heap.pool := by
  obtain ⟨hiff, hsame⟩ := on_kept (fun j _ => hs j) takes hr rfl hpool
  exact ⟨hiff.mpr (hs i), hsame⟩

/-! ## One call -/

/-- A call keeps the capacities backed exactly if it fits, and the pool is laid out if so. -/
structure Decided (page : PageSize) (s : Backing) (op : BackingOp) : Prop where
  keeps_iff : s.Keeps page.bytes op (s.call page.bytes op) ↔ s.Fits page.bytes op
  layout : s.Keeps page.bytes op (s.call page.bytes op) →
    Layout page.bytes (s.call page.bytes op).heap.pool

/-- A call that writes no item. -/
theorem keeps_iff_silent {op : BackingOp} (hslot : s.slot page.bytes op = none) :
    s.Keeps page.bytes op t ↔ t.AllSound :=
  ⟨Keeps.sound, fun h => ⟨h, fun _ _ hsome =>
    absurd (hslot.symm.trans hsome) (Option.some_ne_none _).symm⟩⟩

theorem decided_growCapacity (hl : Layout page.bytes s.heap.pool) (hs : s.AllSound)
    (hk : Pool.Mremap.Lawful k) (i increaseBy : Nat) :
    Decided page s (.growCapacity k i increaseBy) := by
  have hanswers := growCapacity_answers hl hk increaseBy (s.arrays i).array
  suffices h : ((s.on i (fun _ => true) (PtrArray.growCapacity page.bytes k increaseBy)).AllSound ↔
      s.Fits page.bytes (.growCapacity k i increaseBy)) ∧
      ((s.on i (fun _ => true) (PtrArray.growCapacity page.bytes k increaseBy)).AllSound →
        Layout page.bytes (s.on i (fun _ => true)
          (PtrArray.growCapacity page.bytes k increaseBy)).heap.pool) from
    ⟨(keeps_iff_silent rfl).trans h.1, fun hkeeps => h.2 hkeeps.sound⟩
  obtain ⟨hno, h', hr, hpool⟩ | ⟨hyes, h', data, hr, htaken⟩ := hanswers
  · obtain ⟨hsound, hsame⟩ := on_failed hs (fun _ => true) hr hpool
    exact ⟨iff_of_true hsound (fun h => absurd h hno), fun _ => hsame ▸ hl⟩
  · obtain ⟨hiff, hlayout⟩ := on_taken (fun j _ => hs j) (fun _ => true) hr rfl htaken
    exact ⟨hiff.trans ⟨fun h _ => h, fun h => h hyes⟩, hlayout⟩

theorem decided_init (hl : Layout page.bytes s.heap.pool) (hs : s.AllSound)
    (hk : Pool.Mremap.Lawful k) (i initialSize : Nat) :
    Decided page s (.init k i initialSize) := by
  have hmul : Word.mul 8 initialSize = Word.mul initialSize 8 := by
    rw [Word.mul, Word.mul, Nat.mul_comm]
  suffices h : ((s.on i (fun _ => true) (PtrArray.init page.bytes k initialSize)).AllSound ↔
      s.Fits page.bytes (.init k i initialSize)) ∧
      ((s.on i (fun _ => true) (PtrArray.init page.bytes k initialSize)).AllSound →
        Layout page.bytes (s.on i (fun _ => true)
          (PtrArray.init page.bytes k initialSize)).heap.pool) from
    ⟨(keeps_iff_silent rfl).trans h.1, fun hkeeps => h.2 hkeeps.sound⟩
  rw [Fits, Supplies, hmul]
  obtain ⟨h', hr, hpool⟩ | ⟨data, h', hr, htaken⟩ := alloc_answers hl hk initialSize
  · have hinit : (PtrArray.init page.bytes k initialSize).run (s.heap, (s.arrays i).array) =
        (none, (h', (s.arrays i).array)) := by
      rw [PtrArray.init, bind_run, onFst_run, hmul, hr]
    obtain ⟨hsound, hsame⟩ := on_failed hs (fun _ => true) hinit hpool
    exact ⟨iff_of_true hsound (by simp [hr]), fun _ => hsame ▸ hl⟩
  · have hinit : (PtrArray.init page.bytes k initialSize).run (s.heap, (s.arrays i).array) =
        (some (), (h', ⟨0, data, initialSize⟩)) := by
      rw [PtrArray.init, bind_run, onFst_run, hmul, hr]
      rfl
    obtain ⟨hiff, hlayout⟩ := on_taken (fun j _ => hs j) (fun _ => true) hinit rfl htaken
    refine ⟨hiff.trans ⟨fun h _ => h.2, fun h => ⟨Nat.zero_le _, h ?_⟩⟩, hlayout⟩
    rw [hr]
    rfl

theorem slot_append {item : UInt64} {r : Option Unit × Heap × PtrArray}
    (hr : (PtrArray.append page.bytes k item).run (s.heap, (s.arrays i).array) = r) :
    s.slot page.bytes (.append k i item) =
      if r.1.isSome then some (i, (s.arrays i).array.len) else none := by
  rw [slot, hr]

/-- An array with room stores the item behind its last one. -/
theorem decided_append_room (hl : Layout page.bytes s.heap.pool) (hs : s.AllSound)
    (hfilled : s.Filled i) (k : Mremap) (item : UInt64)
    (hroom : (s.arrays i).array.len ≠ (s.arrays i).array.capacity) :
    Decided page s (.append k i item) := by
  obtain ⟨blockEnd, hend⟩ := Option.isSome_iff_exists.mp hfilled
  obtain ⟨hlen, hfits⟩ := hs i blockEnd hend
  have hr : (PtrArray.append page.bytes k item).run (s.heap, (s.arrays i).array) = _ :=
    PtrArray.append_room k item hroom
  have hfew : (s.arrays i).array.len + 1 < 2 ^ 64 := by
    have hword := hl.end_lt
    unfold Pool.mapped at hfits
    split at hfits <;> omega
  have hnext : Word.add (s.arrays i).array.len 1 = (s.arrays i).array.len + 1 := Word.add_eq hfew
  obtain ⟨hiff, hsame⟩ := on_kept (fun j _ => hs j)
    (fun a => a.len = a.capacity) hr (by simp [hroom]) rfl
  have hsound : (s.call page.bytes (.append k i item)).AllSound := by
    refine hiff.mpr (fun e he => ?_)
    cases hend.symm.trans he
    exact ⟨by simp only [hnext]; omega, hfits⟩
  have hkeeps : s.Keeps page.bytes (.append k i item) (s.call page.bytes (.append k i item)) := by
    refine ⟨hsound, fun j n hsome => ?_⟩
    rw [slot_append hr] at hsome
    cases hsome
    rw [call, (on_self _ hr).1]
    simp only
    omega
  exact ⟨iff_of_true hkeeps (fun h => absurd h hroom), fun _ => hsame ▸ hl⟩

/-- A full array is given 16 slots more. -/
theorem decided_append_full (hl : Layout page.bytes s.heap.pool) (hs : s.AllSound)
    (hfilled : s.Filled i) (hk : Pool.Mremap.Lawful k) (item : UInt64)
    (hfull : (s.arrays i).array.len = (s.arrays i).array.capacity) :
    Decided page s (.append k i item) := by
  obtain ⟨blockEnd, hend⟩ := Option.isSome_iff_exists.mp hfilled
  obtain ⟨hlen, hfits⟩ := hs i blockEnd hend
  have hfew : (s.arrays i).array.capacity + 16 < 2 ^ 64 := by
    have hword := hl.end_lt
    unfold Pool.mapped at hfits
    split at hfits <;> omega
  have hsum : Word.add (s.arrays i).array.capacity 16 = (s.arrays i).array.capacity + 16 :=
    Word.add_eq hfew
  have happend : (PtrArray.append page.bytes k item).run (s.heap, (s.arrays i).array) = _ :=
    PtrArray.append_full k item hfull
  have hanswers := growCapacity_answers hl hk 16 (s.arrays i).array
  rw [hsum] at hanswers
  obtain ⟨hno, h', hr, hpool⟩ | ⟨hyes, h', data, hr, htaken⟩ := hanswers
  · rw [hr] at happend
    obtain ⟨hsound, hsame⟩ := on_failed hs (fun a => a.len = a.capacity) happend hpool
    refine ⟨iff_of_true ((keeps_iff_silent (slot_append happend)).mpr hsound)
      (fun _ h => absurd h hno), fun _ => hsame ▸ hl⟩
  · rw [hr] at happend
    have hnext : Word.add (s.arrays i).array.len 1 = (s.arrays i).array.len + 1 :=
      Word.add_eq (by omega)
    obtain ⟨hiff, hlayout⟩ := on_taken (fun j _ => hs j)
      (fun a => a.len = a.capacity) happend (decide_eq_true hfull) htaken
    have hbelow : ∀ j slot, s.slot page.bytes (.append k i item) = some (j, slot) →
        slot < ((s.call page.bytes (.append k i item)).arrays j).array.capacity := by
      intro j n hsome
      rw [slot_append happend] at hsome
      cases hsome
      rw [call, (on_self _ happend).1]
      simp only
      omega
    refine ⟨⟨fun h _ _ => (hiff.mp h.sound).2, fun h => ⟨hiff.mpr ⟨?_, h hfull hyes⟩, hbelow⟩⟩,
      fun h => hlayout h.sound⟩
    simp only [hnext]
    omega

theorem decided_grow (hl : Layout page.bytes s.heap.pool) (hs : s.AllSound)
    (hfilled : s.Filled i) (hk : Pool.Mremap.Lawful k) (increaseBy : Nat) :
    Decided page s (.grow k i increaseBy) := by
  obtain ⟨blockEnd, hend⟩ := Option.isSome_iff_exists.mp hfilled
  obtain ⟨hlen, hfits⟩ := hs i blockEnd hend
  suffices h : ((s.call page.bytes (.grow k i increaseBy)).AllSound ↔
      s.Fits page.bytes (.grow k i increaseBy)) ∧
      ((s.call page.bytes (.grow k i increaseBy)).AllSound →
        Layout page.bytes (s.call page.bytes (.grow k i increaseBy)).heap.pool) from
    ⟨(keeps_iff_silent rfl).trans h.1, fun hkeeps => h.2 hkeeps.sound⟩
  rw [call, Fits]
  rcases Nat.lt_trichotomy (Word.add (s.arrays i).array.len increaseBy)
    (s.arrays i).array.capacity with hlt | heq | hgt
  · obtain ⟨h', hr, hpool⟩ := PtrArray.grow_below page.bytes k (h := s.heap) hlt
    obtain ⟨hsound, hsame⟩ := on_failed hs
      (fun a => a.capacity < Word.add a.len increaseBy) hr hpool
    exact ⟨iff_of_true hsound (fun h => absurd h (by omega)), fun _ => hsame ▸ hl⟩
  · obtain ⟨hiff, hsame⟩ := on_kept (fun j _ => hs j)
      (fun a => a.capacity < Word.add a.len increaseBy)
      (PtrArray.grow_level page.bytes k heq) (by simp [heq]) rfl
    refine ⟨iff_of_true (hiff.mpr (fun e he => ?_)) (fun h => absurd h (by omega)),
      fun _ => hsame ▸ hl⟩
    cases hend.symm.trans he
    exact ⟨Nat.le_refl _, hfits⟩
  · have hnew : Word.add (s.arrays i).array.capacity
        (Word.sub (Word.add (s.arrays i).array.len increaseBy) (s.arrays i).array.capacity) =
          Word.add (s.arrays i).array.len increaseBy := Word.add_sub _ (Word.add_lt _ _)
    have hgrow := PtrArray.grow_above page.bytes k (h := s.heap) hgt
    have hanswers := growCapacity_answers hl hk
      (Word.sub (Word.add (s.arrays i).array.len increaseBy) (s.arrays i).array.capacity)
      (s.arrays i).array
    rw [hnew] at hanswers
    obtain ⟨hno, h', hr, hpool⟩ | ⟨hyes, h', data, hr, htaken⟩ := hanswers
    · rw [hr] at hgrow
      obtain ⟨hsound, hsame⟩ := on_failed hs
        (fun a => a.capacity < Word.add a.len increaseBy) hgrow hpool
      exact ⟨iff_of_true hsound (fun _ h => absurd h hno), fun _ => hsame ▸ hl⟩
    · rw [hr] at hgrow
      obtain ⟨hiff, hlayout⟩ := on_taken (fun j _ => hs j)
        (fun a => a.capacity < Word.add a.len increaseBy) hgrow (decide_eq_true hgt) htaken
      exact ⟨hiff.trans ⟨fun h _ _ => h.2, fun h => ⟨Nat.le_refl _, h hgt hyes⟩⟩, hlayout⟩

theorem decided_remove (hl : Layout page.bytes s.heap.pool) (hs : s.AllSound)
    (hfilled : s.Filled i) (index : Nat) : Decided page s (.remove i index) := by
  obtain ⟨blockEnd, hend⟩ := Option.isSome_iff_exists.mp hfilled
  obtain ⟨hlen, hfits⟩ := hs i blockEnd hend
  have hr := PtrArray.remove_run index s.heap (s.arrays i).array
  have hpool : (if 1 < (s.arrays i).array.len then s.heap.store (storeWord
      ((s.arrays i).array.data + 8 * index)
      (PtrArray.ptrAt s.heap (s.arrays i).array ((s.arrays i).array.len - 1))) else
        s.heap).pool = s.heap.pool := by
    split <;> rfl
  obtain ⟨hiff, hsame⟩ := on_kept (fun j _ => hs j) (fun _ => false) hr rfl hpool
  have hsound : (s.call page.bytes (.remove i index)).AllSound := by
    refine hiff.mpr (fun e he => ?_)
    cases hend.symm.trans he
    exact ⟨Nat.le_trans (Nat.sub_le _ _) hlen, hfits⟩
  have hcap : ((s.call page.bytes (.remove i index)).arrays i).array.capacity =
      (s.arrays i).array.capacity := by
    rw [call, (on_self _ hr).1]
  refine ⟨⟨fun hkeeps hmany => ?_, fun hbelow => ⟨hsound, fun j n hsome => ?_⟩⟩,
    fun _ => hsame ▸ hl⟩
  · rw [← hcap]
    exact hkeeps.below i index (if_pos hmany)
  · rw [slot] at hsome
    split at hsome
    next hmany =>
      cases hsome
      rw [hcap]
      exact hbelow hmany
    next => cases hsome

theorem decided_shrink (hl : Layout page.bytes s.heap.pool) (hs : s.AllSound)
    (hfilled : s.Filled i) (newSize : Nat) : Decided page s (.shrink i newSize) := by
  obtain ⟨blockEnd, hend⟩ := Option.isSome_iff_exists.mp hfilled
  obtain ⟨hlen, hfits⟩ := hs i blockEnd hend
  obtain ⟨hiff, hsame⟩ := on_kept (fun j _ => hs j) (fun _ => false)
    (PtrArray.shrink_run newSize s.heap (s.arrays i).array) rfl rfl
  have hsound : (s.call page.bytes (.shrink i newSize)).AllSound := by
    refine hiff.mpr (fun e he => ?_)
    cases hend.symm.trans he
    exact ⟨Nat.le_trans (Nat.min_le_right _ _) hlen, hfits⟩
  exact ⟨iff_of_true ((keeps_iff_silent rfl).mpr hsound) trivial, fun _ => hsame ▸ hl⟩

/-- **`ae_ptrarray_dup`** needs a block in reach, or leaves the destination with the one it has. -/
theorem decided_dup (hl : Layout page.bytes s.heap.pool) (hs : s.AllSound)
    (hfilled : s.Filled i) (hk : Pool.Mremap.Lawful k) (out : Nat) :
    Decided page s (.dup k i out) := by
  obtain ⟨blockEnd, hend⟩ := Option.isSome_iff_exists.mp hfilled
  obtain ⟨hlen, hfits⟩ := hs i blockEnd hend
  have hfew : 8 * (s.arrays i).array.capacity < 2 ^ 64 := by
    have hword := hl.end_lt
    unfold Pool.mapped at hfits
    split at hfits <;> omega
  have hbytes : Word.mul (s.arrays i).array.capacity 8 = 8 * (s.arrays i).array.capacity := by
    rw [Word.mul_eq (by omega), Nat.mul_comm]
  have hothers : ∀ j, j ≠ out → ((s.fillIn out).arrays j).Sound (s.fillIn out).heap.pool := by
    intro j hj
    have hsame : (s.fillIn out).arrays j = s.arrays j := Function.update_of_ne hj _ _
    rw [hsame]
    exact hs j
  have hout : (s.fillIn out).arrays out =
      ⟨(s.arrays out).array, some ((s.arrays out).blockEnd.getD 0)⟩ := Function.update_self _ _ _
  suffices h : ((s.call page.bytes (.dup k i out)).AllSound ↔
      s.Fits page.bytes (.dup k i out)) ∧
      ((s.call page.bytes (.dup k i out)).AllSound →
        Layout page.bytes (s.call page.bytes (.dup k i out)).heap.pool) from
    ⟨(keeps_iff_silent rfl).trans h.1, fun hkeeps => h.2 hkeeps.sound⟩
  have hdup := PtrArray.dup_run page.bytes k (s.arrays i).array (s.fillIn out).heap
    ((s.fillIn out).arrays out).array
  rw [call, Fits, Supplies]
  have hanswers := alloc_answers hl hk (s.arrays i).array.capacity
  rw [hbytes] at hanswers hdup
  obtain ⟨h', hr, hpool⟩ | ⟨data, h', hr, htaken⟩ := hanswers
  · have hfail : (Pool.alloc page.bytes k (8 * (s.arrays i).array.capacity)).run
        (s.fillIn out).heap = (none, h') := hr
    rw [hfail] at hdup
    obtain ⟨hiff, hsame⟩ := on_kept hothers (fun _ => true) hdup rfl hpool
    refine ⟨hiff.trans ?_, fun _ => hsame ▸ hl⟩
    rw [hr, hout]
    constructor
    · exact fun h => ⟨fun hno => absurd hno Bool.false_ne_true, fun _ => (h _ rfl).fits⟩
    · rintro ⟨-, h⟩ e ⟨⟩
      exact ⟨hlen, h Bool.false_ne_true⟩
  · have hsome : (Pool.alloc page.bytes k (8 * (s.arrays i).array.capacity)).run
        (s.fillIn out).heap = (some data, h') := hr
    rw [hsome] at hdup
    obtain ⟨hiff, hlayout⟩ := on_taken hothers (fun _ => true) hdup rfl htaken
    refine ⟨hiff.trans ?_, hlayout⟩
    rw [hr]
    exact ⟨fun h => ⟨fun _ => h.2, fun hno => absurd rfl hno⟩, fun h => ⟨hlen, h.1 rfl⟩⟩

/-- Another use of the pool. -/
theorem decided_pool (hl : Layout page.bytes s.heap.pool) (hs : s.AllSound) {op : Pool.Op}
    (hp : s.Permits page.bytes (.pool op)) : Decided page s (.pool op) := by
  have heffect : Pool.Session.Effect page.bytes ⟨s.heap, []⟩
      (Pool.Session.call page.bytes ⟨s.heap, []⟩ op) := by
    refine Pool.Session.call_effect (fun k len hasks => ?_)
    obtain ⟨hlen, hk, hreach⟩ := hp k len hasks
    obtain ⟨-, hserved⟩ | ⟨hfar, -⟩ := Pool.alloc_limits hk hl hlen
    · exact hserved
    · exact absurd hreach hfar
  have hkeeps : Pool.Extends s.heap.pool
      (Pool.Session.call page.bytes ⟨s.heap, []⟩ op).heap.pool := by
    cases heffect with
    | failed hpool =>
      rw [hpool]
      exact ⟨rfl, Nat.le_refl _⟩
    | reset hpool =>
      rw [hpool]
      exact ⟨rfl, Nat.le_refl _⟩
    | handed len a h ha hpool =>
      rw [hpool]
      exact ha.extended hl
  have hsound : (s.call page.bytes (.pool op)).AllSound := fun i e he =>
    ⟨(hs i e he).len_le, Nat.le_trans (hs i e he).fits (hkeeps.mapped_le _ _)⟩
  exact ⟨iff_of_true ((keeps_iff_silent rfl).mpr hsound) trivial, fun _ => heffect.layout hl⟩

/-- **One call** leaves all capacities backed, and writes below the capacity, exactly if it
fits. -/
theorem decided (hl : Layout page.bytes s.heap.pool) (hs : s.AllSound) {op : BackingOp}
    (hp : s.Permits page.bytes op) : Decided page s op := by
  cases op with
  | pool op => exact decided_pool hl hs hp
  | init k i initialSize => exact decided_init hl hs hp i initialSize
  | append k i item =>
    by_cases hfull : (s.arrays i).array.len = (s.arrays i).array.capacity
    · exact decided_append_full hl hs hp.2 hp.1 item hfull
    · exact decided_append_room hl hs hp.2 k item hfull
  | growCapacity k i increaseBy => exact decided_growCapacity hl hs hp.1 i increaseBy
  | grow k i increaseBy => exact decided_grow hl hs hp.2 hp.1 increaseBy
  | remove i index => exact decided_remove hl hs hp index
  | shrink i newSize => exact decided_shrink hl hs hp newSize
  | dup k i out => exact decided_dup hl hs hp.2.1 hp.1 out

/-! ## The slot that is written -/

theorem append_written {page : Nat} {item : UInt64} {a a' : PtrArray}
    (hr : (PtrArray.append page k item).run (h, a) = (some (), (h', a'))) :
    ∃ ws, h'.written = ws ++ storeWord (a'.data + 8 * a.len) item := by
  by_cases hfull : a.len = a.capacity
  · rw [PtrArray.append_full k item hfull, PtrArray.growCapacity_eq] at hr
    rcases hrealloc : (Pool.realloc page k a.data (Word.mul a.len 8)
      (Word.mul (Word.add a.capacity 16) 8)).run h with ⟨_ | data, h₁⟩
    · rw [hrealloc] at hr
      cases hr
    · rw [hrealloc] at hr
      cases hr
      exact ⟨h₁.written, rfl⟩
  · rw [PtrArray.append_room k item hfull] at hr
    cases hr
    exact ⟨h.written, rfl⟩

/-- The slot is where the last write of the call goes. -/
theorem slot_written {op : BackingOp} {n : Nat} (hslot : s.slot page.bytes op = some (i, n)) :
    ∃ val ws, (s.call page.bytes op).heap.written =
      ws ++ storeWord (((s.call page.bytes op).arrays i).array.data + 8 * n) val := by
  cases op with
  | append k j item =>
    rcases hr : (PtrArray.append page.bytes k item).run (s.heap, (s.arrays j).array) with
      ⟨_ | _, h', a'⟩ <;> rw [slot_append hr] at hslot <;> cases hslot
    obtain ⟨ws, hws⟩ := append_written hr
    obtain ⟨hself, hheap⟩ := on_self (fun a => a.len = a.capacity) hr
    refine ⟨item, ws, ?_⟩
    rw [call, hheap, hself]
    exact hws
  | remove j index =>
    rw [slot] at hslot
    split at hslot
    next hmany =>
      cases hslot
      have hr := PtrArray.remove_run n s.heap (s.arrays i).array
      obtain ⟨hself, hheap⟩ := on_self (fun _ => false) hr
      refine ⟨PtrArray.ptrAt s.heap (s.arrays i).array ((s.arrays i).array.len - 1),
        s.heap.written, ?_⟩
      rw [call, hheap, hself, if_pos hmany]
      rfl
    next => cases hslot
  | _ => cases hslot

end Backing

open Backing

/-- **When the recorded capacity is backed by memory.**  Along a run, every call leaves the
capacities of all arrays backed, and writes its item below the capacity, exactly if every call
fits. -/
theorem backed_iff {page : PageSize} {s t : Backing} {τs : List (Transition Backing BackingOp)}
    (hs : (backing page.bytes).init s) (hr : (backing page.bytes).Run s τs t) :
    (∀ τ ∈ τs, τ.before.Keeps page.bytes τ.action τ.after) ↔
      ∀ τ ∈ τs, τ.before.Fits page.bytes τ.action := by
  refine hr.forall_iff (I := fun s => Pool.Layout page.bytes s.heap.pool ∧ s.AllSound)
    (Q := fun s op t => s.Keeps page.bytes op t) (G := fun s op => s.Fits page.bytes op) ?_ ?_ ?_
  · rintro s op t ⟨hl, hsound⟩ ⟨hp, rfl⟩ hfits
    have hdecided := decided hl hsound hp
    have hkeeps := hdecided.keeps_iff.mpr hfits
    exact ⟨hdecided.layout hkeeps, hkeeps.sound⟩
  · rintro s op t ⟨hl, hsound⟩ ⟨hp, rfl⟩
    exact (decided hl hsound hp).keeps_iff
  · obtain ⟨hnone, -, mmap, initialSize, h, hmmap, hinit⟩ := hs
    refine ⟨Pool.init_layout hmmap hinit, fun i blockEnd hend => ?_⟩
    exact absurd ((hnone i).symm.trans hend) (Option.some_ne_none _).symm

/-! ### An array in one page -/

/-- One page, and arrays that hold anything. -/
def noBacking : Backing := ⟨Pool.onePage.heap, fun i => ⟨⟨i, 0x10010, 7⟩, none⟩⟩

theorem noBacking_init : (backing Pool.page4k.bytes).init noBacking :=
  ⟨fun _ => rfl, Pool.onePage_init⟩

theorem noMemory_lawful : Pool.Mremap.Lawful noMemory := by
  intro old oldSize newSize new h
  cases h

/-- An array of one slot, behind which the pool is used: the second item makes it grow. -/
def growing : List BackingOp :=
  [.init noMemory 0 1, .pool (.alloc noMemory 16), .append noMemory 0 5, .append noMemory 0 6,
    .growCapacity noMemory 0 4, .remove 0 0, .dup noMemory 0 1]

theorem growing_run : (backing Pool.page4k.bytes).Run noBacking
    (script (Backing.call Pool.page4k.bytes) noBacking growing)
    (growing.foldl (Backing.call Pool.page4k.bytes) noBacking) := by
  apply System.Run.script
  simp only [script, growing, List.forall_mem_cons, List.not_mem_nil, false_imp_iff, implies_true,
    and_true]
  refine ⟨⟨noMemory_lawful, rfl⟩, ⟨?_, rfl⟩, ⟨⟨noMemory_lawful, rfl⟩, rfl⟩,
    ⟨⟨noMemory_lawful, rfl⟩, rfl⟩, ⟨⟨noMemory_lawful, rfl⟩, rfl⟩, ⟨rfl, rfl⟩,
    ⟨⟨noMemory_lawful, rfl, by decide⟩, rfl⟩⟩
  rintro k len ⟨⟩
  exact ⟨by decide, noMemory_lawful, by decide, fun h => absurd h.1 (by decide)⟩

/-- All its calls keep the capacities backed. -/
theorem backed_iff_growing : ∃ τs t, (backing Pool.page4k.bytes).Run noBacking τs t ∧
    τs.map Transition.action = growing ∧
      ∀ τ ∈ τs, τ.before.Keeps Pool.page4k.bytes τ.action τ.after := by
  refine ⟨_, _, growing_run, rfl, ?_⟩
  rw [backed_iff noBacking_init growing_run]
  simp only [script, growing, List.forall_mem_cons, List.not_mem_nil, false_imp_iff, implies_true,
    and_true]
  refine ⟨fun _ => ?_, trivial, fun h => absurd h (by decide), fun _ _ => ?_,
    fun _ => ⟨by decide, ?_⟩, fun _ => by decide, fun _ => ?_, fun h => absurd rfl h⟩
  all_goals exact ⟨by decide, by decide, fun h => absurd h.1 (by decide)⟩

/-- An array of `2 ^ 61` slots is filled in without a byte of memory. -/
theorem vast_array_unbacked :
    ¬ ∀ s, (backing Pool.page4k.bytes).Reachable s → s.AllSound := by
  intro h
  have hstep : (backing Pool.page4k.bytes).step noBacking (.init noMemory 0 (2 ^ 61)) _ :=
    ⟨noMemory_lawful, rfl⟩
  have hfits := (h _ (.step (.of_init noBacking_init) hstep) 0 0x10000 rfl).fits
  exact absurd hfits (by decide)

end Libae
