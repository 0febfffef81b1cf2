import Libae.PtrArray
import Libae.PoolLayout

/-! # Pointer arrays are lists

Any number of arrays in one pool, used in any order together with plain
allocations from it, behave as independent lists (`arrays_refine`).

The slots of an array are bytes of the pool, copied when the array grows.  Two
facts carry the proof.  The blocks of the arrays are apart and hold their
capacity (`Arrays.Inv`), so a write to one array's slots is outside the others.
And every call allocates at `next` or above it (`Inv.reserve`), so what a call
writes into a block it has just obtained is outside every array.
-/
namespace Libae
open ByteMemory Fallible Runs

/-! ## Lists -/

/-- An operation on a family of lists.  `skip` is what an operation without an
effect on the lists does. -/
inductive ListOp (α : Type)
  | skip
  | create
  | append (i : Nat) (item : α)
  | remove (i index : Nat)
  | set (i index : Nat) (val : α)
  | shrink (i newSize : Nat)
  | dup (i : Nat)

namespace ListOp
variable {α : Type}

/-- Put the last item in the place of the one at `index`, and drop the last. -/
def swapRemove (index : Nat) (l : List α) : List α :=
  match l.getLast? with
  | none => l
  | some last => (l.set index last).dropLast

/-- The lists after an operation. -/
def apply (ls : List (List α)) : ListOp α → List (List α)
  | skip => ls
  | create => ls ++ [[]]
  | append i item => ls.modify i (· ++ [item])
  | remove i index => ls.modify i (swapRemove index)
  | set i index val => ls.modify i (fun l => l.set index val)
  | shrink i newSize => ls.modify i (fun l => l.take newSize)
  | dup i => ls ++ ls[i]?.toList

/-- Independent lists: one operation at a time, from none. -/
def lists (α : Type) : System (List (List α)) (ListOp α) where
  init ls := ls = []
  step ls op ls' := ls' = apply ls op

end ListOp

/-! ## What the functions do -/

namespace PtrArray

/-- No sum or product of `ae_ptrarray_grow_capacity` wraps. -/
def GrowNoWrap (page : Nat) (a : PtrArray) (p : Pool) (increaseBy : Nat) : Prop :=
  8 * (a.capacity + increaseBy) < 2 ^ 64 ∧ (a.data ≠ Word.sub p.next (8 * a.len) →
    Pool.AllocNoWrap page p (8 * (a.capacity + increaseBy)))

/-- A successful `ae_ptrarray_grow_capacity`: the items are copied to a new
block. -/
structure Grown (page increaseBy : Nat) (h : Heap) (a : PtrArray) (h' : Heap) (a' : PtrArray) :
    Prop where
  len : a'.len = a.len
  capacity : a'.capacity = a.capacity + increaseBy
  heap : ∃ h₁, Pool.Allocated page (8 * a'.capacity) h a'.data h₁ ∧
    h' = h₁.store (span a'.data (load h₁.mem a.data (8 * a.len)))

variable {page : Nat} (mremap : Mremap) {h : Heap} {a : PtrArray} {increaseBy : Nat}

/-- `ae_ptrarray_grow_capacity` is one `ae_pool_realloc`. -/
theorem growCapacity_eq (increaseBy : Nat) (h : Heap) (a : PtrArray) :
    (growCapacity page mremap increaseBy).run (h, a) =
      match (Pool.realloc page mremap a.data (Word.mul a.len 8)
        (Word.mul (Word.add a.capacity increaseBy) 8)).run h with
      | (none, h') => (none, (h', a))
      | (some new, h') => (some (), (h', { a with
          capacity := Word.add a.capacity increaseBy, data := new })) := by
  simp only [growCapacity, bind_run, get_run, onFst_run]
  rcases (Pool.realloc page mremap a.data (Word.mul a.len 8)
    (Word.mul (Word.add a.capacity increaseBy) 8)).run h with ⟨_ | new, h'⟩ <;> rfl

/-- Without a wrapped sum or product it copies the items to a block of all slots. -/
theorem growCapacity_run (hlen : a.len ≤ a.capacity)
    (hcap : 8 * (a.capacity + increaseBy) < 2 ^ 64) :
    (growCapacity page mremap increaseBy).run (h, a) =
      match (Pool.realloc page mremap a.data (8 * a.len) (8 * (a.capacity + increaseBy))).run h with
      | (none, h') => (none, (h', a))
      | (some new, h') => (some (), (h', { a with
          capacity := a.capacity + increaseBy, data := new })) := by
  have hsum : Word.add a.capacity increaseBy = a.capacity + increaseBy := Word.add_eq (by omega)
  have hold : Word.mul a.len 8 = 8 * a.len := by rw [Word.mul_eq (by omega), Nat.mul_comm]
  have hnew : Word.mul (a.capacity + increaseBy) 8 = 8 * (a.capacity + increaseBy) := by
    rw [Word.mul_eq (by omega), Nat.mul_comm]
  rw [growCapacity_eq, hsum, hold, hnew]

theorem growCapacity_cases (hpage : 0 < page) (hlen : a.len ≤ a.capacity)
    (hw : a.GrowNoWrap page h.pool increaseBy) :
    (∃ text, (growCapacity page mremap increaseBy).run (h, a) =
        (none, ({ h with e := h.e ++ [⟨.err, text⟩] }, a))) ∨
      ∃ h' a', (growCapacity page mremap increaseBy).run (h, a) = (some (), (h', a')) ∧
        Grown page increaseBy h a h' a' := by
  obtain ⟨hcap, hw⟩ := hw
  rw [growCapacity_run mremap hlen hcap]
  by_cases hlast : a.data = Word.sub h.pool.next (8 * a.len)
  · rw [Pool.realloc_last mremap hlast]
    exact .inl ⟨_, rfl⟩
  · rw [Pool.realloc_of_ne mremap hlast]
    rcases Pool.fill_cases (Pool.alloc_cases mremap hpage (hw hlast))
      (fun out h => h.store (span out (load h.mem a.data (8 * a.len)))) with
      ⟨text, hr⟩ | ⟨new, h', hr, ha⟩ <;> rw [hr]
    · exact .inl ⟨text, rfl⟩
    · exact .inr ⟨_, _, rfl, rfl, rfl, h', ha, rfl⟩

/-- Storing an item behind the last one. -/
def push (item : UInt64) (h : Heap) (a : PtrArray) : Heap × PtrArray :=
  (h.store (storeWord (a.data + 8 * a.len) item), { a with len := Word.add a.len 1 })

theorem append_room (item : UInt64) (hroom : a.len ≠ a.capacity) :
    (append page mremap item).run (h, a) = (some (), push item h a) := by
  rw [append, bind_of_some (get_run _)]
  simp only [hroom, ite_false]
  rfl

/-- A full array is grown by 16 slots first. -/
theorem append_full (item : UInt64) (hfull : a.len = a.capacity) :
    (append page mremap item).run (h, a) =
      match (growCapacity page mremap 16).run (h, a) with
      | (none, s) => (none, s)
      | (some _, (h', a')) => (some (), push item h' a') := by
  rw [append, bind_of_some (get_run _)]
  simp only [hfull, ite_true, bind_run]
  rcases (growCapacity page mremap 16).run (h, a) with ⟨_ | _, h', a'⟩ <;> rfl

/-- `ae_ptrarray_remove` never fails, and writes if there is more than one item. -/
theorem remove_run (index : Nat) (h : Heap) (a : PtrArray) :
    (remove index).run (h, a) = (some (),
      (if 1 < a.len then h.store (storeWord (a.data + 8 * index) (ptrAt h a (a.len - 1))) else h,
        { a with len := a.len - 1 })) := by
  rw [remove, bind_of_some (get_run _)]
  obtain ⟨len, data, capacity⟩ := a
  rcases len with _ | _ | n <;> rfl

theorem shrink_run (newSize : Nat) (h : Heap) (a : PtrArray) :
    (shrink newSize).run (h, a) = (some (), (h, { a with len := min newSize a.len })) := by
  rw [shrink, bind_of_some (get_run _)]
  by_cases hge : newSize ≥ a.len
  · simp only [if_pos hge, Nat.min_eq_right hge]
    rfl
  · simp only [if_neg hge, Nat.min_eq_left (Nat.le_of_not_le hge)]
    rfl

end PtrArray

/-! ## Arrays in one pool -/

/-- What a program does with the arrays of a pool, and the kernel's answers. -/
inductive ArrayOp
  | alloc (mremap : Mremap) (len : Nat)
  | calloc (mremap : Mremap) (len : Nat)
  | strdup (mremap : Mremap) (src : Text) (srcLen : Int)
  | init (mremap : Mremap) (initialSize : Nat)
  | append (mremap : Mremap) (i : Nat) (item : UInt64)
  | growCapacity (mremap : Mremap) (i increaseBy : Nat)
  | remove (i index : Nat)
  | set (i index : Nat) (val : UInt64)
  | shrink (i newSize : Nat)
  | dup (mremap : Mremap) (i : Nat)

/-- What the operation does to the lists if it succeeds. -/
def ArrayOp.intent : ArrayOp → ListOp UInt64
  | alloc .. | calloc .. | strdup .. | growCapacity .. => .skip
  | init .. => .create
  | append _ i item => .append i item
  | remove i index => .remove i index
  | set i index val => .set i index val
  | shrink i newSize => .shrink i newSize
  | dup _ i => .dup i

/-- The functions that return nothing. -/
def ArrayOp.Void : ArrayOp → Prop
  | remove .. | set .. | shrink .. => True
  | _ => False

/-- A heap and the arrays created in its pool. -/
structure Arrays where
  heap : Heap
  arrays : List PtrArray

namespace Arrays

/-- The lists the arrays hold: of each, the first `len` slots. -/
def lists (s : Arrays) : List (List UInt64) :=
  s.arrays.map (fun a => words s.heap.mem a.data a.len)

/-- Run an operation of the array `i`. -/
def on (s : Arrays) (i : Nat) (x : Fallible (Heap × PtrArray) Unit) : Bool × Arrays :=
  match s.arrays[i]? with
  | none => (false, s)
  | some a =>
    let r := x.run (s.heap, a)
    (r.1.isSome, ⟨r.2.1, s.arrays.set i r.2.2⟩)

/-- Run an operation that fills in a new array. -/
def create (s : Arrays) (x : Fallible (Heap × PtrArray) Unit) : Bool × Arrays :=
  let r := x.run (s.heap, ⟨0, 0, 0⟩)
  (r.1.isSome, ⟨r.2.1, s.arrays ++ (r.1.map (fun _ => r.2.2)).toList⟩)

/-- Run a pool function. -/
def plain {α : Type} (s : Arrays) (x : Fallible Heap α) : Bool × Arrays :=
  let r := x.run s.heap
  (r.1.isSome, ⟨r.2, s.arrays⟩)

/-- An operation: what it returns, and the arrays after it. -/
def call (page : Nat) (s : Arrays) : ArrayOp → Bool × Arrays
  | .alloc k len => s.plain (Pool.alloc page k len)
  | .calloc k len => s.plain (Pool.calloc page k len)
  | .strdup k src srcLen => s.plain (Pool.strdup page k src srcLen)
  | .init k initialSize => s.create (PtrArray.init page k initialSize)
  | .append k i item => s.on i (PtrArray.append page k item)
  | .growCapacity k i increaseBy => s.on i (PtrArray.growCapacity page k increaseBy)
  | .remove i index => s.on i (PtrArray.remove index)
  | .set i index val => s.on i (PtrArray.set index val)
  | .shrink i newSize => s.on i (PtrArray.shrink newSize)
  | .dup k i =>
    match s.arrays[i]? with
    | none => (false, s)
    | some a => s.create (PtrArray.dup page k a)

/-- What the operation does to the lists. -/
def effect (page : Nat) (s : Arrays) (op : ArrayOp) : ListOp UInt64 :=
  if (s.call page op).1 then op.intent else .skip

/-- The operation is on an array that exists, at an index below its length, and
none of its size and address computations wraps. -/
def Permits (page : Nat) (s : Arrays) : ArrayOp → Prop
  | .alloc _ len | .calloc _ len => Pool.AllocNoWrap page s.heap.pool len
  | .strdup _ src srcLen => Pool.AllocNoWrap page s.heap.pool (Pool.strdupLen src srcLen)
  | .init _ initialSize =>
    8 * initialSize < 2 ^ 64 ∧ Pool.AllocNoWrap page s.heap.pool (8 * initialSize)
  | .append _ i _ => ∃ a, s.arrays[i]? = some a ∧
    (a.len = a.capacity → a.GrowNoWrap page s.heap.pool 16)
  | .growCapacity _ i increaseBy => ∃ a, s.arrays[i]? = some a ∧
    a.GrowNoWrap page s.heap.pool increaseBy
  | .remove i index | .set i index _ => ∃ a, s.arrays[i]? = some a ∧ index < a.len
  | .shrink i _ => ∃ a, s.arrays[i]? = some a
  | .dup _ i => ∃ a, s.arrays[i]? = some a ∧
    Pool.AllocNoWrap page s.heap.pool (8 * a.capacity)

end Arrays

/-- Arrays in a pool that is in use; there are none at first. -/
def arraysIn (page : Nat) : System Arrays ArrayOp where
  init s := s.arrays = [] ∧ ∃ blocks, (Pool.session page).Reachable ⟨s.heap, blocks⟩
  step s op t := s.Permits page op ∧ t = (s.call page op).2

/-! ## The invariant -/

/-- The slots of the array, in use or not. -/
def PtrArray.block (a : PtrArray) : Pool.Block := ⟨a.data, 8 * a.capacity⟩

namespace Arrays

/-- **The invariant of the arrays of a pool**: the slots of each lie in the part
of the pool that is handed out, and apart from those of the others. -/
structure Inv (page : Nat) (s : Arrays) : Prop where
  layout : Pool.Layout page s.heap.pool
  len_le : ∀ (i : Nat) (a : PtrArray), s.arrays[i]? = some a → a.len ≤ a.capacity
  inside : ∀ (i : Nat) (a : PtrArray), s.arrays[i]? = some a →
    s.heap.pool.start ≤ a.data ∧ a.data + 8 * a.capacity ≤ s.heap.pool.next
  apart : ∀ (i j : Nat) (a b : PtrArray), i ≠ j → s.arrays[i]? = some a → s.arrays[j]? = some b →
    a.block.Apart b.block

section Inv
variable {page : Nat} {s : Arrays}

theorem Inv.congr (hs : s.Inv page) {h : Heap} (hp : h.pool = s.heap.pool) :
    Inv page ⟨h, s.arrays⟩ := by
  refine ⟨?_, hs.len_le, ?_, hs.apart⟩ <;> simp only [hp]
  · exact hs.layout
  · exact hs.inside

/-- Replace the array `i`. -/
theorem Inv.set (hs : s.Inv page) {i : Nat} {a : PtrArray} (hlen : a.len ≤ a.capacity)
    (hin : s.heap.pool.start ≤ a.data ∧ a.data + 8 * a.capacity ≤ s.heap.pool.next)
    (hap : ∀ (j : Nat) (b : PtrArray), i ≠ j → s.arrays[j]? = some b → a.block.Apart b.block) :
    Inv page ⟨s.heap, s.arrays.set i a⟩ := by
  have hget : ∀ j b, (s.arrays.set i a)[j]? = some b →
      (i = j ∧ b = a) ∨ (i ≠ j ∧ s.arrays[j]? = some b) := by
    intro j b hb
    rw [List.getElem?_set] at hb
    by_cases hij : i = j
    · rw [if_pos hij] at hb
      split at hb
      · exact .inl ⟨hij, (Option.some.inj hb).symm⟩
      · cases hb
    · rw [if_neg hij] at hb
      exact .inr ⟨hij, hb⟩
  refine ⟨hs.layout, ?_, ?_, ?_⟩
  · intro j b hb
    rcases hget j b hb with ⟨-, rfl⟩ | ⟨-, hb⟩
    · exact hlen
    · exact hs.len_le j b hb
  · intro j b hb
    rcases hget j b hb with ⟨-, rfl⟩ | ⟨-, hb⟩
    · exact hin
    · exact hs.inside j b hb
  · intro j k b c hjk hb hc
    rcases hget j b hb with ⟨rfl, rfl⟩ | ⟨hj, hb'⟩ <;>
      rcases hget k c hc with ⟨hk, rfl⟩ | ⟨hk, hc'⟩
    · exact absurd hk hjk
    · exact hap k c hk hc'
    · exact Or.symm (hap j b hj hb')
    · exact hs.apart j k b c hjk hb' hc'

/-- Add an array. -/
theorem Inv.push (hs : s.Inv page) {a : PtrArray} (hlen : a.len ≤ a.capacity)
    (hin : s.heap.pool.start ≤ a.data ∧ a.data + 8 * a.capacity ≤ s.heap.pool.next)
    (hap : ∀ (j : Nat) (b : PtrArray), s.arrays[j]? = some b → a.block.Apart b.block) :
    Inv page ⟨s.heap, s.arrays ++ [a]⟩ := by
  have hget : ∀ j b, (s.arrays ++ [a])[j]? = some b →
      s.arrays[j]? = some b ∨ (j = s.arrays.length ∧ b = a) := by
    intro j b hb
    rw [List.getElem?_append] at hb
    split at hb
    · exact .inl hb
    · obtain ⟨hj, rfl⟩ := List.getElem?_eq_some_iff.mp hb
      simp only [List.length_singleton] at hj
      exact .inr ⟨by omega, by simp⟩
  refine ⟨hs.layout, ?_, ?_, ?_⟩
  · intro j b hb
    rcases hget j b hb with hb | ⟨-, rfl⟩
    · exact hs.len_le j b hb
    · exact hlen
  · intro j b hb
    rcases hget j b hb with hb | ⟨-, rfl⟩
    · exact hs.inside j b hb
    · exact hin
  · intro j k b c hjk hb hc
    rcases hget j b hb with hb' | ⟨hj, rfl⟩ <;> rcases hget k c hc with hc' | ⟨hk, rfl⟩
    · exact hs.apart j k b c hjk hb' hc'
    · exact Or.symm (hap j b hb')
    · exact hap k c hc'
    · omega

end Inv

/-! ### What happens to the lists -/

section Lists
variable {page : Nat} {s : Arrays}

/-- If the items of every array are as before, so are the lists. -/
theorem lists_same {h : Heap} (hw : ∀ (i : Nat) (a : PtrArray), s.arrays[i]? = some a →
    words h.mem a.data a.len = words s.heap.mem a.data a.len) :
    lists ⟨h, s.arrays⟩ = s.lists := by
  refine List.map_congr_left (fun a ha => ?_)
  obtain ⟨i, hi⟩ := List.mem_iff_getElem?.mp (show a ∈ s.arrays from ha)
  exact hw i a hi

/-- Adding an array. -/
theorem lists_push {h : Heap} {a : PtrArray}
    (hw : ∀ (i : Nat) (b : PtrArray), s.arrays[i]? = some b →
      words h.mem b.data b.len = words s.heap.mem b.data b.len) :
    lists ⟨h, s.arrays ++ [a]⟩ = s.lists ++ [words h.mem a.data a.len] := by
  rw [← lists_same hw]
  simp [lists]

/-- Replacing the array `i`, without a change to the slots of the others. -/
theorem lists_set {h : Heap} {i : Nat} {a a' : PtrArray} {f : List UInt64 → List UInt64}
    (hi : s.arrays[i]? = some a)
    (hself : words h.mem a'.data a'.len = f (words s.heap.mem a.data a.len))
    (hothers : ∀ (j : Nat) (b : PtrArray), i ≠ j → s.arrays[j]? = some b →
      words h.mem b.data b.len = words s.heap.mem b.data b.len) :
    lists ⟨h, s.arrays.set i a'⟩ = s.lists.modify i f := by
  apply List.ext_getElem?
  intro j
  rw [lists, lists, List.getElem?_map, List.getElem?_modify, List.getElem?_map,
    List.getElem?_set]
  by_cases hij : i = j
  · subst hij
    obtain ⟨hlt, rfl⟩ := List.getElem?_eq_some_iff.mp hi
    simp [hlt, hself]
  · cases hj : s.arrays[j]? with
    | none => simp [hij]
    | some b => simp [hij, hothers j b hij hj]

/-- A write to slots of the array `i`, and a new length for it. -/
theorem Inv.write (hs : s.Inv page) {i n : Nat} {a : PtrArray} {ws : List Write}
    {f : List UInt64 → List UInt64} (hi : s.arrays[i]? = some a)
    (hws : ∀ w ∈ ws, a.data ≤ w.1 ∧ w.1 < a.data + 8 * a.capacity) (hn : n ≤ a.capacity)
    (hf : words (commit s.heap.mem ws) a.data n = f (words s.heap.mem a.data a.len)) :
    Inv page ⟨s.heap.store ws, s.arrays.set i { a with len := n }⟩ ∧
      lists ⟨s.heap.store ws, s.arrays.set i { a with len := n }⟩ = s.lists.modify i f := by
  have hap : ∀ (j : Nat) (b : PtrArray), i ≠ j → s.arrays[j]? = some b →
      a.block.Apart b.block := fun j b hij hb => hs.apart i j a b hij hi hb
  constructor
  · exact (hs.congr (h := s.heap.store ws) rfl).set hn (hs.inside i a hi) hap
  · refine lists_set hi hf (fun j b hij hb => ?_)
    refine words_commit_outside (fun w hw => ?_)
    have hin := hws w hw
    have hlen := hs.len_le j b hb
    rcases hap j b hij hb with h | h <;> simp only [PtrArray.block] at h <;> omega

/-- The heap `h` comes from allocating the block of `len` bytes at `new`, and
writing nothing outside it. -/
structure Reserved (page : Nat) (s : Arrays) (len new : Nat) (h : Heap) : Prop where
  inv : Inv page ⟨h, s.arrays⟩
  items : ∀ (i : Nat) (a : PtrArray), s.arrays[i]? = some a →
    words h.mem a.data a.len = words s.heap.mem a.data a.len
  start_le : h.pool.start ≤ new
  end_eq : new + len = h.pool.next
  above : ∀ (i : Nat) (a : PtrArray), s.arrays[i]? = some a → a.data + 8 * a.capacity ≤ new

/-- **Allocating is invisible to the arrays**, whatever is written into the new
block. -/
theorem Inv.reserve {page : PageSize} (hs : s.Inv page.bytes) {len new : Nat} {h₁ h : Heap}
    {ws : List Write} (ha : Pool.Allocated page.bytes len s.heap new h₁)
    (hp : h.pool = h₁.pool) (hm : h.mem = commit h₁.mem ws)
    (hws : ∀ w ∈ ws, new ≤ w.1 ∧ w.1 < new + len) : Reserved page.bytes s len new h := by
  obtain ⟨hl, -, hnext, hend, hstart, -⟩ := ha.layout hs.layout
  have habove : ∀ (i : Nat) (a : PtrArray), s.arrays[i]? = some a →
      a.data + 8 * a.capacity ≤ new :=
    fun i a hi => Nat.le_trans (hs.inside i a hi).2 hnext
  have hge := hs.layout.start_le
  refine ⟨⟨hp ▸ hl, hs.len_le, ?_, hs.apart⟩, ?_, ?_, ?_, habove⟩
  · -- the arrays stay below `next`, which only moves up
    intro i a hi
    have hin := hs.inside i a hi
    simp only [hp, hstart, hend]
    omega
  · -- the writes are behind every array
    intro i a hi
    have hle := hs.len_le i a hi
    have hend := habove i a hi
    rw [hm, ha.mem]
    refine words_commit_outside (fun w hw => .inr ?_)
    have := hws w hw
    omega
  · rw [hp, hstart]
    omega
  · rw [hp, hend]

theorem Inv.allocated {page : PageSize} (hs : s.Inv page.bytes) {len new : Nat} {h : Heap}
    (ha : Pool.Allocated page.bytes len s.heap new h) : Reserved page.bytes s len new h := by
  have hnone : ∀ w ∈ ([] : List Write), new ≤ w.1 ∧ w.1 < new + len := by
    intro w hw
    cases hw
  exact hs.reserve ha rfl rfl hnone

/-- The new block is filled from its start on. -/
theorem Inv.filled {page : PageSize} (hs : s.Inv page.bytes) {len new : Nat} {h : Heap}
    (ha : Pool.Allocated page.bytes len s.heap new h) {bs : List UInt8} (hbs : bs.length ≤ len) :
    Reserved page.bytes s len new (h.store (span new bs)) := by
  refine hs.reserve ha rfl rfl (fun w hw => ?_)
  have hin := mem_span hw
  omega

/-- Growing an array moves its items, and is invisible in the lists. -/
theorem Inv.grown {page : PageSize} (hs : s.Inv page.bytes) {i increaseBy : Nat}
    {a a' : PtrArray} {h' : Heap} (hi : s.arrays[i]? = some a)
    (hg : PtrArray.Grown page.bytes increaseBy s.heap a h' a') :
    Inv page.bytes ⟨h', s.arrays.set i a'⟩ ∧ lists ⟨h', s.arrays.set i a'⟩ = s.lists := by
  obtain ⟨hlen, hcap, h₁, ha, rfl⟩ := hg
  have hle := hs.len_le i a hi
  have hmem : h₁.mem = s.heap.mem := ha.mem
  have hfits : (load h₁.mem a.data (8 * a.len)).length ≤ 8 * a'.capacity := by
    rw [load_length]
    omega
  have hr := hs.filled ha hfits
  constructor
  · refine hr.inv.set (by omega) ⟨hr.start_le, Nat.le_of_eq hr.end_eq⟩ (fun j b _ hb => ?_)
    exact .inr (hr.above j b hb)
  · rw [lists_set hi (f := id) ?_ (fun j b _ hb => hr.items j b hb), List.modify_id]
    rw [hlen, id, ← hmem]
    exact words_copy (Nat.le_refl _)

end Lists

/-! ## One call -/

/-- The call keeps the invariant, and does `op` to the lists if it succeeds. -/
def Does (page : Nat) (s : Arrays) (op : ListOp UInt64) (r : Bool × Arrays) : Prop :=
  Inv page r.2 ∧ r.2.lists = if r.1 then ListOp.apply s.lists op else s.lists

section Calls
variable {page : PageSize} {s : Arrays} {i : Nat} {a : PtrArray}

theorem on_eq {x : Fallible (Heap × PtrArray) Unit} {r : Option Unit} {h : Heap} {a' : PtrArray}
    (hi : s.arrays[i]? = some a) (hx : x.run (s.heap, a) = (r, (h, a'))) :
    s.on i x = (r.isSome, ⟨h, s.arrays.set i a'⟩) := by
  rw [on, hi]
  simp only [hx]

theorem set_self (hi : s.arrays[i]? = some a) : s.arrays.set i a = s.arrays := by
  obtain ⟨hlt, rfl⟩ := List.getElem?_eq_some_iff.mp hi
  exact List.set_getElem_self hlt

/-- A failed call leaves a message, and nothing else. -/
theorem does_failed {page : Nat} (hs : s.Inv page) (op : ListOp UInt64) (e : List Msg) :
    Does page s op (false, ⟨{ s.heap with e := e }, s.arrays⟩) :=
  ⟨hs.congr rfl, rfl⟩

theorem fill_does (hs : s.Inv page.bytes) (mremap : Mremap) {len : Nat} {bs : List UInt8}
    (hw : Pool.AllocNoWrap page.bytes s.heap.pool len) (hbs : bs.length = len) :
    Does page.bytes s .skip (s.plain (do
      let out ← Pool.alloc page.bytes mremap len
      modify (fun h => h.store (span out bs))
      return out)) := by
  rw [plain]
  rcases Pool.fill_cases (Pool.alloc_cases mremap page.bytes_pos hw)
      (fun out h => h.store (span out bs)) with ⟨text, hr⟩ | ⟨new, h₁, hr, ha⟩ <;> rw [hr]
  · exact does_failed hs _ _
  · have hr := hs.filled ha (Nat.le_of_eq hbs)
    exact ⟨hr.inv, lists_same hr.items⟩

theorem alloc_does (hs : s.Inv page.bytes) (mremap : Mremap) {len : Nat}
    (hw : Pool.AllocNoWrap page.bytes s.heap.pool len) :
    Does page.bytes s .skip (s.plain (Pool.alloc page.bytes mremap len)) := by
  rw [plain]
  rcases Pool.alloc_cases mremap page.bytes_pos hw with ⟨text, hr⟩ | ⟨new, h₁, hr, ha⟩ <;> rw [hr]
  · exact does_failed hs _ _
  · have hr := hs.allocated ha
    exact ⟨hr.inv, lists_same hr.items⟩

/-- Filling in a new, empty array. -/
theorem init_does (hs : s.Inv page.bytes) (mremap : Mremap) {initialSize : Nat}
    (hsize : 8 * initialSize < 2 ^ 64)
    (hw : Pool.AllocNoWrap page.bytes s.heap.pool (8 * initialSize)) :
    Does page.bytes s .create (s.create (PtrArray.init page.bytes mremap initialSize)) := by
  simp only [create, PtrArray.init, bind_run, onFst_run, Word.mul_eq hsize]
  rcases Pool.alloc_cases mremap page.bytes_pos hw with ⟨text, hr⟩ | ⟨new, h₁, hr, ha⟩ <;>
    simp only [hr, modify_run]
  · simpa using does_failed hs .create _
  · have hr := hs.allocated ha
    refine ⟨?_, ?_⟩
    · exact hr.inv.push (Nat.zero_le _) ⟨hr.start_le, Nat.le_of_eq hr.end_eq⟩
        (fun j b hb => .inr (hr.above j b hb))
    · exact lists_push hr.items

theorem dup_does (hs : s.Inv page.bytes) (mremap : Mremap) (hi : s.arrays[i]? = some a)
    (hw : Pool.AllocNoWrap page.bytes s.heap.pool (8 * a.capacity)) :
    Does page.bytes s (.dup i) (s.create (PtrArray.dup page.bytes mremap a)) := by
  have hle := hs.len_le i a hi
  have hlt := hs.layout.end_lt
  have hnext := hs.layout.next_le
  have hin := hs.inside i a hi
  have hbytes : Word.mul a.capacity 8 = 8 * a.capacity := by
    rw [Word.mul_eq (by omega), Nat.mul_comm]
  simp only [create, PtrArray.dup, bind_run, modify_run, onFst_run, hbytes]
  rcases Pool.alloc_cases mremap page.bytes_pos hw with ⟨text, hr⟩ | ⟨new, h₁, hr, ha⟩ <;>
    simp only [hr, modify_run, Heap.memcpy]
  · simpa using does_failed hs (.dup i) _
  · have hr := hs.filled ha (Nat.le_of_eq (load_length h₁.mem a.data (8 * a.capacity)))
    refine ⟨?_, ?_⟩
    · exact hr.inv.push hle ⟨hr.start_le, Nat.le_of_eq hr.end_eq⟩
        (fun j b hb => .inr (hr.above j b hb))
    · apply (lists_push hr.items).trans
      have hcopy : words (commit h₁.mem (span new (load h₁.mem a.data (8 * a.capacity)))) new
          a.len = words s.heap.mem a.data a.len := by
        rw [← ha.mem]
        exact words_copy (Nat.mul_le_mul_left 8 hle)
      simp [ListOp.apply, lists, hi, Heap.store, hcopy]

/-- Storing an item behind the last one, in an array with room for it. -/
theorem push_does {page : Nat} (hs : s.Inv page) (hi : s.arrays[i]? = some a)
    (hroom : a.len < a.capacity) (item : UInt64) :
    Does page s (.append i item)
      (true, ⟨(PtrArray.push item s.heap a).1,
        s.arrays.set i (PtrArray.push item s.heap a).2⟩) := by
  have hlt := hs.layout.end_lt
  have hnext := hs.layout.next_le
  have hin := hs.inside i a hi
  have hlen : Word.add a.len 1 = a.len + 1 := Word.add_eq (by omega)
  simp only [PtrArray.push, hlen]
  refine hs.write hi (fun w hw => ?_) hroom (words_push _ _ _ _)
  have := mem_storeWord hw
  omega

theorem append_does (hs : s.Inv page.bytes) (mremap : Mremap) (hi : s.arrays[i]? = some a)
    (hw : a.len = a.capacity → a.GrowNoWrap page.bytes s.heap.pool 16) (item : UInt64) :
    Does page.bytes s (.append i item) (s.on i (PtrArray.append page.bytes mremap item)) := by
  have hle := hs.len_le i a hi
  by_cases hfull : a.len = a.capacity
  · have happ : (PtrArray.append page.bytes mremap item).run (s.heap, a) = _ :=
      PtrArray.append_full mremap item hfull
    rcases PtrArray.growCapacity_cases mremap page.bytes_pos hle (hw hfull) with
      ⟨text, hr⟩ | ⟨h', a', hr, hg⟩ <;> rw [hr] at happ <;> rw [on_eq hi happ]
    · rw [set_self hi]
      exact does_failed hs _ _
    · -- the grown array has room, and holds the same items
      obtain ⟨hinv, hlists⟩ := hs.grown hi hg
      have hi' : (s.arrays.set i a')[i]? = some a' := by
        obtain ⟨hlt, -⟩ := List.getElem?_eq_some_iff.mp hi
        exact List.getElem?_set_self hlt
      have hroom : a'.len < a'.capacity := by
        rw [hg.len, hg.capacity]
        omega
      have hd := push_does hinv hi' hroom item
      rw [List.set_set, Does, hlists] at hd
      exact hd
  · -- the invariant leaves only that there is room
    rw [on_eq hi (PtrArray.append_room mremap item hfull)]
    exact push_does hs hi (by omega) item

theorem growCapacity_does (hs : s.Inv page.bytes) (mremap : Mremap) (hi : s.arrays[i]? = some a)
    {increaseBy : Nat} (hw : a.GrowNoWrap page.bytes s.heap.pool increaseBy) :
    Does page.bytes s .skip (s.on i (PtrArray.growCapacity page.bytes mremap increaseBy)) := by
  rcases PtrArray.growCapacity_cases mremap page.bytes_pos (hs.len_le i a hi) hw with
    ⟨text, hr⟩ | ⟨h', a', hr, hg⟩ <;> rw [on_eq hi hr]
  · rw [set_self hi]
    exact does_failed hs _ _
  · exact hs.grown hi hg

theorem swapRemove_eq {α : Type} {l : List α} {index : Nat} (h : index < l.length) :
    ListOp.swapRemove index l = (l.set index l[l.length - 1]).take (l.length - 1) := by
  have hlast : l.getLast? = some l[l.length - 1] := by
    rw [List.getLast?_eq_getElem?, List.getElem?_eq_getElem]
  rw [ListOp.swapRemove, hlast]
  simp only [List.dropLast_eq_take, List.length_set]

theorem set_does {page : Nat} (hs : s.Inv page) (hi : s.arrays[i]? = some a) {index : Nat}
    (hlt : index < a.len) (val : UInt64) :
    Does page s (.set i index val) (s.on i (PtrArray.set index val)) := by
  have hle := hs.len_le i a hi
  rw [on_eq hi rfl]
  refine hs.write hi (fun w hw => ?_) hle (words_storeWord _ _ _ _ _)
  have := mem_storeWord hw
  omega

theorem shrink_does {page : Nat} (hs : s.Inv page) (hi : s.arrays[i]? = some a) (n : Nat) :
    Does page s (.shrink i n) (s.on i (PtrArray.shrink n)) := by
  have hle := hs.len_le i a hi
  have hmin : min n a.len ≤ a.len := Nat.min_le_right n a.len
  rw [on_eq hi (PtrArray.shrink_run n s.heap a)]
  constructor
  · exact hs.set (Nat.le_trans hmin hle) (hs.inside i a hi)
      (fun j b hij hb => hs.apart i j a b hij hi hb)
  · refine lists_set hi ?_ (fun _ _ _ _ => rfl)
    rw [List.take_eq_take_min, words_length, words_take hmin]

theorem remove_does {page : Nat} (hs : s.Inv page) (hi : s.arrays[i]? = some a) {index : Nat}
    (hlt : index < a.len) :
    Does page s (.remove i index) (s.on i (PtrArray.remove index)) := by
  have hle := hs.len_le i a hi
  have hlist : index < (words s.heap.mem a.data a.len).length := by simpa using hlt
  rw [on_eq hi (PtrArray.remove_run index s.heap a)]
  by_cases hone : 1 < a.len
  · rw [if_pos hone]
    refine hs.write hi (fun w hw => ?_) (by omega) ?_
    · have := mem_storeWord hw
      omega
    · rw [swapRemove_eq hlist, ← words_take (Nat.sub_le a.len 1), words_storeWord]
      simp only [words_getElem, words_length]
      rfl
  · -- the last item: nothing is moved
    rw [if_neg hone]
    constructor
    · exact hs.set (by simp only; omega) (hs.inside i a hi)
        (fun j b hij hb => hs.apart i j a b hij hi hb)
    · refine lists_set hi ?_ (fun _ _ _ _ => rfl)
      have hlast : a.len = 1 := by omega
      rw [swapRemove_eq hlist]
      simp [hlast, words]

/-- **One call.** -/
theorem call_does (hs : s.Inv page.bytes) {op : ArrayOp} (hp : s.Permits page.bytes op) :
    Does page.bytes s op.intent (s.call page.bytes op) := by
  cases op with
  | alloc k len => exact alloc_does hs k hp
  | calloc k len => exact fill_does hs k hp List.length_replicate
  | strdup k src srcLen =>
    apply fill_does hs k hp
    simp only [Pool.strncpy, List.length_append, List.length_take, List.length_replicate]
    omega
  | init k n => exact init_does hs k hp.1 hp.2
  | append k i item =>
    obtain ⟨a, hi, hw⟩ := hp
    exact append_does hs k hi hw item
  | growCapacity k i n =>
    obtain ⟨a, hi, hw⟩ := hp
    exact growCapacity_does hs k hi hw
  | remove i index =>
    obtain ⟨a, hi, hlt⟩ := hp
    exact remove_does hs hi hlt
  | set i index val =>
    obtain ⟨a, hi, hlt⟩ := hp
    exact set_does hs hi hlt val
  | shrink i n =>
    obtain ⟨a, hi⟩ := hp
    exact shrink_does hs hi n
  | dup k i =>
    obtain ⟨a, hi, hw⟩ := hp
    have hd := dup_does hs k hi hw
    rw [call, hi]
    exact hd

/-- **Removing, setting and shrinking always succeed.** -/
theorem effect_of_void {page : Nat} {op : ArrayOp} (hp : s.Permits page op) (hop : op.Void) :
    s.effect page op = op.intent := by
  suffices h : (s.call page op).1 = true from if_pos h
  cases op with
  | remove i index =>
    obtain ⟨a, hi, -⟩ := hp
    exact congrArg Prod.fst (on_eq hi (PtrArray.remove_run index s.heap a))
  | set i index val =>
    obtain ⟨a, hi, -⟩ := hp
    exact congrArg Prod.fst (on_eq hi rfl)
  | shrink i n =>
    obtain ⟨a, hi⟩ := hp
    exact congrArg Prod.fst (on_eq hi (PtrArray.shrink_run n s.heap a))
  | _ => exact hop.elim

end Calls
end Arrays

/-! ## Runs -/

open Arrays

/-- The arrays follow the list model in lock step. -/
theorem arrays_follow (page : PageSize) :
    System.Follows (arraysIn page.bytes) (ListOp.lists UInt64) (fun s => s.Inv page.bytes)
      (fun s ls => s.lists = ls) (fun s op => s.effect page.bytes op) where
  keep := by
    rintro s op t hs ⟨hp, rfl⟩
    exact (call_does hs hp).1
  step := by
    rintro s op t ls hs rfl ⟨hp, rfl⟩
    refine ⟨_, rfl, ?_⟩
    rw [(call_does hs hp).2, effect]
    split <;> rfl

theorem arrays_init {page : PageSize} {s : Arrays} (h : (arraysIn page.bytes).init s) :
    s.Inv page.bytes := by
  obtain ⟨hnone, blocks, hr⟩ := h
  refine ⟨(Pool.session_inv hr).layout, ?_, ?_, ?_⟩ <;> simp [hnone]

/-- **Arrays sharing a pool are independent lists.**  The lists the arrays hold
at the end of a run are those the list model reaches by the effects of its
calls, one after the other.  A call of `ae_ptrarray_remove`, `ae_ptrarray_set` or
`ae_ptrarray_shrink` never fails to have its effect. -/
theorem arrays_refine (page : PageSize) {s t : Arrays}
    {τs : List (Transition Arrays ArrayOp)} (hs : (arraysIn page.bytes).init s)
    (hr : (arraysIn page.bytes).Run s τs t) :
    (∃ ρs, (ListOp.lists UInt64).Run [] ρs t.lists ∧
      ρs.map Transition.action = τs.map (fun τ => τ.before.effect page.bytes τ.action)) ∧
    ∀ τ ∈ τs, τ.action.Void → τ.before.effect page.bytes τ.action = τ.action.intent := by
  constructor
  · have hnil : s.lists = [] := by simp [lists, hs.1]
    obtain ⟨ρs, ls, hrun, rfl, hlabels⟩ := (arrays_follow page).run hr (arrays_init hs) hnil
    exact ⟨ρs, hrun, hlabels⟩
  · exact hr.forall_step (Q := fun s op _ => op.Void → s.effect page.bytes op = op.intent)
      fun s op t (hst : (arraysIn page.bytes).step s op t) hop => effect_of_void hst.1 hop

/-! ### Arrays in one page -/

/-- No array yet, in a pool of one page. -/
def noArrays : Arrays := ⟨Pool.onePage.heap, []⟩

theorem noArrays_init : (arraysIn Pool.page4k.bytes).init noArrays :=
  ⟨rfl, [], .of_init Pool.onePage_init⟩

/-- A kernel that never extends a mapping. -/
def noMemory : Mremap := fun _ _ _ => .error (ascii "Cannot allocate memory")

/-- One array, of four free slots. -/
def oneArray : Arrays := (noArrays.call Pool.page4k.bytes (.init noMemory 4)).2

theorem oneArray_step :
    (arraysIn Pool.page4k.bytes).step noArrays (.init noMemory 4) oneArray :=
  ⟨⟨by decide, by decide, by decide, fun h => absurd h (by decide)⟩, rfl⟩

/-- What the calls do in this pool. -/
def inPage (s : Arrays) (op : ArrayOp) : Arrays := (s.call Pool.page4k.bytes op).2

/-- An array of one slot, and one of four behind it.  The second item makes the first array
grow. -/
def sideBySide : List ArrayOp :=
  [.init noMemory 1, .init noMemory 4, .append noMemory 0 7, .append noMemory 0 8,
    .append noMemory 1 9, .remove 0 0]

/-- The two arrays. -/
def grownArrays : Arrays := sideBySide.foldl inPage noArrays

theorem sideBySide_run : (arraysIn Pool.page4k.bytes).Run noArrays
    (script inPage noArrays sideBySide) grownArrays := by
  apply System.Run.script
  simp only [script, sideBySide, List.forall_mem_cons, List.not_mem_nil, false_imp_iff,
    implies_true, and_true]
  refine ⟨⟨?_, rfl⟩, ⟨?_, rfl⟩, ⟨⟨⟨0, 0x10000, 1⟩, rfl, ?_⟩, rfl⟩,
    ⟨⟨⟨1, 0x10000, 1⟩, rfl, ?_⟩, rfl⟩, ⟨⟨⟨0, 0x10010, 4⟩, rfl, ?_⟩, rfl⟩,
    ⟨⟨⟨2, 0x10030, 17⟩, rfl, ?_⟩, rfl⟩⟩
  · exact ⟨by decide, by decide, by decide, fun h => absurd h (by decide)⟩
  · exact ⟨by decide, by decide, by decide, fun h => absurd h (by decide)⟩
  · exact fun h => absurd h (by decide)
  · exact fun _ => ⟨by decide, fun _ => ⟨by decide, by decide, fun h => absurd h (by decide)⟩⟩
  · exact fun h => absurd h (by decide)
  · decide

/-- The first item of the first array is removed, and the array is copied. -/
theorem arrays_refine_grown :
    ∃ ρs, (ListOp.lists UInt64).Run [] ρs (inPage grownArrays (.dup noMemory 0)).lists ∧
      ρs.map Transition.action =
        [.create, .create, .append 0 7, .append 0 8, .append 1 9, .remove 0 0, .dup 0] := by
  have hstep : (arraysIn Pool.page4k.bytes).step grownArrays (.dup noMemory 0)
      (inPage grownArrays (.dup noMemory 0)) :=
    ⟨⟨⟨1, 0x10030, 17⟩, rfl, by decide, by decide, fun h => absurd h (by decide)⟩, rfl⟩
  exact (arrays_refine Pool.page4k noArrays_init (sideBySide_run.snoc hstep)).1

end Libae
