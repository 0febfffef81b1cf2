import Libae.PoolSpace
import Libae.Progress
import Libae.PtrArrayGrowth
import Mathlib.Tactic.Ring

/-! # What appending costs

`ae_ptrarray_append` grows a full array by 16 slots, for which `ae_pool_realloc` takes a new
block of all slots and leaves the old one in the pool.  So the items that are appended to an
array cost the square of their number, in bytes: the arrays of a pool, with no more than `c`
slots at first, use a quarter at least of the squares of the slots they have got since
(`append_squares`).

And an array whose block is the last one of the pool cannot be grown, as `ae_pool_realloc`
refuses it.  Until something else is allocated it takes as many items as it has slots, and
no more (`last_array_full`).
-/
namespace Libae
open ByteMemory Fallible Runs

/-! ## The last array of a pool -/

/-- An item is appended to the array `i`, or nothing is allocated. -/
def ArrayOp.AppendsTo (i : Nat) : ArrayOp → Prop
  | .append _ j _ => j = i
  | .remove .. | .set .. | .shrink .. => True
  | _ => False

/-- The functions that change neither the pool nor the slots of their array. -/
def PtrArray.Confined (x : Fallible (Heap × PtrArray) Unit) : Prop :=
  Frame (fun s : Heap × PtrArray => (s.1.pool, s.2.data, s.2.capacity)) x

namespace PtrArray

theorem confined_set (index : Nat) (val : UInt64) : Confined (set index val) :=
  .modify fun _ => rfl

theorem confined_remove (index : Nat) : Confined (remove index) := by
  refine .bind .get fun s => ?_
  dsimp only
  split
  · exact .pure _
  · split
    · exact .bind (confined_set _ _) fun _ => .modify fun _ => rfl
    · exact .modify fun _ => rfl

theorem confined_shrink (newSize : Nat) : Confined (shrink newSize) := by
  refine .bind .get fun s => ?_
  dsimp only
  split
  · exact .pure _
  · exact .modify fun _ => rfl

end PtrArray

namespace Arrays
variable {page : PageSize} {s t : Arrays} {i : Nat} {a : PtrArray} {op : ArrayOp}

/-- Where the slots of the arrays are, and how many there are. -/
def slots (s : Arrays) : List (Nat × Nat) := s.arrays.map (fun a => (a.data, a.capacity))

theorem slots_set {h : Heap} {a' : PtrArray} (hi : s.arrays[i]? = some a)
    (hsame : (a'.data, a'.capacity) = (a.data, a.capacity)) :
    slots ⟨h, s.arrays.set i a'⟩ = s.slots := by
  have hset : s.arrays.set i a = s.arrays := set_self hi
  rw [slots, slots, List.map_set, hsame, ← List.map_set, hset]

/-- Confined functions leave all slots where they are. -/
theorem on_confined {x : Fallible (Heap × PtrArray) Unit} (hx : PtrArray.Confined x) (i : Nat) :
    (s.on i x).2.heap.pool = s.heap.pool ∧ (s.on i x).2.slots = s.slots := by
  cases hi : s.arrays[i]? with
  | none => rw [on, hi]; exact ⟨rfl, rfl⟩
  | some a =>
    have hsame := hx (s.heap, a)
    rw [Prod.mk.injEq] at hsame
    rw [on_eq hi rfl]
    exact ⟨hsame.1, slots_set hi hsame.2⟩

/-- The slots of the array `i` end at `next`. -/
structure EndsPool (i data capacity next : Nat) (s : Arrays) : Prop where
  slots : s.slots[i]? = some (data, capacity)
  ends : data + 8 * capacity = next
  next : s.heap.pool.next = next

/-- An item is appended to the last array of the pool: it is stored if there is a slot for it,
and otherwise refused. -/
theorem append_last {data capacity next : Nat} (hs : s.Inv page.bytes)
    (hlast : EndsPool i data capacity next s) {mremap : Mremap} {item : UInt64}
    (hp : s.Permits page.bytes (.append mremap i item)) :
    EndsPool i data capacity next (s.call page.bytes (.append mremap i item)).2 ∧
      ((s.call page.bytes (.append mremap i item)).1 = true ↔
        ∃ a, s.arrays[i]? = some a ∧ a.len < capacity) := by
  obtain ⟨a, hi, hw⟩ := hp
  obtain ⟨hdata, hcapacity⟩ : a.data = data ∧ a.capacity = capacity := by
    have hslots := hlast.slots
    rw [Arrays.slots, List.getElem?_map, hi] at hslots
    simpa using hslots
  have hle := hs.len_le i a hi
  have hends := hlast.ends
  have hnext := hlast.next
  have hroom : (∃ b, s.arrays[i]? = some b ∧ b.len < capacity) ↔ a.len < a.capacity := by
    simp [hi, hcapacity]
  rw [hroom, call]
  by_cases hfull : a.len = a.capacity
  · -- the block of the items ends at `next`
    have hlt := hs.layout.end_lt
    have hbelow := hs.layout.next_le
    have hsub : a.data = Word.sub s.heap.pool.next (8 * a.len) := by
      rw [Word.sub_eq (by omega) (by omega)]
      omega
    have hrefused : (PtrArray.append page.bytes mremap item).run (s.heap, a) =
        (none, ({ s.heap with e := s.heap.e ++
          [⟨.err, ascii "this special case hasn't been implemented"⟩] }, a)) := by
      rw [PtrArray.append_full mremap item hfull,
        PtrArray.growCapacity_run mremap hle (hw hfull).1, Pool.realloc_last mremap hsub]
    rw [on_eq hi hrefused, set_self hi]
    exact ⟨⟨hlast.slots, hends, hnext⟩, iff_of_false Bool.false_ne_true (by omega)⟩
  · rw [on_eq hi (PtrArray.append_room mremap item hfull)]
    refine ⟨⟨?_, hends, hnext⟩, iff_of_true rfl (by omega)⟩
    have hslots : slots ⟨s.heap.store (storeWord (a.data + 8 * a.len) item),
        s.arrays.set i { a with len := Word.add a.len 1 }⟩ = s.slots := slots_set hi rfl
    exact (congrArg (·[i]?) hslots).trans hlast.slots

/-- **One call** leaves the last array the last one, of the same slots. -/
theorem ends_step {data capacity next : Nat} (hs : s.Inv page.bytes)
    (hlast : EndsPool i data capacity next s) (hop : op.AppendsTo i)
    (hp : s.Permits page.bytes op) : EndsPool i data capacity next (s.call page.bytes op).2 := by
  have hconfined : ∀ {x : Fallible (Heap × PtrArray) Unit} (j : Nat), PtrArray.Confined x →
      EndsPool i data capacity next (s.on j x).2 := by
    intro x j hx
    obtain ⟨hpool, hslots⟩ : (s.on j x).2.heap.pool = s.heap.pool ∧ _ := on_confined hx j
    exact ⟨hslots ▸ hlast.slots, hlast.ends, by rw [hpool, hlast.next]⟩
  cases op with
  | append k j item =>
    obtain rfl : j = i := hop
    exact (append_last hs hlast hp).1
  | remove j index => exact hconfined j (PtrArray.confined_remove index)
  | set j index val => exact hconfined j (PtrArray.confined_set index val)
  | shrink j newSize => exact hconfined j (PtrArray.confined_shrink newSize)
  | _ => exact hop.elim

end Arrays

open Arrays

/-- **The last array of a pool takes as many items as it has slots.**  From a state of a pool
in which the slots of the array `i` end at `next`, in every run of appends to this array and
calls that allocate nothing, it keeps its slots, and an append to it returns `true` exactly if
it holds fewer items than it has slots. -/
theorem last_array_full (page : PageSize) {s t : Arrays} {i : Nat} {a : PtrArray}
    (hs : (arraysIn page.bytes).Reachable s) (hi : s.arrays[i]? = some a)
    (hends : a.data + 8 * a.capacity = s.heap.pool.next)
    {τs : List (Transition Arrays ArrayOp)}
    (hr : ((arraysIn page.bytes).restrict fun _ op => op.AppendsTo i).Run s τs t) :
    (∃ b, t.arrays[i]? = some b ∧ b.data = a.data ∧ b.capacity = a.capacity) ∧
      ∀ u k item v, ⟨u, .append k i item, v⟩ ∈ τs →
        ((u.call page.bytes (.append k i item)).1 = true ↔
          ∃ b, u.arrays[i]? = some b ∧ b.len < a.capacity) := by
  have hinv : s.Inv page.bytes :=
    hs.invariant (fun _ => arrays_init) (arrays_follow page).keep
  have hfirst : EndsPool i a.data a.capacity s.heap.pool.next s := by
    refine ⟨?_, hends, rfl⟩
    rw [Arrays.slots, List.getElem?_map, hi]
    rfl
  -- what every step keeps
  have hkeep : ∀ u op v, (u.Inv page.bytes ∧ EndsPool i a.data a.capacity s.heap.pool.next u) →
      ((arraysIn page.bytes).restrict fun _ op => op.AppendsTo i).step u op v →
        v.Inv page.bytes ∧ EndsPool i a.data a.capacity s.heap.pool.next v := by
    rintro u op v ⟨hu, hlast⟩ ⟨hop, hp, rfl⟩
    exact ⟨(call_does hu hp).1, ends_step hu hlast hop hp⟩
  have hrun := hr.within hkeep ⟨hinv, hfirst⟩
  refine ⟨?_, ?_⟩
  · have hslots := (hr.invariant hkeep ⟨hinv, hfirst⟩).2.slots
    rw [Arrays.slots, List.getElem?_map] at hslots
    obtain ⟨b, hb, hab⟩ := Option.map_eq_some_iff.mp hslots
    exact ⟨b, hb, (Prod.mk.inj hab).1, (Prod.mk.inj hab).2⟩
  · clear hi hends hr
    induction hrun with
    | nil => exact fun _ _ _ _ h => absurd h List.not_mem_nil
    | snoc _ hst ih =>
      intro u k item v hmem
      rcases List.mem_append.mp hmem with hmem | hmem
      · exact ih u k item v hmem
      · cases List.mem_singleton.mp hmem
        obtain ⟨⟨hu, hlast⟩, -, hp, -⟩ := hst
        exact (append_last hu hlast hp).2

/-- An array of four slots, right after it was created. -/
theorem last_array_full_one :
    (oneArray.call Pool.page4k.bytes (.append noMemory 0 7)).1 = true ↔
      ∃ b, oneArray.arrays[0]? = some b ∧ b.len < 4 := by
  have hreachable : (arraysIn Pool.page4k.bytes).Reachable oneArray :=
    .step (.of_init noArrays_init) oneArray_step
  have hstep : (arraysIn Pool.page4k.bytes).step oneArray (.append noMemory 0 7)
      (oneArray.call Pool.page4k.bytes (.append noMemory 0 7)).2 :=
    ⟨⟨⟨0, 0x10000, 4⟩, rfl, fun h => absurd h (by decide)⟩, rfl⟩
  have hrun : ((arraysIn Pool.page4k.bytes).restrict fun _ op => op.AppendsTo 0).Run oneArray
      [⟨oneArray, .append noMemory 0 7, _⟩] _ := .single ⟨rfl, hstep⟩
  obtain ⟨-, happends⟩ :=
    last_array_full Pool.page4k (a := ⟨0, 0x10000, 4⟩) hreachable rfl rfl hrun
  exact happends oneArray noMemory 7 _ List.mem_cons_self

/-! ## Squares -/

/-- Arrays are created with at most `c` slots and grown by appends only, and other blocks are
allocated. -/
def ArrayOp.Appends (c : Nat) : ArrayOp → Prop
  | .init _ initialSize => initialSize ≤ c
  | .growCapacity .. | .dup .. => False
  | _ => True

namespace Arrays
variable {page : PageSize} {s t : Arrays} {i c : Nat} {a : PtrArray} {op : ArrayOp}

/-- The squares of the slots beyond `c`, of all arrays. -/
def squares (c : Nat) (s : Arrays) : Nat :=
  (s.arrays.map (fun a => (a.capacity - c) ^ 2)).sum

/-- Four bytes are used for what is added to the squares. -/
def Pays (c : Nat) (s t : Arrays) : Prop :=
  t.squares c + 4 * Pool.used s.heap.pool ≤ s.squares c + 4 * Pool.used t.heap.pool

theorem squares_set {h : Heap} {a' : PtrArray} (hi : s.arrays[i]? = some a) :
    squares c ⟨h, s.arrays.set i a'⟩ + (a.capacity - c) ^ 2 =
      s.squares c + (a'.capacity - c) ^ 2 := by
  have hlist : ∀ (l : List PtrArray) (i : Nat), l[i]? = some a →
      ((l.set i a').map (fun a => (a.capacity - c) ^ 2)).sum + (a.capacity - c) ^ 2 =
        (l.map (fun a => (a.capacity - c) ^ 2)).sum + (a'.capacity - c) ^ 2 := by
    intro l
    induction l with
    | nil => exact fun _ h => absurd h nofun
    | cons b l ih =>
      intro i hi
      cases i with
      | zero =>
        cases hi
        rw [List.set_cons_zero, List.map_cons, List.map_cons, List.sum_cons, List.sum_cons]
        ring
      | succ i =>
        have hrest := ih i hi
        rw [List.set_cons_succ, List.map_cons, List.map_cons, List.sum_cons, List.sum_cons,
          Nat.add_assoc, hrest, Nat.add_assoc]
  exact hlist s.arrays i hi

/-- An allocation adds to what is used. -/
theorem used_allocated {len new : Nat} {h h' : Heap}
    (ha : Pool.Allocated page.bytes len h new h') (hl : Pool.Layout page.bytes h.pool) :
    Pool.used h.pool + len ≤ Pool.used h'.pool := by
  obtain ⟨-, -, hnext, hend, hstart, -⟩ := ha.layout hl
  have hge := hl.start_le
  rw [Pool.used, Pool.used, hend, hstart]
  omega

/-- Where nothing is created or grown, nothing has to be paid. -/
theorem pays_slots (hslots : t.slots = s.slots)
    (hused : Pool.used s.heap.pool ≤ Pool.used t.heap.pool) : Pays c s t := by
  have hsquares : t.squares c = s.squares c := by
    have hmap := congrArg (fun l => (l.map (fun p : Nat × Nat => (p.2 - c) ^ 2)).sum) hslots
    simpa [slots, squares, Function.comp_def] using hmap
  rw [Pays, hsquares]
  omega

/-- **Growing by 16 slots** is paid for: the square of `n + 16` is that of `n` and `32 * n + 256`,
and the new block has `8 * (n + 16)` bytes or more. -/
theorem pays_grown {h' : Heap} {a' : PtrArray} (hs : s.Inv page.bytes)
    (hi : s.arrays[i]? = some a) (hg : PtrArray.Grown page.bytes 16 s.heap a h' a') :
    Pays c s ⟨h', s.arrays.set i a'⟩ := by
  obtain ⟨-, hcapacity, h₁, ha, hh⟩ := hg
  have hpool : h'.pool = h₁.pool := by rw [hh]; rfl
  have hused := used_allocated ha hs.layout
  have hset : squares c ⟨h', s.arrays.set i a'⟩ + _ = _ := squares_set hi
  have hsquare : (a'.capacity - c) ^ 2 ≤ (a.capacity - c) ^ 2 + 4 * (8 * a'.capacity) := by
    obtain ⟨m, hm⟩ : ∃ m, m = a.capacity - c := ⟨_, rfl⟩
    have hle : a'.capacity - c ≤ m + 16 := by omega
    calc (a'.capacity - c) ^ 2 ≤ (m + 16) ^ 2 := Nat.pow_le_pow_left hle 2
      _ = m ^ 2 + (32 * m + 256) := by ring
      _ ≤ (a.capacity - c) ^ 2 + 4 * (8 * a'.capacity) := by rw [hm]; omega
  show squares c _ + 4 * Pool.used s.heap.pool ≤ s.squares c + 4 * Pool.used h'.pool
  rw [hpool]
  omega

theorem Pays.trans {u : Arrays} (h : Pays c s t) (h' : Pays c t u) : Pays c s u := by
  rw [Pays] at h h' ⊢
  omega

/-- A call that failed has paid nothing, and has added nothing. -/
theorem pays_failed (e : List Msg) : Pays c s ⟨{ s.heap with e := e }, s.arrays⟩ :=
  pays_slots rfl (le_refl _)

/-- Other blocks are paid for, and add nothing. -/
theorem pays_alloc (hs : s.Inv page.bytes) (mremap : Mremap) {len : Nat}
    (hw : Pool.AllocNoWrap page.bytes s.heap.pool len) :
    Pays c s (s.plain (Pool.alloc page.bytes mremap len)).2 := by
  rw [plain]
  rcases Pool.alloc_cases mremap page.bytes_pos hw with ⟨text, hr⟩ | ⟨new, h₁, hr, ha⟩ <;> rw [hr]
  · exact pays_failed _
  · have hused := used_allocated ha hs.layout
    exact pays_slots rfl (by simp only; omega)

theorem pays_fill (hs : s.Inv page.bytes) (mremap : Mremap) {len : Nat}
    (hw : Pool.AllocNoWrap page.bytes s.heap.pool len) {fill : Nat → Heap → Heap}
    (hfill : ∀ a h, (fill a h).pool = h.pool) :
    Pays c s (s.plain (do
      let out ← Pool.alloc page.bytes mremap len
      modify (fill out)
      return out)).2 := by
  rw [plain]
  rcases Pool.fill_cases (Pool.alloc_cases mremap page.bytes_pos hw) fill with
    ⟨text, hr⟩ | ⟨new, h₁, hr, ha⟩ <;> rw [hr]
  · exact pays_failed _
  · have hused := used_allocated ha hs.layout
    refine pays_slots rfl ?_
    show _ ≤ Pool.used (fill new h₁).pool
    rw [hfill]
    omega

/-- A new array has no more than `c` slots. -/
theorem pays_init (hs : s.Inv page.bytes) (mremap : Mremap) {initialSize : Nat}
    (hsize : initialSize ≤ c) (hbytes : 8 * initialSize < 2 ^ 64)
    (hw : Pool.AllocNoWrap page.bytes s.heap.pool (8 * initialSize)) :
    Pays c s (s.create (PtrArray.init page.bytes mremap initialSize)).2 := by
  simp only [create, PtrArray.init, bind_run, onFst_run, Word.mul_eq hbytes]
  rcases Pool.alloc_cases mremap page.bytes_pos hw with ⟨text, hr⟩ | ⟨new, h₁, hr, ha⟩ <;>
    simp only [hr, modify_run]
  · rw [Option.map_none, Option.toList_none, List.append_nil]
    exact pays_failed _
  · have hused := used_allocated ha hs.layout
    have hnone : initialSize - c = 0 := by omega
    have hsquares : squares c ⟨h₁, s.arrays ++ [⟨0, new, initialSize⟩]⟩ = s.squares c := by
      simp [squares, hnone]
    show squares c ⟨h₁, s.arrays ++ [⟨0, new, initialSize⟩]⟩ + _ ≤ _
    rw [hsquares]
    show _ ≤ s.squares c + 4 * Pool.used h₁.pool
    omega

/-- An append pays for the slots it adds. -/
theorem pays_append (hs : s.Inv page.bytes) (mremap : Mremap) (hi : s.arrays[i]? = some a)
    (hw : a.len = a.capacity → a.GrowNoWrap page.bytes s.heap.pool 16) (item : UInt64) :
    Pays c s (s.on i (PtrArray.append page.bytes mremap item)).2 := by
  by_cases hfull : a.len = a.capacity
  · have happ : (PtrArray.append page.bytes mremap item).run (s.heap, a) = _ :=
      PtrArray.append_full mremap item hfull
    rcases PtrArray.growCapacity_cases mremap page.bytes_pos (hs.len_le i a hi) (hw hfull) with
      ⟨text, hr⟩ | ⟨h', a', hr, hg⟩ <;> rw [hr] at happ <;> rw [on_eq hi happ]
    · rw [set_self hi]
      exact pays_failed _
    · -- the grown array has room
      refine (pays_grown hs hi hg).trans (pays_slots ?_ (le_refl _))
      simp [slots, List.map_set]
  · rw [on_eq hi (PtrArray.append_room mremap item hfull)]
    exact pays_slots (slots_set hi rfl) (le_refl _)

/-- **One call.** -/
theorem call_pays (hs : s.Inv page.bytes) (hop : op.Appends c) (hp : s.Permits page.bytes op) :
    Pays c s (s.call page.bytes op).2 := by
  have hconfined : ∀ {x : Fallible (Heap × PtrArray) Unit} (j : Nat), PtrArray.Confined x →
      Pays c s (s.on j x).2 := by
    intro x j hx
    obtain ⟨hpool, hslots⟩ : (s.on j x).2.heap.pool = s.heap.pool ∧ _ := on_confined hx j
    exact pays_slots hslots (by rw [hpool])
  cases op with
  | alloc k len => exact pays_alloc hs k hp
  | calloc k len => exact pays_fill hs k hp fun _ _ => rfl
  | strdup k src srcLen => exact pays_fill hs k hp fun _ _ => rfl
  | init k n => exact pays_init hs k hop hp.1 hp.2
  | append k i item =>
    obtain ⟨a, hi, hw⟩ := hp
    exact pays_append hs k hi hw item
  | remove j index => exact hconfined j (PtrArray.confined_remove index)
  | set j index val => exact hconfined j (PtrArray.confined_set index val)
  | shrink j newSize => exact hconfined j (PtrArray.confined_shrink newSize)
  | growCapacity | dup => exact hop.elim

end Arrays

/-- **Appending costs squares.**  From every state of a pool in use, in every run in which
arrays are created with at most `c` slots and grown by appends: four times the bytes that are
used in it are at least what it adds to the squares of the slots beyond `c`. -/
theorem append_squares (page : PageSize) {c : Nat} {s t : Arrays}
    (hs : (arraysIn page.bytes).Reachable s) {τs : List (Transition Arrays ArrayOp)}
    (hr : ((arraysIn page.bytes).restrict fun _ op => op.Appends c).Run s τs t) :
    t.squares c + 4 * Pool.used s.heap.pool ≤ s.squares c + 4 * Pool.used t.heap.pool := by
  have hinv : s.Inv page.bytes :=
    hs.invariant (fun _ => arrays_init) (arrays_follow page).keep
  have hpays : Pays c s t := by
    refine hr.relates (I := fun s => s.Inv page.bytes) (R := Pays c) ?_ ?_ ?_ ?_ hinv
    · rintro u op v hu ⟨-, hp, rfl⟩
      exact (call_does hu hp).1
    · exact fun u => le_refl _
    · exact fun u v w => Pays.trans
    · rintro u op v hu ⟨hop, hp, rfl⟩
      exact call_pays hu hop hp
  exact hpays

/-- An array of one slot grows to 17, which is 13 more than four. -/
theorem append_squares_grown : 13 * 13 + 4 * Pool.used noArrays.heap.pool ≤
    noArrays.squares 4 + 4 * Pool.used grownArrays.heap.pool := by
  have hops : ∀ τ ∈ script inPage noArrays sideBySide, ArrayOp.Appends 4 τ.action := by
    simp only [script, sideBySide, List.forall_mem_cons, List.not_mem_nil, false_imp_iff,
      implies_true, and_true]
    exact ⟨show 1 ≤ 4 by decide, le_refl 4, trivial, trivial, trivial, trivial⟩
  have hsquares : grownArrays.squares 4 = 13 * 13 := rfl
  rw [← hsquares]
  exact append_squares Pool.page4k (.of_init noArrays_init) (sideBySide_run.restrict hops)

end Libae
