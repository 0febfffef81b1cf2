import Libae.PtrArrayLists

/-! # When an array can grow

`pool.h` says that `ae_pool_realloc` grows a block "if possible" and otherwise
allocates a new one.  The code refuses a source block that ends at the pool's
`next` instead, and this is the only refusal of an array's growth beyond a lack of
memory: every growth of a run that the pool has memory for succeeds exactly if no
array is grown while its last item ends at `next` (`growth_served_iff`).

An array whose slots are all in use and which was the last to allocate is just
such an array, the one of no slots included.
-/
namespace Libae
open ByteMemory Fallible Runs

namespace Arrays

/-- `ae_pool_alloc` of `len` bytes would succeed now. -/
def CanSupply (page : Nat) (mremap : Mremap) (s : Arrays) (len : Nat) : Prop :=
  ((Pool.alloc page mremap len).run s.heap).1.isSome

/-- The call returns `true` if the pool can supply the block it needs. -/
def Served (page : Nat) (s : Arrays) (op : ArrayOp) : Prop :=
  match op with
  | .append k i _ => ∀ a : PtrArray, s.arrays[i]? = some a →
    (a.len = a.capacity → CanSupply page k s (8 * (a.capacity + 16))) →
    (s.call page op).1 = true
  | .growCapacity k i increaseBy => ∀ a : PtrArray, s.arrays[i]? = some a →
    CanSupply page k s (8 * (a.capacity + increaseBy)) → (s.call page op).1 = true
  | _ => True

/-- The call does not grow an array whose last item ends at `next`, at a time the
pool can supply the new block. -/
def GrowsApart (page : Nat) (s : Arrays) : ArrayOp → Prop
  | .append k i _ => ∀ a : PtrArray, s.arrays[i]? = some a → a.len = a.capacity →
    CanSupply page k s (8 * (a.capacity + 16)) → a.data + 8 * a.len ≠ s.heap.pool.next
  | .growCapacity k i increaseBy => ∀ a : PtrArray, s.arrays[i]? = some a →
    CanSupply page k s (8 * (a.capacity + increaseBy)) → a.data + 8 * a.len ≠ s.heap.pool.next
  | _ => True

variable {page : Nat} {s : Arrays} {i : Nat} {a : PtrArray}

/-- `ae_pool_realloc` succeeds for a block that does not end at `next`, if
`ae_pool_alloc` does. -/
theorem realloc_isSome (mremap : Mremap) (h : Heap) (src srcLen newLen : Nat) :
    ((Pool.realloc page mremap src srcLen newLen).run h).1.isSome ↔
      src ≠ Word.sub h.pool.next srcLen ∧ ((Pool.alloc page mremap newLen).run h).1.isSome := by
  by_cases hlast : src = Word.sub h.pool.next srcLen
  · simp [Pool.realloc_last mremap hlast, ← hlast]
  · rw [Pool.realloc_of_ne mremap hlast, bind_run]
    rcases (Pool.alloc page mremap newLen).run h with ⟨_ | out, h'⟩ <;>
      simp [hlast, bind_run]

/-- Growing succeeds exactly if the last item does not end at `next`, and there is
memory. -/
theorem growCapacity_isSome (hs : s.Inv page) (mremap : Mremap) (hi : s.arrays[i]? = some a)
    {increaseBy : Nat} (hcap : 8 * (a.capacity + increaseBy) < 2 ^ 64) :
    ((PtrArray.growCapacity page mremap increaseBy).run (s.heap, a)).1.isSome ↔
      a.data + 8 * a.len ≠ s.heap.pool.next ∧
        CanSupply page mremap s (8 * (a.capacity + increaseBy)) := by
  have hle := hs.len_le i a hi
  have hin := hs.inside i a hi
  have hnext : s.heap.pool.next < 2 ^ 64 := Nat.lt_of_le_of_lt hs.layout.next_le hs.layout.end_lt
  have hsub : Word.sub s.heap.pool.next (8 * a.len) = s.heap.pool.next - 8 * a.len :=
    Word.sub_eq hnext (by omega)
  have hends : a.data = Word.sub s.heap.pool.next (8 * a.len) ↔
      a.data + 8 * a.len = s.heap.pool.next := by
    rw [hsub]
    omega
  rw [ne_eq, ← hends, PtrArray.growCapacity_run mremap hle hcap, CanSupply, ← ne_eq,
    ← realloc_isSome]
  rcases (Pool.realloc page mremap a.data (8 * a.len) (8 * (a.capacity + increaseBy))).run s.heap
    with ⟨_ | new, h'⟩ <;> simp

/-- An append succeeds exactly if there is room, or the array can be grown. -/
theorem append_isSome (mremap : Mremap) (item : UInt64) (h : Heap) :
    ((PtrArray.append page mremap item).run (h, a)).1.isSome ↔
      (a.len = a.capacity → ((PtrArray.growCapacity page mremap 16).run (h, a)).1.isSome) := by
  by_cases hfull : a.len = a.capacity
  · rw [PtrArray.append_full mremap item hfull]
    rcases (PtrArray.growCapacity page mremap 16).run (h, a) with ⟨_ | _, h', a'⟩ <;> simp [hfull]
  · simp [PtrArray.append_room mremap item hfull, hfull]

theorem on_fst {x : Fallible (Heap × PtrArray) Unit} (hi : s.arrays[i]? = some a) :
    (s.on i x).1 = (x.run (s.heap, a)).1.isSome := by
  rw [on, hi]

/-- **One call** is served exactly if it does not grow an array that ends at
`next`. -/
theorem served_iff (hs : s.Inv page) {op : ArrayOp} (hp : s.Permits page op) :
    s.Served page op ↔ s.GrowsApart page op := by
  cases op with
  | append k i item =>
    obtain ⟨a, hi, hw⟩ := hp
    simp only [Served, GrowsApart, call, hi, Option.some.injEq, forall_eq', on_fst hi,
      append_isSome]
    by_cases hfull : a.len = a.capacity
    · have hgrow := growCapacity_isSome hs k hi (hw hfull).1
      simp only [hfull, forall_const] at hgrow ⊢
      rw [hgrow]
      exact ⟨fun h hsup => (h hsup).1, fun h hsup => ⟨h hsup, hsup⟩⟩
    · simp [hfull]
  | growCapacity k i increaseBy =>
    obtain ⟨a, hi, hw⟩ := hp
    simp only [Served, GrowsApart, call, hi, Option.some.injEq, forall_eq', on_fst hi,
      growCapacity_isSome hs k hi hw.1]
    exact ⟨fun h hsup => (h hsup).1, fun h hsup => ⟨h hsup, hsup⟩⟩
  | _ => exact Iff.rfl

end Arrays

open Arrays

/-- **When arrays can grow.**  In a run, every growth that the pool has memory for
succeeds exactly if no array is grown while its last item ends at `next`. -/
theorem growth_served_iff (page : PageSize) {s t : Arrays}
    {τs : List (Transition Arrays ArrayOp)} (hs : (arraysIn page.bytes).init s)
    (hr : (arraysIn page.bytes).Run s τs t) :
    (∀ τ ∈ τs, τ.before.Served page.bytes τ.action) ↔
      ∀ τ ∈ τs, τ.before.GrowsApart page.bytes τ.action := by
  refine hr.forall_iff (I := fun s => s.Inv page.bytes)
    (Q := fun s op _ => s.Served page.bytes op) ?_ ?_ (arrays_init hs)
  · intro s op t hs hst _
    exact (arrays_follow page).keep s op t hs hst
  · rintro s op t hs ⟨hp, -⟩
    exact served_iff hs hp

/-- An array that grows apart from `next` is served, and so are all other calls of the run. -/
theorem growth_served_iff_grown : ∃ τs,
    (arraysIn Pool.page4k.bytes).Run noArrays τs grownArrays ∧
      ∀ τ ∈ τs, τ.before.Served Pool.page4k.bytes τ.action := by
  refine ⟨_, sideBySide_run, ?_⟩
  rw [growth_served_iff Pool.page4k noArrays_init sideBySide_run]
  simp only [script, sideBySide, List.forall_mem_cons, List.not_mem_nil, false_imp_iff,
    implies_true, and_true]
  refine ⟨trivial, trivial, ?_, ?_, ?_, trivial⟩
  · rintro a ⟨⟩ hfull
    exact absurd hfull (by decide)
  · -- the first array ends below the second one
    rintro a ⟨⟩ - -
    decide
  · rintro a ⟨⟩ hfull
    exact absurd hfull (by decide)

/-- An array without slots. -/
def emptyArray : Arrays := (noArrays.call Pool.page4k.bytes (.init noMemory 0)).2

/-- The first item of an array without slots is refused, with a whole page free. -/
theorem empty_append_refused :
    (arraysIn Pool.page4k.bytes).Reachable emptyArray ∧
      emptyArray.Permits Pool.page4k.bytes (.append noMemory 0 7) ∧
      CanSupply Pool.page4k.bytes noMemory emptyArray (8 * 16) ∧
      ¬ emptyArray.Served Pool.page4k.bytes (.append noMemory 0 7) := by
  have hinit : noArrays.Permits Pool.page4k.bytes (.init noMemory 0) :=
    ⟨by decide, by decide, by decide, fun h => absurd h (by decide)⟩
  refine ⟨.step (.of_init noArrays_init) ⟨hinit, rfl⟩, ?_, rfl, ?_⟩
  · exact ⟨⟨0, 0x10000, 0⟩, rfl, fun _ => ⟨by decide, fun h => absurd rfl h⟩⟩
  · intro h
    have htrue := h ⟨0, 0x10000, 0⟩ rfl (fun _ => rfl)
    cases htrue

end Libae
