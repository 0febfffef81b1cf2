import Libae.PoolCopies

/-! # Growing the length

`ps_ptrarray_grow` (`ptrarray.h` declares it as `ae_ptrarray_grow`) changes the length of an
array, and grows the capacity if necessary.  It refuses a new length below the capacity, where
there is nothing more to do but to set it, so it succeeds exactly if the new length is the
capacity at least (`grow_resizes_iff`).
-/
namespace Libae
open ByteMemory Fallible

namespace PtrArray

/-- An array that may be grown: it lies in the pool in front of a block that is not empty, no
size wraps, and the pool supplies the block if one is needed. -/
structure Growable (page : Nat) (mremap : Mremap) (h : Heap) (a : PtrArray) (increaseBy : Nat) :
    Prop where
  layout : Pool.Layout page h.pool
  len_le : a.len ≤ a.capacity
  fits : 8 * (a.len + increaseBy) < 2 ^ 64
  supplies : a.capacity < a.len + increaseBy →
    Backing.Supplies page mremap h (8 * (a.len + increaseBy))
  later : ∃ b : Pool.Block, a.data + 8 * a.capacity ≤ b.addr ∧ 0 < b.len ∧
    b.addr + b.len ≤ h.pool.next

/-- The call returns true: the length is what was asked for, the capacity is the larger one of the
old capacity and the new length, and the items are what they were. -/
def Resizes (page : Nat) (mremap : Mremap) (h : Heap) (a : PtrArray) (increaseBy : Nat) : Prop :=
  ∃ h' a', (grow page mremap increaseBy).run (h, a) = (some (), (h', a')) ∧
    a'.len = a.len + increaseBy ∧ a'.capacity = max a.capacity (a.len + increaseBy) ∧
    words h'.mem a'.data a.len = words h.mem a.data a.len

variable {page : PageSize} {mremap : Mremap} {h : Heap} {a : PtrArray} {increaseBy : Nat}

/-- The last item does not end at `next`. -/
theorem Growable.apart (hg : Growable page.bytes mremap h a increaseBy) :
    a.data ≠ Word.sub h.pool.next (8 * a.len) := by
  obtain ⟨b, hdata, hpos, hnext⟩ := hg.later
  have hle := hg.len_le
  have hword := Nat.lt_of_le_of_lt hg.layout.next_le hg.layout.end_lt
  rw [Word.sub_eq hword (by omega)]
  omega

/-- A new length above the capacity gets a new block. -/
theorem Growable.enlarges (hg : Growable page.bytes mremap h a increaseBy)
    (hgt : a.capacity < a.len + increaseBy) : Resizes page.bytes mremap h a increaseBy := by
  have hfits := hg.fits
  have hlen : Word.add a.len increaseBy = a.len + increaseBy := Word.add_eq (by omega)
  have hmore : Word.sub (a.len + increaseBy) a.capacity = a.len + increaseBy - a.capacity :=
    Word.sub_eq (by omega) (by omega)
  have hcap : a.capacity + (a.len + increaseBy - a.capacity) = a.len + increaseBy := by omega
  have hsupply := hg.supplies hgt
  obtain ⟨-, hfail⟩ | ⟨-, h₁, halloc, hmem, -⟩ :=
    Pool.alloc_places mremap (8 * (a.len + increaseBy)) hg.layout
  · rw [Backing.Supplies, hfail] at hsupply
    cases hsupply
  have hrealloc : (Pool.realloc page.bytes mremap a.data (8 * a.len)
      (8 * (a.len + increaseBy))).run h = (some (Word.roundUp 16 h.pool.next),
        h₁.store (span (Word.roundUp 16 h.pool.next) (load h₁.mem a.data (8 * a.len)))) := by
    rw [Pool.realloc_of_ne mremap hg.apart, bind_of_some halloc]
    rfl
  have hgrow : (growCapacity page.bytes mremap (a.len + increaseBy - a.capacity)).run (h, a) =
      (some (), (h₁.store (span (Word.roundUp 16 h.pool.next) (load h₁.mem a.data (8 * a.len))),
        ⟨a.len, Word.roundUp 16 h.pool.next, a.len + increaseBy⟩)) := by
    rw [growCapacity_run mremap hg.len_le (by omega), hcap, hrealloc]
  have hrun := grow_above page.bytes mremap (h := h) (hlen.symm ▸ hgt)
  rw [hlen, hmore, hgrow] at hrun
  refine ⟨_, _, hrun, rfl, (Nat.max_eq_right (Nat.le_of_lt hgt)).symm, ?_⟩
  rw [← hmem]
  exact words_copy (le_refl _)

/-- **When an array can be made longer.**  For every array in a pool in use that may be grown, the
call returns true with the new length, the larger capacity and the same items, exactly if the new
length is not below the capacity. -/
theorem grow_resizes_iff (page : PageSize) (mremap : Mremap) (h : Heap) (a : PtrArray)
    (increaseBy : Nat) (hg : Growable page.bytes mremap h a increaseBy) :
    Resizes page.bytes mremap h a increaseBy ↔ a.capacity ≤ a.len + increaseBy := by
  have hfits := hg.fits
  have hlen : Word.add a.len increaseBy = a.len + increaseBy := Word.add_eq (by omega)
  rcases Nat.lt_trichotomy (a.len + increaseBy) a.capacity with hlt | heq | hgt
  · refine iff_of_false ?_ (Nat.not_le.mpr hlt)
    rintro ⟨h', a', hrun, -⟩
    obtain ⟨h₁, hrefused, -⟩ := grow_below page.bytes mremap (h := h) (hlen.symm ▸ hlt)
    rw [hrefused] at hrun
    cases hrun
  · refine iff_of_true ?_ (Nat.le_of_eq heq.symm)
    exact ⟨h, _, grow_level page.bytes mremap (hlen.trans heq), heq.symm,
      (Nat.max_eq_left (Nat.le_of_eq heq)).symm, rfl⟩
  · exact iff_of_true (hg.enlarges hgt) (Nat.le_of_lt hgt)

/-- An array with two slots, in the older one of the two blocks, may be grown by what the pool
supplies. -/
theorem twoSlots_growable {len increaseBy : Nat} (hlen : len ≤ 2) (hmore : increaseBy ≤ 2)
    (hsupply : 2 < len + increaseBy → Backing.Supplies Pool.page4k.bytes Pool.mremapLow
      Pool.twoBlocks.heap (8 * (len + increaseBy))) :
    Growable Pool.page4k.bytes Pool.mremapLow Pool.twoBlocks.heap ⟨len, 0x10000, 2⟩ increaseBy where
  layout := (Pool.session_inv Pool.twoBlocks_reachable).layout
  len_le := hlen
  fits := by dsimp only; omega
  supplies := hsupply
  later := ⟨⟨0x10010, 16⟩, Nat.le_refl 0x10010, by decide, by decide⟩

/-- Both slots are in use, and two more are wanted. -/
theorem grow_resizes_two :
    Resizes Pool.page4k.bytes Pool.mremapLow Pool.twoBlocks.heap ⟨2, 0x10000, 2⟩ 2 :=
  (grow_resizes_iff Pool.page4k Pool.mremapLow Pool.twoBlocks.heap ⟨2, 0x10000, 2⟩ 2
    (twoSlots_growable (by decide) (by decide) fun _ => rfl)).mpr (by decide)

/-- No slot is in use, and one is wanted. -/
theorem grow_within_refused :
    Growable Pool.page4k.bytes Pool.mremapLow Pool.twoBlocks.heap ⟨0, 0x10000, 2⟩ 1 ∧
      ¬ Resizes Pool.page4k.bytes Pool.mremapLow Pool.twoBlocks.heap ⟨0, 0x10000, 2⟩ 1 := by
  refine ⟨twoSlots_growable (by decide) (by decide) fun hlt => absurd hlt (by decide), ?_⟩
  rintro ⟨h', a', hrun, -⟩
  have hrefused : ((grow Pool.page4k.bytes Pool.mremapLow 1).run
      (Pool.twoBlocks.heap, ⟨0, 0x10000, 2⟩)).1 = none := rfl
  rw [hrun] at hrefused
  cases hrefused

end PtrArray
end Libae
