import Libae.PoolLayout

/-! # How much a pool maps

`ae_pool_remap` asks for the whole request on top of the whole mapping, though the last pages
may have room for most of it, and `ae_pool_reset` keeps what is mapped.  Even so little is
wasted.  The mapping grows only for a request that it has no room for, so what it held then is
less than what is used afterwards: it is never larger than it was, or than the use at its peak
with the largest request and one page on top (`mapping_bounded`).  And as each growth is a page
or more, a pool whose use and requests are bounded calls `mremap` with success only so often,
however long it runs.
-/
namespace Libae
open Runs

namespace Pool

/-- The bytes from the start to `next`. -/
def used (p : Pool) : Nat := p.next - p.start

/-- How often the mapping was extended. -/
def growths (τs : List (Transition Session Op)) : Nat :=
  τs.countP (fun τ => τ.before.heap.pool.len < τ.after.heap.pool.len)

/-- Never more than `u` bytes are used, and no block is longer than `r`. -/
def Bounded (u r : Nat) (s : Session) : Prop :=
  used s.heap.pool ≤ u ∧ ∀ b ∈ s.blocks, b.len ≤ r

section Growth
variable {page : PageSize} {s t : Session} {len a : Nat} {h h' : Heap}

/-- **A mapping that grows** was smaller than what is used then, and grows by a page at least
and by the request in whole pages. -/
theorem Allocated.grown (ha : Allocated page.bytes len h a h') (hl : Layout page.bytes h.pool)
    (hgrew : h.pool.len < h'.pool.len) :
    h.pool.len < used h'.pool ∧ h.pool.len + page.bytes ≤ h'.pool.len ∧
      h'.pool.len < h.pool.len + len + page.bytes := by
  have hpage := page.bytes_pos
  have hend := hl.end_eq
  obtain ⟨hfits, hp⟩ | ⟨hover, hlt, hp⟩ := ha.pool
  · rw [hp] at hgrew
    exact absurd hgrew (Nat.lt_irrefl _)
  · have hlen : h'.pool.len = Word.roundUp page.bytes (h.pool.len + len) := by rw [hp]
    have hused : used h'.pool = a + len - h.pool.start := by rw [hp, used]
    have hceil := Nat.div_mul_le_self (h.pool.len + len + (page.bytes - 1)) page.bytes
    refine ⟨by omega, ?_, ?_⟩
    · -- both lengths are multiples of the page
      obtain ⟨m, hm⟩ := hl.len_dvd
      obtain ⟨m', hm'⟩ : page.bytes ∣ h'.pool.len := hlen ▸ Word.dvd_roundUp _ _
      rw [hm, hm'] at hgrew ⊢
      rw [← Nat.mul_succ]
      exact Nat.mul_le_mul_left _ (Nat.lt_of_mul_lt_mul_left hgrew)
    · rw [hlen]
      unfold Word.roundUp
      omega

/-- What a call adds to the mapping: nothing, or at least a page, and then no more than a page
beyond the block that it hands out. -/
theorem Session.Effect.grown (he : Effect page.bytes s t) (hl : Layout page.bytes s.heap.pool) :
    t.heap.pool.len = s.heap.pool.len ∨
      s.heap.pool.len + page.bytes ≤ t.heap.pool.len ∧
        ∃ b ∈ t.blocks, t.heap.pool.len < used t.heap.pool + b.len + page.bytes := by
  cases he with
  | failed hp _ => exact .inl (by rw [hp])
  | reset hp _ => exact .inl (by rw [hp])
  | handed len a h ha hp hb =>
    obtain ⟨-, -, -, -, -, hle⟩ := ha.layout hl
    rw [hp]
    rcases Nat.eq_or_lt_of_le hle with heq | hgrew
    · exact .inl heq.symm
    · obtain ⟨hused, hpage, hlt⟩ := ha.grown hl hgrew
      refine .inr ⟨hpage, ⟨a, len⟩, ?_, by simp only; omega⟩
      rw [hb]
      exact List.mem_cons_self

/-- **One call**: the mapping keeps its length, or has then at most a page beyond the bounds. -/
theorem bounded_step {u r : Nat} {op : Op} (hs : s.Inv page.bytes)
    (h : (session page.bytes).step s op t) (hbounded : Bounded u r t) :
    t.heap.pool.len = s.heap.pool.len ∨
      s.heap.pool.len + page.bytes ≤ t.heap.pool.len ∧
        t.heap.pool.len < u + r + page.bytes := by
  obtain ⟨hw, rfl⟩ := h
  have he : Session.Effect page.bytes s (s.call page.bytes op) :=
    Session.call_effect fun _ _ => hw.served page.bytes_pos
  refine (he.grown hs.layout).imp_right (And.imp_right ?_)
  rintro ⟨b, hb, hlt⟩
  have hused := hbounded.1
  have hlen := hbounded.2 b hb
  omega

end Growth

/-- **What a pool maps.**  For every run of a pool in which never more than `u` bytes are used
and no block is longer than `r`: the mapping is at most as long as it was at first, or `u` and
`r` and a page together; and each time it is extended, it grows by a page at least. -/
theorem mapping_bounded (page : PageSize) {s t : Session} {τs : List (Transition Session Op)}
    (hs : (session page.bytes).Reachable s) (hr : (session page.bytes).Run s τs t) {u r : Nat}
    (hbounded : ∀ τ ∈ τs, Bounded u r τ.after) :
    t.heap.pool.len ≤ max s.heap.pool.len (u + r + page.bytes) ∧
      s.heap.pool.len + growths τs * page.bytes ≤ t.heap.pool.len := by
  induction hr with
  | nil => exact ⟨Nat.le_max_left _ _, by simp [growths]⟩
  | @snoc τs t v op hr hst ih =>
    rw [List.forall_mem_append, List.forall_mem_singleton] at hbounded
    obtain ⟨hmax, hcount⟩ := ih hbounded.1
    have hinv : t.Inv page.bytes :=
      hr.invariant (fun _ _ _ hs h => (session_step hs h).1) (session_inv hs)
    have hcounts : growths (τs ++ [⟨t, op, v⟩]) =
        growths τs + if t.heap.pool.len < v.heap.pool.len then 1 else 0 := by
      simp [growths, List.countP_singleton]
    rw [hcounts]
    rcases bounded_step hinv hst hbounded.2 with heq | ⟨hpage, hlt⟩
    · rw [heq, if_neg (Nat.lt_irrefl _)]
      exact ⟨hmax, hcount⟩
    · have hpos := page.bytes_pos
      rw [if_pos (by omega), Nat.add_one_mul]
      exact ⟨by omega, by omega⟩

/-- One page, from which 5000 bytes are asked. -/
theorem mapping_bounded_grown :
    let t := onePage.call page4k.bytes (.alloc (fun a _ _ => .ok a) 5000)
    t.heap.pool.len ≤ max 4096 (5000 + 5000 + 4096) ∧ 4096 + 1 * 4096 ≤ t.heap.pool.len := by
  have hw : onePage.NoWrap page4k.bytes (.alloc (fun a _ _ => .ok a) 5000) :=
    ⟨by decide, by decide, fun _ => by decide⟩
  have hr : (session page4k.bytes).Run onePage _ _ := .single ⟨hw, rfl⟩
  refine mapping_bounded page4k (.of_init onePage_init) hr ?_
  rw [List.forall_mem_singleton]
  exact ⟨by decide, by decide⟩

end Pool
end Libae
