import Libae.PoolLayout

/-! # The pool near the limits of the address space

`ae_pool_alloc` takes its sums modulo `2 ^ 64` and checks none of them.  Here the calls of a
program are not promised to stay clear of that: lengths are any words.

A wrapped sum is mostly harmless, as the kernel is then asked for a mapping of no length.
Two are not.  When the aligned `next` and the length wrap, the end test lets the request
pass, and `next` moves down.  When they do not but the new total does, the mapping is
*shrunk* to what is left of it, and the request passes although it lies behind the new end
(`limits_iff`).
-/
namespace Libae
open ByteMemory Fallible Runs

namespace Pool
open Heap

/-- `mremap` maps at least one byte, inside the address space. -/
def Mremap.Lawful (mremap : Mremap) : Prop :=
  ∀ old oldSize newSize new, mremap old oldSize newSize = .ok new →
    0 < newSize ∧ new + newSize < 2 ^ 64

/-- A pool of which a program asks for blocks of any size. -/
def unlimited (page : Nat) : System Session Op where
  init := (session page).init
  step s op t := (∀ k len, s.asks op = some (k, len) → len < 2 ^ 64 ∧ Mremap.Lawful k) ∧
    t = s.call page op

/-- A successful `ae_pool_alloc` ends, in exact arithmetic, inside the pool and does not move
`next` down; a request that does not fit in the address space is refused. -/
structure Exact (page : Nat) (mremap : Mremap) (len : Nat) (h : Heap) : Prop where
  inside : ∀ a h', (alloc page mremap len).run h = (some a, h') →
    Word.roundUp 16 h.pool.next + len ≤ h'.pool.endPtr ∧ h.pool.next ≤ h'.pool.next
  refused : 2 ^ 64 ≤ Word.roundUp 16 h.pool.next + len → ((alloc page mremap len).run h).1 = none

/-- The request ends below `2 ^ 64`, and if it needs more memory and the new total wraps, the
kernel does not shrink the mapping to the rest of it. -/
def InReach (page : Nat) (mremap : Mremap) (len : Nat) (p : Pool) : Prop :=
  Word.roundUp 16 p.next + len < 2 ^ 64 ∧
    ¬ (p.endPtr < Word.roundUp 16 p.next + len ∧ 2 ^ 64 ≤ p.len + len ∧
      mremap p.start p.len (Word.roundUp page (p.len + len - 2 ^ 64)) = .ok p.start)

/-! ## Wrapped sums -/

/-- Below the end of the address space there is room for a page. -/
theorem page_room {page : PageSize} {n : Nat} (hn : n < 2 ^ 64) (hdvd : page.bytes ∣ n)
    (hpos : 0 < n) : n + page.bytes ≤ 2 ^ 64 := by
  have hle := Nat.le_of_dvd hpos hdvd
  have hlog : page.log < 64 := (Nat.pow_lt_pow_iff_right (by decide)).mp (Nat.lt_of_le_of_lt hle hn)
  obtain ⟨c, hc⟩ := Nat.pow_dvd_pow 2 (Nat.le_of_lt hlog)
  obtain ⟨d, rfl⟩ := hdvd
  have hlt : d < c := by
    apply Nat.lt_of_mul_lt_mul_left (a := page.bytes)
    rw [PageSize.bytes, ← hc]
    exact hn
  calc page.bytes * d + page.bytes = page.bytes * (d + 1) := by ring
    _ ≤ page.bytes * c := Nat.mul_le_mul_left _ hlt
    _ = 2 ^ 64 := hc.symm

/-- Rounding up to pages that wraps leaves no pages. -/
theorem pagesLen_wrapped {page size : Nat} (hpage : 0 < page) (hsize : size < 2 ^ 64)
    (hwrap : 2 ^ 64 ≤ size + (page - 1)) : pagesLen page size = 0 := by
  have hsum : Word.sub (Word.add size page) 1 < page := by
    unfold Word.sub Word.add
    omega
  rw [pagesLen, Nat.div_eq_of_lt hsum, Word.mul]
  simp

namespace Layout
variable {page : PageSize} {p : Pool}

/-- Aligning `next` does not wrap. -/
theorem align_room (h : Layout page.bytes p) : p.next + 15 < 2 ^ 64 := by
  have hend := h.end_lt
  have hle := h.next_le
  have hdvd := Nat.dvd_trans page.sixteen_dvd h.end_dvd
  omega

/-- What is left of a total that wraps is at most the mapping. -/
theorem shrunk {len : Nat} (h : Layout page.bytes p) (hlen : len < 2 ^ 64)
    (hwrap : 2 ^ 64 ≤ p.len + len) :
    pagesLen page.bytes (Word.add p.len len) = Word.roundUp page.bytes (p.len + len - 2 ^ 64) ∧
      Word.roundUp page.bytes (p.len + len - 2 ^ 64) ≤ p.len := by
  have hend := h.end_lt
  have heq := h.end_eq
  have hroom := page_room (n := p.len) (by omega) h.len_dvd (by omega)
  have hsum : Word.add p.len len = p.len + len - 2 ^ 64 := by
    unfold Word.add
    omega
  refine ⟨?_, Word.roundUp_le page.bytes_pos (by omega) h.len_dvd⟩
  rw [hsum, pagesLen_eq page.bytes_pos (by omega)]

end Layout

/-! ## One request of any size -/

/-- A request that needs more memory, and whose own sum does not wrap. -/
theorem alloc_grown {page : PageSize} {mremap : Mremap} (hk : Mremap.Lawful mremap) {len : Nat}
    {h : Heap} (hl : Layout page.bytes h.pool) (hlen : len < 2 ^ 64)
    (hfits : Word.roundUp 16 h.pool.next + len < 2 ^ 64)
    (hgrow : h.pool.endPtr < Word.roundUp 16 h.pool.next + len) :
    InReach page.bytes mremap len h.pool ∧ Served page.bytes mremap len h ∨
      ¬ InReach page.bytes mremap len h.pool ∧ ∃ a h',
        (alloc page.bytes mremap len).run h = (some a, h') ∧
          h'.pool.endPtr < Word.roundUp 16 h.pool.next + len := by
  have hend := hl.end_eq
  have hadd : Word.add (Word.roundUp 16 h.pool.next) len = Word.roundUp 16 h.pool.next + len :=
    Word.add_eq hfits
  unfold Served alloc
  rw [bind_of_some (get_run h), alignPtr_eq hl.align_room, bind_of_some (get_run h), hadd,
    if_pos hgrow]
  rcases Nat.lt_or_ge (h.pool.len + len) (2 ^ 64) with htotal | htotal
  · refine .inl ⟨⟨hfits, fun hwrap => absurd hwrap.2.1 (by omega)⟩, ?_⟩
    have hsum : Word.add h.pool.len len = h.pool.len + len := Word.add_eq htotal
    rcases Nat.lt_or_ge (h.pool.len + len + (page.bytes - 1)) (2 ^ 64) with hround | hround
    · have hnew : pagesLen page.bytes (Word.add h.pool.len len) =
          Word.roundUp page.bytes (h.pool.len + len) := by
        rw [hsum, pagesLen_eq page.bytes_pos hround]
      obtain ⟨-, text, hr⟩ | ⟨hgranted, hr⟩ := remap_granted mremap hnew
      · exact .inl ⟨text, bind_of_none hr⟩
      · have hlt := (hk _ _ _ _ hgranted).2
        rw [Word.add_eq hlt] at hr
        exact .inr ⟨_, _, bind_of_some hr, ⟨rfl, rfl, rfl, rfl, .inr ⟨hgrow, hlt, rfl⟩⟩⟩
    · -- no pages are left
      have hnew : pagesLen page.bytes (Word.add h.pool.len len) = 0 := by
        rw [hsum, pagesLen_wrapped page.bytes_pos htotal hround]
      obtain ⟨-, text, hr⟩ | ⟨hgranted, -⟩ := remap_granted mremap hnew
      · exact .inl ⟨text, bind_of_none hr⟩
      · exact absurd (hk _ _ _ _ hgranted).1 (Nat.lt_irrefl 0)
  · obtain ⟨hnew, hshrunk⟩ := hl.shrunk hlen htotal
    obtain ⟨hrefused, text, hr⟩ | ⟨hgranted, hr⟩ := remap_granted mremap hnew
    · exact .inl ⟨⟨hfits, fun hwrap => hrefused hwrap.2.2⟩, .inl ⟨text, bind_of_none hr⟩⟩
    · have hlt := (hk _ _ _ _ hgranted).2
      rw [Word.add_eq hlt] at hr
      refine .inr ⟨fun hreach => hreach.2 ⟨hgrow, htotal, hgranted⟩, _, _, bind_of_some hr, ?_⟩
      show h.pool.start + Word.roundUp page.bytes (h.pool.len + len - 2 ^ 64) < _
      omega

/-- **One request of any size** is served as it should be if it is in reach, and otherwise
succeeds with a block that does not end inside the pool. -/
theorem alloc_limits {page : PageSize} {mremap : Mremap} (hk : Mremap.Lawful mremap) {len : Nat}
    {h : Heap} (hl : Layout page.bytes h.pool) (hlen : len < 2 ^ 64) :
    InReach page.bytes mremap len h.pool ∧ Served page.bytes mremap len h ∨
      ¬ InReach page.bytes mremap len h.pool ∧ ∃ a h',
        (alloc page.bytes mremap len).run h = (some a, h') ∧
          h'.pool.endPtr < Word.roundUp 16 h.pool.next + len := by
  have hend := hl.end_lt
  have halign := hl.align_le
  rcases Nat.lt_or_ge (Word.roundUp 16 h.pool.next + len) (2 ^ 64) with hfits | hwrap
  · rcases Nat.lt_or_ge h.pool.endPtr (Word.roundUp 16 h.pool.next + len) with hgrow | hroom
    · exact alloc_grown hk hl hlen hfits hgrow
    · refine .inl ⟨⟨hfits, fun hwrap => absurd hwrap.1 (by omega)⟩, ?_⟩
      exact alloc_cases mremap page.bytes_pos
        ⟨hl.align_room, hfits, fun hgrow => absurd hgrow (by omega)⟩
  · -- the wrapped sum lies below the aligned `next`, and so before the end
    have hsum : ¬ h.pool.endPtr < Word.add (Word.roundUp 16 h.pool.next) len := by
      unfold Word.add
      omega
    refine .inr ⟨fun hreach => absurd hreach.1 (by omega), ?_⟩
    unfold alloc
    rw [bind_of_some (get_run h), alignPtr_eq hl.align_room, bind_of_some (get_run h), if_neg hsum]
    refine ⟨_, _, rfl, ?_⟩
    show h.pool.endPtr < _
    omega

/-- What is served as it should be is exact. -/
theorem Served.exact {page : PageSize} {mremap : Mremap} {len : Nat} {h : Heap}
    (hserved : Served page.bytes mremap len h) (hl : Layout page.bytes h.pool)
    (hfits : Word.roundUp 16 h.pool.next + len < 2 ^ 64) : Exact page.bytes mremap len h := by
  refine ⟨fun a h' hr => ?_, fun hwrap => absurd hfits (by omega)⟩
  obtain ⟨text, hfail⟩ | ⟨b, h₁, hsome, ha⟩ := hserved
  · rw [hfail] at hr
    cases hr
  · rw [hsome] at hr
    cases hr
    obtain ⟨hl', -, hge, hnext, -⟩ := ha.layout hl
    have hle := hl'.next_le
    rw [← ha.addr]
    omega

/-- **When a request is exact.** -/
theorem exact_iff {page : PageSize} {mremap : Mremap} (hk : Mremap.Lawful mremap) {len : Nat}
    {h : Heap} (hl : Layout page.bytes h.pool) (hlen : len < 2 ^ 64) :
    Exact page.bytes mremap len h ↔ InReach page.bytes mremap len h.pool := by
  obtain ⟨hreach, hserved⟩ | ⟨hfar, a, h', hr, hbehind⟩ := alloc_limits hk hl hlen
  · exact iff_of_true (hserved.exact hl hreach.1) hreach
  · refine iff_of_false (fun hexact => ?_) hfar
    have hle := (hexact.inside a h' hr).1
    omega

/-! ## Runs -/

namespace Session

/-- The request of the call, if it makes one, is exact. -/
def CallExact (page : Nat) (s : Session) (op : Op) : Prop :=
  ∀ k len, s.asks op = some (k, len) → Exact page k len s.heap

/-- The request of the call, if it makes one, is in reach. -/
def CallInReach (page : Nat) (s : Session) (op : Op) : Prop :=
  ∀ k len, s.asks op = some (k, len) → InReach page k len s.heap.pool

end Session

/-- **Pool arithmetic near the limits.**  Along a run with requests of any size, every request
is exact if and only if every request is in reach. -/
theorem limits_iff {page : PageSize} {s t : Session} {τs : List (Transition Session Op)}
    (hs : (session page.bytes).init s) (hr : (unlimited page.bytes).Run s τs t) :
    (∀ τ ∈ τs, τ.before.CallExact page.bytes τ.action) ↔
      ∀ τ ∈ τs, τ.before.CallInReach page.bytes τ.action := by
  refine hr.forall_iff (I := fun s => Layout page.bytes s.heap.pool)
    (Q := fun s op _ => s.CallExact page.bytes op)
    (G := fun s op => s.CallInReach page.bytes op) ?_ ?_ ?_
  · rintro s op t hl ⟨hlaw, rfl⟩ hreach
    refine (Session.call_effect (fun k len hasks => ?_)).layout hl
    obtain ⟨hlen, hk⟩ := hlaw k len hasks
    obtain ⟨-, hserved⟩ | ⟨hfar, -⟩ := alloc_limits hk hl hlen
    · exact hserved
    · exact absurd (hreach k len hasks) hfar
  · rintro s op t hl ⟨hlaw, -⟩
    refine forall_congr' fun k => forall_congr' fun len => forall_congr' fun hasks => ?_
    obtain ⟨hlen, hk⟩ := hlaw k len hasks
    exact exact_iff hk hl hlen
  · obtain ⟨-, mmap, initialSize, h, hmmap, hinit⟩ := hs
    exact init_layout hmmap hinit

/-- A kernel that grows a mapping in place, below 4 GiB. -/
def mremapLow : Mremap := fun a _ newSize =>
  if 0 < newSize ∧ a + newSize < 2 ^ 32 then .ok a else .error (ascii "Cannot allocate memory")

theorem mremapLow_lawful : Mremap.Lawful mremapLow := by
  intro old oldSize newSize new h
  unfold mremapLow at h
  split at h
  · cases h
    omega
  · cases h

theorem unlimited_step {page : PageSize} {s : Session} {len : Nat} (hlen : len < 2 ^ 64) :
    (unlimited page.bytes).step s (.alloc mremapLow len)
      (s.call page.bytes (.alloc mremapLow len)) := by
  refine ⟨fun k n hasks => ?_, rfl⟩
  cases hasks
  exact ⟨hlen, mremapLow_lawful⟩

/-- The condition along a run of one request of 5000 bytes. -/
theorem limits_iff_grown :
    (∀ τ ∈ [(⟨onePage, .alloc mremapLow 5000, onePage.call page4k.bytes (.alloc mremapLow 5000)⟩ :
        Transition Session Op)], τ.before.CallExact page4k.bytes τ.action) ↔
      ∀ τ ∈ [(⟨onePage, .alloc mremapLow 5000, onePage.call page4k.bytes (.alloc mremapLow 5000)⟩ :
        Transition Session Op)], τ.before.CallInReach page4k.bytes τ.action :=
  limits_iff onePage_init (.single (unlimited_step (by decide)))

/-- On a fresh pool of one page a request of `2 ^ 64 - 16` bytes succeeds. -/
theorem impossible_served :
    ¬ ∀ s, (unlimited page4k.bytes).Reachable s → ∀ op t,
      (unlimited page4k.bytes).step s op t → s.CallExact page4k.bytes op := by
  intro h
  have hlen : 2 ^ 64 - 16 < 2 ^ 64 := by decide
  have hexact := h onePage (.of_init onePage_init) _ _ (unlimited_step hlen) mremapLow _ rfl
  have hrefused := hexact.refused (by decide)
  exact absurd hrefused (by decide)

end Pool
end Libae
