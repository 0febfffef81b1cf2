import Libae.Pool
import Libae.Runs

/-! # The layout of the pool

Every pool function obtains memory through `ae_pool_alloc`, so what it can do to
the pool is said once: on a request whose sums do not wrap it either fails and
leaves pool and memory alone, or hands out the bytes from the aligned `next` on
(`Pool.alloc_cases`).

Over it stands the layout invariant (`Pool.Layout`).  Aligning `next` never
passes the end because the end is page aligned, and a page is a multiple of 16
bytes; a remap asks for the whole request on top of the whole mapping, so the
block fits although it starts inside the old one.  Blocks are handed out
upwards, hence apart (`Pool.session_layout`).
-/
namespace Libae
open ByteMemory Fallible Runs

/-- A page size: a power of two, and at least 16. -/
structure PageSize where
  log : Nat
  four_le : 4 ≤ log

namespace PageSize

/-- What `getpagesize` returns. -/
def bytes (page : PageSize) : Nat := 2 ^ page.log

theorem bytes_pos (page : PageSize) : 0 < page.bytes := Nat.two_pow_pos _

theorem sixteen_dvd (page : PageSize) : 16 ∣ page.bytes := by
  have h := Nat.pow_dvd_pow 2 page.four_le
  exact h

end PageSize

namespace Pool
open Heap

/-! ## One allocation -/

/-- `ALIGN_PTR` rounds up to the next multiple of 16. -/
theorem alignPtr_eq {p : Nat} (h : p + 15 < 2 ^ 64) : alignPtr p 16 = Word.roundUp 16 p := by
  have hless : Word.sub 16 1 = 15 := by decide
  have hmask : Word.add p 15 &&& Word.not 15 = Word.add p 15 / 16 * 16 :=
    Word.and_not_pow (k := 4) (Word.add_lt p 15) (by decide)
  rw [alignPtr, hless, hmask, Word.add_eq h]
  rfl

/-- The page count of the code is the rounded length, unless the sum wraps. -/
theorem pagesLen_eq {page size : Nat} (hpage : 0 < page) (h : size + (page - 1) < 2 ^ 64) :
    pagesLen page size = Word.roundUp page size := by
  have hsum : Word.sub (Word.add size page) 1 = size + (page - 1) := by
    unfold Word.sub Word.add
    omega
  have hle := Nat.div_mul_le_self (size + (page - 1)) page
  rw [pagesLen, hsum, Word.mul_eq (by omega)]
  rfl

/-- No sum that `ae_pool_alloc` forms for a request of `len` bytes wraps. -/
structure AllocNoWrap (page : Nat) (p : Pool) (len : Nat) : Prop where
  align : p.next + 15 < 2 ^ 64
  fits : Word.roundUp 16 p.next + len < 2 ^ 64
  remap : p.endPtr < Word.roundUp 16 p.next + len →
    p.len + len + (page - 1) < 2 ^ 64 ∧ p.start + Word.roundUp page (p.len + len) < 2 ^ 64

/-- A successful `ae_pool_alloc`: the block starts at the aligned `next`; the
mapping stays, or grows by whole pages to hold the request on top of all it
held. -/
structure Allocated (page len : Nat) (h : Heap) (a : Nat) (h' : Heap) : Prop where
  addr : a = Word.roundUp 16 h.pool.next
  mem : h'.mem = h.mem
  written : h'.written = h.written
  e : h'.e = h.e
  pool : (a + len ≤ h.pool.endPtr ∧ h'.pool = { h.pool with next := a + len }) ∨
    (h.pool.endPtr < a + len ∧
      h.pool.start + Word.roundUp page (h.pool.len + len) < 2 ^ 64 ∧ h'.pool =
      { start := h.pool.start, len := Word.roundUp page (h.pool.len + len),
        endPtr := h.pool.start + Word.roundUp page (h.pool.len + len), next := a + len })

/-- `ae_pool_remap` sets the new length if the kernel grants it in place, and fails
otherwise. -/
theorem remap_granted {page newLen : Nat} (mremap : Mremap) {more : Nat} {h : Heap}
    (hnew : pagesLen page (Word.add h.pool.len more) = newLen) :
    (mremap h.pool.start h.pool.len newLen ≠ .ok h.pool.start ∧ ∃ text,
        (remap page mremap more).run h = (none, { h with e := h.e ++ [⟨.err, text⟩] })) ∨
      (mremap h.pool.start h.pool.len newLen = .ok h.pool.start ∧
        (remap page mremap more).run h = (some (), { h with pool := { h.pool with
          len := newLen, endPtr := Word.add h.pool.start newLen } })) := by
  simp only [remap, bind_run, get_run, hnew]
  cases hk : mremap h.pool.start h.pool.len newLen with
  | error errno => exact .inl ⟨nofun, _, rfl⟩
  | ok new =>
    -- a mapping that was moved is a failure
    by_cases hne : new = h.pool.start
    · right
      simp [hne, setPool]
    · left
      simp only [ne_eq, Except.ok.injEq, hne, not_false_eq_true, ite_true, true_and]
      exact ⟨_, rfl⟩

theorem remap_cases {page : Nat} (mremap : Mremap) {more : Nat} {h : Heap} (hpage : 0 < page)
    (hlen : h.pool.len + more + (page - 1) < 2 ^ 64)
    (hend : h.pool.start + Word.roundUp page (h.pool.len + more) < 2 ^ 64) :
    (∃ text, (remap page mremap more).run h = (none, { h with e := h.e ++ [⟨.err, text⟩] })) ∨
      (remap page mremap more).run h = (some (), { h with pool := { h.pool with
        len := Word.roundUp page (h.pool.len + more)
        endPtr := h.pool.start + Word.roundUp page (h.pool.len + more) } }) := by
  have hnew : pagesLen page (Word.add h.pool.len more) = Word.roundUp page (h.pool.len + more) := by
    rw [Word.add_eq (by omega), pagesLen_eq hpage hlen]
  rw [← Word.add_eq hend]
  rcases remap_granted mremap hnew with ⟨-, hr⟩ | ⟨-, hr⟩
  · exact .inl hr
  · exact .inr hr

/-- A request is refused with a message, or served. -/
def Served (page : Nat) (mremap : Mremap) (len : Nat) (h : Heap) : Prop :=
  (∃ text, (alloc page mremap len).run h = (none, { h with e := h.e ++ [⟨.err, text⟩] })) ∨
    ∃ a h', (alloc page mremap len).run h = (some a, h') ∧ Allocated page len h a h'

theorem Served.allocated {page len a : Nat} {mremap : Mremap} {h h' : Heap}
    (hs : Served page mremap len h) (hr : (alloc page mremap len).run h = (some a, h')) :
    Allocated page len h a h' := by
  obtain ⟨text, hfail⟩ | ⟨b, h₁, hsome, ha⟩ := hs
  · rw [hr] at hfail
    cases hfail
  · rw [hr] at hsome
    cases hsome
    exact ha

/-- **What `ae_pool_alloc` can do.** -/
theorem alloc_cases {page : Nat} (mremap : Mremap) {len : Nat} {h : Heap} (hpage : 0 < page)
    (hw : AllocNoWrap page h.pool len) : Served page mremap len h := by
  have hadd : Word.add (Word.roundUp 16 h.pool.next) len = Word.roundUp 16 h.pool.next + len :=
    Word.add_eq hw.fits
  unfold Served alloc
  rw [bind_of_some (get_run h), alignPtr_eq hw.align, bind_of_some (get_run h), hadd]
  by_cases hgrow : h.pool.endPtr < Word.roundUp 16 h.pool.next + len
  · obtain ⟨hlen, hend⟩ := hw.remap hgrow
    rw [if_pos hgrow]
    rcases remap_cases mremap hpage hlen hend with ⟨text, hr⟩ | hr
    · exact .inl ⟨text, bind_of_none hr⟩
    · exact .inr ⟨_, _, bind_of_some hr, ⟨rfl, rfl, rfl, rfl, .inr ⟨hgrow, hend, rfl⟩⟩⟩
  · rw [if_neg hgrow]
    exact .inr ⟨_, _, rfl, ⟨rfl, rfl, rfl, rfl, .inl ⟨by omega, rfl⟩⟩⟩

/-- The functions that allocate and then fill the block: they fail as
`ae_pool_alloc` does, or succeed with its block. -/
theorem fill_cases {page : Nat} {mremap : Mremap} {len : Nat} {h : Heap}
    (hserved : Served page mremap len h) (fill : Nat → Heap → Heap) :
    (∃ text, (do let out ← alloc page mremap len
                 modify (fill out)
                 return out).run h = (none, { h with e := h.e ++ [⟨.err, text⟩] })) ∨
      ∃ a h', (do let out ← alloc page mremap len
                  modify (fill out)
                  return out).run h = (some a, fill a h') ∧ Allocated page len h a h' := by
  rcases hserved with ⟨text, hr⟩ | ⟨a, h', hr, ha⟩
  · exact .inl ⟨text, bind_of_none hr⟩
  · exact .inr ⟨a, h', bind_of_some hr, ha⟩

/-- The refusal of `ae_pool_realloc`. -/
theorem realloc_last {page : Nat} (mremap : Mremap) {src srcLen newLen : Nat} {h : Heap}
    (hlast : src = Word.sub h.pool.next srcLen) :
    (realloc page mremap src srcLen newLen).run h = (none, { h with e := h.e ++
      [⟨.err, ascii "this special case hasn't been implemented"⟩] }) := by
  rw [realloc, bind_of_some (get_run h), if_pos hlast]
  rfl

/-- Of any other block `ae_pool_realloc` makes a copy. -/
theorem realloc_of_ne {page : Nat} (mremap : Mremap) {src srcLen newLen : Nat} {h : Heap}
    (hne : src ≠ Word.sub h.pool.next srcLen) :
    (realloc page mremap src srcLen newLen).run h =
      (do let out ← alloc page mremap newLen
          modify (fun h => h.store (span out (load h.mem src srcLen)))
          return out).run h := by
  rw [realloc, bind_of_some (get_run h), if_neg hne]
  rfl

/-! ## The layout invariant -/

/-- `start ≤ next ≤ end = start + len`, in whole pages below the end of the
address space. -/
structure Layout (page : Nat) (p : Pool) : Prop where
  start_le : p.start ≤ p.next
  next_le : p.next ≤ p.endPtr
  end_eq : p.endPtr = p.start + p.len
  end_lt : p.endPtr < 2 ^ 64
  start_dvd : page ∣ p.start
  len_dvd : page ∣ p.len

theorem Layout.end_dvd {page : Nat} {p : Pool} (h : Layout page p) : page ∣ p.endPtr := by
  rw [h.end_eq]
  exact Nat.dvd_add h.start_dvd h.len_dvd

/-- Aligning `next` does not pass the end. -/
theorem Layout.align_le {page : PageSize} {p : Pool} (h : Layout page.bytes p) :
    Word.roundUp 16 p.next ≤ p.endPtr :=
  Word.roundUp_le (by decide) h.next_le (Nat.dvd_trans page.sixteen_dvd h.end_dvd)

/-- A successful allocation keeps the layout; its block is aligned and lies
between the old `next` and the new one; the mapping does not shrink. -/
theorem Allocated.layout {page : PageSize} {len a : Nat} {h h' : Heap}
    (ha : Allocated page.bytes len h a h') (hl : Layout page.bytes h.pool) :
    Layout page.bytes h'.pool ∧ 16 ∣ a ∧ h.pool.next ≤ a ∧ h'.pool.next = a + len ∧
      h'.pool.start = h.pool.start ∧ h.pool.len ≤ h'.pool.len := by
  have hdvd : 16 ∣ a := ha.addr ▸ Word.dvd_roundUp 16 h.pool.next
  have hge : h.pool.next ≤ a := ha.addr ▸ Word.le_roundUp (by decide) h.pool.next
  have hend : a ≤ h.pool.endPtr := ha.addr ▸ hl.align_le
  have hstart := hl.start_le
  rcases ha.pool with ⟨hfits, hp⟩ | ⟨-, hlt, hp⟩ <;> rw [hp]
  · refine ⟨⟨?_, hfits, hl.end_eq, hl.end_lt, hl.start_dvd, hl.len_dvd⟩, hdvd, hge, rfl, rfl,
      Nat.le_refl _⟩
    simp only
    omega
  · -- the block fits, as it starts at or before the old end
    have hround := Word.le_roundUp page.bytes_pos (h.pool.len + len)
    have heq := hl.end_eq
    refine ⟨⟨?_, ?_, rfl, hlt, hl.start_dvd, Word.dvd_roundUp _ _⟩, hdvd, hge, rfl, rfl, ?_⟩
    · simp only
      omega
    · simp only
      omega
    · simp only
      omega

/-! ## A pool in use -/

/-- A block handed out. -/
structure Block where
  addr : Nat
  len : Nat

/-- One block ends before the other begins. -/
def Block.Apart (b c : Block) : Prop := b.addr + b.len ≤ c.addr ∨ c.addr + c.len ≤ b.addr

/-- The block lies completely inside the mapping. -/
def Block.Inside (b : Block) (p : Pool) : Prop := p.start ≤ b.addr ∧ b.addr + b.len ≤ p.endPtr

/-- The calls a program makes on a pool, each with the kernel's answers to it. -/
inductive Op
  | reset
  | alloc (mremap : Mremap) (len : Nat)
  | calloc (mremap : Mremap) (len : Nat)
  | realloc (mremap : Mremap) (src srcLen newLen : Nat)
  | strdup (mremap : Mremap) (src : Text) (srcLen : Int)

/-- A heap and the blocks handed out since the last reset. -/
structure Session where
  heap : Heap
  blocks : List Block

namespace Session

/-- Record the block of a successful call. -/
def hand (s : Session) (len : Nat) (r : Option Nat × Heap) : Session :=
  ⟨r.2, (r.1.map (fun a => ⟨a, len⟩)).toList ++ s.blocks⟩

/-- The session after a call. -/
def call (page : Nat) (s : Session) : Op → Session
  | .reset => ⟨(reset.run s.heap).2, []⟩
  | .alloc k len => s.hand len ((alloc page k len).run s.heap)
  | .calloc k len => s.hand len ((calloc page k len).run s.heap)
  | .realloc k src srcLen newLen => s.hand newLen ((realloc page k src srcLen newLen).run s.heap)
  | .strdup k src srcLen => s.hand (strdupLen src srcLen) ((strdup page k src srcLen).run s.heap)

/-- No address computation of the call wraps. -/
def NoWrap (page : Nat) (s : Session) : Op → Prop
  | .reset => True
  | .alloc _ len => AllocNoWrap page s.heap.pool len
  | .calloc _ len => AllocNoWrap page s.heap.pool len
  | .realloc _ src srcLen newLen =>
    src ≠ Word.sub s.heap.pool.next srcLen → AllocNoWrap page s.heap.pool newLen
  | .strdup _ src srcLen => AllocNoWrap page s.heap.pool (strdupLen src srcLen)

end Session

namespace Session

/-- What a call does to the layout: nothing, or it empties the pool, or it hands
out the block of a successful allocation. -/
inductive Effect (page : Nat) (s t : Session) : Prop
  | failed (pool : t.heap.pool = s.heap.pool) (blocks : t.blocks = s.blocks)
  | reset (pool : t.heap.pool = { s.heap.pool with next := s.heap.pool.start })
      (blocks : t.blocks = [])
  | handed (len a : Nat) (h : Heap) (alloc : Allocated page len s.heap a h)
      (pool : t.heap.pool = h.pool) (blocks : t.blocks = ⟨a, len⟩ :: s.blocks)

theorem fill_effect {page : Nat} {mremap : Mremap} {len : Nat} {s : Session}
    (hserved : Served page mremap len s.heap) {fill : Nat → Heap → Heap}
    (hfill : ∀ a h, (fill a h).pool = h.pool) :
    Effect page s (s.hand len ((do let out ← alloc page mremap len
                                   modify (fill out)
                                   return out).run s.heap)) := by
  rcases fill_cases hserved fill with ⟨text, hr⟩ | ⟨a, h', hr, ha⟩ <;> rw [hr]
  · exact .failed rfl rfl
  · exact .handed len a h' ha (hfill a h') rfl

/-- The request that a call makes of `ae_pool_alloc`. -/
def asks (s : Session) : Op → Option (Mremap × Nat)
  | .reset => none
  | .alloc k len => some (k, len)
  | .calloc k len => some (k, len)
  | .realloc k src srcLen newLen =>
    if src = Word.sub s.heap.pool.next srcLen then none else some (k, newLen)
  | .strdup k src srcLen => some (k, strdupLen src srcLen)

theorem call_effect {page : Nat} {s : Session} {op : Op}
    (hserved : ∀ k len, s.asks op = some (k, len) → Served page k len s.heap) :
    Effect page s (s.call page op) := by
  cases op with
  | reset => exact .reset rfl rfl
  | alloc k len =>
    rw [call]
    rcases hserved k len rfl with ⟨text, hr⟩ | ⟨a, h', hr, ha⟩ <;> rw [hr]
    · exact .failed rfl rfl
    · exact .handed len a h' ha rfl rfl
  | calloc k len => exact fill_effect (hserved k len rfl) (fun _ _ => rfl)
  | realloc k src srcLen newLen =>
    rw [call]
    by_cases hlast : src = Word.sub s.heap.pool.next srcLen
    · rw [realloc_last k hlast]
      exact .failed rfl rfl
    · rw [realloc_of_ne k hlast]
      exact fill_effect (hserved k newLen (if_neg hlast)) (fun _ _ => rfl)
  | strdup k src srcLen => exact fill_effect (hserved k _ rfl) (fun _ _ => rfl)

theorem NoWrap.served {page : Nat} (hpage : 0 < page) {s : Session} {op : Op}
    (hw : s.NoWrap page op) {k : Mremap} {len : Nat} (hasks : s.asks op = some (k, len)) :
    Served page k len s.heap := by
  apply alloc_cases k hpage
  cases op with
  | reset => cases hasks
  | alloc => cases hasks; exact hw
  | calloc => cases hasks; exact hw
  | realloc k' src srcLen newLen =>
    rw [asks] at hasks
    split at hasks
    · cases hasks
    · next hlast =>
      cases hasks
      exact hw hlast
  | strdup => cases hasks; exact hw

/-- **One call keeps the layout.** -/
theorem Effect.layout {page : PageSize} {s t : Session} (he : Effect page.bytes s t)
    (hl : Layout page.bytes s.heap.pool) : Layout page.bytes t.heap.pool := by
  cases he with
  | failed hp => exact hp ▸ hl
  | reset hp =>
    rw [hp]
    exact ⟨Nat.le_refl _, Nat.le_trans hl.start_le hl.next_le, hl.end_eq, hl.end_lt, hl.start_dvd,
      hl.len_dvd⟩
  | handed len a h ha hp => exact hp ▸ (ha.layout hl).1

/-- The pool is laid out well, and the blocks lie in order of their age between
its start and `next`. -/
structure Inv (page : Nat) (s : Session) : Prop where
  layout : Layout page s.heap.pool
  blocks : ∀ b ∈ s.blocks, 16 ∣ b.addr ∧ s.heap.pool.start ≤ b.addr ∧
    b.addr + b.len ≤ s.heap.pool.next
  apart : s.blocks.Pairwise Block.Apart

/-- **One call keeps the invariant** and does not shrink the mapping. -/
theorem Effect.inv {page : PageSize} {s t : Session} (he : Effect page.bytes s t)
    (hs : Inv page.bytes s) : Inv page.bytes t ∧ s.heap.pool.len ≤ t.heap.pool.len := by
  have hl' := he.layout hs.layout
  cases he with
  | failed hp hb =>
    refine ⟨⟨hl', ?_, ?_⟩, ?_⟩ <;> simp only [hp, hb]
    · exact hs.blocks
    · exact hs.apart
    · exact Nat.le_refl _
  | reset hp hb =>
    refine ⟨⟨hl', ?_, ?_⟩, ?_⟩ <;> simp only [hp, hb]
    · intro b hmem
      cases hmem
    · exact .nil
    · exact Nat.le_refl _
  | handed len a h ha hp hb =>
    obtain ⟨-, hdvd, hnext, hend, hstart, hlen⟩ := ha.layout hs.layout
    have hge := hs.layout.start_le
    refine ⟨⟨hl', ?_, ?_⟩, hp ▸ hlen⟩
    · intro b hmem
      rw [hb] at hmem
      rw [hp]
      rcases List.mem_cons.mp hmem with rfl | hmem
      · exact ⟨hdvd, by simp only; omega, by simp only; omega⟩
      · obtain ⟨h16, hlo, hhi⟩ := hs.blocks b hmem
        exact ⟨h16, by omega, by omega⟩
    · -- every older block ends at or before the old `next`
      rw [hb]
      refine List.Pairwise.cons (fun b hmem => ?_) hs.apart
      obtain ⟨-, -, hhi⟩ := hs.blocks b hmem
      exact .inr (by simp only; omega)

end Session

/-- A pool from a successful `ae_pool_init` on, with `mmap` returning page-aligned
addresses. -/
def session (page : Nat) : System Session Op where
  init s := s.blocks = [] ∧ ∃ mmap initialSize h, (∀ len a, mmap len = .ok a → page ∣ a ∧
    a + len < 2 ^ 64) ∧ (init page mmap initialSize).run h = (some (), s.heap)
  step s op t := s.NoWrap page op ∧ t = s.call page op

/-- A successful `ae_pool_init` lays the pool out. -/
theorem init_layout {page : Nat} {mmap : Mmap} {initialSize : Nat} {h h' : Heap}
    (hmmap : ∀ len a, mmap len = .ok a → page ∣ a ∧ a + len < 2 ^ 64)
    (hr : (init page mmap initialSize).run h = (some (), h')) : Layout page h'.pool := by
  rw [init, bind_of_some (get_run h)] at hr
  cases hm : mmap (pagesLen page initialSize) with
  | error errno => simp [hm, bind_run, setPool, resErr] at hr
  | ok start =>
    obtain ⟨hdvd, hend⟩ := hmmap _ _ hm
    have hle := Nat.div_mul_le_self (Word.sub (Word.add initialSize page) 1) page
    have hlt : Word.sub (Word.add initialSize page) 1 < 2 ^ 64 := Nat.mod_lt _ (by decide)
    have hlen : page ∣ pagesLen page initialSize := by
      rw [pagesLen, Word.mul_eq (by omega)]
      exact Nat.dvd_mul_left page _
    simp only [hm, setPool, modify_run, Prod.mk.injEq, true_and] at hr
    rw [← hr]
    refine ⟨Nat.le_refl _, ?_, Word.add_eq hend, Word.add_lt _ _, hdvd, hlen⟩
    rw [Word.add_eq hend]
    exact Nat.le_add_right _ _

theorem session_step {page : PageSize} {s t : Session} {op : Op} (hs : s.Inv page.bytes)
    (h : (session page.bytes).step s op t) :
    t.Inv page.bytes ∧ s.heap.pool.len ≤ t.heap.pool.len := by
  obtain ⟨hw, rfl⟩ := h
  exact (Session.call_effect (fun _ _ => hw.served page.bytes_pos)).inv hs

theorem session_inv {page : PageSize} {s : Session} (h : (session page.bytes).Reachable s) :
    s.Inv page.bytes := by
  refine h.invariant ?_ (fun s op t hs hst => (session_step hs hst).1)
  rintro s ⟨hb, mmap, initialSize, h, hmmap, hr⟩
  refine ⟨init_layout hmmap hr, ?_, ?_⟩ <;> rw [hb]
  · intro b hmem
    cases hmem
  · exact .nil

theorem session_len {page : PageSize} {s t : Session} {τs : List (Transition Session Op)}
    (h : (session page.bytes).Reachable s) (hr : (session page.bytes).Run s τs t) :
    s.heap.pool.len ≤ t.heap.pool.len :=
  hr.relates (R := fun s t => s.heap.pool.len ≤ t.heap.pool.len)
    (I := fun s => s.Inv page.bytes) (fun _ _ _ hs hst => (session_step hs hst).1)
    (fun _ => Nat.le_refl _) (fun _ _ _ => Nat.le_trans)
    (fun _ _ _ hs hst => (session_step hs hst).2) (session_inv h)

/-- **The layout of a pool in use.**  In every reachable state the pool is laid
out in whole pages, the blocks handed out since the last reset are aligned, lie
in the mapping and do not overlap; and the mapping never shrinks. -/
theorem session_layout (page : PageSize) {s : Session} (h : (session page.bytes).Reachable s) :
    Layout page.bytes s.heap.pool ∧ (∀ b ∈ s.blocks, 16 ∣ b.addr ∧ b.Inside s.heap.pool) ∧
      s.blocks.Pairwise Block.Apart ∧
      ∀ t τs, (session page.bytes).Run s τs t → s.heap.pool.len ≤ t.heap.pool.len := by
  have hs := session_inv h
  refine ⟨hs.layout, ?_, hs.apart, fun _ _ hr => session_len h hr⟩
  intro b hmem
  obtain ⟨h16, hlo, hhi⟩ := hs.blocks b hmem
  exact ⟨h16, hlo, Nat.le_trans hhi hs.layout.next_le⟩

/-- Pages of 4096 bytes. -/
def page4k : PageSize := ⟨12, by decide⟩

/-- A kernel that maps up to 4 GiB at `0x10000`. -/
def mmapLow : Mmap := fun len =>
  if len ≤ 2 ^ 32 then .ok 0x10000 else .error (ascii "Cannot allocate memory")

/-- The heap before `ae_pool_init`. -/
def zeroHeap : Heap := ⟨⟨0, 0, 0, 0⟩, fun _ => 0, [], []⟩

/-- A pool of one page at `0x10000`, nothing handed out. -/
def onePage : Session := ⟨((init page4k.bytes mmapLow 1000).run zeroHeap).2, []⟩

theorem onePage_init : (session page4k.bytes).init onePage := by
  refine ⟨rfl, mmapLow, 1000, zeroHeap, ?_, rfl⟩
  intro len a h
  unfold mmapLow at h
  split at h
  · cases h
    exact ⟨by decide, by omega⟩
  · cases h

/-- The one page grows to three for a block of 5000 bytes. -/
theorem session_layout_grown :
    let s := onePage.call page4k.bytes (.alloc (fun a _ _ => .ok a) 5000)
    Layout page4k.bytes s.heap.pool ∧ (∀ b ∈ s.blocks, 16 ∣ b.addr ∧ b.Inside s.heap.pool) ∧
      s.blocks.Pairwise Block.Apart ∧
      ∀ t τs, (session page4k.bytes).Run s τs t → s.heap.pool.len ≤ t.heap.pool.len :=
  have hw : onePage.NoWrap page4k.bytes (.alloc (fun a _ _ => .ok a) 5000) :=
    ⟨by decide, by decide, fun _ => by decide⟩
  session_layout page4k (.step (.of_init onePage_init) ⟨hw, rfl⟩)

end Pool
end Libae
