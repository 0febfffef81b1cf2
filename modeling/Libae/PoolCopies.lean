import Libae.PtrArrayFailures

/-! # What a copy leaves

`ae_pool_realloc` and `ae_pool_strdup` allocate a block and fill it.  Both take the size of the
block from one number and what they store in it from another: `ae_pool_realloc` copies as many
bytes as the *old* block has, and `strncpy` stops only at the size of the new one, which leaves
no room for the NUL of a string that is longer than asked for.  Blocks are handed out upwards,
so neither can damage a block that is live at that moment, but the first one writes behind its
own block (`realloc_copies_iff`), and the second one leaves what is no string
(`strdup_duplicates_iff`).
-/
namespace Libae
open ByteMemory Fallible Runs

namespace Pool
open Heap

/-- A call that was to fill the `n` bytes at `a` has written there only, and what is handed out
holds what it held. -/
structure FillsOnly (s : Session) (a n : Nat) (h : Heap) : Prop where
  written : ∃ writes, h.written = s.heap.written ++ writes ∧ ∀ w ∈ writes, a ≤ w.1 ∧ w.1 < a + n
  live : ∀ b ∈ s.blocks, load h.mem b.addr b.len = load s.heap.mem b.addr b.len

/-- If `ae_pool_realloc` succeeds, it has a block of `newLen` bytes inside the pool, which begins
with what fits in it of the old one, and has filled nothing else. -/
def Copies (page : Nat) (mremap : Mremap) (s : Session) (src srcLen newLen : Nat) : Prop :=
  ∀ a h, (realloc page mremap src srcLen newLen).run s.heap = (some a, h) →
    Block.Inside ⟨a, newLen⟩ h.pool ∧
      load h.mem a (min srcLen newLen) = load s.heap.mem src (min srcLen newLen) ∧
      FillsOnly s a newLen h

/-- How many characters `ae_pool_strdup` is to duplicate. -/
def strdupChars (src : Text) (srcLen : Int) : Nat :=
  if srcLen = -1 then src.length else srcLen.toNat

/-- If `ae_pool_strdup` succeeds, its block has a NUL and reads as the beginning of `src`, and
nothing else is filled. -/
def Duplicates (page : Nat) (mremap : Mremap) (s : Session) (src : Text) (srcLen : Int) : Prop :=
  ∀ a h, (strdup page mremap src srcLen).run s.heap = (some a, h) →
    (∃ i < strdupChars src srcLen + 1, h.mem (a + i) = 0) ∧
      cString h.mem a (strdupChars src srcLen + 1) =
        src.take (min (strdupChars src srcLen) src.length) ∧
      FillsOnly s a (strdupChars src srcLen + 1) h

/-! ## Filling a block -/

section Fill
variable {page : PageSize} {mremap : Mremap} {len a n : Nat} {h h' : Heap} {s : Session}

/-- **Where `ae_pool_alloc` puts a block**, if it does, and that it writes nothing. -/
theorem alloc_places (mremap : Mremap) (len : Nat) (hl : Layout page.bytes h.pool) :
    (Short page.bytes mremap len h.pool ∧ ((alloc page.bytes mremap len).run h).1 = none) ∨
      (¬ Short page.bytes mremap len h.pool ∧ ∃ h',
        (alloc page.bytes mremap len).run h = (some (Word.roundUp 16 h.pool.next), h') ∧
          h'.mem = h.mem ∧ h'.written = h.written) := by
  by_cases hshort : Short page.bytes mremap len h.pool
  · exact .inl ⟨hshort, alloc_fails_iff.mpr hshort⟩
  · refine .inr ⟨hshort, ?_⟩
    have hsome := alloc_fails_iff.not.mpr hshort
    rw [alloc, bind_of_some (get_run h), alignPtr_eq hl.align_room, bind_of_some (get_run h)]
      at hsome ⊢
    split
    · next hgrow =>
      rw [if_pos hgrow] at hsome
      have hnew : pagesLen page.bytes (Word.add h.pool.len len) = _ := rfl
      obtain ⟨-, text, hr⟩ | ⟨-, hr⟩ := remap_granted mremap hnew
      · rw [bind_of_none hr] at hsome
        exact absurd rfl hsome
      · rw [bind_of_some hr]
        exact ⟨_, rfl, rfl, rfl⟩
    · exact ⟨_, rfl, rfl, rfl⟩

/-- A byte of a span is written. -/
theorem getElem_mem_span {a i : Nat} {bs : List UInt8} (hi : i < bs.length) :
    (a + i, bs[i]) ∈ span a bs := by
  induction bs generalizing a i with
  | nil => cases hi
  | cons b bs ih =>
    cases i with
    | zero => exact List.mem_cons_self
    | succ i =>
      have hmem := ih (a := a + 1) (i := i) (by simpa using hi)
      rw [show a + (i + 1) = a + 1 + i by omega]
      exact List.mem_cons_of_mem _ hmem

/-- **A block behind `next` is filled and nothing else, exactly if it has room for the bytes.** -/
theorem fillsOnly_iff (hs : s.Inv page.bytes) (ha : s.heap.pool.next ≤ a)
    (hmem : h.mem = s.heap.mem) (hwritten : h.written = s.heap.written) (bs : List UInt8) :
    FillsOnly s a n (h.store (span a bs)) ↔ bs.length ≤ n := by
  constructor
  · rintro ⟨⟨writes, heq, hin⟩, -⟩
    have hsame : span a bs = writes := by
      have hstore : (h.store (span a bs)).written = h.written ++ span a bs := rfl
      rw [hstore, hwritten] at heq
      exact List.append_cancel_left heq
    by_contra hlong
    have hlast := hin _ (hsame ▸ getElem_mem_span (a := a) (show n < bs.length by omega))
    exact Nat.lt_irrefl _ hlast.2
  · intro hroom
    refine ⟨⟨span a bs, ?_, fun w hw => ?_⟩, fun b hb => ?_⟩
    · rw [← hwritten]
      rfl
    · have hin := mem_span hw
      omega
    · obtain ⟨-, -, hle⟩ := hs.blocks b hb
      show load (commit h.mem (span a bs)) b.addr b.len = _
      rw [load_commit_span_outside (by omega), hmem]

/-- A block that is handed out lies inside the pool exactly if the request was in reach. -/
theorem alloc_inside_iff (hk : Mremap.Lawful mremap) (hl : Layout page.bytes h.pool)
    (hlen : len < 2 ^ 64) (hr : (alloc page.bytes mremap len).run h = (some a, h')) :
    Block.Inside ⟨a, len⟩ h'.pool ↔ InReach page.bytes mremap len h.pool := by
  obtain ⟨hreach, hserved⟩ | ⟨hfar, b, h₁, hsome, hbehind⟩ := alloc_limits hk hl hlen
  · refine iff_of_true ?_ hreach
    obtain ⟨hl', -, hge, hnext, hstart, -⟩ := (hserved.allocated hr).layout hl
    have hle := hl'.next_le
    have hfirst := hl.start_le
    exact ⟨by dsimp only; omega, by dsimp only; omega⟩
  · refine iff_of_false (fun hinside => ?_) hfar
    obtain ⟨-, hrun⟩ | ⟨-, h₂, hrun, -, -⟩ := alloc_places mremap len hl
    · rw [hr] at hrun
      cases hrun
    · rw [hr] at hrun hsome
      cases hrun
      cases hsome
      have hend := hinside.2
      dsimp only at hend
      omega

end Fill

/-! ## Copying a block -/

/-- **When a copy is right.**  For every pool in use, every block of it and every new length: if
`ae_pool_realloc` returns true, the new block lies inside the pool, begins with what fits in it
of the old one, and nothing else is written or changed, exactly if the call fails (because the
old block is the last one, or there is no memory), or the new length is not smaller and the
request is in reach of the pool's arithmetic. -/
theorem realloc_copies_iff (page : PageSize) (mremap : Mremap) (hk : Mremap.Lawful mremap)
    (s : Session) (hs : s.Inv page.bytes) (src srcLen newLen : Nat) (hlen : newLen < 2 ^ 64) :
    Copies page.bytes mremap s src srcLen newLen ↔
      src = Word.sub s.heap.pool.next srcLen ∨ Short page.bytes mremap newLen s.heap.pool ∨
        (srcLen ≤ newLen ∧ InReach page.bytes mremap newLen s.heap.pool) := by
  by_cases hlast : src = Word.sub s.heap.pool.next srcLen
  · refine iff_of_true (fun a h hr => ?_) (.inl hlast)
    rw [realloc_last mremap hlast] at hr
    cases hr
  obtain ⟨hshort, hfail⟩ | ⟨hroom, h₁, halloc, hmem, hwritten⟩ :=
    alloc_places mremap newLen hs.layout
  · refine iff_of_true (fun a h hr => ?_) (.inr (.inl hshort))
    rw [realloc_of_ne mremap hlast] at hr
    obtain ⟨b, h₁, halloc, -⟩ := bind_eq_some hr
    rw [halloc] at hfail
    cases hfail
  have hge : s.heap.pool.next ≤ Word.roundUp 16 s.heap.pool.next := Word.le_roundUp (by decide) _
  have hrun : (realloc page.bytes mremap src srcLen newLen).run s.heap =
      (some (Word.roundUp 16 s.heap.pool.next),
        h₁.store (span (Word.roundUp 16 s.heap.pool.next) (load h₁.mem src srcLen))) := by
    rw [realloc_of_ne mremap hlast, bind_of_some halloc]
    rfl
  have hinside := alloc_inside_iff hk hs.layout hlen halloc
  have hfills := fillsOnly_iff (n := newLen) hs hge hmem hwritten (load h₁.mem src srcLen)
  rw [load_length] at hfills
  simp only [Copies, hrun, Prod.mk.injEq, Option.some.injEq]
  constructor
  · intro h
    obtain ⟨hin, -, honly⟩ := h _ _ ⟨rfl, rfl⟩
    exact .inr (.inr ⟨hfills.mp honly, hinside.mp hin⟩)
  · rintro (hlast' | hshort | ⟨hfits, hreach⟩) a h ⟨rfl, rfl⟩
    · exact absurd hlast' hlast
    · exact absurd hshort hroom
    · refine ⟨hinside.mpr hreach, ?_, hfills.mpr hfits⟩
      have hcopy := load_commit_span h₁.mem (Word.roundUp 16 s.heap.pool.next)
        (load h₁.mem src srcLen)
      rw [load_length] at hcopy
      rw [Nat.min_eq_left hfits]
      show load (commit h₁.mem _) _ _ = _
      rw [hcopy, hmem]

/-- A pool with two blocks of 16 bytes, the older one at its start. -/
def twoBlocks : Session :=
  (onePage.call page4k.bytes (.alloc mremapLow 16)).call page4k.bytes (.alloc mremapLow 16)

theorem twoBlocks_blocks : twoBlocks.blocks = [⟨0x10010, 16⟩, ⟨0x10000, 16⟩] := rfl

theorem twoBlocks_reachable : (session page4k.bytes).Reachable twoBlocks := by
  have hw : onePage.NoWrap page4k.bytes (.alloc mremapLow 16) :=
    ⟨by decide, by decide, fun _ => by decide⟩
  have hw' : (onePage.call page4k.bytes (.alloc mremapLow 16)).NoWrap page4k.bytes
      (.alloc mremapLow 16) := ⟨by decide, by decide, fun _ => by decide⟩
  exact ((System.Reachable.of_init onePage_init).step ⟨hw, rfl⟩).step ⟨hw', rfl⟩

/-- The older block is copied to one of twice its size. -/
theorem realloc_copies_doubled :
    ⟨0x10000, 16⟩ ∈ twoBlocks.blocks ∧ Copies page4k.bytes mremapLow twoBlocks 0x10000 16 32 := by
  refine ⟨by simp [twoBlocks_blocks], ?_⟩
  refine (realloc_copies_iff page4k mremapLow mremapLow_lawful twoBlocks
    (session_inv twoBlocks_reachable) 0x10000 16 32 (by decide)).mpr (.inr (.inr ⟨by decide, ?_⟩))
  exact ⟨by decide, fun h => absurd h.1 (by decide)⟩

/-- It is copied to one of half its size, and the bytes from `0x10028` on are written as well. -/
theorem realloc_overruns : (session page4k.bytes).Reachable twoBlocks ∧
    ⟨0x10000, 16⟩ ∈ twoBlocks.blocks ∧
    ¬ Copies page4k.bytes mremapLow twoBlocks 0x10000 16 8 := by
  refine ⟨twoBlocks_reachable, by simp [twoBlocks_blocks], fun hcopies => ?_⟩
  obtain ⟨-, -, ⟨writes, heq, hin⟩, -⟩ := hcopies 0x10020 _ rfl
  have hnone : twoBlocks.heap.written = [] := rfl
  rw [hnone, List.nil_append] at heq
  have hwrite : (0x10028, 0) ∈ writes := by
    rw [← heq]
    decide
  exact absurd (hin _ hwrite).2 (by decide)

/-! ## Duplicating a string -/

/-- The block is asked for with room for a NUL. -/
theorem strdupLen_eq {src : Text} {srcLen : Int} (hsrc : src.length + 1 < 2 ^ 64)
    (hlen : srcLen = -1 ∨ 0 ≤ srcLen ∧ srcLen < 2 ^ 63) :
    strdupLen src srcLen = strdupChars src srcLen + 1 := by
  unfold strdupLen strdupChars
  by_cases hall : srcLen = -1
  · rw [if_pos hall, if_pos hall, Word.add_eq hsrc]
  · have hchars : (srcLen % 2 ^ 64).toNat = srcLen.toNat := by omega
    rw [if_neg hall, if_neg hall, hchars, Word.add_eq (by omega)]

theorem strncpy_length (src : Text) (len : Nat) : (strncpy src len).length = len := by
  simp [strncpy]
  omega

/-- A string that is not longer than asked for is stored whole, with a NUL behind it. -/
theorem strncpy_whole {m : ByteMemory.Mem} {a n : Nat} {src : Text} (hnul : ∀ c ∈ src, c ≠ 0)
    (hle : src.length ≤ n) :
    commit m (span a (strncpy src (n + 1))) (a + src.length) = 0 ∧
      cString (commit m (span a (strncpy src (n + 1)))) a (n + 1) = src := by
  have hsplit : strncpy src (n + 1) = src ++ List.replicate (n + 1 - src.length) nul := by
    rw [strncpy, List.take_of_length_le (by omega)]
  have hload : load (commit m (span a (strncpy src (n + 1)))) a src.length = src := by
    have hall := load_commit_span m a (strncpy src (n + 1))
    rw [strncpy_length] at hall
    rw [← load_take (n := n + 1) (by omega), hall, hsplit, List.take_left]
  have hend : commit m (span a (strncpy src (n + 1))) (a + src.length) = 0 := by
    have hlt : src.length < (strncpy src (n + 1)).length := by
      rw [strncpy_length]
      omega
    rw [commit_span_inside hlt]
    simp [hsplit, nul]
  exact ⟨hend, cString_eq hload hend (by omega) hnul⟩

/-- Of a longer one only characters are stored. -/
theorem strncpy_cut {m : ByteMemory.Mem} {a n i : Nat} {src : Text} (hnul : ∀ c ∈ src, c ≠ 0)
    (hlt : n < src.length) (hi : i < n + 1) :
    commit m (span a (strncpy src (n + 1))) (a + i) ≠ 0 := by
  have hcut : strncpy src (n + 1) = src.take (n + 1) := by
    rw [strncpy, Nat.sub_eq_zero_of_le hlt, List.replicate_zero, List.append_nil]
  have hin : i < (strncpy src (n + 1)).length := by
    rw [strncpy_length]
    exact hi
  rw [commit_span_inside hin]
  refine hnul _ (List.mem_of_mem_take (i := n + 1) ?_)
  rw [← hcut]
  exact List.getElem_mem hin

/-- **When a duplicate is a string.**  For every pool in use, whatever its free part holds, every
string and every length that is -1 or not negative: if `ae_pool_strdup` returns true, the block
has a NUL, reads as the beginning of the string, and nothing else is written or changed, exactly
if the length is -1 or not below that of the string, or there is no memory. -/
theorem strdup_duplicates_iff (page : PageSize) (mremap : Mremap) (s : Session)
    (hs : s.Inv page.bytes) (src : Text) (hnul : ∀ c ∈ src, c ≠ 0) (hsrc : src.length + 1 < 2 ^ 64)
    (srcLen : Int) (hlen : srcLen = -1 ∨ 0 ≤ srcLen ∧ srcLen < 2 ^ 63) :
    Duplicates page.bytes mremap s src srcLen ↔
      srcLen = -1 ∨ src.length ≤ srcLen ∨
        Short page.bytes mremap (strdupLen src srcLen) s.heap.pool := by
  have hchars : (srcLen = -1 ∨ src.length ≤ srcLen) ↔ src.length ≤ strdupChars src srcLen := by
    unfold strdupChars
    by_cases hall : srcLen = -1
    · simp [hall]
    · rw [if_neg hall]
      omega
  rw [← or_assoc, hchars]
  obtain ⟨hshort, hfail⟩ | ⟨hroom, h₁, halloc, hmem, hwritten⟩ :=
    alloc_places mremap (strdupLen src srcLen) hs.layout
  · refine iff_of_true (fun a h hr => ?_) (.inr hshort)
    rw [strdup] at hr
    obtain ⟨b, h₁, halloc, -⟩ := bind_eq_some hr
    rw [halloc] at hfail
    cases hfail
  have hge : s.heap.pool.next ≤ Word.roundUp 16 s.heap.pool.next := Word.le_roundUp (by decide) _
  have hrun : (strdup page.bytes mremap src srcLen).run s.heap =
      (some (Word.roundUp 16 s.heap.pool.next), h₁.store
        (span (Word.roundUp 16 s.heap.pool.next) (strncpy src (strdupChars src srcLen + 1)))) := by
    rw [strdup, bind_of_some halloc, ← strdupLen_eq hsrc hlen]
    rfl
  simp only [Duplicates, hrun, Prod.mk.injEq, Option.some.injEq]
  constructor
  · intro h
    obtain ⟨⟨i, hi, hzero⟩, -⟩ := h _ _ ⟨rfl, rfl⟩
    refine .inl ?_
    by_contra hlt
    exact strncpy_cut hnul (by omega) hi hzero
  · rintro (hle | hshort) a h ⟨rfl, rfl⟩
    · obtain ⟨hend, hstring⟩ := strncpy_whole (m := h₁.mem)
        (a := Word.roundUp 16 s.heap.pool.next) hnul hle
      refine ⟨⟨src.length, by omega, hend⟩, ?_, ?_⟩
      · rw [Nat.min_eq_right hle, List.take_length]
        exact hstring
      · exact (fillsOnly_iff hs hge hmem hwritten _).mpr (le_of_eq (strncpy_length _ _))
    · exact absurd hshort hroom

theorem abc_nul : ∀ c ∈ ascii "abc", c ≠ 0 := by
  have habc : ascii "abc" = [97, 98, 99] := rfl
  rw [habc]
  simp

/-- All of a string is duplicated. -/
theorem strdup_duplicates_all :
    Duplicates page4k.bytes mremapLow twoBlocks (ascii "abc") (-1) :=
  (strdup_duplicates_iff page4k mremapLow twoBlocks (session_inv twoBlocks_reachable) (ascii "abc")
    abc_nul (by decide) (-1) (.inl rfl)).mpr (.inl rfl)

/-- Two characters of it are asked for; three are stored, and no NUL. -/
theorem strdup_unterminated : (session page4k.bytes).Reachable twoBlocks ∧
    ¬ Duplicates page4k.bytes mremapLow twoBlocks (ascii "abc") 2 := by
  refine ⟨twoBlocks_reachable, fun hdup => ?_⟩
  obtain ⟨⟨i, hi, hzero⟩, -⟩ := hdup 0x10020 _ rfl
  exact strncpy_cut abc_nul (by decide) hi hzero

end Pool
end Libae
