import Libae.PoolLayout

/-! # The same requests after a reset

`ae_pool_reset` moves `next` back to the start and leaves the mapping as it has grown.  A
request that fitted in the mapping of its time fits in the larger one of the end, at the same
address, because `next` and the alignment decide where a block lies.  So the same requests are
served again, without the kernel (`reset_replays`).
-/
namespace Libae
open Fallible

namespace Pool
open Heap

/-- Requests one after another, each with the kernel's answer: the addresses of the blocks.  The
first one that fails is the last. -/
def allocs (page : Nat) : List (Mremap × Nat) → Fallible Heap (List Nat)
  | [] => return []
  | (mremap, len) :: requests => do
    let a ← alloc page mremap len
    let addrs ← allocs page requests
    return a :: addrs

/-- No address computation wraps on the way. -/
def NoWraps (page : Nat) : List (Mremap × Nat) → Heap → Prop
  | [], _ => True
  | (mremap, len) :: requests, h => AllocNoWrap page h.pool len ∧
    ∀ a h', (alloc page mremap len).run h = (some a, h') → NoWraps page requests h'

variable {page : PageSize} {mremap : Mremap} {len a : Nat} {requests again : List (Mremap × Nat)}
  {addrs : List Nat} {h h' g : Heap}

/-- A list of requests that are all served: the first one, and the others. -/
theorem allocs_cons (hrun : (allocs page.bytes ((mremap, len) :: requests)).run h =
    (some addrs, h')) : ∃ a h₁ rest, (alloc page.bytes mremap len).run h = (some a, h₁) ∧
      (allocs page.bytes requests).run h₁ = (some rest, h') ∧ addrs = a :: rest := by
  rw [allocs] at hrun
  obtain ⟨a, h₁, halloc, hrun⟩ := bind_eq_some hrun
  obtain ⟨rest, h₂, hrest, hrun⟩ := bind_eq_some hrun
  cases hrun
  exact ⟨a, h₁, rest, halloc, hrest, rfl⟩

/-- **The mapping only grows**, and it stays where it is. -/
theorem allocs_layout (hl : Layout page.bytes h.pool) (hw : NoWraps page.bytes requests h)
    (hrun : (allocs page.bytes requests).run h = (some addrs, h')) :
    Layout page.bytes h'.pool ∧ h'.pool.start = h.pool.start ∧ h.pool.endPtr ≤ h'.pool.endPtr := by
  induction requests generalizing h addrs with
  | nil =>
    cases hrun
    exact ⟨hl, rfl, le_refl _⟩
  | cons request requests ih =>
    obtain ⟨mremap, len⟩ := request
    obtain ⟨a, h₁, rest, halloc, hrest, -⟩ := allocs_cons hrun
    obtain ⟨hno, hlater⟩ := hw
    have ha := (alloc_cases mremap page.bytes_pos hno).allocated halloc
    obtain ⟨hl₁, -, -, -, hstart, hlen⟩ := ha.layout hl
    obtain ⟨hl', hstart', hend'⟩ := ih hl₁ (hlater a h₁ halloc) hrest
    have hend := hl.end_eq
    have hend₁ := hl₁.end_eq
    exact ⟨hl', hstart'.trans hstart, by omega⟩

/-- A request that fits in the mapping is served without the kernel. -/
theorem alloc_fits (halign : g.pool.next + 15 < 2 ^ 64)
    (hword : Word.roundUp 16 g.pool.next + len < 2 ^ 64)
    (hfits : Word.roundUp 16 g.pool.next + len ≤ g.pool.endPtr) :
    (alloc page.bytes mremap len).run g = (some (Word.roundUp 16 g.pool.next),
      { g with pool := { g.pool with next := Word.roundUp 16 g.pool.next + len } }) := by
  have hadd : Word.add (Word.roundUp 16 g.pool.next) len = Word.roundUp 16 g.pool.next + len :=
    Word.add_eq hword
  have hnot : ¬ Word.roundUp 16 g.pool.next + len > g.pool.endPtr := by omega
  rw [alloc, bind_of_some (get_run g), alignPtr_eq halign, bind_of_some (get_run g), hadd,
    if_neg hnot]
  rfl

/-- **The same requests from the same `next`, in a mapping as large as the one they have led
to**, by induction on the requests: each block ends below the end of its own time. -/
theorem allocs_again (hl : Layout page.bytes h.pool) (hw : NoWraps page.bytes requests h)
    (hrun : (allocs page.bytes requests).run h = (some addrs, h'))
    (hsame : again.map Prod.snd = requests.map Prod.snd) (hnext : g.pool.next = h.pool.next)
    (hend : h'.pool.endPtr ≤ g.pool.endPtr) :
    (allocs page.bytes again).run g =
      (some addrs, { g with pool := { g.pool with next := h'.pool.next } }) := by
  induction requests generalizing h addrs again g with
  | nil =>
    cases hrun
    rw [List.map_nil, List.map_eq_nil_iff] at hsame
    rw [hsame, ← hnext]
    rfl
  | cons request requests ih =>
    obtain ⟨mremap, len⟩ := request
    obtain ⟨⟨mremap', len'⟩, again, rfl⟩ : ∃ r rest, again = r :: rest := by
      cases again with
      | nil => cases hsame
      | cons r rest => exact ⟨r, rest, rfl⟩
    rw [List.map_cons, List.map_cons, List.cons.injEq] at hsame
    obtain ⟨rfl, hsame⟩ := hsame
    obtain ⟨a, h₁, rest, halloc, hrest, rfl⟩ := allocs_cons hrun
    obtain ⟨hno, hlater⟩ := hw
    have ha := (alloc_cases mremap page.bytes_pos hno).allocated halloc
    obtain ⟨hl₁, -, -, hnext₁, -⟩ := ha.layout hl
    obtain ⟨-, -, hend₁⟩ := allocs_layout hl₁ (hlater a h₁ halloc) hrest
    have hle := hl₁.next_le
    have haddr := ha.addr
    have hstep : (alloc page.bytes mremap' len').run g = (some (Word.roundUp 16 g.pool.next),
        { g with pool := { g.pool with next := Word.roundUp 16 g.pool.next + len' } }) :=
      alloc_fits (hnext ▸ hno.align) (hnext ▸ hno.fits) (by rw [hnext]; omega)
    rw [hnext, ← haddr, ← hnext₁] at hstep
    have hagain := ih hl₁ (hlater a h₁ halloc) hrest hsame
      (g := { g with pool := { g.pool with next := h₁.pool.next } }) rfl hend
    rw [allocs, bind_of_some hstep, bind_of_some hagain]
    rfl

/-- **A reset pool replays without growing.**  For every pool in which nothing is handed out,
and all requests that are served one after another without a sum that wraps: after
`ae_pool_reset` the same requests get the same addresses, whatever the kernel answers, and the
mapping stays as it is. -/
theorem reset_replays (page : PageSize) {h h' : Heap} {requests : List (Mremap × Nat)}
    {addrs : List Nat} (hl : Layout page.bytes h.pool) (hfresh : h.pool.next = h.pool.start)
    (hw : NoWraps page.bytes requests h)
    (hrun : (allocs page.bytes requests).run h = (some addrs, h')) :
    ∃ h₁, reset.run h' = (some (), h₁) ∧
      ∀ again : List (Mremap × Nat), again.map Prod.snd = requests.map Prod.snd →
        ∃ h₂, (allocs page.bytes again).run h₁ = (some addrs, h₂) ∧
          h₂.pool.len = h'.pool.len ∧ h₂.pool.endPtr = h'.pool.endPtr := by
  obtain ⟨-, hstart, -⟩ := allocs_layout hl hw hrun
  refine ⟨{ h' with pool := { h'.pool with next := h'.pool.start } }, rfl, fun again hsame => ?_⟩
  have hagain := allocs_again hl hw hrun hsame
    (g := { h' with pool := { h'.pool with next := h'.pool.start } })
    (hstart.trans hfresh.symm) (le_refl _)
  exact ⟨_, hagain, rfl, rfl⟩

/-- Two blocks for which a page is not enough. -/
def twoRequests : List (Mremap × Nat) := [(fun a _ _ => .ok a, 4000), (fun a _ _ => .ok a, 500)]

/-- The same ones, with a kernel that refuses everything. -/
def twoRefused : List (Mremap × Nat) :=
  [(fun _ _ _ => .error (ascii "Cannot allocate memory"), 4000),
    (fun _ _ _ => .error (ascii "Cannot allocate memory"), 500)]

/-- The mapping has grown for them.  After the reset no memory is to be had, and none is needed. -/
theorem reset_replays_two :
    let h' := ((allocs page4k.bytes twoRequests).run onePage.heap).2
    onePage.heap.pool.endPtr < h'.pool.endPtr ∧
    ∃ h₁, reset.run h' = (some (), h₁) ∧
      ∃ h₂, (allocs page4k.bytes twoRefused).run h₁ = (some [0x10000, 0x10fa0], h₂) ∧
        h₂.pool.len = h'.pool.len ∧ h₂.pool.endPtr = h'.pool.endPtr := by
  intro h'
  have hl := (session_inv (.of_init onePage_init)).layout
  have hw : NoWraps page4k.bytes twoRequests onePage.heap := by
    refine ⟨⟨by decide, by decide, fun _ => by decide⟩, fun a h₁ hr => ⟨?_, fun _ _ _ => trivial⟩⟩
    have hfirst : h₁ = ((alloc page4k.bytes (fun a _ _ => .ok a) 4000).run onePage.heap).2 :=
      (congrArg Prod.snd hr).symm
    rw [hfirst]
    exact ⟨by decide, by decide, fun _ => by decide⟩
  have hrun : (allocs page4k.bytes twoRequests).run onePage.heap =
      (some [0x10000, 0x10fa0], h') := rfl
  obtain ⟨h₁, hreset, hagain⟩ := reset_replays page4k hl rfl hw hrun
  exact ⟨by decide, h₁, hreset, hagain _ rfl⟩

end Pool
end Libae
