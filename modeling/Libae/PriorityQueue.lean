import Mathlib.Data.List.Basic

/-! # Bounded priority queues

A queue hands out its entries highest priority first and, within one priority,
first in, first out.  The entries are kept in the order in which they leave, and
`sorted` is part of the queue, so what `receive` hands out has the highest
priority of all.

What a user of a queue wants to know of the entries of some kind is that they
leave in the order they came.  `select f q` lists the entries a partial function
`f` picks out; sending appends to that list as long as no entry it picks has a
lower priority than the new one (`select_send`), and receiving takes its first
element, or leaves it alone (`select_receive`).
-/

/-- Entries in the order in which they are handed out, with their priorities. -/
structure PriorityQueue (α : Type*) where
  entries : List (Nat × α)
  sorted : entries.Pairwise (fun x y => y.1 ≤ x.1)

namespace PriorityQueue
variable {α β : Type*}

/-- The empty queue. -/
def empty : PriorityQueue α := ⟨[], .nil⟩

/-- Insert behind the last entry whose priority is not lower. -/
def insertEntry (p : Nat) (a : α) : List (Nat × α) → List (Nat × α)
  | [] => [(p, a)]
  | x :: xs => if p ≤ x.1 then x :: insertEntry p a xs else (p, a) :: x :: xs

theorem insertEntry_perm (p : Nat) (a : α) (xs : List (Nat × α)) :
    (insertEntry p a xs).Perm ((p, a) :: xs) := by
  induction xs with
  | nil => exact .refl _
  | cons x xs ih =>
    rw [insertEntry]
    split
    · exact (ih.cons x).trans (.swap _ _ _)
    · exact .refl _

theorem mem_insertEntry {p : Nat} {a : α} {x : Nat × α} {xs : List (Nat × α)} :
    x ∈ insertEntry p a xs ↔ x = (p, a) ∨ x ∈ xs := by
  rw [(insertEntry_perm p a xs).mem_iff, List.mem_cons]

theorem insertEntry_sorted {p : Nat} {a : α} {xs : List (Nat × α)}
    (h : xs.Pairwise (fun x y => y.1 ≤ x.1)) :
    (insertEntry p a xs).Pairwise (fun x y => y.1 ≤ x.1) := by
  induction h with
  | nil => exact List.pairwise_singleton _ _
  | @cons x xs hx hxs ih =>
    rw [insertEntry]
    split
    · rename_i hp
      refine List.Pairwise.cons (fun y hy => ?_) ih
      rcases mem_insertEntry.mp hy with rfl | hy
      · exact hp
      · exact hx y hy
    · rename_i hp
      refine List.Pairwise.cons (fun y hy => ?_) (List.Pairwise.cons hx hxs)
      rcases List.mem_cons.mp hy with rfl | hy
      · exact Nat.le_of_not_le hp
      · exact Nat.le_trans (hx y hy) (Nat.le_of_not_le hp)

/-- Put an entry in, if fewer than `bound` are there. -/
def send (bound p : Nat) (a : α) (q : PriorityQueue α) : Option (PriorityQueue α) :=
  if q.entries.length < bound then some ⟨insertEntry p a q.entries, insertEntry_sorted q.sorted⟩
  else none

/-- Take the first entry out, if there is one. -/
def receive : PriorityQueue α → Option (α × PriorityQueue α)
  | ⟨[], _⟩ => none
  | ⟨x :: xs, h⟩ => some (x.2, ⟨xs, h.of_cons⟩)

variable {q q' : PriorityQueue α} {bound p : Nat} {a : α}

theorem send_entries (h : send bound p a q = some q') :
    q'.entries = insertEntry p a q.entries := by
  unfold send at h
  split at h
  · cases h
    rfl
  · cases h

theorem send_length (h : send bound p a q = some q') :
    q.entries.length < bound ∧ q'.entries.length = q.entries.length + 1 := by
  have hentries := send_entries h
  unfold send at h
  split at h
  · next hlt => exact ⟨hlt, by rw [hentries, (insertEntry_perm p a _).length_eq, List.length_cons]⟩
  · cases h

theorem send_room (h : q.entries.length < bound) : ∃ q', send bound p a q = some q' := by
  rw [send, if_pos h]
  exact ⟨_, rfl⟩

theorem receive_entries (h : q.receive = some (a, q')) : ∃ p, q.entries = (p, a) :: q'.entries := by
  obtain ⟨_ | ⟨⟨p, b⟩, xs⟩, hs⟩ := q
  · cases h
  · cases h
    exact ⟨p, rfl⟩

/-- From a queue with entries one can receive. -/
theorem receive_of_ne_nil (h : q.entries ≠ []) : ∃ a q', q.receive = some (a, q') := by
  obtain ⟨_ | ⟨x, xs⟩, hs⟩ := q
  · exact absurd rfl h
  · exact ⟨_, _, rfl⟩

/-! ### The entries of one kind -/

/-- What `f` picks out of the entries, in order. -/
def select (f : α → Option β) (q : PriorityQueue α) : List β :=
  q.entries.filterMap (fun x => f x.2)

/-- If no entry picked out has a lower priority than the new one, none of them is
overtaken. -/
theorem filterMap_insertEntry {f : α → Option β} {xs : List (Nat × α)}
    (hs : xs.Pairwise (fun x y => y.1 ≤ x.1)) (hp : ∀ x ∈ xs, (f x.2).isSome → p ≤ x.1) :
    (insertEntry p a xs).filterMap (fun x => f x.2) =
      xs.filterMap (fun x => f x.2) ++ (f a).toList := by
  induction hs with
  | nil => cases hf : f a <;> simp [insertEntry, hf]
  | @cons x xs hx _ ih =>
    rw [insertEntry]
    split
    · rw [List.filterMap_cons, List.filterMap_cons, ih (fun y hy => hp y (by simp [hy]))]
      cases f x.2 <;> rfl
    · -- `x` and what is behind it are overtaken, so `f` picks none of them
      rename_i hlt
      have hnone : (x :: xs).filterMap (fun x => f x.2) = [] := by
        rw [List.filterMap_eq_nil_iff]
        intro y hy
        have hle : y.1 ≤ x.1 := by
          rcases List.mem_cons.mp hy with rfl | hy
          · exact Nat.le_refl _
          · exact hx y hy
        by_contra hne
        have := hp y hy (Option.isSome_iff_ne_none.mpr hne)
        omega
      rw [List.filterMap_cons, hnone]
      cases f a <;> rfl

/-- An entry that is not picked out does not matter. -/
theorem filterMap_insertEntry_none {f : α → Option β} {xs : List (Nat × α)} (ha : f a = none) :
    (insertEntry p a xs).filterMap (fun x => f x.2) = xs.filterMap (fun x => f x.2) := by
  induction xs with
  | nil => simp [insertEntry, ha]
  | cons x xs ih =>
    rw [insertEntry]
    split
    · rw [List.filterMap_cons, List.filterMap_cons, ih]
    · rw [List.filterMap_cons, ha]

/-- **Sending** appends to the entries picked out, if none of them has a lower
priority than a new entry that is picked out as well. -/
theorem select_send {f : α → Option β} (h : send bound p a q = some q')
    (hp : ∀ x ∈ q.entries, (f a).isSome → (f x.2).isSome → p ≤ x.1) :
    select f q' = select f q ++ (f a).toList := by
  rw [select, select, send_entries h]
  cases ha : f a with
  | none => simpa using filterMap_insertEntry_none ha
  | some b =>
    rw [← ha]
    exact filterMap_insertEntry q.sorted (fun x hx => hp x hx (by simp [ha]))

/-- **Receiving** takes the first of the entries picked out, or none of them. -/
theorem select_receive {f : α → Option β} (h : q.receive = some (a, q')) :
    select f q = (f a).toList ++ select f q' := by
  obtain ⟨p, hq⟩ := receive_entries h
  rw [select, hq, List.filterMap_cons]
  cases f a <;> rfl

end PriorityQueue
