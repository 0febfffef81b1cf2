import Mathlib.Algebra.Group.Nat.Defs
import Mathlib.Data.List.Basic
import Mathlib.Data.List.TakeWhile
import Mathlib.Logic.Function.Basic

/-! # Byte memory

A memory is a function from addresses to bytes.  Code that stores is described
by the list of its writes, in order; `commit` performs them.  Keeping the list,
and not only the memory after it, lets a statement speak about *where* a
function writes even when it writes back the byte that was there.

`span a bs` writes the bytes `bs` from address `a` on and `load m a n` reads `n`
bytes; what a span does to the bytes inside it and outside it is
`commit_span_inside` and `commit_span_outside`, and every other fact follows from
these two.  A C string is what precedes the first NUL (`cString`).  Machine words are
eight bytes, least significant first (`storeWord`, `loadWord`); `words m a n` reads
an array of `n` of them.
-/
namespace ByteMemory

abbrev Mem := Nat → UInt8

/-- One written byte: its address and its value. -/
abbrev Write := Nat × UInt8

/-- The memory after the writes `ws`, performed in order. -/
def commit (m : Mem) (ws : List Write) : Mem :=
  ws.foldl (fun m w => Function.update m w.1 w.2) m

@[simp] theorem commit_nil (m : Mem) : commit m [] = m := rfl

theorem commit_cons (m : Mem) (w : Write) (ws : List Write) :
    commit m (w :: ws) = commit (Function.update m w.1 w.2) ws := rfl

theorem commit_append (m : Mem) (ws vs : List Write) :
    commit m (ws ++ vs) = commit (commit m ws) vs := List.foldl_append

/-- An address that is not written keeps its byte. -/
theorem commit_of_forall_ne {m : Mem} {ws : List Write} {x : Nat}
    (h : ∀ w ∈ ws, w.1 ≠ x) : commit m ws x = m x := by
  induction ws generalizing m with
  | nil => rfl
  | cons w ws ih =>
    rw [commit_cons, ih (fun v hv => h v (List.mem_cons_of_mem _ hv)),
      Function.update_of_ne (h w List.mem_cons_self).symm]

/-! ### Spans of bytes -/

/-- The writes that store `bs` at `a`, `a + 1`, … -/
def span : Nat → List UInt8 → List Write
  | _, [] => []
  | a, b :: bs => (a, b) :: span (a + 1) bs

/-- The `n` bytes from address `a` on. -/
def load (m : Mem) (a n : Nat) : List UInt8 := (List.range n).map (fun i => m (a + i))

@[simp] theorem load_length (m : Mem) (a n : Nat) : (load m a n).length = n := by simp [load]

theorem load_getElem {m : Mem} {a n i : Nat} (h : i < (load m a n).length) :
    (load m a n)[i] = m (a + i) := by simp [load]

theorem load_take {m : Mem} {a n k : Nat} (h : k ≤ n) : (load m a n).take k = load m a k := by
  rw [load, load, ← List.map_take, List.take_range, Nat.min_eq_left h]

theorem load_add (m : Mem) (a i j : Nat) : load m a (i + j) = load m a i ++ load m (a + i) j := by
  simp [load, List.range_add, Nat.add_assoc]

theorem mem_span {a : Nat} {bs : List UInt8} {w : Write} (h : w ∈ span a bs) :
    a ≤ w.1 ∧ w.1 < a + bs.length := by
  induction bs generalizing a with
  | nil => cases h
  | cons b bs ih =>
    rcases List.mem_cons.mp h with rfl | h
    · simp
    · have := ih h
      simp only [List.length_cons]
      omega

theorem commit_span_outside {m : Mem} {a x : Nat} {bs : List UInt8}
    (h : x < a ∨ a + bs.length ≤ x) : commit m (span a bs) x = m x := by
  apply commit_of_forall_ne
  intro w hw
  have := mem_span hw
  omega

theorem commit_span_inside {m : Mem} {a i : Nat} {bs : List UInt8} (h : i < bs.length) :
    commit m (span a bs) (a + i) = bs[i] := by
  induction bs generalizing m a i with
  | nil => cases h
  | cons b bs ih =>
    rw [span, commit_cons]
    cases i with
    | zero =>
      rw [commit_span_outside (by omega)]
      simp
    | succ i =>
      rw [show a + (i + 1) = (a + 1) + i by omega, ih (by simpa using h)]
      rfl

theorem load_congr {m m' : Mem} {a b n : Nat} (h : ∀ i < n, m (a + i) = m' (b + i)) :
    load m a n = load m' b n :=
  List.map_congr_left (fun i hi => h i (List.mem_range.mp hi))

/-- A span leaves the bytes of a disjoint range alone. -/
theorem load_commit_span_outside {m : Mem} {a b n : Nat} {bs : List UInt8}
    (h : b + n ≤ a ∨ a + bs.length ≤ b) : load (commit m (span a bs)) b n = load m b n :=
  load_congr (fun i hi => commit_span_outside (by omega))

/-- **A copy.**  After `n` bytes are copied from `s` to `d`, the bytes at an offset
of the destination are those that were at that offset of the source. -/
theorem load_commit_copy {m : Mem} {s d n i k : Nat} (h : i + k ≤ n) :
    load (commit m (span d (load m s n))) (d + i) k = load m (s + i) k := by
  apply load_congr
  intro j hj
  rw [Nat.add_assoc d i j, commit_span_inside (by simpa using (by omega : i + j < n))]
  simp [load, Nat.add_assoc]

theorem load_commit_span (m : Mem) (a : Nat) (bs : List UInt8) :
    load (commit m (span a bs)) a bs.length = bs := by
  apply List.ext_getElem (by simp)
  intro i h₁ h₂
  simp only [load, List.getElem_map, List.getElem_range]
  exact commit_span_inside h₂

theorem span_append (a : Nat) (bs cs : List UInt8) :
    span a (bs ++ cs) = span a bs ++ span (a + bs.length) cs := by
  induction bs generalizing a with
  | nil => simp [span]
  | cons b bs ih =>
    rw [List.cons_append, span, ih, span, List.cons_append, List.length_cons]
    congr 3
    omega

/-- A byte that is overwritten at once leaves no trace. -/
theorem commit_overwritten (m : Mem) (a : Nat) (v b : UInt8) (bs : List UInt8) :
    commit m ((a, v) :: span a (b :: bs)) = commit m (span a (b :: bs)) := by
  rw [commit_cons, span, commit_cons, commit_cons, Function.update_idem]

/-- Storing a byte that is there already changes nothing. -/
theorem commit_same {m : Mem} {x : Nat} {v : UInt8} (h : m x = v) : commit m [(x, v)] = m := by
  rw [commit_cons, commit_nil, ← h, Function.update_eq_self]

/-- A span inside a range replaces that part of it. -/
theorem load_commit_span_inside {m : Mem} {a i n : Nat} {bs : List UInt8}
    (h : i + bs.length ≤ n) : load (commit m (span (a + i) bs)) a n =
      (load m a n).take i ++ bs ++ (load m a n).drop (i + bs.length) := by
  have htake : ((load m a n).take i).length = i := by
    rw [List.length_take, load_length]
    omega
  apply List.ext_getElem
  · simp
    omega
  intro j h₁ h₂
  rw [load_getElem]
  rw [load_length] at h₁
  rcases Nat.lt_or_ge j i with hlt | hge
  · rw [List.getElem_append_left (by simp; omega), List.getElem_append_left (by omega),
      List.getElem_take, load_getElem]
    exact commit_span_outside (by omega)
  rcases Nat.lt_or_ge j (i + bs.length) with hin | hout
  · rw [List.getElem_append_left (by simp; omega), List.getElem_append_right (by omega)]
    simp only [htake]
    rw [show a + j = (a + i) + (j - i) by omega]
    exact commit_span_inside (by omega)
  · rw [List.getElem_append_right (by simp; omega), List.getElem_drop, load_getElem,
      commit_span_outside (by omega), List.length_append, htake]
    congr 1
    omega

/-! ### Strings -/

/-- The string at `a`: the bytes before the first NUL, of the `n` bytes there. -/
def cString (m : Mem) (a n : Nat) : List UInt8 := (load m a n).takeWhile (· ≠ 0)

theorem cString_isPrefix (m : Mem) (a n : Nat) : cString m a n <+: load m a n :=
  List.takeWhile_prefix _

theorem cString_ne_nul {m : Mem} {a n : Nat} {c : UInt8} (h : c ∈ cString m a n) : c ≠ 0 := by
  simpa using List.mem_takeWhile_imp h

/-- A string ends at or before every NUL. -/
theorem cString_length_le {m : Mem} {a i n : Nat} (h : m (a + i) = 0) :
    (cString m a n).length ≤ i := by
  by_contra hlt
  have hlt : i < (cString m a n).length := by omega
  have hne : (cString m a n)[i] ≠ 0 := cString_ne_nul (List.getElem_mem hlt)
  rw [(cString_isPrefix m a n).getElem hlt, load_getElem] at hne
  exact hne h

/-- Characters other than NUL, with a NUL behind them, are a string. -/
theorem cString_eq {m : Mem} {a n : Nat} {bs : List UInt8} (h : load m a bs.length = bs)
    (hend : m (a + bs.length) = 0) (hn : bs.length < n) (hne : ∀ c ∈ bs, c ≠ 0) :
    cString m a n = bs := by
  have hsplit : (load m a n).take (bs.length + 1) = bs ++ [0] := by
    rw [load_take hn, load, List.range_succ, List.map_append, List.map_singleton, hend]
    exact congrArg (· ++ [0]) h
  have hall : ∀ c ∈ bs, decide (c ≠ 0) = true := fun c hc => by simpa using hne c hc
  rw [cString, ← List.take_append_drop (bs.length + 1) (load m a n), hsplit, List.append_assoc,
    List.takeWhile_append_of_pos hall, List.singleton_append, List.takeWhile_cons_of_neg (by simp),
    List.append_nil]

/-- Bytes with a NUL behind them are a string up to their first NUL. -/
theorem cString_of_load {m : Mem} {a n : Nat} {bs : List UInt8} (h : load m a bs.length = bs)
    (hend : m (a + bs.length) = 0) (hn : bs.length < n) :
    cString m a n = bs.takeWhile (· ≠ 0) := by
  obtain ⟨k, rfl⟩ := Nat.exists_eq_add_of_lt hn
  have hnul : load m (a + bs.length) 1 = [0] := congrArg (fun c => [c]) hend
  rw [cString, Nat.add_assoc, Nat.add_comm k 1, load_add, load_add, h, hnul, List.takeWhile_append]
  split
  · next hall =>
    rw [List.singleton_append, List.takeWhile_cons_of_neg (by simp), List.append_nil]
    exact ((List.takeWhile_sublist _).eq_of_length hall).symm
  · rfl

/-- A string stored behind a part of the old one continues that part. -/
theorem cString_continued {m : Mem} {a i n : Nat} {bs : List UInt8}
    (hi : i ≤ (cString m a n).length) (hn : i + bs.length < n) :
    cString (commit m (span (a + i) (bs ++ [0]))) a n =
      (cString m a n).take i ++ bs.takeWhile (· ≠ 0) := by
  have htake : (load m a n).take i = (cString m a n).take i := by
    obtain ⟨rest, hrest⟩ := cString_isPrefix m a n
    rw [← hrest, List.take_append_of_le_length hi]
  have hall : ∀ c ∈ (cString m a n).take i, decide (c ≠ 0) = true := by
    intro c hc
    simpa using cString_ne_nul (List.mem_of_mem_take hc)
  have hfits : i + (bs ++ [0]).length ≤ n := by
    rw [List.length_append, List.length_singleton]
    omega
  rw [cString, load_commit_span_inside hfits, htake, List.append_assoc, List.append_assoc,
    List.takeWhile_append_of_pos hall, List.takeWhile_append]
  congr 1
  split
  · next h =>
    rw [List.singleton_append, List.takeWhile_cons_of_neg (by simp), List.append_nil]
    exact ((List.takeWhile_sublist _).eq_of_length h).symm
  · rfl

/-- What is stored behind the end of a string does not show. -/
theorem cString_behind {m : Mem} {a i n : Nat} {bs : List UInt8}
    (hi : (cString m a n).length < i) (hn : i + bs.length ≤ n) :
    cString (commit m (span (a + i) bs)) a n = cString m a n := by
  have hshort : ((load m a n).take i).takeWhile (· ≠ 0) = cString m a n := by
    rw [← List.take_takeWhile]
    exact List.take_of_length_le (Nat.le_of_lt hi)
  rw [cString, load_commit_span_inside hn, List.append_assoc, List.takeWhile_append, hshort,
    if_neg]
  rw [List.length_take, load_length]
  omega

/-! ### Words -/

/-- The `n` low bytes of a number, least significant first. -/
def bytes : Nat → Nat → List UInt8
  | 0, _ => []
  | n + 1, v => UInt8.ofNat v :: bytes n (v / 256)

/-- The number a list of bytes stands for, least significant first. -/
def value : List UInt8 → Nat
  | [] => 0
  | b :: bs => b.toNat + 256 * value bs

@[simp] theorem bytes_length (n v : Nat) : (bytes n v).length = n := by
  induction n generalizing v with
  | zero => rfl
  | succ n ih => simp [bytes, ih]

theorem value_bytes (n v : Nat) : value (bytes n v) = v % 256 ^ n := by
  induction n generalizing v with
  | zero => simp [bytes, value, Nat.mod_one]
  | succ n ih =>
    rw [bytes, value, ih, Nat.pow_succ', Nat.mod_mul]
    simp

/-- The writes that store the word `v` at `a`. -/
def storeWord (a : Nat) (v : UInt64) : List Write := span a (bytes 8 v.toNat)

/-- The word at `a`. -/
def loadWord (m : Mem) (a : Nat) : UInt64 := UInt64.ofNat (value (load m a 8))

theorem mem_storeWord {a : Nat} {v : UInt64} {w : Write} (h : w ∈ storeWord a v) :
    a ≤ w.1 ∧ w.1 < a + 8 := by
  simpa using mem_span h

theorem loadWord_congr {m m' : Mem} {a b : Nat} (h : load m a 8 = load m' b 8) :
    loadWord m a = loadWord m' b := by
  rw [loadWord, loadWord, h]

theorem loadWord_storeWord (m : Mem) (a : Nat) (v : UInt64) :
    loadWord (commit m (storeWord a v)) a = v := by
  have h : load (commit m (storeWord a v)) a 8 = bytes 8 v.toNat := by
    simpa [storeWord] using load_commit_span m a (bytes 8 v.toNat)
  rw [loadWord, h, value_bytes, Nat.mod_eq_of_lt (by simpa using v.toNat_lt)]
  exact UInt64.ofNat_toNat

theorem loadWord_storeWord_outside {m : Mem} {a b : Nat} (v : UInt64)
    (h : b + 8 ≤ a ∨ a + 8 ≤ b) : loadWord (commit m (storeWord a v)) b = loadWord m b :=
  loadWord_congr (load_commit_span_outside (by simpa using h))

/-! ### Arrays of words -/

/-- The array of `n` words at `a`. -/
def words (m : Mem) (a n : Nat) : List UInt64 :=
  (List.range n).map (fun i => loadWord m (a + 8 * i))

@[simp] theorem words_length (m : Mem) (a n : Nat) : (words m a n).length = n := by
  simp [words]

theorem words_getElem {m : Mem} {a n i : Nat} (h : i < (words m a n).length) :
    (words m a n)[i] = loadWord m (a + 8 * i) := by
  simp [words]

theorem words_congr {m m' : Mem} {a b n : Nat}
    (h : ∀ i < n, loadWord m (a + 8 * i) = loadWord m' (b + 8 * i)) :
    words m a n = words m' b n :=
  List.map_congr_left (fun i hi => h i (List.mem_range.mp hi))

theorem words_take {m : Mem} {a n k : Nat} (h : k ≤ n) :
    (words m a n).take k = words m a k := by
  rw [words, words, ← List.map_take, List.take_range, Nat.min_eq_left h]

/-- Writes outside the array leave it alone. -/
theorem words_commit_outside {m : Mem} {ws : List Write} {a n : Nat}
    (h : ∀ w ∈ ws, w.1 < a ∨ a + 8 * n ≤ w.1) : words (commit m ws) a n = words m a n := by
  refine words_congr (fun i hi => loadWord_congr (load_congr (fun j hj => ?_)))
  apply commit_of_forall_ne
  intro w hw
  have := h w hw
  omega

/-- Storing into a slot updates the list of words at that index. -/
theorem words_storeWord (m : Mem) (a n i : Nat) (v : UInt64) :
    words (commit m (storeWord (a + 8 * i) v)) a n = (words m a n).set i v := by
  apply List.ext_getElem (by simp)
  intro j h₁ h₂
  rw [words_getElem, List.getElem_set]
  by_cases hij : i = j
  · subst hij
    simp [loadWord_storeWord]
  · rw [if_neg hij, loadWord_storeWord_outside v (by omega), words_getElem]

/-- Storing behind the array extends the list by one. -/
theorem words_push (m : Mem) (a n : Nat) (v : UInt64) :
    words (commit m (storeWord (a + 8 * n) v)) a (n + 1) = words m a n ++ [v] := by
  have hold : words (commit m (storeWord (a + 8 * n) v)) a n = words m a n := by
    refine words_commit_outside (fun w hw => .inr ?_)
    exact (mem_storeWord hw).1
  rw [← hold, words, List.range_succ, List.map_append, List.map_singleton, loadWord_storeWord]
  rfl

/-- A copied array reads as its source. -/
theorem words_copy {m : Mem} {s d k n : Nat} (h : 8 * n ≤ k) :
    words (commit m (span d (load m s k))) d n = words m s n :=
  words_congr (fun i hi => loadWord_congr (load_commit_copy (by omega)))

end ByteMemory
