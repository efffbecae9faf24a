/-
# Which key a queue with repeated nodes serves first

A queue is a list of keys, front first, in which a key can stand several times.
`q.Ahead x y` says that the first node of `x` stands before the first node of `y`,
and so before every node of `y`.  Only first nodes matter to who is served when, so
appending nodes changes nothing among the keys that are already there
(`List.ahead_append_of_mem`), and taking nodes off the front changes nothing among
the keys that lose none (`List.ahead_drop`).
-/

import Mathlib.Data.List.Basic
import Mathlib.Data.Nat.Basic

namespace List

variable {K : Type*} [DecidableEq K]

/-- The first node of `x` stands before the first node of `y`. -/
def Ahead (q : List K) (x y : K) : Prop := q.idxOf x < q.idxOf y

instance (q : List K) (x y : K) : Decidable (q.Ahead x y) := inferInstanceAs (Decidable (_ < _))

variable {q l : List K} {x y : K} {n : ℕ}

/-- Of two one at most is ahead of the other. -/
theorem Ahead.asymm (h : q.Ahead x y) : ¬q.Ahead y x := lt_asymm h

/-- Of two different ones, one of which is there, one is ahead of the other. -/
theorem ahead_or_ahead (hx : x ∈ q) (hne : x ≠ y) : q.Ahead x y ∨ q.Ahead y x :=
  lt_or_gt_of_ne fun heq => hne ((idxOf_inj hx).1 heq)

/-- A prefix that ends with the first place of `x` has it. -/
theorem mem_take_succ_idxOf (hx : x ∈ q) : x ∈ q.take (q.idxOf x + 1) :=
  (mem_take_iff_idxOf_lt hx).2 (Nat.lt_succ_self _)

/-- Before its first place there is no `x`. -/
theorem notMem_take_idxOf (hx : x ∈ q) : x ∉ q.take (q.idxOf x) :=
  fun hmem => lt_irrefl _ ((mem_take_iff_idxOf_lt hx).1 hmem)

/-- A prefix that holds a key holds every key ahead of it. -/
theorem Ahead.mem_take (h : q.Ahead x y) (hy : y ∈ q.take n) : x ∈ q.take n := by
  have hlt := (mem_take_iff_idxOf_lt (mem_of_mem_take hy)).1 hy
  have hx : x ∈ q := idxOf_lt_length_iff.1 (Nat.lt_of_lt_of_le h idxOf_le_length)
  exact (mem_take_iff_idxOf_lt hx).2 (lt_trans h hlt)

/-- The prefix that ends with a key holds nothing behind it. -/
theorem Ahead.notMem_take (h : q.Ahead x y) : y ∉ q.take (q.idxOf x + 1) := by
  intro hmem
  have hlt := (mem_take_iff_idxOf_lt (mem_of_mem_take hmem)).1 hmem
  unfold Ahead at h
  omega

/-- What stands before the first node of a key are the keys ahead of it. -/
theorem mem_take_idxOf_iff : x ∈ q.take (q.idxOf y) ↔ q.Ahead x y := by
  constructor
  · intro hmem
    exact (mem_take_iff_idxOf_lt (mem_of_mem_take hmem)).1 hmem
  · intro h
    exact (mem_take_iff_idxOf_lt (idxOf_lt_length_iff.1 (Nat.lt_of_lt_of_le h idxOf_le_length))).2 h

/-- What joins at the end changes no order. -/
theorem Ahead.append (h : q.Ahead x y) : (q ++ l).Ahead x y := by
  have hx : x ∈ q := idxOf_lt_length_iff.1 (Nat.lt_of_lt_of_le h idxOf_le_length)
  unfold Ahead
  rw [idxOf_append_of_mem hx]
  by_cases hy : y ∈ q
  · rwa [idxOf_append_of_mem hy]
  · rw [idxOf_append_of_notMem hy]
    exact Nat.lt_add_right _ (idxOf_lt_length_iff.2 hx)

/-- **Nodes at the back** change nothing among the keys that are already there. -/
theorem ahead_append_of_mem (hx : x ∈ q) (hy : y ∈ q) : (q ++ l).Ahead x y ↔ q.Ahead x y := by
  unfold Ahead
  rw [idxOf_append_of_mem hx, idxOf_append_of_mem hy]

/-- Where a prefix without `x` is dropped its first place moves up by as much. -/
theorem idxOf_eq_add_idxOf_drop (hn : n ≤ q.length) (hx : x ∉ q.take n) :
    q.idxOf x = n + (q.drop n).idxOf x := by
  conv_lhs => rw [← take_append_drop n q]
  rw [idxOf_append_of_notMem hx, length_take, Nat.min_eq_left hn]

/-- **Nodes taken off the front** change nothing among the keys that lose none. -/
theorem ahead_drop (hn : n ≤ q.length) (hx : x ∉ q.take n) (hy : y ∉ q.take n) :
    (q.drop n).Ahead x y ↔ q.Ahead x y := by
  unfold Ahead
  rw [idxOf_eq_add_idxOf_drop hn hx, idxOf_eq_add_idxOf_drop hn hy, Nat.add_lt_add_iff_left]

/-- A key ahead whose node is not taken stays ahead, whatever comes at the back. -/
theorem Ahead.drop_append (h : q.Ahead x y) (hn : n ≤ q.length) (hx : x ∉ q.take n) :
    (q.drop n ++ l).Ahead x y :=
  ((ahead_drop hn hx fun hy => hx (h.mem_take hy)).2 h).append

omit [DecidableEq K] in
/-- What is not in a prefix is behind it. -/
theorem mem_drop_of_notMem_take (hx : x ∈ q) (hmem : x ∉ q.take n) : x ∈ q.drop n := by
  rw [← take_append_drop n q] at hx
  exact (mem_append.1 hx).resolve_left hmem

/-- Both at once. -/
theorem ahead_drop_append (hn : n ≤ q.length) (hx : x ∈ q) (hy : y ∈ q) (hx' : x ∉ q.take n)
    (hy' : y ∉ q.take n) : (q.drop n ++ l).Ahead x y ↔ q.Ahead x y :=
  (ahead_append_of_mem (mem_drop_of_notMem_take hx hx') (mem_drop_of_notMem_take hy hy')).trans
    (ahead_drop hn hx' hy')

end List
