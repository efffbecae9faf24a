/-
# Order statistics

`nth l k` is the element of rank `k` of a list, counted from zero in the sorted list.  It
is in the list, more than `k` of the list are up to it (`lt_countP_le`), and at most `k`
are below it (`countP_lt_le`), whatever ties there are.
-/

import Mathlib.Data.List.Sort

namespace OrderStat

variable {α : Type*} [LinearOrder α]

/-- The element of rank `k`. -/
def nth (l : List α) (k : ℕ) : Option α := (l.mergeSort (· ≤ ·))[k]?

variable {l : List α} {k : ℕ} {x : α}

/-- The sorted list is in order. -/
theorem pairwise_sorted (l : List α) : (l.mergeSort (· ≤ ·)).Pairwise (· ≤ ·) :=
  List.pairwise_mergeSort' _ l

/-- Every rank within the list has an element. -/
theorem exists_nth (h : k < l.length) : ∃ x, nth l k = some x := by
  refine ⟨_, List.getElem?_eq_getElem ?_⟩
  rwa [List.length_mergeSort]

/-- The element of a rank is in the list. -/
theorem mem_of_nth (h : nth l k = some x) : x ∈ l :=
  (List.mergeSort_perm l _).mem_iff.1 (List.mem_of_getElem? h)

/-- **More than `k` are up to the element of rank `k`:** those before it in the sorted list,
and itself. -/
theorem lt_countP_le (h : nth l k = some x) : k < l.countP (· ≤ x) := by
  obtain ⟨hk, hx⟩ := List.getElem?_eq_some_iff.1 h
  have hsorted := List.pairwise_iff_getElem.1 (pairwise_sorted l)
  rw [← (List.mergeSort_perm l (· ≤ ·)).countP_eq]
  generalize l.mergeSort (· ≤ ·) = s at hk hx hsorted
  have htake : (s.take (k + 1)).countP (· ≤ x) = k + 1 := by
    have hall : (s.take (k + 1)).countP (· ≤ x) = (s.take (k + 1)).length := by
      refine List.countP_eq_length.2 fun y hy => ?_
      obtain ⟨i, hi, rfl⟩ := List.mem_take_iff_getElem.1 hy
      rcases Nat.eq_or_lt_of_le (by omega : i ≤ k) with rfl | hlt
      · simp [hx]
      · simpa [hx] using hsorted i k (by omega) hk hlt
    rw [hall, List.length_take]
    omega
  have hle := (List.take_sublist (k + 1) s).countP_le (p := (· ≤ x))
  omega

/-- **At most `k` are below the element of rank `k`:** none from it on in the sorted list. -/
theorem countP_lt_le (h : nth l k = some x) : l.countP (· < x) ≤ k := by
  obtain ⟨hk, hx⟩ := List.getElem?_eq_some_iff.1 h
  have hsorted := List.pairwise_iff_getElem.1 (pairwise_sorted l)
  rw [← (List.mergeSort_perm l (· ≤ ·)).countP_eq]
  generalize l.mergeSort (· ≤ ·) = s at hk hx hsorted
  have hdrop : (s.drop k).countP (· < x) = 0 := by
    refine List.countP_eq_zero.2 fun y hy => ?_
    obtain ⟨i, hi, rfl⟩ := List.mem_drop_iff_getElem.1 hy
    rcases Nat.eq_zero_or_pos i with rfl | hpos
    · simp [hx]
    · simpa [hx] using hsorted k (k + i) hk (by omega) (by omega)
  have hsplit : s.countP (· < x) = (s.take k).countP (· < x) + (s.drop k).countP (· < x) := by
    rw [← List.countP_append, List.take_append_drop]
  have hlen : (s.take k).countP (· < x) ≤ (s.take k).length := List.countP_le_length
  rw [List.length_take] at hlen
  omega

end OrderStat
