/-
# The total weight of a finite map

`Finmap.total w m` adds up the weights of the values of `m`, as a natural
number.  Inserting under a new key adds the weight of the value
(`Finmap.total_insert`), erasing a key takes the weight of its value away
(`Finmap.total_erase_add`), so a map with more entries does not weigh less
(`Finmap.total_le_total`), and where every value weighs something there are at most as
many keys as the total (`Finmap.card_keys_le_total`).
-/

import Mathlib.Algebra.BigOperators.Group.Multiset.Basic
import Mathlib.Data.Finmap

namespace Finmap

variable {α β : Type*}

/-- The sum of the weights of all values. -/
def total (w : β → ℕ) (m : Finmap fun _ : α => β) : ℕ :=
  (m.entries.map fun e => w e.2).sum

/-- An empty map has no weight. -/
@[simp] theorem total_empty (w : β → ℕ) : total w (∅ : Finmap fun _ : α => β) = 0 := rfl

variable [DecidableEq α]

/-- What is left after an entry is erased. -/
theorem lookup_erase_eq_ite (a b : α) (m : Finmap fun _ : α => β) :
    (m.erase b).lookup a = if a = b then none else m.lookup a := by
  split_ifs with h
  · rw [h, lookup_erase]
  · rw [lookup_erase_ne h]

/-- What is there after an entry is inserted. -/
theorem lookup_insert_eq_ite (a b : α) (v : β) (m : Finmap fun _ : α => β) :
    (m.insert b v).lookup a = if a = b then some v else m.lookup a := by
  split_ifs with h
  · rw [h, lookup_insert]
  · rw [lookup_insert_of_ne _ h]

/-- Nothing is erased where there is nothing. -/
theorem erase_of_lookup_eq_none {a : α} {m : Finmap fun _ : α => β} (h : m.lookup a = none) :
    m.erase a = m := by
  refine ext_lookup fun x => ?_
  rw [lookup_erase_eq_ite]
  split_ifs with hx
  · rw [hx, h]
  · rfl

/-- An entry that is erased and put back. -/
theorem insert_erase_of_lookup {a : α} {v : β} {m : Finmap fun _ : α => β}
    (h : m.lookup a = some v) : (m.erase a).insert a v = m := by
  refine ext_lookup fun x => ?_
  rw [lookup_insert_eq_ite, lookup_erase_eq_ite]
  split_ifs with hx
  · rw [hx, h]
  · rfl

/-- The entries of a map stay when a new key comes in, and are under other keys. -/
theorem lookup_insert_of_lookup {a b : α} {u : β} {m : Finmap fun _ : α => β}
    (ha : m.lookup a = none) (v : β) (hb : m.lookup b = some u) :
    (m.insert a v).lookup b = some u ∧ b ≠ a := by
  have hne : b ≠ a := by
    rintro rfl
    rw [ha] at hb
    cases hb
  exact ⟨by rw [lookup_insert_of_ne _ hne, hb], hne⟩

/-- Maps are built by inserting under new keys. -/
theorem insert_induction {P : (Finmap fun _ : α => β) → Prop} (empty : P ∅)
    (insert : ∀ a v m, m.lookup a = none → P m → P (m.insert a v))
    (m : Finmap fun _ : α => β) : P m := by
  induction m using Finmap.induction_on with
  | H l =>
    induction l using AList.insertRec with
    | H0 => exact empty
    | IH a v l ha ih =>
      have hnone : lookup a l.toFinmap = none := lookup_eq_none.2 ha
      have hins := insert a v l.toFinmap hnone ih
      rwa [insert_toFinmap] at hins

variable (w : β → ℕ) {m : Finmap fun _ : α => β} {a : α} {v : β}

/-- **A new key adds the weight of its value.** -/
theorem total_insert (h : m.lookup a = none) : total w (m.insert a v) = w v + total w m := by
  rw [total, entries_insert_of_notMem (lookup_eq_none.1 h), Multiset.map_cons, Multiset.sum_cons]
  rfl

/-- **An erased key takes the weight of its value away.** -/
theorem total_erase_add (h : m.lookup a = some v) : w v + total w (m.erase a) = total w m := by
  rw [← total_insert w (lookup_erase a m), insert_erase_of_lookup h]

/-- **Where every value weighs something,** the total bounds the number of keys. -/
theorem card_keys_le_total (h : ∀ a v, m.lookup a = some v → w v ≠ 0) :
    m.keys.card ≤ total w m := by
  induction m using insert_induction with
  | empty => simp
  | insert a v m ha ih =>
    have hv : w v ≠ 0 := h a v (lookup_insert m)
    have hkeys : (m.insert a v).keys.card ≤ m.keys.card + 1 := by
      have hsub : (m.insert a v).keys ⊆ Insert.insert a m.keys := by
        intro b hb
        rw [Finset.mem_insert]
        simpa [mem_keys] using hb
      exact (Finset.card_le_card hsub).trans (Finset.card_insert_le a m.keys)
    have hle : m.keys.card ≤ total w m := by
      exact ih fun b u hb => h b u (lookup_insert_of_lookup ha v hb).1
    rw [total_insert w ha]
    omega

/-- **A map that holds every entry of another that weighs anything** weighs at least
as much. -/
theorem total_le_total {m m' : Finmap fun _ : α => β}
    (h : ∀ a v, m.lookup a = some v → w v ≠ 0 → m'.lookup a = some v) : total w m ≤ total w m' := by
  induction m using insert_induction generalizing m' with
  | empty => exact Nat.zero_le _
  | insert a v m ha ih =>
    rw [total_insert w ha]
    by_cases hv : w v = 0
    · rw [hv, Nat.zero_add]
      exact ih fun b u hb hu => h b u (lookup_insert_of_lookup ha v hb).1 hu
    · have ha' : m'.lookup a = some v := h a v (lookup_insert _) hv
      rw [← total_erase_add w ha']
      refine Nat.add_le_add_left (ih fun b u hb hu => ?_) _
      rw [lookup_erase_ne (lookup_insert_of_lookup ha v hb).2]
      exact h b u (lookup_insert_of_lookup ha v hb).1 hu

end Finmap
