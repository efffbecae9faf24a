/-
# Blocks on a heap and a table of pointers that owns them

A pointer is null or the number of an allocation, so that a block that is allocated later is
another one, also where an allocator hands out the same place again: what counts is whether
the block that was meant is still there.  To delete what is not there is misuse, and is
recorded; to delete a null pointer is nothing.

A table of pointers owns the heap when every pointer in it is to a block, no two are to the
same, and every block has one (`Heap.Owned`).  A program that puts each new block in its table
and deletes blocks only by pointers of the table, which it then forgets, keeps it so
(`Heap.Owned.new`, `Heap.Owned.delete`): it never deletes a block twice and never loses
one, and when it has deleted all there are, in any order, nothing is left
(`Heap.Owned.deleteAll`).  A block that was deleted does not come back (`Heap.Gone`).
-/

import Mathlib.Data.Finmap
import CacheBench.Lib.FinmapTotal

/-- The blocks that are allocated, by number, and the number of the next one; and whether
anything was done that is not defined. -/
structure Heap (β : Type*) where
  cells : Finmap fun _ : ℕ => β
  next : ℕ
  fresh : ∀ a, next ≤ a → cells.lookup a = none
  misused : Bool

namespace Heap

variable {β κ : Type*} {h : Heap β} {ptr : κ → Option ℕ} {k : κ} {a : ℕ} {b : β}

/-- Nothing is allocated yet. -/
def empty : Heap β := ⟨∅, 0, fun a _ => Finmap.lookup_empty a, false⟩

/-- What a pointer points to. -/
def read (h : Heap β) (p : Option ℕ) : Option β := p.bind h.cells.lookup

/-- The block is allocated. -/
def Live (h : Heap β) (a : ℕ) : Prop := h.cells.lookup a ≠ none

/-- The block was allocated, and is not any more. -/
def Gone (h : Heap β) (a : ℕ) : Prop := a < h.next ∧ ¬h.Live a

/-- A new block, and its number. -/
def new (h : Heap β) (b : β) : ℕ × Heap β :=
  (h.next, ⟨h.cells.insert h.next b, h.next + 1, fun a ha => by
    rw [Finmap.lookup_insert_of_ne _ (Nat.ne_of_gt ha)]
    exact h.fresh a (Nat.le_of_succ_le ha), h.misused⟩)

/-- `delete[]`. -/
def delete (h : Heap β) : Option ℕ → Heap β
  | none => h
  | some a =>
    if (h.cells.lookup a).isSome then
      { h with
        cells := h.cells.erase a
        fresh := fun c hc => by
          rw [Finmap.lookup_erase_eq_ite, h.fresh c hc, ite_self] }
    else { h with misused := true }

/-- `delete[]` of one after the other. -/
def deleteAll (h : Heap β) (ps : List (Option ℕ)) : Heap β := ps.foldl delete h

/-- Something else that is not defined may have happened. -/
def flag (h : Heap β) (wrong : Bool) : Heap β := { h with misused := h.misused || wrong }

/-! ### What the operations do to the blocks -/

/-- What is under an address after an allocation. -/
theorem lookup_new (a : ℕ) :
    (h.new b).2.cells.lookup a = if a = h.next then some b else h.cells.lookup a :=
  Finmap.lookup_insert_eq_ite a h.next b h.cells

/-- A live address is one that has been given out. -/
theorem Live.lt_next (hlive : h.Live a) : a < h.next :=
  not_le.1 fun hle => hlive (h.fresh a hle)

/-- What is under an address after one was freed. -/
theorem lookup_delete (p : Option ℕ) (a : ℕ) :
    (h.delete p).cells.lookup a = if p = some a then none else h.cells.lookup a := by
  cases p with
  | none => rfl
  | some c =>
    rw [delete]
    split_ifs with hlive hca hca
    · obtain rfl := Option.some.inj hca
      exact Finmap.lookup_erase _ _
    · exact Finmap.lookup_erase_ne fun hac => hca (congrArg some hac.symm)
    · obtain rfl := Option.some.inj hca
      exact Option.not_isSome_iff_eq_none.1 hlive
    · rfl

/-- A block that is freed does not change which address is next. -/
@[simp] theorem delete_next (p : Option ℕ) : (h.delete p).next = h.next := by
  unfold delete
  split
  · rfl
  · split_ifs <;> rfl

@[simp] theorem deleteAll_next (ps : List (Option ℕ)) : (h.deleteAll ps).next = h.next := by
  induction ps generalizing h with
  | nil => rfl
  | cons p ps ih => exact (@ih (h.delete p)).trans (delete_next p)

/-- Blocks that are gone stay gone. -/
theorem Gone.new (hgone : h.Gone a) (b : β) : (h.new b).2.Gone a := by
  refine ⟨Nat.lt_succ_of_lt hgone.1, fun hlive => hgone.2 ?_⟩
  rwa [Live, lookup_new, if_neg (Nat.ne_of_lt hgone.1)] at hlive

/-- A block that is gone stays so. -/
theorem Gone.delete (hgone : h.Gone a) (p : Option ℕ) : (h.delete p).Gone a := by
  refine ⟨by rw [delete_next]; exact hgone.1, fun hlive => hgone.2 ?_⟩
  rw [Live, lookup_delete] at hlive
  split_ifs at hlive
  · exact absurd rfl hlive
  · exact hlive

/-- A live block that is deleted is gone. -/
theorem Live.gone_delete (hlive : h.Live a) : (h.delete (some a)).Gone a := by
  refine ⟨by rw [delete_next]; exact hlive.lt_next, fun hstill => hstill ?_⟩
  rw [lookup_delete, if_pos rfl]

/-! ### Ownership -/

/-- The table `ptr` has a pointer to each block, and to nothing else. -/
structure Owned (h : Heap β) (ptr : κ → Option ℕ) : Prop where
  live : ∀ k a, ptr k = some a → h.Live a
  inj : ∀ j k a, ptr j = some a → ptr k = some a → j = k
  covered : ∀ a, h.Live a → ∃ k, ptr k = some a

/-- An empty table owns the empty heap. -/
theorem owned_empty : Owned (empty : Heap β) fun _ : κ => none :=
  ⟨nofun, nofun, fun a ha => absurd (Finmap.lookup_empty a) ha⟩

/-- Where no pointer is left, no block is. -/
theorem Owned.cells_eq_empty (ho : Owned h fun _ : κ => none) : h.cells = ∅ := by
  refine Finmap.ext_lookup fun a => ?_
  rw [Finmap.lookup_empty]
  by_contra hlive
  obtain ⟨k, hk⟩ := ho.covered a hlive
  cases hk

/-- No pointer of the table is deleted in vain. -/
theorem Owned.delete_misused (ho : Owned h ptr) (k : κ) :
    (h.delete (ptr k)).misused = h.misused := by
  cases hk : ptr k with
  | none => rfl
  | some a => rw [Heap.delete, if_pos (Option.ne_none_iff_isSome.1 (ho.live k a hk))]

/-- What another pointer of the table points to is not deleted. -/
theorem Owned.read_delete (ho : Owned h ptr) {j : κ} (hj : j ≠ k) :
    (h.delete (ptr k)).read (ptr j) = h.read (ptr j) := by
  unfold read
  cases hptr : ptr j with
  | none => rfl
  | some a =>
    exact (lookup_delete _ a).trans (if_neg fun hk => hj (ho.inj j k a hptr hk))

/-- Nor does a new block change it. -/
theorem Owned.read_new (ho : Owned h ptr) (b : β) (j : κ) :
    (h.new b).2.read (ptr j) = h.read (ptr j) := by
  unfold read
  cases hptr : ptr j with
  | none => rfl
  | some a => exact (lookup_new a).trans (if_neg (Nat.ne_of_lt (ho.live j a hptr).lt_next))

variable [DecidableEq κ]

/-- **A new block** that comes into the table. -/
theorem Owned.new (ho : Owned h ptr) (hk : ptr k = none) (b : β) :
    Owned (h.new b).2 (Function.update ptr k (some h.next)) := by
  have hnew : ∀ j, j ≠ k → ptr j ≠ some h.next := fun j _ hj =>
    lt_irrefl _ (ho.live j _ hj).lt_next
  refine ⟨fun j a hj => ?_, fun i j a hi hj => ?_, fun a ha => ?_⟩
  · rw [Live, lookup_new]
    by_cases hjk : j = k
    · rw [hjk, Function.update_self, Option.some.injEq] at hj
      rw [if_pos hj.symm]
      exact Option.some_ne_none b
    · rw [Function.update_of_ne hjk] at hj
      have hlive := ho.live j a hj
      rw [if_neg (Nat.ne_of_lt hlive.lt_next)]
      exact hlive
  · rw [Function.update_apply] at hi hj
    split_ifs at hi hj with hik hjk hjk
    · exact hik.trans hjk.symm
    · exact absurd (hj.trans hi.symm) (hnew j hjk)
    · exact absurd (hi.trans hj.symm) (hnew i hik)
    · exact ho.inj i j a hi hj
  · rw [Live, lookup_new] at ha
    split_ifs at ha with hnext
    · exact ⟨k, by rw [Function.update_self, hnext]⟩
    · obtain ⟨j, hj⟩ := ho.covered a ha
      have hjk : j ≠ k := by
        rintro rfl
        cases hk.symm.trans hj
      exact ⟨j, (Function.update_of_ne hjk _ ptr).trans hj⟩

/-- **A pointer of the table is deleted** and forgotten. -/
theorem Owned.delete (ho : Owned h ptr) (k : κ) :
    Owned (h.delete (ptr k)) (Function.update ptr k none) := by
  refine ⟨fun j a hj => ?_, fun i j a hi hj => ?_, fun a ha => ?_⟩
  · rw [Function.update_apply] at hj
    split_ifs at hj with hjk
    rw [Live, lookup_delete, if_neg fun hk => hjk (ho.inj j k a hj hk)]
    exact ho.live j a hj
  · rw [Function.update_apply] at hi hj
    split_ifs at hi hj
    exact ho.inj i j a hi hj
  · rw [Live, lookup_delete] at ha
    split_ifs at ha with hk
    · exact absurd rfl ha
    · obtain ⟨j, hj⟩ := ho.covered a ha
      have hjk : j ≠ k := fun hjk => hk (hjk ▸ hj)
      exact ⟨j, (Function.update_of_ne hjk none ptr).trans hj⟩

/-- **All that the table points to is deleted,** each once, in any order. -/
theorem Owned.deleteAll (ho : Owned h ptr) {ks : List κ} (hnodup : ks.Nodup) :
    Owned (h.deleteAll (ks.map ptr)) (fun k => if k ∈ ks then none else ptr k) ∧
      (h.deleteAll (ks.map ptr)).misused = h.misused := by
  induction ks generalizing h ptr with
  | nil => exact ⟨ho, rfl⟩
  | cons k ks ih =>
    obtain ⟨hk, hks⟩ := List.nodup_cons.1 hnodup
    have hsame : ks.map (Function.update ptr k none) = ks.map ptr := by
      refine List.map_congr_left fun j hj => Function.update_of_ne ?_ _ _
      rintro rfl
      exact hk hj
    obtain ⟨hrest, hmisused⟩ := ih (ho.delete k) hks
    rw [hsame] at hrest hmisused
    have htable : (fun j => if j ∈ ks then none else Function.update ptr k none j) =
        fun j => if j ∈ k :: ks then none else ptr j := by
      funext j
      by_cases hjk : j = k
      · simp [hjk]
      · simp [hjk]
    exact ⟨htable ▸ hrest, hmisused.trans (ho.delete_misused k)⟩

end Heap
