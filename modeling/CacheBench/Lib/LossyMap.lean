/-
# Maps that may forget

What a cache is to those who use it: values are put under keys, erased and cleared, and a
value that is read under a key was put there, but what was put may be gone by then.  Nothing is
forgotten except when a value is put, and then only for want of room (`LossyMap.Puts`).

Whatever is under a key after a run, the last operation on that key put it there
(`LossyMap.exists_put_of_run`).  A run that puts values of bounded weights under its keys, and
has room for all these, forgets nothing (`LossyMap.Step.eq_apply`).
-/

import Mathlib.Algebra.BigOperators.Finprod
import Mathlib.Data.Set.Finite.Lattice
import CacheBench.Lib.FinmapTotal
import CacheBench.Lib.Trace

namespace LossyMap

variable {K V : Type*}

/-- What the values under all keys weigh together. -/
noncomputable def total (w : V → ℕ) (m : K → Option V) : ℕ := ∑ᶠ k, (m k).elim 0 w

/-- The operations. -/
inductive Op (K V : Type*)
  | put (k : K) (v : V)
  | erase (k : K)
  | clear
  | keep
deriving DecidableEq, Repr

/-- The operation is on the key, or on all of them. -/
def Op.Touches (k : K) : Op K V → Prop
  | .put j _ | .erase j => j = k
  | .clear => True
  | .keep => False

variable [DecidableEq K]

/-- What the operation makes of a map that forgets nothing. -/
def Op.apply (m : K → Option V) : Op K V → K → Option V
  | .put k v => Function.update m k (some v)
  | .erase k => Function.update m k none
  | .clear => fun _ => none
  | .keep => m

/-- The value is under its key, every other is where it was or forgotten, and none is when
there is room for all. -/
structure Puts (w : V → ℕ) (cap : ℕ) (m : K → Option V) (k : K) (v : V) (m' : K → Option V) :
    Prop where
  self : m' k = some v
  other : ∀ j, j ≠ k → m' j = m j ∨ m' j = none
  room : total w (Function.update m k (some v)) ≤ cap → m' = Function.update m k (some v)

/-- One operation. -/
inductive Step (w : V → ℕ) (cap : ℕ) : (K → Option V) → Op K V → (K → Option V) → Prop
  | put {m m' : K → Option V} {k : K} {v : V} : Puts w cap m k v m' → Step w cap m (.put k v) m'
  | erase {m : K → Option V} {k : K} : Step w cap m (.erase k) (Function.update m k none)
  | clear {m : K → Option V} : Step w cap m .clear fun _ => none
  | keep {m : K → Option V} : Step w cap m .keep m

variable {w : V → ℕ} {cap : ℕ} {m m' : K → Option V} {k : K} {v : V} {o : Op K V}

/-! ### What is read was put -/

/-- What is under a key was just put there, or was there before. -/
theorem Step.of_eq_some (h : Step w cap m o m') (hk : m' k = some v) :
    o = .put k v ∨ ¬o.Touches k ∧ m k = some v := by
  cases h with
  | @put _ j u hput =>
    by_cases hj : j = k
    · subst hj
      obtain rfl := Option.some.inj (hput.self.symm.trans hk)
      exact Or.inl rfl
    · rcases hput.other k (Ne.symm hj) with heq | hnone
      · exact Or.inr ⟨hj, heq ▸ hk⟩
      · rw [hnone] at hk
        cases hk
  | @erase j =>
    by_cases hj : j = k
    · rw [hj, Function.update_self] at hk
      cases hk
    · rw [Function.update_of_ne (Ne.symm hj)] at hk
      exact Or.inr ⟨hj, hk⟩
  | clear => cases hk
  | keep => exact Or.inr ⟨id, hk⟩

/-- **The last operation on a key put what is under it.** -/
theorem exists_put_of_run {ops : List (Op K V)} (h : Trace.Run (Step w cap) (fun _ => none) ops m)
    (hk : m k = some v) :
    ∃ pre post, ops = pre ++ .put k v :: post ∧ ∀ o ∈ post, ¬o.Touches k := by
  induction h with
  | nil => cases hk
  | @snoc ops o m₁ m₂ _ hstep ih =>
    rcases hstep.of_eq_some hk with rfl | ⟨hleaves, hbefore⟩
    · exact ⟨ops, [], rfl, fun _ ho => absurd ho List.not_mem_nil⟩
    · obtain ⟨pre, post, rfl, hpost⟩ := ih hbefore
      refine ⟨pre, post ++ [o], by simp, fun o' ho' => ?_⟩
      rcases List.mem_append.1 ho' with ho' | ho'
      · exact hpost o' ho'
      · rw [List.mem_singleton.1 ho']
        exact hleaves

/-! ### Totals -/

/-- A new value adds its weight to those under the other keys. -/
theorem total_update (w : V → ℕ) (hfin : {j | m j ≠ none}.Finite) (k : K) (v : V) :
    total w (Function.update m k (some v)) = w v + total w (Function.update m k none) := by
  have hsplit : ∀ j, (Function.update m k (some v) j).elim 0 w =
      (if j = k then w v else 0) + (Function.update m k none j).elim 0 w := by
    intro j
    by_cases hj : j = k
    · subst hj
      simp
    · simp [hj]
  have hsingle : (Function.support fun j => if j = k then w v else 0).Finite := by
    refine (Set.finite_singleton k).subset fun j hj => ?_
    by_contra hne
    exact hj (if_neg hne)
  have hrest : (Function.support fun j => (Function.update m k none j).elim 0 w).Finite := by
    refine hfin.subset fun j hj hnone => hj ?_
    by_cases hjk : j = k
    · simp [hjk]
    · simp [hjk, hnone]
  have hone : (∑ᶠ j, if j = k then w v else 0) = w v :=
    (finsum_eq_single _ k fun j hj => if_neg hj).trans (if_pos rfl)
  rw [total, finsum_congr hsplit, finsum_add_distrib hsingle hrest, hone]
  rfl

/-- What a finite map weighs. -/
theorem total_lookup (w : V → ℕ) (m : Finmap fun _ : K => V) :
    total w m.lookup = m.total w := by
  induction m using Finmap.insert_induction with
  | empty =>
    rw [Finmap.total_empty]
    exact finsum_eq_zero_of_forall_eq_zero fun k => by simp
  | insert k v m hk ih =>
    have hinsert : (m.insert k v).lookup = Function.update m.lookup k (some v) := by
      funext j
      rw [Finmap.lookup_insert_eq_ite, Function.update_apply]
    have hnone : Function.update m.lookup k none = m.lookup := by
      rw [← hk, Function.update_eq_self]
    have hfin : {j | m.lookup j ≠ none}.Finite := by
      refine m.keys.finite_toSet.subset fun j hj => ?_
      exact Finmap.mem_keys.2 (Finmap.lookup_isSome.1 (Option.isSome_iff_ne_none.2 hj))
    rw [hinsert, total_update w hfin, hnone, ih, Finmap.total_insert w hk]

/-! ### Where nothing is forgotten -/

/-- Under each key is nothing heavier than its bound. -/
def Within (w : V → ℕ) (bound : K → ℕ) (m : K → Option V) : Prop :=
  ∀ k v, m k = some v → w v ≤ bound k

omit [DecidableEq K] in
/-- Values within their bounds weigh no more than the bounds together. -/
theorem Within.total_le {bound : K → ℕ} (h : Within w bound m)
    (hfin : (Function.support bound).Finite) : total w m ≤ ∑ᶠ k, bound k := by
  have hle : ∀ k, (m k).elim 0 w ≤ bound k := by
    intro k
    cases hk : m k with
    | none => exact Nat.zero_le _
    | some v => exact h k v hk
  refine finsum_le_finsum' ?_ hfin hle
  exact hfin.subset fun k hk hzero => hk (Nat.le_zero.1 (hzero ▸ hle k))

/-- An operation keeps values within their bounds, if what it puts is within its own. -/
theorem Within.apply {bound : K → ℕ} (h : Within w bound m)
    (ho : ∀ k v, o = .put k v → w v ≤ bound k) : Within w bound (o.apply m) := by
  intro j u hj
  cases o with
  | put k v =>
    simp only [Op.apply, Function.update_apply] at hj
    split_ifs at hj with hjk
    · obtain rfl := Option.some.inj hj
      exact hjk ▸ ho k v rfl
    · exact h j u hj
  | erase k =>
    simp only [Op.apply, Function.update_apply] at hj
    split_ifs at hj
    exact h j u hj
  | clear => cases hj
  | keep => exact h j u hj

/-- **With room for everything nothing is forgotten.** -/
theorem Step.eq_apply {bound : K → ℕ} (hstep : Step w cap m o m') (h : Within w bound m)
    (hfin : (Function.support bound).Finite) (hcap : ∑ᶠ k, bound k ≤ cap)
    (ho : ∀ k v, o = .put k v → w v ≤ bound k) : m' = o.apply m := by
  cases hstep with
  | put hput => exact hput.room (((h.apply ho).total_le hfin).trans hcap)
  | erase | clear | keep => rfl

end LossyMap
