/-
# Selection by a running sum

Weights `f 0, f 1, …` are added up until the running sum reaches a target:
`InverseCdf.Picks f t d` says that this happens at the weight number `d`, the first one
with `t ≤ f 0 + … + f d`.  The sums `InverseCdf.mass f d` of the first `d` weights are
monotone, so a target is picked up before any `n > 0` with `t ≤ mass f n`
(`InverseCdf.exists_picks`) and at one place only (`InverseCdf.Picks.unique`).

Of the targets `0, …, M` those picked up at `d` are as many as `f d` where the running
sum stays within `M`, cut off at `M` elsewhere, and one more at the start, where
target 0 goes (`InverseCdf.card_targets`).  On a circle a full turn has the same mass
from every start (`InverseCdf.mass_turn`).
-/

import Mathlib.Algebra.BigOperators.Group.Finset.Basic
import Mathlib.Algebra.Order.BigOperators.Group.Finset
import Mathlib.Algebra.Ring.Periodic
import Mathlib.Order.Interval.Finset.Nat

namespace InverseCdf

variable (f : ℕ → ℕ)

/-- The sum of the first `d` weights. -/
def mass (d : ℕ) : ℕ := ∑ k ∈ Finset.range d, f k

/-- The mass of nothing. -/
@[simp] theorem mass_zero : mass f 0 = 0 := rfl

/-- The mass of one more. -/
theorem mass_succ (d : ℕ) : mass f (d + 1) = mass f d + f d := Finset.sum_range_succ f d

/-- Masses grow. -/
theorem mass_mono : Monotone (mass f) := by
  refine monotone_nat_of_le_succ fun d => ?_
  rw [mass_succ]
  omega

/-- The running sum reaches the target `t` at the weight number `d` and not before. -/
def Picks (t d : ℕ) : Prop := t ≤ mass f (d + 1) ∧ ∀ k < d, mass f (k + 1) < t

variable {f} {t d n : ℕ}

/-- The first is picked up to its own mass. -/
theorem picks_zero_iff : Picks f t 0 ↔ t ≤ mass f 1 := by
  simp [Picks]

/-- Past the start the last sum before `d` decides. -/
theorem picks_succ_iff : Picks f t (d + 1) ↔ mass f (d + 1) < t ∧ t ≤ mass f (d + 2) := by
  constructor
  · rintro ⟨hle, hlt⟩
    exact ⟨hlt d (by omega), hle⟩
  · rintro ⟨hlt, hle⟩
    refine ⟨hle, fun k hk => ?_⟩
    exact (mass_mono f (show k + 1 ≤ d + 1 by omega)).trans_lt hlt

instance : Decidable (Picks f t d) := inferInstanceAs (Decidable (_ ∧ _))

/-- **A target is picked up at one place only.** -/
theorem Picks.unique {d' : ℕ} (h : Picks f t d) (h' : Picks f t d') : d = d' := by
  rcases lt_trichotomy d d' with hlt | heq | hlt
  · exact absurd (h'.2 d hlt) (not_lt.2 h.1)
  · exact heq
  · exact absurd (h.2 d' hlt) (not_lt.2 h'.1)

/-- **A target within the mass of `n` weights is picked up at one of them.** -/
theorem exists_picks (hn : 0 < n) (h : t ≤ mass f n) : ∃ d < n, Picks f t d := by
  have hex : ∃ d, t ≤ mass f (d + 1) := ⟨n - 1, by rwa [show n - 1 + 1 = n by omega]⟩
  refine ⟨Nat.find hex, ?_, Nat.find_spec hex, fun k hk => not_le.1 (Nat.find_min hex hk)⟩
  have hmin : Nat.find hex ≤ n - 1 :=
    Nat.find_min' hex (by rwa [show n - 1 + 1 = n by omega])
  omega

/-- **Some target up to `M` is picked up at `d`** exactly when `d` is the start, or its weight
is not zero and the weights before it do not reach `M`. -/
theorem exists_picks_le_iff {M : ℕ} :
    (∃ t ≤ M, Picks f t d) ↔ d = 0 ∨ 0 < f d ∧ mass f d < M := by
  rcases d with _ | d
  · exact ⟨fun _ => Or.inl rfl, fun _ => ⟨0, Nat.zero_le _, picks_zero_iff.2 (Nat.zero_le _)⟩⟩
  · have hmass : mass f (d + 2) = mass f (d + 1) + f (d + 1) := mass_succ f (d + 1)
    constructor
    · rintro ⟨t, ht, hpick⟩
      obtain ⟨hlt, hle⟩ := picks_succ_iff.1 hpick
      exact Or.inr ⟨by omega, hlt.trans_le ht⟩
    · rintro (hzero | ⟨hweight, hM⟩)
      · exact absurd hzero (Nat.succ_ne_zero d)
      · exact ⟨mass f (d + 1) + 1, hM, picks_succ_iff.2 ⟨Nat.lt_succ_self _, by omega⟩⟩

/-! ### How many targets a place gets -/

/-- The targets `0, …, M` that are picked up at `d`. -/
def targets (f : ℕ → ℕ) (M d : ℕ) : Finset ℕ := (Finset.range (M + 1)).filter fun t => Picks f t d

/-- The targets up to `M` that pick `d`. -/
theorem mem_targets {M : ℕ} : t ∈ targets f M d ↔ t ≤ M ∧ Picks f t d := by
  rw [targets, Finset.mem_filter, Finset.mem_range, Nat.lt_succ_iff]

/-- **The share of a place:** the step of the sums there, cut off at `M`, and target 0 at
the start. -/
theorem card_targets (f : ℕ → ℕ) (M d : ℕ) : (targets f M d).card =
    if d = 0 then min (mass f 1) M + 1 else min (mass f (d + 1)) M - min (mass f d) M := by
  rcases d with _ | d
  · have heq : targets f M 0 = Finset.range (min (mass f 1) M + 1) := by
      ext t
      rw [mem_targets, picks_zero_iff, Finset.mem_range]
      omega
    rw [heq, Finset.card_range, if_pos rfl]
  · have heq : targets f M (d + 1) =
        Finset.Ioc (min (mass f (d + 1)) M) (min (mass f (d + 2)) M) := by
      ext t
      rw [mem_targets, picks_succ_iff, Finset.mem_Ioc]
      omega
    rw [heq, Nat.card_Ioc, if_neg (Nat.succ_ne_zero d)]

/-- **Together the places get every target,** once the mass covers them. -/
theorem sum_card_targets {M : ℕ} (hn : 0 < n) (h : M ≤ mass f n) :
    ∑ d ∈ Finset.range n, (targets f M d).card = M + 1 := by
  rw [← Finset.card_biUnion]
  · have heq : (Finset.range n).biUnion (targets f M) = Finset.range (M + 1) := by
      ext t
      simp only [Finset.mem_biUnion, Finset.mem_range, mem_targets, Nat.lt_succ_iff]
      constructor
      · rintro ⟨d, -, hle, -⟩
        exact hle
      · intro hle
        obtain ⟨d, hd, hpick⟩ := exists_picks hn (hle.trans h)
        exact ⟨d, hd, hle, hpick⟩
    rw [heq, Finset.card_range]
  · intro d _ d' _ hne
    refine Finset.disjoint_left.2 fun t ht ht' => hne ?_
    exact (mem_targets.1 ht).2.unique (mem_targets.1 ht').2

/-! ### On a circle -/

/-- **A full turn has the same mass from every start.** -/
theorem mass_turn (hf : Function.Periodic f n) (s : ℕ) :
    mass (fun k => f (s + k)) n = mass f n := by
  induction s with
  | zero => simp only [Nat.zero_add]
  | succ s ih =>
    rw [← ih]
    -- both sums are `f (s + 1) + … + f (s + n - 1)` and one more weight
    have hfirst : mass (fun k => f (s + k)) (n + 1) = mass (fun k => f (s + 1 + k)) n + f s := by
      unfold mass
      rw [Finset.sum_range_succ']
      congr 1
      exact Finset.sum_congr rfl fun k _ => by rw [show s + (k + 1) = s + 1 + k by omega]
    rw [mass_succ, hf s] at hfirst
    omega

end InverseCdf
