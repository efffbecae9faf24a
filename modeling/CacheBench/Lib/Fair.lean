/-
# What happens in the end

An infinite run is a sequence of states and of labels (`Trace.Forever`).  Something that waits
along it has a rank: no step raises it, and it cannot wait for ever at the same rank, for then
a step is due that lowers it.  So it does not wait for ever (`Trace.eventually_of_rank`).
-/

import Mathlib.Data.Nat.Init
import CacheBench.Lib.Trace

namespace Trace

variable {σ ι : Type*}

/-- An infinite run: the states and the labels of the steps between them. -/
def Forever (step : σ → ι → σ → Prop) (states : ℕ → σ) (labels : ℕ → ι) : Prop :=
  ∀ n, step (states n) (labels n) (states (n + 1))

/-- Its first steps are a run. -/
theorem Forever.run {step : σ → ι → σ → Prop} {states : ℕ → σ} {labels : ℕ → ι}
    (h : Forever step states labels) (n : ℕ) :
    Run step (states 0) ((List.range n).map labels) (states n) := by
  induction n with
  | zero => exact .nil
  | succ n ih =>
    rw [List.range_succ, List.map_append]
    exact ih.snoc (h n)

/-- A run that comes to a step it can repeat goes on for ever. -/
theorem exists_forever {step : σ → ι → σ → Prop} {s t : σ} {ls : List ι} {l : ι}
    (h : Run step s ls t) (hloop : step t l t) :
    ∃ states, Forever step states (fun n => ls[n]?.getD l) ∧ states 0 = s ∧
      ∀ n, ls.length ≤ n → states n = t := by
  induction ls generalizing s with
  | nil =>
    obtain rfl := run_nil_iff.1 h
    exact ⟨fun _ => t, fun _ => hloop, rfl, fun _ _ => rfl⟩
  | cons l' ls ih =>
    obtain ⟨m, hfirst, hrest⟩ := run_cons_iff.1 h
    obtain ⟨states, hforever, rfl, hend⟩ := ih hrest
    refine ⟨fun n => n.casesOn s states, fun n => ?_, rfl, fun n hn => ?_⟩
    · cases n with
      | zero => exact hfirst
      | succ n => exact hforever n
    · cases n with
      | zero => cases hn
      | succ n => exact hend n (Nat.le_of_succ_le_succ hn)

variable {P : ℕ → ℕ → Prop} {Q : ℕ → Prop}

/-- At one rank it waits for ever, or until it is done or has a lower rank. -/
theorem waits_or_lower
    (hstep : ∀ n r, P n r → Q n ∨ P (n + 1) r ∨ ∃ r' < r, P (n + 1) r')
    {n r : ℕ} (h : P n r) {m : ℕ} (hm : n ≤ m) :
    P m r ∨ (∃ m', n ≤ m' ∧ Q m') ∨ ∃ m', n ≤ m' ∧ ∃ r' < r, P m' r' := by
  induction m, hm using Nat.le_induction with
  | base => exact Or.inl h
  | succ m hm ih =>
    rcases ih with hwaits | hlater
    · rcases hstep m r hwaits with hdone | hsame | ⟨r', hr', hlower⟩
      · exact Or.inr (Or.inl ⟨m, hm, hdone⟩)
      · exact Or.inl hsame
      · exact Or.inr (Or.inr ⟨m + 1, Nat.le_succ_of_le hm, r', hr', hlower⟩)
    · exact Or.inr hlater

/-- **What waits with a rank is done in the end.** -/
theorem eventually_of_rank
    (hstep : ∀ n r, P n r → Q n ∨ P (n + 1) r ∨ ∃ r' < r, P (n + 1) r')
    (hfair : ∀ n r, (∀ m, n ≤ m → P m r) →
      ∃ m, n ≤ m ∧ (Q m ∨ ∃ r' < r, P (m + 1) r'))
    {n r : ℕ} (h : P n r) : ∃ m, n ≤ m ∧ Q m := by
  induction r using Nat.strong_induction_on generalizing n with
  | h r ih =>
    have hlater : ∀ {m}, n ≤ m → ∀ r' < r, P m r' → ∃ m', n ≤ m' ∧ Q m' := by
      intro m hm r' hr' hwaits
      obtain ⟨m', hm', hdone⟩ := ih r' hr' hwaits
      exact ⟨m', Nat.le_trans hm hm', hdone⟩
    by_cases hforever : ∀ m, n ≤ m → P m r
    · obtain ⟨m, hm, hdone | ⟨r', hr', hwaits⟩⟩ := hfair n r hforever
      · exact ⟨m, hm, hdone⟩
      · exact hlater (Nat.le_succ_of_le hm) r' hr' hwaits
    · obtain ⟨m, hnot⟩ := not_forall.1 hforever
      obtain ⟨hm, hnot⟩ := Classical.not_imp.1 hnot
      rcases waits_or_lower hstep h hm with hwaits | hdone | ⟨m', hm', r', hr', hwaits⟩
      · exact absurd hwaits hnot
      · exact hdone
      · exact hlater hm' r' hr' hwaits

end Trace
