/-
# Who gets selected

`gen_req` draws a target between 0 and `M = total_prob_/locality_range_` and goes
around `data_` from its start index until the running sum of the probabilities reaches
the target.  Of the `M + 1` targets each tuple gets the step that the running sum makes
there, cut off at `M`, and the start tuple gets target 0 besides
(`Generator.selection_shares`): within `M` that is its probability.
-/

import CacheBench.Bench.Generator

namespace CacheBench
namespace Bench
namespace Generator

/-- From the start index `s` the loop of `gen_req` ends at `i`, for the target `t`. -/
def Selects (g : Generator) (s t i : ℕ) : Prop :=
  ∃ fuel, selectLoop g.data t fuel 0 s = some i

variable {g : Generator} {s d : ℕ}

/-- There is a tuple to select. -/
theorem Valid.length_pos (h : g.Valid) : 0 < g.data.length := List.length_pos_iff.2 h.data

/-- No target is above the sum of the probabilities. -/
theorem Valid.maxTarget_le (h : g.Valid) : g.maxTarget ≤ (g.data.map fun e => e.2.2).sum := by
  rw [h.totalProb]
  exact Nat.div_le_self _ _

/-- Offsets of less than a turn are different places. -/
theorem offset_injective {n e : ℕ} (hd : d < n) (he : e < n) (h : (s + d) % n = (s + e) % n) :
    d = e := by
  have hmod : d % n = e % n := Nat.ModEq.add_left_cancel' s h
  rwa [Nat.mod_eq_of_lt hd, Nat.mod_eq_of_lt he] at hmod

/-- **The loop selects by the running sum.** -/
theorem Valid.selects_iff (h : g.Valid) (hs : s < g.data.length) (hd : d < g.data.length) {t : ℕ}
    (ht : t ≤ g.maxTarget) :
    g.Selects s t ((s + d) % g.data.length) ↔ InverseCdf.Picks (around g.data s) t d := by
  have hint : (g.data.map fun e => e.2.2).sum < 2 ^ 31 := h.totalProb ▸ h.int
  have hmass : t ≤ InverseCdf.mass (around g.data s) g.data.length := by
    rw [mass_around_length]
    exact ht.trans h.maxTarget_le
  constructor
  · rintro ⟨fuel, hsel⟩
    obtain ⟨e, he, hpick⟩ := InverseCdf.exists_picks h.length_pos hmass
    rw [selectLoop_start hs hint he hpick] at hsel
    split_ifs at hsel
    obtain rfl := offset_injective he hd (Option.some.inj hsel)
    exact hpick
  · intro hpick
    exact ⟨d + 1, by rw [selectLoop_start hs hint hd hpick, if_pos (Nat.lt_succ_self d)]⟩

/-- **A call of `gen_req` returns what the loop selects:** from a generator whose start index
is `s`, unless the call makes a dummy delete, it returns the tuple at `i` exactly when the
loop from `s` ends there. -/
theorem exists_genReq_iff_selects {g' : Generator} {setOnly : Bool} {w : Draws} {i : ℕ}
    (hkeys : (g.data.map Prod.fst).Nodup) (hstart : g.start = some s)
    (hadv : g.advance = some g') (hi : i < g.data.length)
    (hreal : setOnly = true ∨ w.p < 21 ∨ 30 ≤ w.p ∨ 27 ≤ w.again) :
    (∃ fuel req, g.genReq fuel setOnly w = some (req, g') ∧ req.key = g.data[i].1) ↔
      g.Selects s w.target i := by
  have hselect : ∀ fuel, ∃ method, g.genReq fuel setOnly w = g.selectReq fuel w.target method := by
    intro fuel
    unfold genReq
    split_ifs with hset hget hdel hagain
    · exact ⟨_, rfl⟩
    · exact ⟨_, rfl⟩
    · rcases hreal with h | h | h | h
      · exact absurd h hset
      all_goals omega
    · exact ⟨_, rfl⟩
    · exact ⟨_, rfl⟩
  constructor
  · rintro ⟨fuel, req, hreq, hkey⟩
    obtain ⟨method, hmethod⟩ := hselect fuel
    rw [hmethod] at hreq
    simp only [selectReq, bind, pure, Option.bind_eq_some_iff, Option.some.injEq,
      Prod.mk.injEq, hstart] at hreq
    obtain ⟨_, rfl, j, hloop, _, -, e, he, rfl, -⟩ := hreq
    obtain ⟨hj, rfl⟩ := List.getElem?_eq_some_iff.1 he
    have hj' : j < (g.data.map Prod.fst).length := by rwa [List.length_map]
    have hi' : i < (g.data.map Prod.fst).length := by rwa [List.length_map]
    have hij : (g.data.map Prod.fst)[j] = (g.data.map Prod.fst)[i] := by simpa using hkey
    obtain rfl := (hkeys.getElem_inj_iff).1 hij
    exact ⟨fuel, hloop⟩
  · rintro ⟨fuel, hloop⟩
    obtain ⟨method, hmethod⟩ := hselect fuel
    refine ⟨fuel, ⟨g.data[i].1, g.data[i].2.1, method⟩, ?_, rfl⟩
    simp only [hmethod, selectReq, hstart, hloop, hadv, List.getElem?_eq_getElem hi, bind, pure,
      Option.bind_some]

/-- The targets that make the loop select the tuple at the offset `d`. -/
theorem Valid.selecting_eq (h : g.Valid) (hs : s < g.data.length) (hd : d < g.data.length) :
    {t | t ≤ g.maxTarget ∧ g.Selects s t ((s + d) % g.data.length)} =
      (InverseCdf.targets (around g.data s) g.maxTarget d : Set ℕ) := by
  ext t
  rw [Set.mem_ofPred_eq, Finset.mem_coe, InverseCdf.mem_targets]
  constructor
  · rintro ⟨ht, hsel⟩
    exact ⟨ht, (h.selects_iff hs hd ht).1 hsel⟩
  · rintro ⟨ht, hpick⟩
    exact ⟨ht, (h.selects_iff hs hd ht).2 hpick⟩

/-- **Selection is exact inverse-CDF sampling.**  For any data and any start index, with
`P d` the sum of the first `d` probabilities from there on around the data and
`M = total_prob_/locality_range_`: of the targets `0, …, M`, the tuple at the offset `d` is
selected for `min (P (d + 1)) M - min (P d) M`, and for `min (P 1) M + 1` when `d` is 0.  So
a tuple past the start that is wholly below `M` is selected as often as its probability
says, one of probability 0 never, and the numbers add up to `M + 1`. -/
theorem selection_shares (h : g.Valid) (hs : s < g.data.length) :
    let n := g.data.length
    let M := g.maxTarget
    let prob d := probAt g.data ((s + d) % n)
    let P d := ∑ k ∈ Finset.range d, prob k
    let share d := Set.ncard {t | t ≤ M ∧ g.Selects s t ((s + d) % n)}
    share 0 = min (P 1) M + 1 ∧
      (∀ d, 1 ≤ d → d < n → share d = min (P (d + 1)) M - min (P d) M) ∧
      (∀ d, 1 ≤ d → d < n → P (d + 1) ≤ M → share d = prob d) ∧
      (∀ d, 1 ≤ d → d < n → prob d = 0 → share d = 0) ∧
      ∑ d ∈ Finset.range n, share d = M + 1 := by
  intro n M prob P share
  have hshare : ∀ d, d < n → share d = (InverseCdf.targets (around g.data s) M d).card := by
    intro d hd
    show Set.ncard _ = _
    rw [h.selecting_eq hs hd, Set.ncard_coe_finset]
  have hpast : ∀ d, 1 ≤ d → d < n → share d = min (P (d + 1)) M - min (P d) M := by
    intro d hd hdn
    rw [hshare d hdn, InverseCdf.card_targets, if_neg (by omega)]
    rfl
  have hP : ∀ d, P (d + 1) = P d + prob d := fun d => InverseCdf.mass_succ _ d
  refine ⟨?_, hpast, fun d hd hdn hle => ?_, fun d hd hdn hzero => ?_, ?_⟩
  · rw [hshare 0 h.length_pos, InverseCdf.card_targets, if_pos rfl]
    rfl
  · have hsum := hP d
    rw [hpast d hd hdn]
    omega
  · have hsum := hP d
    rw [hpast d hd hdn]
    omega
  · rw [Finset.sum_congr rfl fun d hd => hshare d (Finset.mem_range.1 hd)]
    refine InverseCdf.sum_card_targets h.length_pos ?_
    rw [mass_around_length]
    exact h.maxTarget_le

/-- Around three tuples from the second, which weighs nothing, the third gets the two
targets of its probability. -/
theorem selection_shares_three :
    let g : Generator := ⟨[("a", 1, 3), ("b", 1, 0), ("c", 1, 2)], 5, 1, 1, 0⟩
    Set.ncard {t | t ≤ g.maxTarget ∧ g.Selects 1 t ((1 + 1) % g.data.length)} = 2 := by
  intro g
  have h : g.Valid := ⟨by simp [g], by decide, by decide, by decide⟩
  exact (selection_shares h (s := 1) (by decide)).2.2.1 1 (by decide) (by decide) (by decide)

end Generator
end Bench
end CacheBench
