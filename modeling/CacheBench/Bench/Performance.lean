/-
# What the benchmark reports

`Driver::baseline_performance` of `driver.cc`: the 95th percentile of the latencies and the
throughput, in requests a second.

The index of the percentile is a product of two `int` divided by 100.  The latencies are
added up by a `std::accumulate` that starts from the literal `0`, so its accumulator is an
`int` and every addition drops the fraction of a millisecond.  The function returns, and
then the percentile is one, as long as the product and the sums are an `int`
(`percentile_iff`).  The throughput is true exactly when there is no fraction to drop
(`performance_throughput_iff`).
-/

import Mathlib.Algebra.Order.BigOperators.Group.List
import Mathlib.Algebra.Order.WithTop.Untop0
import CacheBench.Lib.OrderStat
import CacheBench.Bench.Driver

namespace CacheBench
namespace Bench

/-- `int index = PERCENTILE_METRIC * nreq / 100;` -/
def percentileIndex (nreq : ℕ) : Option ℕ :=
  if 2 ^ 31 ≤ 95 * nreq then none else some (95 * nreq / 100)

/-- `latencies[index]`, once they are sorted. -/
def percentile (nreq : ℕ) (latencies : List ℚ) : Option ℚ := do
  let index ← percentileIndex nreq
  (latencies.mergeSort (· ≤ ·))[index]?

/-- `std::accumulate(latencies.begin(), latencies.end(), 0)`, with an accumulator of the type
of `0`. -/
def accumulate (latencies : List ℚ) : Option ℤ :=
  latencies.foldlM (fun acc x => truncateInt (acc + x)) 0

/-- `nreq / total_latency * std::milli::den`, infinite for a `total_latency` of 0. -/
def throughput (nreq : ℕ) (totalLatency : ℤ) : WithTop ℚ :=
  if totalLatency = 0 then ⊤ else ((nreq / totalLatency * 1000 : ℚ) : WithTop ℚ)

/-- `baseline_performance`, from the latencies on. -/
def performance (nreq : ℕ) (latencies : List ℚ) : Option (ℚ × WithTop ℚ) := do
  let percentile ← percentile nreq latencies
  let totalLatency ← accumulate (latencies.mergeSort (· ≤ ·))
  return (percentile, throughput nreq totalLatency)

/-- `Driver::baseline_performance`, for as many requests as there are draws. -/
def baselinePerformance (fuel : ℕ) (clock : ℕ → ℚ) (g : Generator) (ws : List Draws) :
    Option ((ℚ × WithTop ℚ) × Generator) := do
  let (b, g) ← baselineLatencies fuel clock g ws
  return (← performance ws.length b.results, g)

variable {latencies latencies' : List ℚ} {nreq : ℕ}

/-- There is one latency a request. -/
theorem length_results {fuel : ℕ} {clock : ℕ → ℚ} {g g' : Generator} {ws : List Draws}
    {b b' : Latencies} (h : latencyLoop fuel clock g ws b = some (b', g')) :
    b'.results.length = b.results.length + ws.length := by
  induction ws generalizing g b with
  | nil =>
    obtain ⟨rfl, -⟩ := Prod.mk.inj (Option.some.inj h)
    rfl
  | cons w ws ih =>
    obtain ⟨⟨req, g₁⟩, -, hrest⟩ := Option.bind_eq_some_iff.1 h
    have hone : (iteration clock b req).results.length = b.results.length + 1 := by
      unfold iteration dispatch Latencies.timed
      split_ifs <;> simp
    rw [ih hrest, hone, List.length_cons]
    omega

/-- **What is reported is the performance of the latencies measured,** one a request. -/
theorem baselinePerformance_eq_some_iff {fuel : ℕ} {clock : ℕ → ℚ} {g g' : Generator}
    {ws : List Draws} {r : ℚ × WithTop ℚ} :
    baselinePerformance fuel clock g ws = some (r, g') ↔
      ∃ b, baselineLatencies fuel clock g ws = some (b, g') ∧ b.results.length = ws.length ∧
        performance b.results.length b.results = some r := by
  simp only [baselinePerformance, bind, pure, Option.bind_eq_some_iff, Option.some.injEq,
    Prod.mk.injEq]
  constructor
  · rintro ⟨⟨b, g₁⟩, hb, r', hr, rfl, rfl⟩
    have hlen : b.results.length = ws.length := by simpa [Latencies.init] using length_results hb
    exact ⟨b, hb, hlen, by rwa [hlen]⟩
  · rintro ⟨b, hb, hlen, hr⟩
    exact ⟨(b, g'), hb, r, by rwa [hlen] at hr, rfl, rfl⟩

/-- The two parts of what is reported. -/
theorem performance_eq_some_iff {r : ℚ × WithTop ℚ} : performance nreq latencies = some r ↔
    percentile nreq latencies = some r.1 ∧
      ∃ total, accumulate (latencies.mergeSort (· ≤ ·)) = some total ∧
        throughput nreq total = r.2 := by
  simp only [performance, bind, pure, Option.bind_eq_some_iff, Option.some.injEq]
  constructor
  · rintro ⟨x, hx, total, htotal, rfl⟩
    exact ⟨hx, total, htotal, rfl⟩
  · rintro ⟨hx, total, htotal, ht⟩
    exact ⟨r.1, hx, total, htotal, by rw [ht]⟩

/-! ### The percentile -/

/-- The percentile is the sample at the index, where the product is an `int`. -/
theorem percentile_eq_some_iff {x : ℚ} : percentile nreq latencies = some x ↔
    95 * nreq < 2 ^ 31 ∧ OrderStat.nth latencies (95 * nreq / 100) = some x := by
  unfold percentile percentileIndex
  split_ifs with h
  · simp only [bind, Option.bind_none, reduceCtorEq, false_iff]
    omega
  · simp only [bind, Option.bind_some, OrderStat.nth, not_le.1 h, true_and]

/-! ### The sum -/

/-- The whole part of a number, towards 0. -/
def wholePart (x : ℚ) : ℤ := if 0 ≤ x then ⌊x⌋ else ⌈x⌉

/-- The sum of the latencies, cut to whole milliseconds after each addition. -/
def wholeSum (acc : ℤ) (latencies : List ℚ) : ℤ :=
  latencies.foldl (fun acc x => wholePart (acc + x)) acc

/-- Added up in their order of size, and cut to whole milliseconds after each addition, the
latencies stay within `int`. -/
def SumsFit (latencies : List ℚ) : Prop :=
  ∀ smallest, smallest <+: latencies.mergeSort (· ≤ ·) →
    -2 ^ 31 ≤ wholeSum 0 smallest ∧ wholeSum 0 smallest < 2 ^ 31

/-- A whole part is converted exactly when it is an `int`. -/
theorem truncateInt_eq (x : ℚ) : truncateInt x =
    if -2 ^ 31 ≤ wholePart x ∧ wholePart x < 2 ^ 31 then some (wholePart x) else none := by
  have h : truncateInt x =
      if wholePart x < -2 ^ 31 ∨ 2 ^ 31 ≤ wholePart x then none else some (wholePart x) := rfl
  rw [h]
  split_ifs <;> first | rfl | omega

/-- **The accumulator comes to the end exactly when every sum on the way fits.** -/
theorem exists_foldlM_truncateInt_iff {acc : ℤ} :
    (∃ total, latencies.foldlM (fun acc x => truncateInt (acc + x)) acc = some total) ↔
      ∀ xs, xs ≠ [] → xs <+: latencies → -2 ^ 31 ≤ wholeSum acc xs ∧ wholeSum acc xs < 2 ^ 31 := by
  induction latencies generalizing acc with
  | nil =>
    refine ⟨fun _ xs hne hxs => absurd (List.prefix_nil.1 hxs) hne, fun _ => ⟨acc, rfl⟩⟩
  | cons y ys ih =>
    rw [List.foldlM_cons, truncateInt_eq]
    split_ifs with hfit
    · refine ih.trans ⟨fun h xs hne hxs => ?_, fun h xs hne hxs => ?_⟩
      · rcases List.prefix_cons_iff.1 hxs with rfl | ⟨xs, rfl, hprefix⟩
        · exact absurd rfl hne
        · rcases eq_or_ne xs [] with rfl | hxs
          · exact hfit
          · exact h xs hxs hprefix
      · exact h (y :: xs) (List.cons_ne_nil y xs) (List.cons_prefix_cons.2 ⟨rfl, hxs⟩)
    · refine iff_of_false (fun ⟨_, h⟩ => by cases h) fun h => hfit ?_
      exact h [y] (List.cons_ne_nil y []) (List.cons_prefix_cons.2 ⟨rfl, List.nil_prefix⟩)

/-- The sum of the latencies is there exactly when every sum on the way fits. -/
theorem exists_accumulate_iff :
    (∃ total, accumulate (latencies.mergeSort (· ≤ ·)) = some total) ↔ SumsFit latencies := by
  refine exists_foldlM_truncateInt_iff.trans ⟨fun h xs hxs => ?_, fun h xs _ hxs => h xs hxs⟩
  rcases eq_or_ne xs [] with rfl | hne
  · exact ⟨by decide, by decide⟩
  · exact h xs hne hxs

/-- The accumulator takes the whole milliseconds of a latency. -/
theorem truncateInt_add {acc : ℤ} {x : ℚ} (hacc : 0 ≤ acc) (hx : 0 ≤ x) :
    truncateInt (acc + x) = if acc + ⌊x⌋ < 2 ^ 31 then some (acc + ⌊x⌋) else none := by
  have hfloor := Int.floor_nonneg.2 hx
  have hpos : (0 : ℚ) ≤ acc + x := add_nonneg (Int.cast_nonneg hacc) hx
  rw [truncateInt_eq, wholePart, if_pos hpos, Int.floor_intCast_add]
  split_ifs <;> first | rfl | omega

/-- The fold from any start: it adds up what is whole, while that is an `int`. -/
theorem foldlM_truncateInt {acc : ℤ} (hacc : 0 ≤ acc) (hint : acc < 2 ^ 31)
    (h : ∀ x ∈ latencies, 0 ≤ x) :
    latencies.foldlM (fun acc x => truncateInt (acc + x)) acc =
      if acc + (latencies.map Int.floor).sum < 2 ^ 31 then
        some (acc + (latencies.map Int.floor).sum)
      else none := by
  induction latencies generalizing acc with
  | nil =>
    rw [List.map_nil, List.sum_nil, add_zero, if_pos hint]
    rfl
  | cons x xs ih =>
    obtain ⟨hx, hxs⟩ := List.forall_mem_cons.1 h
    have hfloor := Int.floor_nonneg.2 hx
    have hsum : 0 ≤ (xs.map Int.floor).sum := List.sum_nonneg (by
      simpa using fun y hy => Int.floor_nonneg.2 (hxs y hy))
    rw [List.foldlM_cons, truncateInt_add hacc hx, List.map_cons, List.sum_cons, ← add_assoc]
    split_ifs with hstep hall hall
    · exact (ih (by omega) hstep hxs).trans (if_pos hall)
    · exact (ih (by omega) hstep hxs).trans (if_neg hall)
    · omega
    · rfl

/-- **What is accumulated is the sum of the whole milliseconds,** not the sum. -/
theorem accumulate_eq (h : ∀ x ∈ latencies, 0 ≤ x) : accumulate latencies =
    if (latencies.map Int.floor).sum < 2 ^ 31 then some (latencies.map Int.floor).sum
    else none := by
  simpa [accumulate] using foldlM_truncateInt le_rfl (by omega) h

/-- The latencies sorted add up as they are. -/
theorem accumulate_mergeSort (h : ∀ x ∈ latencies, 0 ≤ x) :
    accumulate (latencies.mergeSort (· ≤ ·)) =
      if (latencies.map Int.floor).sum < 2 ^ 31 then some (latencies.map Int.floor).sum
      else none := by
  have hperm := List.mergeSort_perm latencies (· ≤ ·)
  rw [accumulate_eq fun x hx => h x (hperm.mem_iff.1 hx), (hperm.map Int.floor).sum_eq]

/-- **Latencies that are not negative fit** when their whole milliseconds together do. -/
theorem sumsFit_iff (h : ∀ x ∈ latencies, 0 ≤ x) :
    SumsFit latencies ↔ (latencies.map Int.floor).sum < 2 ^ 31 := by
  rw [← exists_accumulate_iff, accumulate_mergeSort h]
  split_ifs with hlt
  · exact iff_of_true ⟨_, rfl⟩ hlt
  · exact iff_of_false (fun ⟨_, h⟩ => by cases h) hlt

/-! ### What is reported -/

/-- **The percentile is the 95th, up to 22605091 requests whose times fit an `int`.**  For
every list of at least one latency: the index is within the list, and a percentile is
returned that is a sample, with more than 95% of the samples up to it and at most 95% below
it, if and only if the product is an `int` and so is every sum on the way to the total.  For
latencies that are not negative these sums are when that of their whole milliseconds is. -/
theorem percentile_iff (hpos : 1 ≤ latencies.length) :
    ((∃ index r, percentileIndex latencies.length = some index ∧ index < latencies.length ∧
      performance latencies.length latencies = some r ∧ r.1 ∈ latencies ∧
      95 * latencies.length < 100 * latencies.countP (· ≤ r.1) ∧
      100 * latencies.countP (· < r.1) ≤ 95 * latencies.length) ↔
    latencies.length ≤ 22605091 ∧ SumsFit latencies) ∧
    ((∀ x ∈ latencies, 0 ≤ x) →
      (SumsFit latencies ↔ (latencies.map Int.floor).sum < 2 ^ 31)) := by
  refine ⟨⟨?_, ?_⟩, sumsFit_iff⟩
  · rintro ⟨_, r, -, -, hr, -⟩
    obtain ⟨hx, total, htotal, -⟩ := performance_eq_some_iff.1 hr
    have hint := (percentile_eq_some_iff.1 hx).1
    exact ⟨by omega, exists_accumulate_iff.1 ⟨total, htotal⟩⟩
  · rintro ⟨hlen, hfit⟩
    have hint : 95 * latencies.length < 2 ^ 31 := by omega
    obtain ⟨x, hx⟩ := OrderStat.exists_nth
      (by omega : 95 * latencies.length / 100 < latencies.length)
    obtain ⟨total, htotal⟩ := exists_accumulate_iff.2 hfit
    have hreported := (performance_eq_some_iff (r := (x, throughput latencies.length total))).2
      ⟨percentile_eq_some_iff.2 ⟨hint, hx⟩, total, htotal, rfl⟩
    have hle := OrderStat.lt_countP_le hx
    have hlt := OrderStat.countP_lt_le hx
    refine ⟨_, _, if_neg (not_le.2 hint), by omega, hreported, OrderStat.mem_of_nth hx, ?_, ?_⟩
    · show 95 * latencies.length < 100 * latencies.countP (· ≤ x)
      omega
    · show 100 * latencies.countP (· < x) ≤ 95 * latencies.length
      omega

/-- Three latencies. -/
theorem percentile_iff_three :
    ∃ r, performance 3 [1, 5, 2] = some r ∧ r.1 ∈ ([1, 5, 2] : List ℚ) := by
  obtain ⟨hiff, hfit⟩ := @percentile_iff [1, 5, 2] (by simp)
  obtain ⟨_, r, -, -, hr, hmem, -⟩ := hiff.2 ⟨by simp, (hfit (by norm_num)).2 (by norm_num)⟩
  exact ⟨r, hr, hmem⟩

/-- **One request more, and the product is no `int`:** there is no index, whatever the
latencies.  Nor is there a result for one latency of `2^31` milliseconds. -/
theorem percentileIndex_overflows : (List.replicate 22605092 (1 : ℚ)).length = 22605092 ∧
    percentileIndex (List.replicate 22605092 (1 : ℚ)).length = none ∧
    performance (List.replicate 22605092 (1 : ℚ)).length (List.replicate 22605092 (1 : ℚ)) =
      none ∧
    performance ([2 ^ 31] : List ℚ).length [2 ^ 31] = none := by
  have hlen : (List.replicate 22605092 (1 : ℚ)).length = 22605092 := List.length_replicate
  have hnone : percentileIndex 22605092 = none := if_pos (by omega)
  refine ⟨hlen, by rw [hlen]; exact hnone, ?_, ?_⟩
  · rw [hlen, performance, percentile, hnone]
    rfl
  · have hsum : accumulate (([2 ^ 31] : List ℚ).mergeSort (· ≤ ·)) = none := by
      rw [accumulate_mergeSort (by norm_num)]
      norm_num
    cases hr : performance ([2 ^ 31] : List ℚ).length [2 ^ 31] with
    | none => rfl
    | some r =>
      obtain ⟨-, total, htotal, -⟩ := performance_eq_some_iff.1 hr
      rw [hsum] at htotal
      cases htotal

/-! ### The throughput -/

/-- The whole milliseconds are no more than the latencies. -/
theorem sum_floor_le (latencies : List ℚ) :
    ((latencies.map Int.floor).sum : ℤ) ≤ latencies.sum := by
  induction latencies with
  | nil => simp
  | cons x xs ih =>
    have hx := Int.floor_le x
    rw [List.map_cons, List.sum_cons, List.sum_cons, Int.cast_add]
    linarith

/-- **Nothing is dropped only from whole numbers.** -/
theorem sum_floor_eq_iff : ((latencies.map Int.floor).sum : ℤ) = latencies.sum ↔
    ∀ x ∈ latencies, (⌊x⌋ : ℚ) = x := by
  induction latencies with
  | nil => simp
  | cons x xs ih =>
    have hx := Int.floor_le x
    have hxs := sum_floor_le xs
    rw [List.map_cons, List.sum_cons, List.sum_cons, Int.cast_add, List.forall_mem_cons, ← ih]
    constructor
    · intro h
      exact ⟨by linarith, by linarith⟩
    · rintro ⟨h, h'⟩
      rw [h, h']

/-- The throughput is the true one for the true total only. -/
theorem throughput_eq_iff {total : ℤ} {sum : ℚ} (hnreq : 0 < nreq) (hsum : 0 < sum) :
    throughput nreq total = ((1000 * nreq / sum : ℚ) : WithTop ℚ) ↔ (total : ℚ) = sum := by
  have hn : (nreq : ℚ) ≠ 0 := by exact_mod_cast hnreq.ne'
  unfold throughput
  split_ifs with hzero
  · simp [hzero, hsum.ne]
  · have ht : (total : ℚ) ≠ 0 := by exact_mod_cast hzero
    rw [WithTop.coe_inj, div_mul_eq_mul_div, mul_comm (nreq : ℚ), div_eq_div_iff ht hsum.ne']
    constructor
    · intro h
      exact (mul_left_cancel₀ (mul_ne_zero (by norm_num) hn) h).symm
    · intro h
      rw [h]

/-- **The throughput is the true one exactly for whole milliseconds.**  For every list of
latencies that are not negative and do not all vanish, in any order, the throughput is 1000
times the number of requests over the sum of the latencies if and only if each latency is
a whole number, their sum is an `int`, and there is an index for the percentile. -/
theorem performance_throughput_iff (hnonneg : ∀ x ∈ latencies, 0 ≤ x)
    (hpos : 0 < latencies.sum) :
    (∃ x, performance latencies.length latencies =
      some (x, ((1000 * latencies.length / latencies.sum : ℚ) : WithTop ℚ))) ↔
    (∀ x ∈ latencies, (⌊x⌋ : ℚ) = x) ∧ latencies.sum < 2 ^ 31 ∧ latencies.length ≤ 22605091 := by
  have hlen : 0 < latencies.length := by
    refine List.length_pos_iff.2 fun hnil => ?_
    rw [hnil, List.sum_nil] at hpos
    exact lt_irrefl _ hpos
  simp only [performance_eq_some_iff, accumulate_mergeSort hnonneg]
  constructor
  · rintro ⟨x, hx, total, htotal, hthroughput⟩
    have hint := (percentile_eq_some_iff.1 hx).1
    split_ifs at htotal with hlt
    obtain rfl := Option.some.inj htotal
    have hsum := (throughput_eq_iff hlen hpos).1 hthroughput
    refine ⟨sum_floor_eq_iff.1 hsum, ?_, by omega⟩
    rw [← hsum]
    exact_mod_cast hlt
  · rintro ⟨hwhole, hlt, hint⟩
    have hsum := sum_floor_eq_iff.2 hwhole
    obtain ⟨x, hx⟩ := OrderStat.exists_nth
      (by omega : 95 * latencies.length / 100 < latencies.length)
    refine ⟨x, percentile_eq_some_iff.2 ⟨by omega, hx⟩, _, if_pos ?_,
      (throughput_eq_iff hlen hpos).2 hsum⟩
    rw [← hsum] at hlt
    exact_mod_cast hlt

/-- Latencies of 1 and of 3 milliseconds. -/
theorem performance_throughput_iff_two : ∃ x,
    performance ([1, 3] : List ℚ).length [1, 3] =
      some (x, ((1000 * ([1, 3] : List ℚ).length / ([1, 3] : List ℚ).sum : ℚ) : WithTop ℚ)) :=
  (@performance_throughput_iff [1, 3] (by norm_num) (by norm_num)).2
    ⟨by norm_num, by norm_num, by simp⟩

/-- **Half a millisecond each is no time at all:** the true throughput of two requests of
half a millisecond is 2000, and an infinite one is reported. -/
theorem performance_of_halves :
    performance 2 [1 / 2, 1 / 2] = some (1 / 2, ⊤) ∧
    (1000 * ([1 / 2, 1 / 2] : List ℚ).length / ([1 / 2, 1 / 2] : List ℚ).sum : ℚ) = 2000 ∧
    ¬∃ x, performance ([1 / 2, 1 / 2] : List ℚ).length [1 / 2, 1 / 2] =
      some (x, ((1000 * ([1 / 2, 1 / 2] : List ℚ).length /
        ([1 / 2, 1 / 2] : List ℚ).sum : ℚ) : WithTop ℚ)) := by
  have hsort : ([1 / 2, 1 / 2] : List ℚ).mergeSort (· ≤ ·) = [1 / 2, 1 / 2] :=
    List.mergeSort_eq_self _ (by simp)
  have hrun : performance 2 [1 / 2, 1 / 2] = some (1 / 2, ⊤) := by
    simp only [performance, percentile, hsort]
    decide +kernel
  refine ⟨hrun, by norm_num, fun ⟨x, hx⟩ => ?_⟩
  have htop := congrArg (Option.map Prod.snd) (hrun.symm.trans hx)
  simp at htop

end Bench
end CacheBench
