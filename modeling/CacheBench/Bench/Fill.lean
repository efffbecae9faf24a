/-
# The constructor of the workload generator

`Generator::Generator` of `gen.cc`: it draws tuples until their value sizes add up to more
than `size_factor*size`, and shuffles them.  What a pass of the loop draws comes as a
`FillDraws`, what `std::shuffle` does as a function, and `(int)log10` is a parameter.  What
C++ leaves undefined, and the exception for a negative filler, is `none`.

A value has at least two bytes, so `size_used` grows by two a pass while `i` grows by one.
With a bound below 2000000 the loop therefore ends before `i` is 1000000, where the
logarithm would have nothing to work on (`construct_wellBehaved`).
-/

import Mathlib.Algebra.Order.BigOperators.Group.List
import Mathlib.Analysis.SpecialFunctions.Pow.Real
import CacheBench.Bench.Generator

namespace CacheBench
namespace Bench

/-- What one pass draws: `key_dist(rng)`, `p`, the three value distributions, of which `p`
selects one, and the second `p`. -/
structure FillDraws where
  key : ℚ
  p : ℕ
  low : ℚ
  mid : ℕ
  high : ℚ
  again : ℕ

/-- `key`, of which `i` is the number; `log10` is `(int)log10`. -/
def paddedKey (log10 : ℕ → ℕ) (i : ℕ) (keySize : ℤ) : KeyType :=
  "key_" ++ String.ofList (List.replicate (log10 (1000000 - i)) '0') ++ toString i ++
    String.ofList (List.replicate (keySize - 10).toNat 'f')

/-- `val_size`. -/
def FillDraws.valSize (w : FillDraws) : Option ℕ :=
  if w.p < 40 then (truncateInt |w.low|).map fun n => (clamp n 2 10).toNat
  else if w.p < 90 then some w.mid
  else (truncateInt |w.high|).map fun n => (clamp n 0 4500 + 500).toNat

/-- `(int)((1000)/(pow(p+1, 2.3)))`: the last `n` with `n ^ 10 * (p + 1) ^ 23` up to
`1000 ^ 10`. -/
@[irreducible] def FillDraws.prob (w : FillDraws) : ℕ :=
  Nat.findGreatest (fun n => n ^ 10 * (w.again + 1) ^ 23 ≤ 1000 ^ 10) 1000

/-- The locals of the constructor's loop, and `data_`. -/
structure Fill where
  i : ℕ
  sizeUsed : ℕ
  totalProb : ℕ
  data : List DataType

/-- Before the loop. -/
def Fill.init : Fill := ⟨0, 0, 0, []⟩

/-- The loop body. -/
def fillStep (log10 : ℕ → ℕ) (b : Fill) (w : FillDraws) : Option Fill := do
  let keySize := clamp (← truncateInt w.key) 15 70
  let valSize ← w.valSize
  if 1000000 ≤ b.i ∨ keySize - 10 < 0 then none
  else if 2 ^ 31 ≤ b.sizeUsed + valSize ∨ 2 ^ 31 ≤ b.totalProb + w.prob then none
  else some ⟨b.i + 1, b.sizeUsed + valSize, b.totalProb + w.prob,
    b.data ++ [(paddedKey log10 b.i keySize, valSize, w.prob)]⟩

/-- `while(size_used <= size_factor*size)`, of which the right side is `bound`. -/
def fillLoop (log10 : ℕ → ℕ) (bound : ℚ) (draws : ℕ → FillDraws) : ℕ → Fill → Option Fill
  | 0, _ => none
  | fuel + 1, b =>
    if b.sizeUsed ≤ bound then
      (fillStep log10 b (draws b.i)).bind (fillLoop log10 bound draws fuel)
    else some b

/-- `Generator::Generator`. -/
def construct (log10 : ℕ → ℕ) (shuffle : List DataType → List DataType) (fuel : ℕ)
    (localityRange : ℕ) (localityShift : ℚ) (size : ℤ) (sizeFactor : ℚ)
    (draws : ℕ → FillDraws) : Option Generator :=
  (fillLoop log10 (sizeFactor * size) draws fuel .init).map fun b =>
    ⟨shuffle b.data, b.totalProb, localityRange, localityShift, 0⟩

/-- The draws are within their distributions, and what is converted to `int` is one. -/
structure FillDraws.InRange (w : FillDraws) : Prop where
  key : (truncateInt w.key).isSome
  p : w.p ≤ 100
  low : w.p < 40 → (truncateInt |w.low|).isSome
  mid : 10 ≤ w.mid ∧ w.mid ≤ 500
  high : 90 ≤ w.p → (truncateInt |w.high|).isSome
  again : w.again ≤ 100

/-- A pass of the loop that draws `w`. -/
def Pass (log10 : ℕ → ℕ) (bound : ℚ) (b : Fill) (w : FillDraws) (b' : Fill) : Prop :=
  b.sizeUsed ≤ bound ∧ fillStep log10 b w = some b'

variable {log10 : ℕ → ℕ} {bound : ℚ} {draws : ℕ → FillDraws} {w : FillDraws} {b b' : Fill}
variable {fuel k : ℕ}

/-! ### What a pass draws -/

/-- `std::clamp` stays between its bounds. -/
theorem clamp_mem {lo hi : ℤ} (h : lo ≤ hi) (x : ℤ) : lo ≤ clamp x lo hi ∧ clamp x lo hi ≤ hi := by
  unfold clamp
  split_ifs <;> omega

/-- The probability is the quotient, rounded down. -/
theorem FillDraws.prob_eq_floor (w : FillDraws) :
    w.prob = ⌊(1000 : ℝ) / ((w.again + 1 : ℕ) : ℝ) ^ (2.3 : ℝ)⌋₊ := by
  have hpos : (0 : ℝ) < ((w.again + 1 : ℕ) : ℝ) ^ (2.3 : ℝ) := by positivity
  have hten : (((w.again + 1 : ℕ) : ℝ) ^ (2.3 : ℝ)) ^ 10 = ((w.again + 1 : ℕ) : ℝ) ^ 23 := by
    rw [← Real.rpow_natCast, ← Real.rpow_mul (by positivity), ← Real.rpow_natCast]
    norm_num
  have hiff : ∀ n : ℕ, n ≤ ⌊(1000 : ℝ) / ((w.again + 1 : ℕ) : ℝ) ^ (2.3 : ℝ)⌋₊ ↔
      n ^ 10 * (w.again + 1) ^ 23 ≤ 1000 ^ 10 := by
    intro n
    rw [Nat.le_floor_iff (by positivity), le_div_iff₀ hpos,
      ← pow_le_pow_iff_left₀ (by positivity) (by positivity) (by omega : 10 ≠ 0), mul_pow, hten]
    exact_mod_cast Iff.rfl
  have hle : ⌊(1000 : ℝ) / ((w.again + 1 : ℕ) : ℝ) ^ (2.3 : ℝ)⌋₊ ≤ 1000 := by
    have h := (hiff _).1 le_rfl
    have hone : 1 ≤ (w.again + 1) ^ 23 := Nat.one_le_pow _ _ (by omega)
    exact (pow_le_pow_iff_left₀ (Nat.zero_le _) (by omega) (by omega : 10 ≠ 0)).1
      ((Nat.le_mul_of_pos_right _ hone).trans h)
  unfold FillDraws.prob
  refine le_antisymm ((hiff _).2 ?_) (Nat.le_findGreatest hle ((hiff _).1 le_rfl))
  exact Nat.findGreatest_spec (P := fun n => n ^ 10 * (w.again + 1) ^ 23 ≤ 1000 ^ 10)
    (Nat.zero_le 1000) (by simp)

/-- No probability is above 1000. -/
theorem FillDraws.prob_le (w : FillDraws) : w.prob ≤ 1000 := by
  unfold FillDraws.prob
  exact Nat.findGreatest_le 1000

/-- **A value has between 2 and 5000 bytes.** -/
theorem FillDraws.InRange.exists_valSize (hw : w.InRange) :
    ∃ v, w.valSize = some v ∧ 2 ≤ v ∧ v ≤ 5000 := by
  unfold FillDraws.valSize
  split_ifs with hlow hmid
  · obtain ⟨n, hn⟩ := Option.isSome_iff_exists.1 (hw.low hlow)
    have h := clamp_mem (by omega : (2 : ℤ) ≤ 10) n
    exact ⟨(clamp n 2 10).toNat, by rw [hn]; rfl, by omega, by omega⟩
  · have h := hw.mid
    exact ⟨w.mid, rfl, by omega, by omega⟩
  · obtain ⟨n, hn⟩ := Option.isSome_iff_exists.1 (hw.high (by omega))
    have h := clamp_mem (by omega : (0 : ℤ) ≤ 4500) n
    exact ⟨(clamp n 0 4500 + 500).toNat, by rw [hn]; rfl, by omega, by omega⟩

/-! ### One pass -/

/-- **What a pass does.** -/
theorem fillStep_eq_some_iff : fillStep log10 b w = some b' ↔
    ∃ n v, truncateInt w.key = some n ∧ w.valSize = some v ∧ b.i < 1000000 ∧
      b.sizeUsed + v < 2 ^ 31 ∧ b.totalProb + w.prob < 2 ^ 31 ∧
      b' = ⟨b.i + 1, b.sizeUsed + v, b.totalProb + w.prob,
        b.data ++ [(paddedKey log10 b.i (clamp n 15 70), v, w.prob)]⟩ := by
  simp only [fillStep, bind, Option.bind_eq_some_iff]
  constructor
  · rintro ⟨n, hn, v, hv, h⟩
    split_ifs at h with hi hint
    exact ⟨n, v, hn, hv, by omega, by omega, by omega, (Option.some.inj h).symm⟩
  · rintro ⟨n, v, hn, hv, hi, hsize, hprob, rfl⟩
    have hclamp := clamp_mem (by omega : (15 : ℤ) ≤ 70) n
    refine ⟨n, hn, v, hv, ?_⟩
    rw [if_neg (by omega), if_neg (by omega)]

/-- What holds between two passes: the sums are those of the data, the values are within
their bounds, and without the last tuple the bound is not passed. -/
structure Fill.Sound (bound : ℚ) (b : Fill) : Prop where
  length : b.data.length = b.i
  size : ∀ e ∈ b.data, 2 ≤ e.2.1 ∧ e.2.1 ≤ 5000
  prob : ∀ e ∈ b.data, e.2.2 ≤ 1000
  sizeUsed : b.sizeUsed = (b.data.map fun e => e.2.1).sum
  totalProb : b.totalProb = (b.data.map fun e => e.2.2).sum
  dropLast : ((b.data.dropLast.map fun e => e.2.1).sum : ℕ) ≤ bound

namespace Fill.Sound

/-- The constructor starts with nothing. -/
theorem init (hbound : 0 ≤ bound) : Fill.init.Sound bound where
  length := rfl
  size := by simp [Fill.init]
  prob := by simp [Fill.init]
  sizeUsed := rfl
  totalProb := rfl
  dropLast := by simpa [Fill.init] using hbound

/-- **Every pass takes at least two bytes.** -/
theorem two_mul_le (hb : b.Sound bound) : 2 * b.i ≤ b.sizeUsed := by
  have h := List.card_nsmul_le_sum (b.data.map fun e => e.2.1) 2 (by
    simpa using fun _ _ p hp => (hb.size _ hp).1)
  rw [hb.sizeUsed, ← hb.length]
  simpa [Nat.mul_comm] using h

/-- The probabilities add up to 1000 a tuple at most. -/
theorem totalProb_le (hb : b.Sound bound) : b.totalProb ≤ 1000 * b.i := by
  have h := List.sum_le_card_nsmul (b.data.map fun e => e.2.2) 1000 (by
    simpa using fun _ _ p hp => hb.prob _ hp)
  rw [hb.totalProb, ← hb.length]
  simpa [Nat.mul_comm] using h

/-- The last value exceeds the bound by 5000 bytes at most. -/
theorem sizeUsed_le (hb : b.Sound bound) : (b.sizeUsed : ℚ) ≤ bound + 5000 := by
  have hdrop := hb.dropLast
  have hlast : b.sizeUsed ≤ (b.data.dropLast.map fun e => e.2.1).sum + 5000 := by
    rw [hb.sizeUsed]
    rcases List.eq_nil_or_concat b.data with hnil | ⟨data, e, hdata⟩
    · rw [hnil]
      exact Nat.zero_le _
    · have he := (hb.size e (by simp [hdata])).2
      rw [hdata, List.concat_eq_append, List.dropLast_concat, List.map_append, List.sum_append,
        List.map_singleton, List.sum_singleton]
      omega
  have hcast : (b.sizeUsed : ℚ) ≤ (b.data.dropLast.map fun e => e.2.1).sum + 5000 := by
    exact_mod_cast hlast
  linarith

/-- The counter stays below the domain limit of the logarithm. -/
theorem lt_of_le (hb : b.Sound bound) (hle : b.sizeUsed ≤ bound) (hbound : bound < 2000000) :
    b.i < 1000000 := by
  have htwo : ((2 * b.i : ℕ) : ℚ) ≤ b.sizeUsed := by exact_mod_cast hb.two_mul_le
  have hlt : ((2 * b.i : ℕ) : ℚ) < (2000000 : ℕ) := by
    push_cast at htwo ⊢
    linarith
  have hnat : 2 * b.i < 2000000 := by exact_mod_cast hlt
  omega

/-- **A pass keeps what holds between two.** -/
theorem pass (hb : b.Sound bound) (hw : w.InRange) (h : Pass log10 bound b w b') :
    b'.Sound bound := by
  obtain ⟨hle, hstep⟩ := h
  obtain ⟨n, v, -, hv, -, -, -, rfl⟩ := fillStep_eq_some_iff.1 hstep
  obtain ⟨v', hv', hlo, hhi⟩ := hw.exists_valSize
  obtain rfl := Option.some.inj (hv.symm.trans hv')
  refine ⟨?_, ?_, ?_, ?_, ?_, ?_⟩
  · rw [List.length_append, hb.length, List.length_singleton]
  · intro e he
    rcases List.mem_append.1 he with he | he
    · exact hb.size e he
    · rw [List.mem_singleton.1 he]
      exact ⟨hlo, hhi⟩
  · intro e he
    rcases List.mem_append.1 he with he | he
    · exact hb.prob e he
    · simpa only [List.mem_singleton.1 he] using w.prob_le
  · rw [List.map_append, List.sum_append, hb.sizeUsed, List.map_singleton, List.sum_singleton]
  · rw [List.map_append, List.sum_append, hb.totalProb, List.map_singleton, List.sum_singleton]
  · rw [List.dropLast_concat, ← hb.sizeUsed]
    exact hle

/-- **No pass goes wrong,** while the bound is not passed. -/
theorem exists_fillStep (hb : b.Sound bound) (hw : w.InRange) (hle : b.sizeUsed ≤ bound)
    (hbound : bound < 2000000) : ∃ b', fillStep log10 b w = some b' := by
  obtain ⟨n, hn⟩ := Option.isSome_iff_exists.1 hw.key
  obtain ⟨v, hv, -, hhi⟩ := hw.exists_valSize
  have hi := hb.lt_of_le hle hbound
  have htotal := hb.totalProb_le
  have hprob := w.prob_le
  have hsize : b.sizeUsed < 2000000 := by exact_mod_cast hle.trans_lt hbound
  exact ⟨_, fillStep_eq_some_iff.2 ⟨n, v, hn, hv, hi, by omega, by omega, rfl⟩⟩

/-- What holds before some passes holds after them. -/
theorem run {ws : List FillDraws} (hb : b.Sound bound) (hws : ∀ w ∈ ws, w.InRange)
    (h : Trace.Run (Pass log10 bound) b ws b') : b'.Sound bound := by
  refine h.invariant_along (fun pre w post m t hsplit _ hpass hm => ?_) hb
  exact hm.pass (hws w (by simp [hsplit])) hpass

end Fill.Sound

/-! ### The loop and the constructor -/

/-- A pass counts itself. -/
theorem Pass.counter (h : Pass log10 bound b w b') : b'.i = b.i + 1 ∧ b.i < 1000000 := by
  obtain ⟨_, _, -, -, hi, -, -, rfl⟩ := fillStep_eq_some_iff.1 h.2
  exact ⟨rfl, hi⟩

/-- Each pass counts one tuple. -/
theorem counter_of_run {ws : List FillDraws} (h : Trace.Run (Pass log10 bound) b ws b') :
    b'.i = b.i + ws.length := by
  induction h with
  | nil => rfl
  | snoc _ hpass ih =>
    rw [hpass.counter.1, ih, List.length_append, List.length_singleton]
    omega

/-- The loop makes a million passes at most. -/
theorem counter_le_of_run {ws : List FillDraws}
    (h : Trace.Run (Pass log10 bound) .init ws b) : b.i ≤ 1000000 :=
  h.invariant (P := fun b => b.i ≤ 1000000) (fun _ _ _ hpass _ => by
    obtain ⟨hcount, hlt⟩ := hpass.counter
    omega) (Nat.zero_le _)

/-- The loop goes on from where a pass ends, up to its bound. -/
theorem fillLoop_succ_of_pass (h : Pass log10 bound b (draws b.i) b') :
    fillLoop log10 bound draws (fuel + 1) b = fillLoop log10 bound draws fuel b' := by
  rw [fillLoop, if_pos h.1, h.2, Option.bind_some]

/-- **The loop is a run of passes,** and it has passed the bound when it ends. -/
theorem fillLoop_run (h : fillLoop log10 bound draws fuel b = some b') :
    bound < b'.sizeUsed ∧
      ∃ k, Trace.Run (Pass log10 bound) b ((List.range' b.i k).map draws) b' := by
  induction fuel generalizing b with
  | zero => cases h
  | succ fuel ih =>
    unfold fillLoop at h
    split_ifs at h with htest
    · obtain ⟨m, hm, hrest⟩ := Option.bind_eq_some_iff.1 h
      have hpass : Pass log10 bound b (draws b.i) m := ⟨htest, hm⟩
      obtain ⟨hend, k, hrun⟩ := ih hrest
      refine ⟨hend, k + 1, ?_⟩
      rw [List.range'_succ, List.map_cons, Trace.run_cons_iff]
      exact ⟨m, hpass, by rwa [hpass.counter.1] at hrun⟩
    · obtain rfl := Option.some.inj h
      exact ⟨not_le.1 htest, 0, .nil⟩

/-- **The loop ends,** after at most a million passes. -/
theorem Fill.Sound.exists_fillLoop (hb : b.Sound bound) (hbound : bound < 2000000)
    (hdraws : ∀ k, (draws k).InRange) (hi : b.i ≤ 1000000) (hfuel : 1000000 < b.i + fuel) :
    ∃ b', fillLoop log10 bound draws fuel b = some b' := by
  induction fuel generalizing b with
  | zero => omega
  | succ fuel ih =>
    by_cases htest : b.sizeUsed ≤ bound
    · obtain ⟨m, hm⟩ : ∃ m, fillStep log10 b (draws b.i) = some m :=
        hb.exists_fillStep (hdraws b.i) htest hbound
      have hpass : Pass log10 bound b (draws b.i) m := ⟨htest, hm⟩
      obtain ⟨hcount, hlt⟩ := hpass.counter
      rw [fillLoop_succ_of_pass hpass]
      exact ih (hb.pass (hdraws b.i) hpass) (by omega) (by omega)
    · exact ⟨b, if_neg htest⟩

/-- What a run of passes from the start reaches. -/
theorem sound_of_run (hbound : 0 ≤ bound) (hdraws : ∀ k, (draws k).InRange) {ks : List ℕ}
    (h : Trace.Run (Pass log10 bound) .init (ks.map draws) b) : b.Sound bound :=
  (Fill.Sound.init hbound).run (by simpa using fun k _ => hdraws k) h

/-- Nothing that is added up overflows an `int`. -/
theorem Fill.Sound.lt_int (hb : b.Sound bound) (hbound : bound < 2000000) (hi : b.i ≤ 1000000) :
    b.sizeUsed < 2 ^ 31 ∧ b.totalProb < 2 ^ 31 := by
  have hsize : b.sizeUsed < 2005000 := by
    have h : (b.sizeUsed : ℚ) < 2005000 := by
      have := hb.sizeUsed_le
      linarith
    exact_mod_cast h
  have htotal := hb.totalProb_le
  omega

/-- Nothing drawn is nothing used. -/
theorem Fill.Sound.data_ne_nil (hb : b.Sound bound) (hbound : 0 ≤ bound)
    (hend : bound < b.sizeUsed) : b.data ≠ [] := by
  intro hnil
  have hzero : b.sizeUsed = 0 := by
    rw [hb.sizeUsed, hnil]
    rfl
  rw [hzero, Nat.cast_zero] at hend
  exact absurd hbound (not_le.2 hend)

/-- The constructor shuffles what the loop has drawn. -/
theorem construct_eq {shuffle : List DataType → List DataType} {localityRange : ℕ}
    {localityShift : ℚ} {size : ℤ} {sizeFactor : ℚ}
    (h : fillLoop log10 (sizeFactor * size) draws fuel .init = some b) :
    construct log10 shuffle fuel localityRange localityShift size sizeFactor draws =
      some ⟨shuffle b.data, b.totalProb, localityRange, localityShift, 0⟩ := by
  unfold construct
  rw [h, Option.map_some]

/-- What the loop leaves, for any fuel. -/
theorem sound_of_fillLoop (hbound : 0 ≤ bound) (hdraws : ∀ k, (draws k).InRange)
    (h : fillLoop log10 bound draws fuel .init = some b) :
    b.Sound bound ∧ b.i ≤ 1000000 ∧ bound < b.sizeUsed := by
  obtain ⟨hend, _, hrun⟩ := fillLoop_run h
  exact ⟨sound_of_run hbound hdraws hrun, counter_le_of_run hrun, hend⟩

/-- **The constructor makes a generator that `gen_req` can work with.** -/
theorem construct_valid {shuffle : List DataType → List DataType} {localityRange : ℕ}
    {localityShift : ℚ} {size : ℤ} {sizeFactor : ℚ} {g : Generator}
    (hlo : 0 ≤ sizeFactor * size) (hhi : sizeFactor * size < 2000000)
    (hdraws : ∀ k, (draws k).InRange) (hshuffle : ∀ data, (shuffle data).Perm data)
    (hrange : 1 ≤ localityRange)
    (h : construct log10 shuffle fuel localityRange localityShift size sizeFactor draws = some g) :
    g.Valid ∧ g.currentLocality = 0 := by
  obtain ⟨b, hb, rfl⟩ := Option.map_eq_some_iff.1 h
  obtain ⟨hs, hi, hend⟩ := sound_of_fillLoop hlo hdraws hb
  have hperm := hshuffle b.data
  refine ⟨⟨fun hnil => ?_, ?_, (hs.lt_int hhi hi).2, hrange⟩, rfl⟩
  · exact hs.data_ne_nil hlo hend (List.perm_nil.1 (hnil ▸ hperm.symm))
  · exact (hperm.map _).sum_eq.trans hs.totalProb.symm

/-- **The constructor is well behaved.**  For every bound below 2000000 and all draws within
their distributions, every pass that the loop makes has a positive number under the
logarithm and a filler of at least five, no sum leaves `int`, and the loop ends within a
million passes.  Then there is data, `size_used` is the sum of the value sizes, above the
bound by at most 5000 and not above it without the last tuple, each size lies between 2
and 5000, and `total_prob_` is the sum of the probabilities. -/
theorem construct_wellBehaved {shuffle : List DataType → List DataType} {localityRange : ℕ}
    {localityShift : ℚ} {size : ℤ} {sizeFactor : ℚ} (hlo : 0 ≤ sizeFactor * size)
    (hhi : sizeFactor * size < 2000000) (hdraws : ∀ k, (draws k).InRange)
    (hshuffle : ∀ data, (shuffle data).Perm data) :
    (∀ k b, Trace.Run (Pass log10 (sizeFactor * size)) .init ((List.range k).map draws) b →
      b.i = k ∧ b.sizeUsed < 2 ^ 31 ∧ b.totalProb < 2 ^ 31 ∧
      (b.sizeUsed ≤ sizeFactor * size → k < 1000000 ∧
        (∃ n, truncateInt (draws k).key = some n ∧ 5 ≤ clamp n 15 70 - 10) ∧
        ∃ b', fillStep log10 b (draws k) = some b')) ∧
    ∀ fuel, 1000000 < fuel → ∃ b g,
      fillLoop log10 (sizeFactor * size) draws fuel .init = some b ∧
      construct log10 shuffle fuel localityRange localityShift size sizeFactor draws = some g ∧
      g.data = shuffle b.data ∧ g.data ≠ [] ∧
      b.sizeUsed = (g.data.map fun e => e.2.1).sum ∧
      sizeFactor * size < b.sizeUsed ∧ b.sizeUsed ≤ sizeFactor * size + 5000 ∧
      ((b.data.dropLast.map fun e => e.2.1).sum : ℕ) ≤ sizeFactor * size ∧
      (∀ e ∈ g.data, 2 ≤ e.2.1 ∧ e.2.1 ≤ 5000) ∧
      g.totalProb = (g.data.map fun e => e.2.2).sum := by
  refine ⟨fun k b hrun => ?_, fun fuel hfuel => ?_⟩
  · have hb := sound_of_run hlo hdraws hrun
    have hi : b.i = k := by simpa [Fill.init] using counter_of_run hrun
    obtain ⟨hsize, htotal⟩ := hb.lt_int hhi (counter_le_of_run hrun)
    refine ⟨hi, hsize, htotal, fun hle => ⟨?_, ?_, hb.exists_fillStep (hdraws k) hle hhi⟩⟩
    · exact hi ▸ hb.lt_of_le hle hhi
    · obtain ⟨n, hn⟩ := Option.isSome_iff_exists.1 (hdraws k).key
      have hclamp := clamp_mem (by omega : (15 : ℤ) ≤ 70) n
      exact ⟨n, hn, by omega⟩
  · obtain ⟨b, hb⟩ : ∃ b, fillLoop log10 (sizeFactor * size) draws fuel .init = some b :=
      (Fill.Sound.init hlo).exists_fillLoop hhi hdraws (Nat.zero_le _)
        (by simpa [Fill.init] using hfuel)
    obtain ⟨hs, -, hend⟩ := sound_of_fillLoop hlo hdraws hb
    have hperm := hshuffle b.data
    refine ⟨b, _, hb, construct_eq hb, rfl, fun hnil => ?_, ?_, hend, hs.sizeUsed_le,
      hs.dropLast, fun e he => hs.size e (hperm.mem_iff.1 he), ?_⟩
    · exact hs.data_ne_nil hlo hend (List.perm_nil.1 (hnil ▸ hperm.symm))
    · exact hs.sizeUsed.trans (hperm.map _).sum_eq.symm
    · exact hs.totalProb.trans (hperm.map _).sum_eq.symm

/-- Draws of values of 10, 11 and 12 bytes in turn. -/
def turnDraws (k : ℕ) : FillDraws := ⟨43, 50, 0, 10 + k % 3, 0, k % 3⟩

/-- These draws are within their distributions. -/
theorem inRange_turnDraws (k : ℕ) : (turnDraws k).InRange := by
  constructor
  · rfl
  all_goals
    simp only [turnDraws]
    omega

/-- A pass of `turnDraws`. -/
theorem pass_turnDraws (hi : b.i < 1000000) (hle : b.sizeUsed ≤ bound)
    (hsize : b.sizeUsed < 1000) (hprob : b.totalProb ≤ 1000 * b.i) :
    Pass log10 bound b (turnDraws b.i) ⟨b.i + 1, b.sizeUsed + (10 + b.i % 3),
      b.totalProb + (turnDraws b.i).prob,
      b.data ++ [(paddedKey log10 b.i 43, 10 + b.i % 3, (turnDraws b.i).prob)]⟩ := by
  have hmax := (turnDraws b.i).prob_le
  exact ⟨hle, fillStep_eq_some_iff.2 ⟨43, 10 + b.i % 3, rfl, rfl, hi, by omega, by omega, rfl⟩⟩

/-- Three passes of `turnDraws` take more than 25 bytes. -/
theorem exists_fillLoop_turnDraws : ∃ b,
    fillLoop (Nat.log 10) ((1 : ℚ) * (25 : ℤ)) turnDraws 1000001 .init = some b ∧
      b.data.map (fun e => e.2.1) = [10, 11, 12] := by
  have hzero := (turnDraws 0).prob_le
  have hone := (turnDraws (0 + 1)).prob_le
  refine ⟨⟨3, 33, 0 + (turnDraws 0).prob + (turnDraws 1).prob + (turnDraws 2).prob,
    [(paddedKey (Nat.log 10) 0 43, 10, (turnDraws 0).prob),
      (paddedKey (Nat.log 10) 1 43, 11, (turnDraws 1).prob),
      (paddedKey (Nat.log 10) 2 43, 12, (turnDraws 2).prob)]⟩, ?_, rfl⟩
  rw [fillLoop_succ_of_pass (pass_turnDraws (b := .init) (by decide) (by norm_num [Fill.init])
      (by decide) (by decide)),
    fillLoop_succ_of_pass (pass_turnDraws (by decide) (by norm_num [Fill.init]) (by decide)
      (by simpa [Fill.init] using hzero)),
    fillLoop_succ_of_pass (pass_turnDraws (by decide) (by norm_num [Fill.init]) (by decide)
      (by simp only [Fill.init]; omega))]
  exact if_neg (by norm_num [Fill.init])

/-- A bound of 25 bytes, and draws that take three passes to exceed it. -/
theorem construct_wellBehaved_three : ∃ b g,
    fillLoop (Nat.log 10) ((1 : ℚ) * (25 : ℤ)) turnDraws 1000001 .init = some b ∧
    construct (Nat.log 10) List.reverse 1000001 100 (1 / 5) 25 1 turnDraws = some g ∧
    g.data = b.data.reverse ∧ g.data.map (fun e => e.2.1) = [12, 11, 10] ∧ b.sizeUsed = 33 := by
  obtain ⟨b₀, hb₀, hsizes⟩ := exists_fillLoop_turnDraws
  obtain ⟨b, g, hb, hg, hdata, -, hsum, -⟩ := (@construct_wellBehaved (Nat.log 10)
    turnDraws List.reverse 100 (1 / 5) 25 1 (by norm_num) (by norm_num)
    inRange_turnDraws List.reverse_perm).2 1000001 (by omega)
  obtain rfl := Option.some.inj (hb₀.symm.trans hb)
  have hall : g.data.map (fun e => e.2.1) = [12, 11, 10] := by
    rw [hdata, List.map_reverse, hsizes]
    rfl
  exact ⟨b₀, g, hb, hg, hdata, hall, by rw [hsum, hall]; rfl⟩

end Bench
end CacheBench
