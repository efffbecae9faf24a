/-
# The temporal zone over a run

`current_locality_` is the number of tuples that `gen_req` has selected so far, modulo
`⌈locality_range_/locality_shift_⌉`; a delete of a key that is never set does not count.  So
a run of `gen_req` is a block of `data_` that moves on by one shift with each selection and
comes back to the front after a period: the selection number `k` starts at the index
`Generator.zone k` and takes the tuple where the running sum of the probabilities from
there reaches its target, and nothing else of the past matters (`Generator.run_iff`).

Which tuples are asked for at all can be read off this: those at which a block starts, and
those of a probability that is not 0 with less than `total_prob_/locality_range_` between
the start of a block and them (`Generator.requested_iff`).
-/

import Mathlib.Tactic.IntervalCases
import CacheBench.Bench.Locality

namespace CacheBench
namespace Bench
namespace Generator

/-- After so many selections `current_locality_` is 0 again. -/
def period (g : Generator) : ℕ := ⌈(g.localityRange / g.localityShift : ℚ)⌉₊

/-- The index at which the selection number `k` starts. -/
def zone (g : Generator) (k : ℕ) : ℕ :=
  ⌊((k % g.period : ℕ) * (g.localityShift * (g.data.length - 1 : ℕ)) / g.localityRange : ℚ)⌋₊

/-- The call selects a tuple. -/
def selecting (call : Bool × Draws × Request) : Bool :=
  call.1 || !(decide (21 ≤ call.2.1.p) && decide (call.2.1.p < 30) && decide (call.2.1.again < 27))

/-- The method that the call asks for. -/
def methodOf (setOnly : Bool) (w : Draws) : String :=
  if setOnly then "set" else if w.p < 21 then "get" else if w.p < 30 then "delete" else "set"

/-- What a call does that comes after `k` selections: it asks for the tuple that its target
picks from the zone number `k` on, or deletes a key that is never set. -/
def Answers (g : Generator) (k : ℕ) (call : Bool × Draws × Request) : Prop :=
  if selecting call then
    ∃ d < g.data.length, InverseCdf.Picks (around g.data (g.zone k)) call.2.1.target d ∧
      ∃ e, g.data[(g.zone k + d) % g.data.length]? = some e ∧
        call.2.2 = ⟨e.1, e.2.1, methodOf call.1 call.2.1⟩
  else call.2.2 = dummyDelete call.2.1.keyLength

/-- The generator after `k` selections. -/
def after (g : Generator) (k : ℕ) : Generator := g.atLocality (k % g.period : ℕ)

/-- The key is got or set by some call of some run. -/
def Requested (g : Generator) (key : KeyType) : Prop :=
  ∃ calls g', g.Run calls g' ∧ ∃ call ∈ calls, call.2.2.method ≠ "delete" ∧ call.2.2.key = key

variable {g g' : Generator} {k : ℕ}

/-! ### One call -/

/-- There is a zone. -/
theorem Within.period_pos (h : g.Within) : 0 < g.period := by
  have hrange : (0 : ℚ) < g.localityRange := by exact_mod_cast h.valid.range
  exact Nat.ceil_pos.2 (div_pos hrange h.shift)

/-- The period is an `int`. -/
theorem period_le (hint : (g.localityRange / g.localityShift : ℚ) ≤ 2 ^ 31 - 1) :
    g.period ≤ 2 ^ 31 - 1 := by
  have hlast : ((2 ^ 31 - 1 : ℕ) : ℚ) = 2 ^ 31 - 1 := by norm_num
  exact Nat.ceil_le.2 (hlast ▸ hint)

/-- Whatever the counter has come to, it is within the data. -/
theorem Within.after (h : g.Within) (k : ℕ) : (g.after k).Within := by
  refine ⟨⟨h.valid.data, h.valid.totalProb, h.valid.int, h.valid.range⟩, h.shift, ?_, ?_⟩
  · exact Int.natCast_nonneg _
  · have hlt := Nat.lt_ceil.1 (Nat.mod_lt k h.period_pos)
    exact_mod_cast hlt

/-- **The start index of the selection number `k`.** -/
theorem Within.start_after (h : g.Within) (k : ℕ) :
    (g.after k).start = some (g.zone k) ∧ g.zone k < g.data.length := by
  obtain ⟨i, hi, hstart⟩ := (h.after k).start_lt
  have hzone : i = g.zone k := by
    simp only [start, truncate] at hstart
    split_ifs at hstart
    rw [← Option.some.inj hstart, zone, Generator.after, atLocality_currentLocality,
      atLocality_shift, atLocality_data, atLocality_range, Int.cast_natCast]
  exact ⟨hzone ▸ hstart, hzone ▸ hi⟩

/-- **The counter counts modulo the period.** -/
theorem Within.advance_after (h : g.Within)
    (hint : (g.localityRange / g.localityShift : ℚ) ≤ 2 ^ 31 - 1) (k : ℕ) :
    (g.after k).advance = some (g.after (k + 1)) := by
  have hlt := Nat.mod_lt k h.period_pos
  have hperiod := period_le hint
  have hnext : (k % g.period + 1) % g.period = (k + 1) % g.period := Nat.mod_add_mod k g.period 1
  have hend : (g.localityRange / g.localityShift : ℚ) ≤ (((k % g.period : ℕ) : ℤ) + 1 : ℤ) ↔
      g.period ≤ k % g.period + 1 := by
    rw [period, Nat.ceil_le]
    push_cast
    rfl
  unfold Generator.advance Generator.after
  rw [atLocality_currentLocality, if_neg (by omega), atLocality_range, atLocality_shift]
  by_cases hle : g.period ≤ k % g.period + 1
  · rw [if_pos (hend.2 hle), ← hnext, show k % g.period + 1 = g.period by omega, Nat.mod_self]
    rfl
  · rw [if_neg (mt hend.1 hle), ← hnext, Nat.mod_eq_of_lt (not_le.1 hle)]
    rfl

/-- The draws that are allowed do not depend on the counter. -/
theorem allows_after {w : Draws} : (g.after k).Allows w ↔ g.Allows w :=
  ⟨fun h => ⟨h.p, h.again, h.target⟩, fun h => ⟨h.p, h.again, h.target⟩⟩

/-- **What the selection number `k` selects.** -/
theorem Within.selectReq_after_iff (h : g.Within)
    (hint : (g.localityRange / g.localityShift : ℚ) ≤ 2 ^ 31 - 1) {target : ℕ}
    (ht : target ≤ g.maxTarget) {method : String} {req : Request} :
    (∃ fuel, (g.after k).selectReq fuel target method = some (req, g')) ↔
      g' = g.after (k + 1) ∧
        ∃ d < g.data.length, InverseCdf.Picks (around g.data (g.zone k)) target d ∧
          ∃ e, g.data[(g.zone k + d) % g.data.length]? = some e ∧ req = ⟨e.1, e.2.1, method⟩ := by
  obtain ⟨hstart, hzone⟩ := h.start_after k
  have hadv := h.advance_after hint k
  have hsum : (g.data.map fun e => e.2.2).sum < 2 ^ 31 := h.valid.totalProb ▸ h.valid.int
  have hmass : target ≤ InverseCdf.mass (around g.data (g.zone k)) g.data.length := by
    rw [mass_around_length]
    exact ht.trans h.valid.maxTarget_le
  obtain ⟨d, hd, hpick⟩ := InverseCdf.exists_picks h.valid.length_pos hmass
  have hloop := selectLoop_start hzone hsum hd hpick
  simp only [selectReq, hstart, hadv, show (g.after k).data = g.data from rfl, hloop, bind, pure,
    Option.bind_some, Option.bind_eq_some_iff, Option.some.injEq, Prod.mk.injEq]
  constructor
  · rintro ⟨fuel, i, hi, e, he, rfl, rfl⟩
    split_ifs at hi
    obtain rfl := Option.some.inj hi
    exact ⟨rfl, d, hd, hpick, e, he, rfl⟩
  · rintro ⟨rfl, d', -, hpick', e, he, rfl⟩
    obtain rfl := hpick.unique hpick'
    exact ⟨d + 1, _, if_pos (Nat.lt_succ_self d), e, he, rfl, rfl⟩

/-- A call selects a tuple or deletes a dummy. -/
theorem genReq_eq (fuel : ℕ) (call : Bool × Draws × Request) :
    g.genReq fuel call.1 call.2.1 =
      if selecting call then g.selectReq fuel call.2.1.target (methodOf call.1 call.2.1)
      else some (dummyDelete call.2.1.keyLength, g) := by
  obtain ⟨setOnly, w, req⟩ := call
  unfold genReq methodOf selecting
  grind

/-- **One call of `gen_req`,** after `k` selections. -/
theorem Within.step_after_iff (h : g.Within)
    (hint : (g.localityRange / g.localityShift : ℚ) ≤ 2 ^ 31 - 1)
    (call : Bool × Draws × Request) :
    (g.after k).Step call g' ↔ g' = g.after (k + if selecting call then 1 else 0) ∧
      g.Allows call.2.1 ∧ g.Answers k call := by
  unfold Step Answers
  rw [allows_after]
  simp only [genReq_eq]
  by_cases hsel : selecting call
  · simp only [hsel, if_true]
    constructor
    · rintro ⟨hw, hreq⟩
      obtain ⟨hg, hans⟩ := (h.selectReq_after_iff hint hw.target).1 hreq
      exact ⟨hg, hw, hans⟩
    · rintro ⟨hg, hw, hans⟩
      exact ⟨hw, (h.selectReq_after_iff hint hw.target).2 ⟨hg, hans⟩⟩
  · simp only [hsel, Bool.false_eq_true, if_false, Nat.add_zero, Option.some.injEq, Prod.mk.injEq,
      exists_const]
    constructor
    · rintro ⟨hw, hreq, hg⟩
      exact ⟨hg.symm, hw, hreq.symm⟩
    · rintro ⟨hg, hw, hreq⟩
      exact ⟨hw, hreq.symm, hg.symm⟩

/-! ### A run -/

/-- Before the first selection nothing has moved. -/
theorem after_zero (hzero : g.currentLocality = 0) : g.after 0 = g := by
  rw [after, Nat.zero_mod, Nat.cast_zero, ← hzero]
  rfl

/-- **The workload is a block that moves around the data.**  For every generator just
constructed, with `locality_shift_` positive and a counter that fits an `int`: the runs of
`gen_req` are the lists of calls in which each call, whose number `k` counts the selections
before it, asks for the tuple where the running sum of the probabilities from the index
`zone k` on reaches the target that was drawn, or deletes a key that is never set, when that
was drawn; and a run leaves the counter at the number of its selections modulo the period.
So every list of draws has its one run. -/
theorem run_iff (h : g.Valid) (hshift : 0 < g.localityShift) (hzero : g.currentLocality = 0)
    (hint : (g.localityRange / g.localityShift : ℚ) ≤ 2 ^ 31 - 1)
    (calls : List (Bool × Draws × Request)) :
    g.Run calls g' ↔
      g' = g.atLocality (calls.countP selecting % g.period : ℕ) ∧
        ∀ pre call post, calls = pre ++ call :: post →
          g.Allows call.2.1 ∧ g.Answers (pre.countP selecting) call := by
  have hstep : ∀ k call t, (g.after k).Step call t ↔
      t = g.after (k + if selecting call then 1 else 0) ∧ g.Allows call.2.1 ∧ g.Answers k call :=
    fun _ call _ => (h.within hshift hzero).step_after_iff hint call
  have hrun : (g.after 0).Run calls g' ↔ _ := Trace.run_counted_iff hstep
  rwa [after_zero hzero] at hrun

/-- Two selections of the generator that `driver_test.cc` makes, on two tuples. -/
theorem run_iff_benchmark :
    let g : Generator := ⟨[("a", 2, 3), ("b", 10, 0)], 3, 8, 1 / 5, 0⟩
    g.Run [(true, ⟨0, 0, 0, 0⟩, ⟨"a", 2, "set"⟩), (false, ⟨22, 3, 20, 0⟩, dummyDelete 20)]
      (g.atLocality 1) := by
  intro g
  have hperiod : g.period = 40 := by norm_num [g, period]
  have hzone : g.zone 0 = 0 := by simp [zone]
  have hvalid : g.Valid := ⟨by simp [g], by decide, by decide, by decide⟩
  refine (run_iff hvalid (by norm_num [g]) rfl (by norm_num [g]) _).2 ⟨?_, ?_⟩
  · rw [hperiod]
    rfl
  · intro pre call post heq
    rcases pre with _ | ⟨first, _ | ⟨second, pre⟩⟩
    · obtain ⟨rfl, -⟩ := List.cons.inj heq
      refine ⟨⟨by decide, by decide, Nat.zero_le _⟩, 0, by decide, ?_, ⟨"a", 2, 3⟩, ?_, rfl⟩
      · exact InverseCdf.picks_zero_iff.2 (Nat.zero_le _)
      · show g.data[(g.zone 0 + 0) % 2]? = _
        rw [hzone]
        rfl
    · obtain ⟨rfl, -⟩ := List.cons.inj (List.cons.inj heq).2
      exact ⟨⟨by decide, by decide, Nat.zero_le _⟩, rfl⟩
    · exact absurd (congrArg List.length heq) (by simp)

/-! ### What is asked for at all -/

/-- The zones repeat with the period. -/
theorem zone_mod (g : Generator) (k : ℕ) : g.zone (k % g.period) = g.zone k := by
  rw [zone, zone, Nat.mod_mod]

/-- Within a period the counter counts the selections. -/
theorem after_of_lt (hk : k < g.period) : g.after k = g.atLocality k := by
  rw [after, Nat.mod_eq_of_lt hk]

/-- The key at an index of the data is not at another. -/
theorem index_unique {data : List DataType} (hkeys : (data.map Prod.fst).Nodup) {i j : ℕ}
    (hi : i < data.length) {e : DataType} (he : data[j]? = some e) (hkey : e.1 = data[i].1) :
    j = i := by
  obtain ⟨hj, hej⟩ := List.getElem?_eq_some_iff.1 he
  have heq : e = data[i] :=
    List.inj_on_of_nodup_map hkeys (List.mem_of_getElem? he) (List.getElem_mem hi) hkey
  exact hkeys.of_map.getElem_inj_iff.1 (hej.trans heq)

/-- **Which keys of the workload are ever got or set.**  For every generator just
constructed, with distinct keys, `locality_shift_` positive and a counter that fits an
`int`: some call of some run gets or sets the key of the tuple number `i` if and only if
one of the blocks starts there, or the tuple has a probability that is not 0 and the
probabilities from the start of one of the blocks up to it are less than
`total_prob_/locality_range_` together. -/
theorem requested_iff (h : g.Valid) (hshift : 0 < g.localityShift) (hzero : g.currentLocality = 0)
    (hint : (g.localityRange / g.localityShift : ℚ) ≤ 2 ^ 31 - 1)
    (hkeys : (g.data.map Prod.fst).Nodup) {i : ℕ} (hi : i < g.data.length) :
    g.Requested g.data[i].1 ↔
      ∃ k < g.period, ∃ d < g.data.length, (g.zone k + d) % g.data.length = i ∧
        (d = 0 ∨ 0 < probAt g.data i ∧
          ∑ j ∈ Finset.range d, probAt g.data ((g.zone k + j) % g.data.length) < g.maxTarget) := by
  have hwithin := h.within hshift hzero
  constructor
  · rintro ⟨calls, g', hrun, call, hmem, hmethod, hkey⟩
    obtain ⟨pre, post, heq⟩ := List.append_of_mem hmem
    obtain ⟨hw, hans⟩ := ((run_iff h hshift hzero hint calls).1 hrun).2 pre call post heq
    unfold Answers at hans
    split_ifs at hans
    · obtain ⟨d, hd, hpick, e, he, hreq⟩ := hans
      obtain rfl := index_unique hkeys hi he (by rw [← hkey, hreq])
      refine ⟨pre.countP selecting % g.period, Nat.mod_lt _ hwithin.period_pos, d, hd, ?_, ?_⟩
      · rw [zone_mod]
      · rw [zone_mod]
        exact InverseCdf.exists_picks_le_iff.1 ⟨call.2.1.target, hw.target, hpick⟩
    · exact absurd (by rw [hans]; rfl) hmethod
  · rintro ⟨k, hk, d, hd, rfl, hreach⟩
    obtain ⟨target, ht, hpick⟩ :=
      (InverseCdf.exists_picks_le_iff (f := around g.data (g.zone k))).2 hreach
    have hperiod := period_le hint
    obtain ⟨calls, hrun⟩ := hwithin.exists_run hzero k (by omega) (Nat.lt_ceil.1 hk)
    rw [← after_of_lt hk] at hrun
    have hstep := (hwithin.step_after_iff (k := k) hint (true, ⟨0, 0, 0, target⟩,
      ⟨g.data[(g.zone k + d) % g.data.length].1, g.data[(g.zone k + d) % g.data.length].2.1,
        "set"⟩)).2 ⟨rfl, ⟨Nat.zero_le _, Nat.zero_le _, ht⟩, d, hd, hpick, _,
          List.getElem?_eq_getElem hi, rfl⟩
    exact ⟨_, _, hrun.snoc hstep, _, List.mem_append_right _ (List.mem_singleton_self _),
      show "set" ≠ "delete" by decide, rfl⟩

/-- A tuple behind one that outweighs a block is never asked for, whatever is drawn. -/
theorem requested_iff_four :
    let g : Generator := ⟨[("a", 1, 1), ("b", 1, 8), ("c", 1, 1), ("d", 1, 1)], 11, 2, 1, 0⟩
    ¬g.Requested "c" := by
  intro g
  have hperiod : g.period = 2 := by norm_num [g, period]
  have hzone : ∀ k < 2, g.zone k = k := by
    intro k hk
    have hfloor : ⌊(3 / 2 : ℚ)⌋₊ = 1 := (Nat.floor_eq_iff (by norm_num)).2 (by norm_num)
    interval_cases k
    · simp [zone]
    · norm_num [zone, hperiod, g, hfloor]
  have hvalid : g.Valid := ⟨by simp [g], by decide, by decide, by decide⟩
  have hiff := requested_iff hvalid (by norm_num [g]) rfl (by norm_num [g])
    (by decide) (i := 2) (by decide)
  rw [show "c" = g.data[2].1 from rfl, hiff]
  rintro ⟨k, hk, d, hd, hi, hreach⟩
  rw [hperiod] at hk
  rw [hzone k hk] at hi hreach
  revert hreach hi
  have hd' : d < 4 := hd
  interval_cases k <;> interval_cases d <;> decide

end Generator
end Bench
end CacheBench
