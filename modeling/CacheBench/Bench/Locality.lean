/-
# The temporal zone, and where it ends

`current_locality_` counts the calls that selected a tuple, and goes back to 0 when it
reaches `locality_range_/locality_shift_`; below that the start index computed from it is an
index of `data_`, and from there the selection loop ends within a turn
(`Generator.Safe`).  The counter is an `int`, so this holds of every run of `gen_req`
exactly when `locality_range_/locality_shift_` is at most `INT_MAX`: beyond it the counter
overflows before it is reset (`Generator.safe_iff`).
-/

import Mathlib.Tactic.Positivity
import Mathlib.Tactic.GCongr
import Mathlib.Tactic.FieldSimp
import CacheBench.Bench.Select

namespace CacheBench
namespace Bench
namespace Generator

variable {g g' : Generator}

/-- The generator with its counter at `n`. -/
def atLocality (g : Generator) (n : ℤ) : Generator := { g with currentLocality := n }

/-- Another counter changes nothing else. -/
@[simp] theorem atLocality_data (n : ℤ) : (g.atLocality n).data = g.data := rfl
@[simp] theorem atLocality_maxTarget (n : ℤ) : (g.atLocality n).maxTarget = g.maxTarget := rfl
@[simp] theorem atLocality_range (n : ℤ) : (g.atLocality n).localityRange = g.localityRange := rfl
@[simp] theorem atLocality_shift (n : ℤ) : (g.atLocality n).localityShift = g.localityShift := rfl
@[simp] theorem atLocality_currentLocality (n : ℤ) : (g.atLocality n).currentLocality = n := rfl

/-- What `gen_req` relies on before each call, and that it then returns whatever is drawn:
no index is out of range, no sum overflows, and the loop has at most `n - 1` steps. -/
structure Safe (g : Generator) : Prop where
  nonneg : 0 ≤ g.currentLocality
  below : (g.currentLocality : ℚ) < g.localityRange / g.localityShift
  start : ∃ i < g.data.length, g.start = some i ∧ ∀ target ≤ g.maxTarget,
    ∃ j < g.data.length, selectLoop g.data target g.data.length 0 i = some j
  returns : ∀ setOnly w, g.Allows w → ∃ result, g.genReq g.data.length setOnly w = some result

/-- The counter is within the data. -/
structure Within (g : Generator) : Prop where
  valid : g.Valid
  shift : 0 < g.localityShift
  nonneg : 0 ≤ g.currentLocality
  below : (g.currentLocality : ℚ) < g.localityRange / g.localityShift

/-! ### The start index -/

/-- **Within the data the start index is one.** -/
theorem Within.start_lt (h : g.Within) : ∃ i < g.data.length, g.start = some i := by
  have hrange : (0 : ℚ) < g.localityRange := by exact_mod_cast h.valid.range
  have hnonneg : (0 : ℚ) ≤ g.currentLocality := by exact_mod_cast h.nonneg
  have hmul : (g.currentLocality : ℚ) * g.localityShift ≤ g.localityRange :=
    ((lt_div_iff₀ h.shift).1 h.below).le
  have hlast : (0 : ℚ) ≤ ((g.data.length - 1 : ℕ) : ℚ) := Nat.cast_nonneg _
  have hshift := h.shift
  have hx : (0 : ℚ) ≤ g.currentLocality * (g.localityShift * (g.data.length - 1 : ℕ)) /
      g.localityRange := by positivity
  have hle : (g.currentLocality * (g.localityShift * (g.data.length - 1 : ℕ)) / g.localityRange : ℚ)
      ≤ (g.data.length - 1 : ℕ) := by
    rw [div_le_iff₀ hrange, ← mul_assoc, mul_comm ((g.data.length - 1 : ℕ) : ℚ)]
    exact mul_le_mul_of_nonneg_right hmul hlast
  have hlen := h.valid.length_pos
  refine ⟨_, ?_, if_neg (by linarith)⟩
  have hfloor := Nat.floor_le_of_le hle
  omega

/-- The loop from the start index, for every target that can be drawn. -/
theorem Valid.exists_selectLoop (h : g.Valid) {i : ℕ} (hi : i < g.data.length) {target : ℕ}
    (ht : target ≤ g.maxTarget) :
    ∃ j < g.data.length, selectLoop g.data target g.data.length 0 i = some j :=
  Bench.exists_selectLoop hi (h.totalProb ▸ h.int) (ht.trans h.maxTarget_le)

/-! ### The counter -/

/-- The counter moves on where it has room for one more. -/
theorem advance_of_lt (h : g.currentLocality + 1 < 2 ^ 31) :
    ∃ n : ℤ, g.advance = some (g.atLocality n) := by
  unfold advance
  rw [if_neg (by omega)]
  split_ifs
  · exact ⟨0, rfl⟩
  · exact ⟨g.currentLocality + 1, rfl⟩

/-- **The counter stays within the data,** whenever it can be advanced at all. -/
theorem Within.advance (h : g.Within) (hadv : g.advance = some g') : g'.Within := by
  have hpos : (0 : ℚ) < g.localityRange / g.localityShift := by
    have hrange : (0 : ℚ) < g.localityRange := by exact_mod_cast h.valid.range
    exact div_pos hrange h.shift
  have hnonneg := h.nonneg
  unfold Generator.advance at hadv
  split_ifs at hadv with hint hend
  · obtain rfl := Option.some.inj hadv
    exact ⟨⟨h.valid.data, h.valid.totalProb, h.valid.int, h.valid.range⟩, h.shift, le_rfl,
      by simpa using hpos⟩
  · obtain rfl := Option.some.inj hadv
    exact ⟨⟨h.valid.data, h.valid.totalProb, h.valid.int, h.valid.range⟩, h.shift,
      by show 0 ≤ g.currentLocality + 1; omega, not_le.1 hend⟩

/-- Advancing changes the counter and nothing else. -/
theorem exists_of_advance (h : g.advance = some g') :
    ∃ n : ℤ, g' = g.atLocality n := by
  unfold Generator.advance at h
  split_ifs at h
  · exact ⟨0, (Option.some.inj h).symm⟩
  · exact ⟨g.currentLocality + 1, (Option.some.inj h).symm⟩

/-- A selection that returns has advanced the counter. -/
theorem advance_of_selectReq {fuel target : ℕ} {method : String} {req : Request}
    (h : g.selectReq fuel target method = some (req, g')) : g.advance = some g' := by
  simp only [selectReq, bind, pure, Option.bind_eq_some_iff, Option.some.injEq, Prod.mk.injEq] at h
  obtain ⟨_, -, _, -, g'', hadv, _, -, -, rfl⟩ := h
  exact hadv

/-- **A call of `gen_req`** leaves the generator alone or advances its counter. -/
theorem Step.cases {call : Bool × Draws × Request} (h : g.Step call g') :
    g' = g ∨ g.advance = some g' := by
  obtain ⟨-, fuel, h⟩ := h
  unfold genReq at h
  split_ifs at h
  · exact Or.inr (advance_of_selectReq h)
  · exact Or.inr (advance_of_selectReq h)
  · exact Or.inl (Prod.mk.inj (Option.some.inj h)).2.symm
  · exact Or.inr (advance_of_selectReq h)
  · exact Or.inr (advance_of_selectReq h)

/-- Every run stays within the data. -/
theorem Within.run {calls : List (Bool × Draws × Request)} (h : g.Within) (hrun : g.Run calls g') :
    g'.Within := by
  refine Trace.Run.invariant hrun (fun a call b hstep ha => ?_) h
  rcases hstep.cases with rfl | hadv
  · exact ha
  · exact ha.advance hadv

/-- A run changes the counter and nothing else. -/
theorem Run.same {calls : List (Bool × Draws × Request)} (h : g.Run calls g') :
    ∃ n : ℤ, g' = g.atLocality n := by
  refine Trace.Run.invariant (P := fun a => ∃ n : ℤ, a = g.atLocality n) h
    (fun a call b hstep ha => ?_) ⟨g.currentLocality, rfl⟩
  obtain ⟨n, rfl⟩ := ha
  rcases hstep.cases with rfl | hadv
  · exact ⟨n, rfl⟩
  · obtain ⟨m, hm⟩ := exists_of_advance hadv
    exact ⟨m, hm⟩

/-! ### When the counter overflows -/

/-- A selection returns as long as the counter can be advanced. -/
theorem Within.exists_selectReq (h : g.Within) (hint : g.currentLocality + 1 < 2 ^ 31) {target : ℕ}
    (ht : target ≤ g.maxTarget) (method : String) :
    ∃ req n, g.selectReq g.data.length target method =
      some (req, g.atLocality n) := by
  obtain ⟨i, hi, hstart⟩ := h.start_lt
  obtain ⟨j, hj, hloop⟩ := h.valid.exists_selectLoop hi ht
  obtain ⟨n, hadv⟩ := advance_of_lt hint
  refine ⟨⟨g.data[j].1, g.data[j].2.1, method⟩, n, ?_⟩
  simp only [selectReq, hstart, hloop, hadv, List.getElem?_eq_getElem hj, bind, pure,
    Option.bind_some]

/-- A counter that is full overflows in the next selection. -/
theorem selectReq_eq_none (hint : 2 ^ 31 ≤ g.currentLocality + 1) (fuel target : ℕ)
    (method : String) : g.selectReq fuel target method = none := by
  have hadv : g.advance = none := if_pos hint
  cases h : g.selectReq fuel target method with
  | none => rfl
  | some p =>
    obtain ⟨req, g''⟩ := p
    have hsome := advance_of_selectReq h
    rw [hadv] at hsome
    cases hsome

/-- The counter takes every value below the limit. -/
theorem Within.exists_run (h : g.Within) (hzero : g.currentLocality = 0) (k : ℕ) (hint : k < 2 ^ 31)
    (hk : (k : ℚ) < g.localityRange / g.localityShift) :
    ∃ calls, g.Run calls (g.atLocality k) := by
  induction k with
  | zero =>
    have hsame : g.atLocality ((0 : ℕ) : ℤ) = g := by
      rw [Nat.cast_zero, ← hzero, atLocality]
    exact ⟨[], by rw [hsame]; exact .nil⟩
  | succ k ih =>
    have hlt : (k : ℚ) < g.localityRange / g.localityShift :=
      lt_trans (by push_cast; linarith) hk
    obtain ⟨calls, hrun⟩ := ih (by omega) hlt
    have hwithin := h.run hrun
    obtain ⟨req, n, hsel⟩ := hwithin.exists_selectReq (by rw [atLocality_currentLocality]; omega)
      (Nat.zero_le _) "set"
    have hadv := advance_of_selectReq hsel
    have hend : ¬(g.localityRange / g.localityShift : ℚ) ≤ ((k : ℤ) + 1 : ℤ) := by
      rw [not_le]
      exact_mod_cast hk
    unfold Generator.advance at hadv
    rw [atLocality_currentLocality, if_neg (by omega), atLocality_range, atLocality_shift,
      if_neg hend] at hadv
    have hn : (k : ℤ) + 1 = n := congrArg Generator.currentLocality (Option.some.inj hadv)
    have hnext : (g.atLocality k).atLocality n = g.atLocality ((k + 1 : ℕ) : ℤ) := by
      rw [← hn]
      rfl
    rw [hnext] at hsel
    have hcall : (g.atLocality k).Step (true, ⟨0, 0, 0, 0⟩, req)
        (g.atLocality ((k + 1 : ℕ) : ℤ)) :=
      ⟨⟨Nat.zero_le _, Nat.zero_le _, Nat.zero_le _⟩, g.data.length, hsel⟩
    exact ⟨_, .snoc hrun hcall⟩

/-- **Beyond `INT_MAX` the counter overflows:** a run of `2^31 - 1` calls leads to a state
in which the next selection is undefined. -/
theorem Within.exists_overflow (h : g.Within) (hzero : g.currentLocality = 0)
    (hgt : (2 ^ 31 - 1 : ℚ) < g.localityRange / g.localityShift) :
    ∃ calls g', g.Run calls g' ∧ ¬g'.Safe := by
  have hlast : (((2 ^ 31 - 1 : ℕ) : ℚ)) = 2 ^ 31 - 1 := by norm_num
  obtain ⟨calls, hrun⟩ := h.exists_run hzero (2 ^ 31 - 1) (by omega) (by rw [hlast]; exact hgt)
  refine ⟨calls, _, hrun, fun hsafe => ?_⟩
  obtain ⟨result, hres⟩ := hsafe.returns true ⟨0, 0, 0, 0⟩
    ⟨Nat.zero_le _, Nat.zero_le _, Nat.zero_le _⟩
  unfold genReq at hres
  rw [if_pos rfl, selectReq_eq_none (by rw [atLocality_currentLocality]; omega)] at hres
  cases hres

/-- A generator just constructed is within its data. -/
theorem Valid.within (h : g.Valid) (hshift : 0 < g.localityShift) (hzero : g.currentLocality = 0) :
    g.Within := by
  have hrange : (0 : ℚ) < g.localityRange := by exact_mod_cast h.range
  refine ⟨h, hshift, hzero.ge, ?_⟩
  rw [hzero]
  exact_mod_cast div_pos hrange hshift

/-- **Where the counter fits an `int`,** `gen_req` is safe. -/
theorem Within.safe (h : g.Within)
    (hle : (g.localityRange / g.localityShift : ℚ) ≤ 2 ^ 31 - 1) : g.Safe := by
  have hint : g.currentLocality + 1 < 2 ^ 31 := by
    have hlast : ((2 ^ 31 - 1 : ℤ) : ℚ) = 2 ^ 31 - 1 := by norm_num
    have hlt : (g.currentLocality : ℚ) < ((2 ^ 31 - 1 : ℤ) : ℚ) := by
      rw [hlast]
      exact h.below.trans_le hle
    have hlt' : g.currentLocality < 2 ^ 31 - 1 := by exact_mod_cast hlt
    omega
  refine ⟨h.nonneg, h.below, ?_, fun setOnly w hw => ?_⟩
  · obtain ⟨i, hi, hstart⟩ := h.start_lt
    exact ⟨i, hi, hstart, fun target ht => h.valid.exists_selectLoop hi ht⟩
  · have hsel : ∀ method, ∃ result,
        g.selectReq g.data.length w.target method = some result := by
      intro method
      obtain ⟨req, m, hres⟩ := h.exists_selectReq hint hw.target method
      exact ⟨_, hres⟩
    unfold genReq
    split_ifs
    · exact hsel "set"
    · exact hsel "get"
    · exact ⟨_, rfl⟩
    · exact hsel "delete"
    · exact hsel "set"

/-- **`gen_req` is safe exactly while its counter fits an `int`.**  For every generator just
constructed, with `locality_shift_` positive: along every run of calls, whatever they draw,
the counter stays below `locality_range_/locality_shift_`, the start index and every index
of the loop are in range, the loop ends after at most `n - 1` steps and the call returns, if
and only if `locality_range_/locality_shift_` is at most `INT_MAX`. -/
theorem safe_iff (h : g.Valid) (hshift : 0 < g.localityShift) (hzero : g.currentLocality = 0) :
    (∀ calls g', g.Run calls g' → g'.Safe) ↔
      (g.localityRange / g.localityShift : ℚ) ≤ 2 ^ 31 - 1 := by
  have hwithin := h.within hshift hzero
  constructor
  · intro hsafe
    by_contra hgt
    obtain ⟨calls, g', hrun, hnot⟩ := hwithin.exists_overflow hzero (not_le.1 hgt)
    exact hnot (hsafe calls g' hrun)
  · intro hle calls g' hrun
    have hw := hwithin.run hrun
    obtain ⟨n, rfl⟩ := Run.same hrun
    exact hw.safe hle

/-- The benchmark's parameters, on two tuples. -/
theorem safe_iff_benchmark :
    let g : Generator := ⟨[("a", 2, 3), ("b", 10, 0)], 3, 8, 1 / 5, 0⟩
    (∀ calls g', g.Run calls g' → g'.Safe) ↔
      (g.localityRange / g.localityShift : ℚ) ≤ 2 ^ 31 - 1 := by
  intro g
  exact safe_iff ⟨by simp [g], by decide, by decide, by decide⟩ (by norm_num [g]) rfl

/-- **A shift too small for the counter:** with `locality_range_` 8 and `locality_shift_`
`10^-9` a run of calls leads to a state in which `gen_req` is not safe. -/
theorem exists_overflowing_run : ∃ g : Generator, g.Valid ∧ 0 < g.localityShift ∧
    g.currentLocality = 0 ∧ ∃ calls g', g.Run calls g' ∧ ¬g'.Safe := by
  have h : Valid ⟨[("a", 2, 1)], 1, 8, 1 / 10 ^ 9, 0⟩ :=
    ⟨List.cons_ne_nil _ _, by decide, by decide, by decide⟩
  have hshift : (0 : ℚ) < 1 / 10 ^ 9 := by norm_num
  exact ⟨_, h, hshift, rfl, (h.within hshift rfl).exists_overflow rfl (by norm_num)⟩

end Generator
end Bench
end CacheBench
