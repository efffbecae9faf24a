/-
# The workload generator

`class Generator` of `gen.hh` and `gen.cc`, and the `Request` of `request.hh` that it
returns.  What the constructor draws is a parameter, the contents of `data_`; what
`gen_req` draws comes as a `Draws`.  The constructor itself is in `CacheBench.Bench.Fill`.

Probabilities and sizes are natural numbers, `locality_shift_` and what is computed from it
are rational.  What C++ leaves undefined is `none`: an index outside `data_`, an `int` that
passes `INT_MAX`, and a `double` below the range of an unsigned index.  The selection loop
takes fuel, one unit a test of its condition.
-/

import Mathlib.Algebra.BigOperators.Fin
import Mathlib.Algebra.Order.Floor.Semiring
import Mathlib.Data.Rat.Floor
import CacheBench.Lib.InverseCdf
import CacheBench.Lib.Trace
import CacheBench.Store.Evictor

namespace CacheBench
namespace Bench

/-- `Generator::data_type`: key, value size and probability. -/
abbrev DataType := KeyType × ℕ × ℕ

/-- `struct Request`. -/
structure Request where
  key : KeyType
  valSize : ℕ
  method : String
deriving DecidableEq, Repr

/-- `class Generator`. -/
structure Generator where
  data : List DataType
  totalProb : ℕ
  localityRange : ℕ
  localityShift : ℚ
  currentLocality : ℤ

/-- What one call of `gen_req` draws: `p` and the second `method_dist(rng)`, both from 0 to
30, `(int)key_dist(rng)`, and `kv_dist(rng)`. -/
structure Draws where
  p : ℕ
  again : ℕ
  keyLength : ℤ
  target : ℕ

/-- `std::clamp`. -/
def clamp (x lo hi : ℤ) : ℤ := if x < lo then lo else if hi < x then hi else x

/-- A `double` converted to `long unsigned int`. -/
def truncate (x : ℚ) : Option ℕ := if x ≤ -1 then none else some ⌊x⌋₊

/-- A `double` converted to `int`. -/
def truncateInt (x : ℚ) : Option ℤ :=
  let n := if 0 ≤ x then ⌊x⌋ else ⌈x⌉
  if n < -2 ^ 31 ∨ 2 ^ 31 ≤ n then none else some n

/-- `while(current + std::get<2>(data_[i]) < target)`, from `current` and `i`; the value is
the `i` at which the loop ends. -/
def selectLoop (data : List DataType) (target : ℕ) : ℕ → ℕ → ℕ → Option ℕ
  | 0, _, _ => none
  | fuel + 1, current, i =>
    (data[i]?).bind fun (_, _, prob) =>
      if 2 ^ 31 ≤ current + prob then none
      else if current + prob < target then
        selectLoop data target fuel (current + prob) (if data.length ≤ i + 1 then 0 else i + 1)
      else some i

namespace Generator

/-- `current_locality_*(locality_shift_*(data_.size()-1))/locality_range_`, as an index. -/
def start (g : Generator) : Option ℕ :=
  truncate (g.currentLocality * (g.localityShift * (g.data.length - 1 : ℕ)) / g.localityRange)

/-- `current_locality_ += 1`, and back to 0 at the end of the data. -/
def advance (g : Generator) : Option Generator :=
  if 2 ^ 31 ≤ g.currentLocality + 1 then none
  else if (g.localityRange / g.localityShift : ℚ) ≤ (g.currentLocality + 1 : ℤ) then
    some { g with currentLocality := 0 }
  else some { g with currentLocality := g.currentLocality + 1 }

/-- The part of `gen_req` that selects a tuple for `method`. -/
def selectReq (fuel : ℕ) (g : Generator) (target : ℕ) (method : String) :
    Option (Request × Generator) := do
  let i ← g.start
  let i ← selectLoop g.data target fuel 0 i
  let g' ← g.advance
  let (key, valSize, _) ← g.data[i]?
  return (⟨key, valSize, method⟩, g')

/-- The delete of a key that is never set. -/
def dummyDelete (keyLength : ℤ) : Request :=
  ⟨String.ofList (List.replicate (clamp keyLength 15 70).toNat 'f'), 1, "delete"⟩

/-- `Generator::gen_req`. -/
def genReq (fuel : ℕ) (g : Generator) (setOnly : Bool) (w : Draws) : Option (Request × Generator) :=
  if setOnly then g.selectReq fuel w.target "set"
  else if w.p < 21 then g.selectReq fuel w.target "get"
  else if w.p < 30 then
    if w.again < 27 then some (dummyDelete w.keyLength, g)
    else g.selectReq fuel w.target "delete"
  else g.selectReq fuel w.target "set"

/-- The upper bound of `kv_dist`. -/
def maxTarget (g : Generator) : ℕ := g.totalProb / g.localityRange

/-- The draws are within their distributions. -/
structure Allows (g : Generator) (w : Draws) : Prop where
  p : w.p ≤ 30
  again : w.again ≤ 30
  target : w.target ≤ g.maxTarget

/-- Only the range of the target depends on the generator. -/
theorem Allows.congr {g g' : Generator} {w : Draws} (h : g.Allows w)
    (hmax : g'.maxTarget = g.maxTarget) : g'.Allows w :=
  ⟨h.p, h.again, hmax ▸ h.target⟩

/-- There is data, `total_prob_` is the sum of its probabilities, an `int`, and
`locality_range_` can divide it. -/
structure Valid (g : Generator) : Prop where
  data : g.data ≠ []
  totalProb : (g.data.map fun e => e.2.2).sum = g.totalProb
  int : g.totalProb < 2 ^ 31
  range : 1 ≤ g.localityRange

/-- One call of `gen_req` that returns: whether it was asked for a set only, what it drew
and the request it made. -/
def Step (g : Generator) (call : Bool × Draws × Request) (g' : Generator) : Prop :=
  g.Allows call.2.1 ∧ ∃ fuel, g.genReq fuel call.1 call.2.1 = some (call.2.2, g')

/-- A finite run of calls of `gen_req`. -/
abbrev Run : Generator → List (Bool × Draws × Request) → Generator → Prop := Trace.Run Step

end Generator

/-! ### The selection loop is a selection by a running sum -/

/-- The probability of `data_[i]`. -/
def probAt (data : List DataType) (i : ℕ) : ℕ := ((data[i]?).map fun e => e.2.2).getD 0

/-- The probabilities met on the way around from `s`. -/
def around (data : List DataType) (s k : ℕ) : ℕ := probAt data ((s + k) % data.length)

variable {data : List DataType} {s : ℕ}

/-- The probability of a tuple is the third of its parts. -/
theorem probAt_eq {i : ℕ} (hi : i < data.length) : probAt data i = data[i].2.2 := by
  simp [probAt, hi]

/-- Around the data the probabilities repeat. -/
theorem periodic_probAt_mod (data : List DataType) :
    Function.Periodic (fun k => probAt data (k % data.length)) data.length :=
  fun k => by simp only [Nat.add_mod_right]

/-- **A full turn adds up all probabilities.** -/
theorem mass_around_length (data : List DataType) (s : ℕ) :
    InverseCdf.mass (around data s) data.length = (data.map fun e => e.2.2).sum := by
  have hturn := InverseCdf.mass_turn (periodic_probAt_mod data) s
  have hsum : InverseCdf.mass (fun k => probAt data (k % data.length)) data.length =
      (data.map fun e => e.2.2).sum := by
    unfold InverseCdf.mass
    rw [← Fin.sum_univ_eq_sum_range (fun k => probAt data (k % data.length)),
      ← List.sum_ofFn]
    congr 1
    refine List.ext_getElem (by simp) fun i hi hi' => ?_
    have hlt : i < data.length := by simpa using hi
    rw [List.getElem_ofFn, List.getElem_map, Nat.mod_eq_of_lt hlt, probAt_eq hlt]
  exact hturn.trans hsum

/-- One step on around the circle. -/
theorem wrap_eq (hdata : data ≠ []) (d : ℕ) :
    (if data.length ≤ (s + d) % data.length + 1 then 0 else (s + d) % data.length + 1) =
      (s + (d + 1)) % data.length := by
  have hpos : 0 < data.length := List.length_pos_iff.2 hdata
  have hlt : (s + d) % data.length < data.length := Nat.mod_lt _ hpos
  have hstep : (s + (d + 1)) % data.length = ((s + d) % data.length + 1) % data.length := by
    rw [Nat.mod_add_mod, Nat.add_assoc]
  rw [hstep]
  split_ifs with h
  · rw [show (s + d) % data.length + 1 = data.length by omega, Nat.mod_self]
  · exact (Nat.mod_eq_of_lt (by omega)).symm

/-- **What the loop does,** seen from `d` steps on: it ends where the running sum reaches
the target, once it has a test for every step up to there. -/
theorem selectLoop_eq {target e : ℕ} (hdata : data ≠ [])
    (hint : (data.map fun e => e.2.2).sum < 2 ^ 31) (he : e < data.length)
    (hpick : InverseCdf.Picks (around data s) target e) (fuel : ℕ) {d : ℕ} (hd : d ≤ e) :
    selectLoop data target fuel (InverseCdf.mass (around data s) d) ((s + d) % data.length) =
      if e < d + fuel then some ((s + e) % data.length) else none := by
  induction fuel generalizing d with
  | zero => rw [selectLoop, if_neg (by omega)]
  | succ fuel ih =>
    have hlt : (s + d) % data.length < data.length := Nat.mod_lt _ (List.length_pos_iff.2 hdata)
    have hmass := InverseCdf.mass_succ (around data s) d
    have hprob : data[(s + d) % data.length].2.2 = around data s d := (probAt_eq hlt).symm
    have hle : InverseCdf.mass (around data s) (d + 1) < 2 ^ 31 := by
      rw [← mass_around_length data s] at hint
      exact (InverseCdf.mass_mono _ (by omega)).trans_lt hint
    rw [selectLoop, List.getElem?_eq_getElem hlt, Option.bind_some]
    simp only [hprob, ← hmass]
    rw [if_neg (by omega)]
    rcases Nat.eq_or_lt_of_le hd with rfl | hlt'
    · rw [if_neg (by have := hpick.1; omega), if_pos (by omega)]
    · rw [if_pos (hpick.2 d hlt'), wrap_eq hdata, ih hlt']
      congr 1
      rw [eq_iff_iff]
      omega

/-- The loop from a start index, whatever the fuel. -/
theorem selectLoop_start {target e : ℕ} (hs : s < data.length)
    (hint : (data.map fun e => e.2.2).sum < 2 ^ 31) (he : e < data.length)
    (hpick : InverseCdf.Picks (around data s) target e) (fuel : ℕ) :
    selectLoop data target fuel 0 s = if e < fuel then some ((s + e) % data.length) else none := by
  have hdata : data ≠ [] := List.length_pos_iff.1 (by omega)
  have h := selectLoop_eq hdata hint he hpick fuel (Nat.zero_le e)
  rwa [InverseCdf.mass_zero, Nat.add_zero, Nat.mod_eq_of_lt hs, Nat.zero_add] at h

/-- **The loop ends within a turn:** from any start, for a target that all probabilities
together reach, `n` tests are enough, so there are at most `n - 1` steps. -/
theorem exists_selectLoop {target : ℕ} (hs : s < data.length)
    (hint : (data.map fun e => e.2.2).sum < 2 ^ 31)
    (htarget : target ≤ (data.map fun e => e.2.2).sum) :
    ∃ i < data.length, selectLoop data target data.length 0 s = some i := by
  have hpos : 0 < data.length := by omega
  rw [← mass_around_length data s] at htarget
  obtain ⟨e, he, hpick⟩ := InverseCdf.exists_picks hpos htarget
  refine ⟨(s + e) % data.length, Nat.mod_lt _ hpos, ?_⟩
  rw [selectLoop_start hs hint he hpick, if_pos he]

end Bench
end CacheBench
