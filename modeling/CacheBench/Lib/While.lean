/-
# `while` loops with a fuel argument

`While.run test body fuel s` runs `while (test) body` from the state `s` for at
most `fuel` passes and is `none` when the test still holds after them.  What a
loop does is then a statement about the iterates `body^[n] s`: it leaves the
loop after exactly `n` passes when the test holds on the first `n` iterates and
fails on the next (`While.Exits`), and `run` returns that iterate as soon as the
fuel suffices (`While.run_eq_some_iff`).  The number of passes is unique
(`While.Exits.unique`), so the result does not depend on the fuel.

The rules that the proofs use: an invariant of the body holds on exit
(`While.Exits.invariant`), and a loop some iterate of which fails the test
terminates (`While.exists_exits`).
-/

import Mathlib.Logic.Function.Iterate
import Mathlib.Order.Nat

namespace While

variable {σ τ : Type*}

/-- `while (test) body` from `s`, stopped with `none` after `fuel` passes. -/
def run (test : σ → Bool) (body : σ → σ) : ℕ → σ → Option σ
  | 0, s => if test s then none else some s
  | fuel + 1, s => if test s then run test body fuel (body s) else some s

/-- The loop leaves after exactly `n` passes: the test holds before each of
them and fails after the last. -/
structure Exits (test : σ → Bool) (body : σ → σ) (s : σ) (n : ℕ) : Prop where
  go : ∀ m < n, test (body^[m] s) = true
  stop : test (body^[n] s) = false

variable {test : σ → Bool} {body : σ → σ} {s : σ} {n : ℕ}

/-- A loop whose test fails does not begin. -/
theorem Exits.zero (h : test s = false) : Exits test body s 0 :=
  ⟨fun m hm => absurd hm (Nat.not_lt_zero m), h⟩

/-- A loop whose test succeeds goes on from its body. -/
theorem exits_succ_iff :
    Exits test body s (n + 1) ↔ test s = true ∧ Exits test body (body s) n := by
  constructor
  · intro h
    refine ⟨h.go 0 (Nat.succ_pos n), fun m hm => ?_, h.stop⟩
    exact h.go (m + 1) (Nat.succ_lt_succ hm)
  · rintro ⟨ht, h⟩
    refine ⟨fun m hm => ?_, h.stop⟩
    cases m with
    | zero => exact ht
    | succ m => exact h.go m (Nat.lt_of_succ_lt_succ hm)

/-- **The number of passes is unique.** -/
theorem Exits.unique {m : ℕ} (h : Exits test body s n) (h' : Exits test body s m) : n = m := by
  rcases lt_trichotomy n m with hlt | heq | hlt
  · have := h'.go n hlt
    rw [h.stop] at this
    cases this
  · exact heq
  · have := h.go m hlt
    rw [h'.stop] at this
    cases this

/-- **What `run` returns:** the iterate at which the loop leaves, once the fuel
covers its passes. -/
theorem run_eq_some_iff {fuel : ℕ} {t : σ} :
    run test body fuel s = some t ↔ ∃ n ≤ fuel, Exits test body s n ∧ t = body^[n] s := by
  induction fuel generalizing s with
  | zero =>
    rw [run]
    constructor
    · intro h
      split at h
      · cases h
      · rename_i hs
        exact ⟨0, le_rfl, .zero (by simpa using hs), (Option.some.inj h).symm⟩
    · rintro ⟨n, hn, h, rfl⟩
      obtain rfl := Nat.le_zero.1 hn
      have hs : test s = false := h.stop
      simp [hs]
  | succ fuel ih =>
    rw [run]
    constructor
    · intro h
      split at h
      · rename_i hs
        obtain ⟨n, hn, hex, rfl⟩ := ih.1 h
        exact ⟨n + 1, Nat.succ_le_succ hn, exits_succ_iff.2 ⟨hs, hex⟩, rfl⟩
      · rename_i hs
        exact ⟨0, Nat.zero_le _, .zero (by simpa using hs), (Option.some.inj h).symm⟩
    · rintro ⟨n, hn, h, rfl⟩
      cases n with
      | zero =>
        have hs : test s = false := h.stop
        simp [hs]
      | succ n =>
        obtain ⟨hs, hex⟩ := exits_succ_iff.1 h
        rw [if_pos hs]
        exact ih.2 ⟨n, Nat.le_of_succ_le_succ hn, hex, rfl⟩

/-- A loop that leaves is run to its end by fuel equal to its passes. -/
theorem Exits.run_eq (h : Exits test body s n) : run test body n s = some (body^[n] s) :=
  run_eq_some_iff.2 ⟨n, le_rfl, h, rfl⟩

/-- **A loop terminates when some iterate fails the test:** it leaves at the
first one that does. -/
theorem exists_exits (h : ∃ n, test (body^[n] s) = false) : ∃ n, Exits test body s n := by
  classical
  refine ⟨Nat.find h, fun m hm => ?_, Nat.find_spec h⟩
  simpa using Nat.find_min h hm

/-- What the body keeps holds after each pass that is made. -/
theorem Exits.invariant_le {P : σ → Prop} (h : Exits test body s n)
    (hbody : ∀ s, test s = true → P s → P (body s)) (hs : P s) :
    ∀ m ≤ n, P (body^[m] s) := by
  intro m hm
  induction m with
  | zero => exact hs
  | succ m ih =>
    rw [Function.iterate_succ_apply']
    exact hbody _ (h.go m hm) (ih (Nat.le_of_succ_le hm))

/-- **The invariant rule:** what the body preserves while the test holds is true
on exit. -/
theorem Exits.invariant {P : σ → Prop} (h : Exits test body s n)
    (hbody : ∀ s, test s = true → P s → P (body s)) (hs : P s) : P (body^[n] s) :=
  h.invariant_le hbody hs n le_rfl

/-- **The rule for two loops:** states that are tested alike, and still are after a pass,
lead to such states, or to none, with the same fuel. -/
theorem run_rel {R : σ → τ → Prop} {test' : τ → Bool} {body' : τ → τ} {t : τ}
    (htest : ∀ s t, R s t → test s = test' t) (hbody : ∀ s t, R s t → R (body s) (body' t))
    (h : R s t) (fuel : ℕ) : Option.Rel R (run test body fuel s) (run test' body' fuel t) := by
  induction fuel generalizing s t with
  | zero =>
    rw [run, run, htest s t h]
    split_ifs
    · exact .none
    · exact .some h
  | succ fuel ih =>
    rw [run, run, htest s t h]
    split_ifs
    · exact ih (hbody s t h)
    · exact .some h

end While
