/-
# Registers read the last write

Each label of a log may leave a register `k` alone (`effect l k = none`), clear it
(`some none`) or write a value to it (`some (some v)`).  `Register.read effect log k`
is what the register holds after the log: nothing at the start, then whatever the
last label that did not leave it alone made of it.  `Register.read_eq_some_iff` says
just that: it holds `v` when some label of the log wrote `v` and every later label
left it alone.
-/

import Mathlib.Data.List.Induction

namespace Register

variable {ι K V : Type*} (effect : ι → K → Option (Option V))

/-- The register after one more label. -/
def apply (l : ι) (k : K) (old : Option V) : Option V := (effect l k).getD old

/-- The register after the log. -/
def read (log : List ι) (k : K) : Option V := log.foldl (fun old l => apply effect l k old) none

/-- Nothing has been written at first. -/
@[simp] theorem read_nil (k : K) : read effect [] k = none := rfl

/-- The last entry of a log, on what was read before. -/
theorem read_snoc (log : List ι) (l : ι) (k : K) :
    read effect (log ++ [l]) k = apply effect l k (read effect log k) := by
  simp [read]

/-- Labels that leave the register alone can be dropped from the end. -/
theorem read_append_of_untouched {log post : List ι} {k : K}
    (hpost : ∀ l ∈ post, effect l k = none) :
    read effect (log ++ post) k = read effect log k := by
  induction post using List.reverseRecOn with
  | nil => rw [List.append_nil]
  | append_singleton post l ih =>
    have hl : effect l k = none := hpost l (by simp)
    rw [← List.append_assoc, read_snoc, apply, hl, Option.getD_none]
    exact ih fun l' hl' => hpost l' (List.mem_append_left _ hl')

/-- **The last write wins:** a register holds `v` exactly when some label wrote `v`
and no later label touched it. -/
theorem read_eq_some_iff {log : List ι} {k : K} {v : V} :
    read effect log k = some v ↔
      ∃ pre l post, log = pre ++ l :: post ∧ effect l k = some (some v) ∧
        ∀ l' ∈ post, effect l' k = none := by
  constructor
  · intro h
    induction log using List.reverseRecOn with
    | nil => cases h
    | append_singleton log l ih =>
      rw [read_snoc, apply] at h
      cases hl : effect l k with
      | none =>
        rw [hl, Option.getD_none] at h
        obtain ⟨pre, l', post, rfl, hwrite, hpost⟩ := ih h
        refine ⟨pre, l', post ++ [l], by simp, hwrite, fun l'' hmem => ?_⟩
        rcases List.mem_append.1 hmem with hmem | hmem
        · exact hpost l'' hmem
        · exact (List.mem_singleton.1 hmem) ▸ hl
      | some o =>
        rw [hl, Option.getD_some] at h
        subst h
        exact ⟨log, l, [], rfl, hl, fun l' hl' => absurd hl' List.not_mem_nil⟩
  · rintro ⟨pre, l, post, rfl, hwrite, hpost⟩
    rw [List.append_cons, read_append_of_untouched effect hpost, read_snoc, apply, hwrite]
    rfl

end Register
