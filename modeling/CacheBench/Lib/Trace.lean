/-
# Runs of a labelled transition system

A system is a relation `step s l t`: from the state `s` a step labelled `l` may
lead to `t`.  `Trace.Run step s ls t` says that the labels `ls`, in order, lead
from `s` to `t`.  Runs grow at the end, so that the induction over a run hands
its proof the run so far and the next step.  The rules: runs compose and split
(`Trace.run_append_iff`), an invariant of the step is an invariant of the run
(`Trace.Run.invariant`, `Trace.Run.invariant_along`), a relation kept by matching
steps is kept by matching runs (`Trace.Run.simulate`), and where the state is a count
of steps, each label is judged by its own number (`Trace.run_counted_iff`).  Two states
are apart when a run of the one is not a run of the other (`Trace.Apart`).
-/

import Mathlib.Data.List.Induction

namespace Trace

variable {σ τ ι : Type*}

/-- The labels `ls` lead from `s` to the last state. -/
inductive Run (step : σ → ι → σ → Prop) (s : σ) : List ι → σ → Prop
  | nil : Run step s [] s
  | snoc {ls : List ι} {l : ι} {m t : σ} :
      Run step s ls m → step m l t → Run step s (ls ++ [l]) t

variable {step : σ → ι → σ → Prop} {s t : σ} {l : ι} {ls ls' : List ι}

/-- A run of no step. -/
theorem run_nil_iff : Run step s [] t ↔ t = s := by
  constructor
  · intro h
    generalize hls : ([] : List ι) = ls at h
    cases h with
    | nil => rfl
    | snoc h hstep => simp at hls
  · rintro rfl
    exact .nil

/-- A run with a last step. -/
theorem run_snoc_iff : Run step s (ls ++ [l]) t ↔ ∃ m, Run step s ls m ∧ step m l t := by
  constructor
  · intro h
    generalize hls : ls ++ [l] = ls' at h
    cases h with
    | nil => simp at hls
    | snoc h hstep =>
      obtain ⟨rfl, hl⟩ := List.append_inj' hls rfl
      obtain rfl := List.singleton_inj.1 hl
      exact ⟨_, h, hstep⟩
  · rintro ⟨m, h, hstep⟩
    exact .snoc h hstep

/-- **Runs compose and split.** -/
theorem run_append_iff : Run step s (ls ++ ls') t ↔ ∃ m, Run step s ls m ∧ Run step m ls' t := by
  induction ls' using List.reverseRecOn generalizing t with
  | nil => simp [run_nil_iff]
  | append_singleton ls' l ih =>
    rw [← List.append_assoc, run_snoc_iff]
    constructor
    · rintro ⟨m, h, hstep⟩
      obtain ⟨m', h₁, h₂⟩ := ih.1 h
      exact ⟨m', h₁, .snoc h₂ hstep⟩
    · rintro ⟨m', h₁, h₂⟩
      obtain ⟨m, h₂, hstep⟩ := run_snoc_iff.1 h₂
      exact ⟨m, ih.2 ⟨m', h₁, h₂⟩, hstep⟩

/-- A run of a single step. -/
theorem run_singleton_iff : Run step s [l] t ↔ step s l t := by
  rw [← List.nil_append [l], run_snoc_iff]
  simp [run_nil_iff]

/-- A run with a first step. -/
theorem run_cons_iff : Run step s (l :: ls) t ↔ ∃ m, step s l m ∧ Run step m ls t := by
  rw [← List.singleton_append, run_append_iff]
  simp [run_singleton_iff]

/-- **A system whose state counts some of its steps:** where each step from the state number `k`
leads to the next one or to the same, as `p` says of its label, a run is a list of labels each
of which the state of its turn allows. -/
theorem run_counted_iff {f : ℕ → σ} {p : ι → Bool} {A : ℕ → ι → Prop}
    (hstep : ∀ k l t, step (f k) l t ↔ t = f (k + if p l then 1 else 0) ∧ A k l) :
    Run step (f 0) ls t ↔
      t = f (ls.countP p) ∧ ∀ pre l post, ls = pre ++ l :: post → A (pre.countP p) l := by
  induction ls using List.reverseRecOn generalizing t with
  | nil => simp [run_nil_iff]
  | append_singleton ls l ih =>
    have hcount : (ls ++ [l]).countP p = ls.countP p + if p l then 1 else 0 := by
      rw [List.countP_append, List.countP_singleton]
    rw [run_snoc_iff, hcount]
    constructor
    · rintro ⟨m, hrun, hm⟩
      obtain ⟨rfl, hpre⟩ := ih.1 hrun
      obtain ⟨rfl, hl⟩ := (hstep _ _ _).1 hm
      refine ⟨rfl, fun pre l' post heq => ?_⟩
      rcases List.eq_nil_or_concat post with rfl | ⟨post, l'', rfl⟩
      · obtain ⟨rfl, hlast⟩ := List.append_inj' heq rfl
        obtain rfl := List.singleton_inj.1 hlast
        exact hl
      · rw [List.concat_eq_append, ← List.cons_append, ← List.append_assoc] at heq
        exact hpre pre l' post (List.append_inj' heq rfl).1
    · rintro ⟨rfl, hall⟩
      refine ⟨_, ih.2 ⟨rfl, fun pre l' post heq => ?_⟩, (hstep _ _ _).2 ⟨rfl, hall ls l [] rfl⟩⟩
      exact hall pre l' (post ++ [l]) (by simp [heq])

/-- When the steps are deterministic, so are the runs. -/
theorem Run.unique {t' : σ} (h : Run step s ls t) (h' : Run step s ls t')
    (hdet : ∀ s l t t', step s l t → step s l t' → t = t') : t = t' := by
  induction h generalizing t' with
  | nil => exact (run_nil_iff.1 h').symm
  | snoc _ hm ih =>
    obtain ⟨m, hrun, hm'⟩ := run_snoc_iff.1 h'
    obtain rfl := ih hrun
    exact hdet _ _ _ _ hm hm'

/-- **The invariant rule:** what every step keeps, every run keeps. -/
theorem Run.invariant {P : σ → Prop} (h : Run step s ls t)
    (hstep : ∀ s l t, step s l t → P s → P t) (hs : P s) : P t := by
  induction h with
  | nil => exact hs
  | snoc _ hm ih => exact hstep _ _ _ hm ih

/-- The invariant rule with the run at hand: a step need only keep `P` where it is one of
the steps of this run. -/
theorem Run.invariant_along {P : σ → Prop} (h : Run step s ls t)
    (hstep : ∀ pre l post m t, ls = pre ++ l :: post → Run step s pre m → step m l t → P m → P t)
    (hs : P s) : P t := by
  induction h with
  | nil => exact hs
  | @snoc ls l _ _ hrun hm ih =>
    refine hstep ls l [] _ _ rfl hrun hm (ih fun pre l' post m' t' heq hpre => ?_)
    exact hstep pre l' (post ++ [l]) m' t' (by simp [heq]) hpre

/-- A deterministic run that passes through `m` makes its next step there. -/
theorem Run.exists_step {pre post : List ι} {m : σ} (h : Run step s (pre ++ l :: post) t)
    (hm : Run step s pre m) (hdet : ∀ s l t t', step s l t → step s l t' → t = t') :
    ∃ m', step m l m' ∧ Run step s (pre ++ [l]) m' := by
  rw [List.append_cons] at h
  obtain ⟨m', hm', -⟩ := run_append_iff.1 h
  obtain ⟨m'', hrun, hlast⟩ := run_snoc_iff.1 hm'
  obtain rfl := hm.unique hrun hdet
  exact ⟨m', hlast, hm'⟩

/-- **The simulation rule:** a relation that matching steps keep is kept by
matching runs. -/
theorem Run.simulate {step' : τ → ι → τ → Prop} {s' : τ} {R : σ → τ → Prop}
    (h : Run step s ls t) (hstep : ∀ s l t s', R s s' → step s l t → ∃ t', step' s' l t' ∧ R t t')
    (hs : R s s') : ∃ t', Run step' s' ls t' ∧ R t t' := by
  induction h with
  | nil => exact ⟨s', .nil, hs⟩
  | snoc _ hm ih =>
    obtain ⟨m', hrun, hR⟩ := ih
    obtain ⟨t', hm', hR'⟩ := hstep _ _ _ _ hR hm
    exact ⟨t', .snoc hrun hm', hR'⟩

/-- Where each step is also a step with another label, so is each run. -/
theorem Run.map {κ : Type*} {step' : σ → κ → σ → Prop} {f : ι → κ} (h : Run step s ls t)
    (hstep : ∀ s l t, step s l t → step' s (f l) t) : Run step' s (ls.map f) t := by
  induction h with
  | nil => exact .nil
  | snoc _ hm ih =>
    rw [List.map_append]
    exact ih.snoc (hstep _ _ _ hm)

/-- Some run from `s`, with labels of which `P` holds, is not a run from `s'`. -/
def Apart (step : σ → ι → σ → Prop) (P : ι → Prop) (s s' : σ) : Prop :=
  ∃ ls t, (∀ l ∈ ls, P l) ∧ Run step s ls t ∧ ∀ t', ¬Run step s' ls t'

/-- States that are not apart: what the one does the other can do. -/
theorem not_apart_iff {P : ι → Prop} {s s' : σ} : ¬Apart step P s s' ↔
    ∀ ls t, (∀ l ∈ ls, P l) → Run step s ls t → ∃ t', Run step s' ls t' := by
  simp only [Apart, not_exists, not_and, not_forall, not_not]

/-- **Where one run leads to states that are apart,** it starts from such states. -/
theorem Apart.of_run {P : ι → Prop} {s s' m m' : σ} (h : Apart step P m m')
    (hdet : ∀ s l t t', step s l t → step s l t' → t = t') (hls : ∀ l ∈ ls, P l)
    (hrun : Run step s ls m) (hrun' : Run step s' ls m') : Apart step P s s' := by
  obtain ⟨ls', t, hls', hlast, hnone⟩ := h
  refine ⟨ls ++ ls', t, fun l hl => ?_, run_append_iff.2 ⟨m, hrun, hlast⟩, fun t' ht' => ?_⟩
  · rcases List.mem_append.1 hl with hl | hl
    · exact hls l hl
    · exact hls' l hl
  · obtain ⟨m'', hm'', hlast'⟩ := run_append_iff.1 ht'
    obtain rfl := hrun'.unique hm'' hdet
    exact hnone t' hlast'

end Trace
