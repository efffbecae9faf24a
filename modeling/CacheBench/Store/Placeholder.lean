/-
# Entries without a value

`get` looks its key up with `dict_[key]`, which puts `(nullptr, 0)` in for a key that is
not there.  A key has such an entry exactly when a get of it has missed and nothing has
set, deleted or evicted the key or reset the cache since (`Cache.Run.placeholder_iff`).
To `get` the entry is no different from none at all (`Cache.Run.entry_eq_of_not_live`);
`del` finds it.
-/

import CacheBench.Store.LastWrite

namespace CacheBench
namespace Cache

variable {ε : Type} {c c' : Cache ε} {log : List (Call × Reply)} {k : KeyType}

/-- Without a placeholder a key has no entry, or one with a value. -/
theorem lookup_cases (h : ¬∃ n, c.dict.lookup k = some (none, n)) :
    c.dict.lookup k = none ∨ ∃ p n, c.dict.lookup k = some (some p, n) := by
  rcases hlookup : c.dict.lookup k with _ | ⟨_ | p, n⟩
  · exact Or.inl rfl
  · exact absurd ⟨n, hlookup⟩ h
  · exact Or.inr ⟨p, n, rfl⟩

/-- Without a placeholder `del` tells the truth. -/
theorem del_fst_iff_live (h : ¬∃ n, c.dict.lookup k = some (none, n)) :
    (c.del k).1 = true ↔ c.Live k := by
  rw [del_fst, Live, entry]
  rcases lookup_cases h with hnone | ⟨p, n, hsome⟩
  · simp [hnone]
  · simp [hsome]

/-- A get of `k` found nothing, and nothing has set, deleted or evicted `k` or reset the
cache since. -/
def Missed (log : List (Call × Reply)) (k : KeyType) : Prop :=
  ∃ pre n post, log = pre ++ (.get k, .get (none, n)) :: post ∧ ∀ l ∈ post, ¬Removes k l

/-- The last call makes a placeholder, or leaves one. -/
theorem missed_snoc_iff {l : Call × Reply} :
    Missed (log ++ [l]) k ↔
      (∃ n, l = (.get k, .get (none, n))) ∨ Missed log k ∧ ¬Removes k l := by
  constructor
  · rintro ⟨pre, n, post, hlog, hpost⟩
    rcases List.eq_nil_or_concat post with rfl | ⟨post, l', rfl⟩
    · obtain ⟨-, hl⟩ := List.append_inj' hlog rfl
      exact Or.inl ⟨n, List.singleton_inj.1 hl⟩
    · rw [List.concat_eq_append, ← List.cons_append, ← List.append_assoc] at hlog
      obtain ⟨rfl, hl⟩ := List.append_inj' hlog rfl
      obtain rfl := List.singleton_inj.1 hl
      exact Or.inr ⟨⟨pre, n, post, rfl, fun l hl => hpost l (by simp [hl])⟩, hpost l (by simp)⟩
  · rintro (⟨n, rfl⟩ | ⟨⟨pre, n, post, rfl, hpost⟩, hl⟩)
    · exact ⟨log, n, [], rfl, fun _ hl => absurd hl List.not_mem_nil⟩
    · refine ⟨pre, n, post ++ [l], by simp, fun l' hl' => ?_⟩
      rcases List.mem_append.1 hl' with hl' | hl'
      · exact hpost l' hl'
      · exact List.mem_singleton.1 hl' ▸ hl

variable [Evictor ε]

/-- One call leaves an entry without a value when it is a get that misses, or when one
was there and the call leaves the key alone. -/
theorem Step.placeholder_iff {l : Call × Reply} (h : Step c l c') :
    (∃ n, c'.dict.lookup k = some (none, n)) ↔
      (∃ n, l = (.get k, .get (none, n))) ∨
        (∃ n, c.dict.lookup k = some (none, n)) ∧ ¬Removes k l := by
  cases h with
  | @set _ key val size r hset =>
    rcases setReturns_iff.1 hset with ⟨-, -, rfl, rfl⟩ | ⟨n, copied, -, -, rfl, rfl⟩
    · rw [del_snd_dict, Finmap.lookup_erase_eq_ite]
      by_cases hk : k = key
      · simp [Removes, hk]
      · simp [Removes, hk]
    · by_cases hk : k = key
      · rw [hk, insertCopy_dict _ _ _ _ (evictions_del_lookup_self n c key), Finmap.lookup_insert]
        simp [Removes]
      · rw [insertCopy_lookup_of_ne _ _ _ _ hk, evictions_lookup, del_snd_dict,
          Finmap.lookup_erase_ne hk]
        by_cases hmem : k ∈ (evictions n (c.del key).2).evicted
        · simp [Removes, hmem]
        · simp [Removes, hk, hmem]
  | get key =>
    rw [get_snd_dict, subscript_snd_lookup, get_fst, entry]
    by_cases hk : k = key
    · subst hk
      rcases c.dict.lookup k with _ | ⟨_ | p, n⟩
      · simp [Removes]
      · simp [Removes]
      · simp [Removes]
    · simp [Removes, hk, Ne.symm hk]
  | del key =>
    rw [del_snd_dict, Finmap.lookup_erase_eq_ite]
    by_cases hk : k = key
    · simp [Removes, hk]
    · simp [Removes, hk]
  | reset => simp [Removes]

/-- **A key has an entry without a value** exactly when a get of it has missed and
nothing removed it since. -/
theorem Run.placeholder_iff {maxmem : SizeType} {ev : Option ε} (h : Run (new maxmem ev) log c) :
    (∃ n, c.dict.lookup k = some (none, n)) ↔ Missed log k := by
  induction h with
  | nil =>
    constructor
    · rintro ⟨n, hn⟩
      rw [new_dict, Finmap.lookup_empty] at hn
      cases hn
    · rintro ⟨pre, n, post, hlog, -⟩
      simp at hlog
  | snoc _ hstep ih => rw [hstep.placeholder_iff, missed_snoc_iff, ih]

/-- In a reachable state an entry without a value has size 0. -/
theorem Run.entry_eq_of_not_live {maxmem : SizeType} {ev : Option ε}
    (h : Run (new maxmem ev) log c) (hlive : ¬c.Live k) :
    c.entry k = (none, 0) := by
  have hentry := Run.entry_eq h k
  cases hread : Register.read effect log k with
  | none =>
    rw [hread] at hentry
    exact hentry
  | some e =>
    rw [hread] at hentry
    obtain ⟨pre, l, post, -, hwrite, -⟩ := (Register.read_eq_some_iff effect).1 hread
    obtain ⟨val, size, r, copied, -, -, -, rfl⟩ := effect_eq_write_iff.1 hwrite
    exact absurd (by rw [Live, hentry]; exact Option.some_ne_none _) hlive

end Cache
end CacheBench
