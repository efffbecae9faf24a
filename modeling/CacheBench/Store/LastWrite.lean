/-
# Last write wins

What the cache is for: under each key the value of the last set of that key, unless
it has been deleted, evicted or reset away since.  As an abstract model each key is a
register, a logged call writes it, clears it or leaves it alone (`Cache.effect`), and
`Cache.Run.entry_eq` says that the cache refines it: after every run, with any
evictor, `get` reports of a key what its register holds.

`Cache.last_write_wins` spells this out for sets of C strings: what `get` returns is
the string of the most recent set of the key, and nothing removed it since; and the
string of a set that was admitted is there as long as nothing removes it.
-/

import CacheBench.Lib.Register
import CacheBench.Store.Copy
import CacheBench.Store.Accounting

namespace CacheBench
namespace Cache

/-- What a logged call does to the register of a key.  A set writes its own key, or
clears it when the value is rejected, for the old entry is deleted first; it clears
the keys it evicts. -/
def effect : Call × Reply → KeyType → Option (Option EntryType)
  | (.set j val size, .set r), k =>
    if k = j then
      some (if r.admitted then (copyValue val size).map fun c => (some c.copy, size) else none)
    else if k ∈ r.evicted then some none
    else none
  | (.del j, _), k => if k = j then some none else none
  | (.reset, _), _ => some none
  | _, _ => none

/-- The logged call sets, deletes or evicts `k`, or resets the cache. -/
def Removes (k : KeyType) : Call × Reply → Prop
  | (.set j _ _, .set r) => k = j ∨ k ∈ r.evicted
  | (.del j, _) => k = j
  | (.reset, _) => True
  | _ => False

/-- A call has no effect on a key that it does not remove. -/
theorem effect_eq_none_iff {l : Call × Reply} {k : KeyType} : effect l k = none ↔ ¬Removes k l := by
  unfold effect Removes
  split
  · split_ifs with hj hmem
    · simp [hj]
    · simp [hj, hmem]
    · simp [hj, hmem]
  · split_ifs with hj
    · simp [hj]
    · simp [hj]
  · simp
  · rename_i hset hdel hreset
    split
    · exact absurd rfl (hset _ _ _ _)
    · exact absurd rfl (hdel _ _)
    · exact absurd rfl (hreset _)
    · simp

/-- Only a set of the key that was admitted writes its register. -/
theorem effect_eq_write_iff {l : Call × Reply} {k : KeyType} {e : EntryType} :
    effect l k = some (some e) ↔
      ∃ val size r copied, l = (.set k val size, .set r) ∧ r.admitted = true ∧
        copyValue val size = some copied ∧ e = (some copied.copy, size) := by
  constructor
  · intro h
    unfold effect at h
    split at h
    · rename_i j val size r
      split_ifs at h with hj hadm
      · obtain ⟨copied, hcopy, heq⟩ := Option.map_eq_some_iff.1 (Option.some.inj h)
        exact ⟨val, size, r, copied, by rw [hj], hadm, hcopy, heq.symm⟩
      · simp at h
      · simp at h
    · split_ifs at h
      · simp at h
    · simp at h
    · simp at h
  · rintro ⟨val, size, r, copied, rfl, hadm, hcopy, rfl⟩
    simp [effect, hadm, hcopy]

variable {ε : Type} [Evictor ε] {c c' : Cache ε} {log : List (Call × Reply)}

/-- What the passes of the loop leave under each key. -/
theorem evictions_entry (n : ℕ) (c : Cache ε) (k : KeyType) :
    (evictions n c).cache.entry k =
      if k ∈ (evictions n c).evicted then (none, 0) else c.entry k := by
  unfold entry
  rw [evictions_lookup]
  split_ifs <;> rfl

/-- **One call does to the entry of a key what it does to its register.** -/
theorem Step.entry_eq {l : Call × Reply} (h : Step c l c') (k : KeyType) {old : Option EntryType}
    (hold : c.entry k = old.getD (none, 0)) :
    c'.entry k = (Register.apply effect l k old).getD (none, 0) := by
  unfold Register.apply
  cases h with
  | @set _ key val size r hset =>
    rcases setReturns_iff.1 hset with ⟨-, -, rfl, rfl⟩ | ⟨n, copied, -, hcopy, rfl, rfl⟩
    · rw [del_snd_entry]
      by_cases hk : k = key
      · simp [effect, hk]
      · simp [effect, hk, hold]
    · by_cases hk : k = key
      · subst hk
        rw [insertCopy_entry_self _ _ _ _ (evictions_del_lookup_self n c k)]
        simp [effect, hcopy]
      · have hlookup := insertCopy_lookup_of_ne (evictions n (c.del key).2).cache key size
          copied.copy hk
        rw [entry, hlookup]
        show (evictions n (c.del key).2).cache.entry k = _
        rw [evictions_entry, del_snd_entry, if_neg hk]
        by_cases hmem : k ∈ (evictions n (c.del key).2).evicted
        · simp [effect, hk, hmem]
        · simp [effect, hk, hmem, hold]
  | get => simpa [effect] using hold
  | del =>
    rename_i key
    rw [del_snd_entry]
    by_cases hk : k = key
    · simp [effect, hk]
    · simp [effect, hk, hold]
  | reset => simp [effect, entry]

/-- A set leaves another key with its entry, or takes it away. -/
theorem SetReturns.entry_of_ne {key k : KeyType} {val : List ByteType} {size : SizeType}
    {r : Report} (h : c.SetReturns key val size r c') (hk : k ≠ key) :
    c'.entry k = c.entry k ∨ c'.entry k = (none, 0) := by
  have hstep := @Step.entry_eq _ _ _ _ _ (.set h) k (some (c.entry k)) rfl
  by_cases hmem : k ∈ r.evicted
  · exact Or.inr (by simpa [Register.apply, effect, hk, hmem] using hstep)
  · exact Or.inl (by simpa [Register.apply, effect, hk, hmem] using hstep)

/-- A set leaves its own key with the copy it made, or with nothing. -/
theorem SetReturns.entry_self {key : KeyType} {val : List ByteType} {size : SizeType}
    {r : Report} (h : c.SetReturns key val size r c') :
    (∃ copied, copyValue val size = some copied ∧ c'.entry key = (some copied.copy, size)) ∨
      c'.entry key = (none, 0) := by
  have hstep := @Step.entry_eq _ _ _ _ _ (.set h) key (some (c.entry key)) rfl
  cases hr : r.admitted with
  | false => exact Or.inr (by simpa [Register.apply, effect, hr] using hstep)
  | true =>
    cases hcopy : copyValue val size with
    | none => exact Or.inr (by simpa [Register.apply, effect, hr, hcopy] using hstep)
    | some copied =>
      exact Or.inl ⟨copied, rfl, by simpa [Register.apply, effect, hr, hcopy] using hstep⟩

variable {maxmem : SizeType} {ev : Option ε}

/-- **The cache refines its registers:** after any run `get` reports of a key what its
register holds. -/
theorem Run.entry_eq (h : Run (new maxmem ev) log c) (k : KeyType) :
    c.entry k = (Register.read effect log k).getD (none, 0) := by
  induction h with
  | nil => simp [entry]
  | snoc _ hstep ih =>
    rw [Register.read_snoc]
    exact hstep.entry_eq k ih

/-- If it is a set, the call passes a C string with `size = strlen + 1`. -/
def SetsCString (l : Call × Reply) : Prop :=
  ∀ key val size reply, l = (.set key val size, reply) →
    ∃ s, IsCString s ∧ val = cString s ∧ size.toNat = s.length + 1

/-- Nothing is stored but C strings with their lengths. -/
def Stocked {ε : Type} (c : Cache ε) : Prop :=
  ∀ k p n, c.entry k = (some p, n) → ∃ s, IsCString s ∧ p = stored s ∧ n.toNat = s.length + 1

/-- Calls that set nothing else keep it so. -/
theorem Stocked.step {l : Call × Reply} (h : c.Stocked) (hl : SetsCString l)
    (hstep : Step c l c') : c'.Stocked := by
  intro k p n hentry
  have hreg := @Step.entry_eq _ _ _ _ _ hstep k (some (c.entry k)) rfl
  rw [hentry, Register.apply] at hreg
  rcases heffect : effect l k with _ | _ | e
  · rw [heffect] at hreg
    exact h k p n hreg.symm
  · rw [heffect] at hreg
    cases hreg
  · rw [heffect] at hreg
    obtain ⟨val, size, r, copied, rfl, -, hcopy, rfl⟩ := effect_eq_write_iff.1 heffect
    obtain ⟨rfl, rfl⟩ : p = copied.copy ∧ n = size := by simpa using hreg
    obtain ⟨s, hs, rfl, hsize⟩ := hl k val n (.set r) rfl
    exact ⟨s, hs, copy_eq_stored hs hsize hcopy, hsize⟩

/-- **Every block is a stored string,** after a run of sets of C strings. -/
theorem Run.stocked (h : Run (new maxmem ev) log c) (hlog : ∀ l ∈ log, SetsCString l) :
    c.Stocked := by
  refine Trace.Run.invariant_along h (fun pre l post m t hsplit _ hstep hm => ?_) ?_
  · exact hm.step (hlog l (by simp [hsplit])) hstep
  · intro k p n hentry
    rw [entry, new_dict, Finmap.lookup_empty] at hentry
    cases hentry

/-- A set that reached the insertion completed its copy. -/
theorem Run.exists_copied {key : KeyType} {val : List ByteType} {size : SizeType}
    {evicted : List KeyType} (h : Run (new maxmem ev) log c)
    (hmem : (.set key val size, .set ⟨evicted, true⟩) ∈ log) :
    ∃ copied, copyValue val size = some copied := by
  obtain ⟨pre, post, rfl⟩ := List.append_of_mem hmem
  rw [List.append_cons] at h
  obtain ⟨m, hm, -⟩ := Trace.run_append_iff.1 h
  obtain ⟨d, -, hstep⟩ := Trace.run_snoc_iff.1 hm
  cases hstep with
  | set hset =>
    rcases setReturns_iff.1 hset with ⟨-, -, hr, -⟩ | ⟨n, copied, -, hcopy, -, -⟩
    · cases hr
    · exact ⟨copied, hcopy⟩

/-- Different strings are different arrays. -/
theorem cString_injective {s t : String} (h : cString s = cString t) : s = t :=
  String.toList_injective (List.append_cancel_right h)

/-- **Last write wins, never a stale or foreign value.**  Whatever the limit and the
evictor, in a run whose sets all pass C strings with `size = strlen + 1`: a non-null
`get` returns the string and the size of the most recent set of the key, which was
not deleted, reset away or evicted since; and if the most recent set of the key
reached the insertion and nothing removed the key since, `get` returns exactly its
string and size. -/
theorem last_write_wins (h : Run (new maxmem ev) log c)
    (hlog : ∀ key val size reply, (.set key val size, reply) ∈ log →
      ∃ s, IsCString s ∧ val = cString s ∧ size.toNat = s.length + 1) (k : KeyType) :
    (∀ p n, (c.get k).1 = (some p, n) →
        ∃ pre s size evicted post,
          log = pre ++ (.set k (cString s) size, .set ⟨evicted, true⟩) :: post ∧
          (∀ l ∈ post, ¬Removes k l) ∧ p = stored s ∧ n = size ∧ size.toNat = s.length + 1) ∧
      ∀ pre s size evicted post,
        log = pre ++ (.set k (cString s) size, .set ⟨evicted, true⟩) :: post →
        (∀ l ∈ post, ¬Removes k l) → (c.get k).1 = (some (stored s), size) := by
  have hentry : c.entry k = (Register.read effect log k).getD (none, 0) := Run.entry_eq h k
  constructor
  · intro p n hget
    rw [get_fst, hentry] at hget
    have hread : Register.read effect log k = some (some p, n) := by
      cases hr : Register.read effect log k with
      | none =>
        rw [hr] at hget
        cases hget
      | some e =>
        rw [hr] at hget
        exact congrArg some hget
    obtain ⟨pre, l, post, rfl, hwrite, hpost⟩ := (Register.read_eq_some_iff effect).1 hread
    obtain ⟨val, size, r, copied, rfl, hadm, hcopy, heq⟩ := effect_eq_write_iff.1 hwrite
    obtain ⟨hp, rfl⟩ := Prod.mk.inj heq
    obtain ⟨s, hs, rfl, hsize⟩ := hlog k val n (.set r) (by simp)
    obtain ⟨evicted, admitted⟩ := r
    obtain rfl : admitted = true := hadm
    refine ⟨pre, s, n, evicted, post, rfl, fun l hl => ?_, ?_, rfl, hsize⟩
    · exact effect_eq_none_iff.1 (hpost l hl)
    · exact (Option.some.inj hp).trans (copy_eq_stored hs hsize hcopy)
  · intro pre s size evicted post hsplit hpost
    have hmem : (.set k (cString s) size, .set ⟨evicted, true⟩) ∈ log := by simp [hsplit]
    obtain ⟨t, ht, hst, hsize⟩ := hlog k (cString s) size _ hmem
    obtain rfl := cString_injective hst
    obtain ⟨copied, hcopy⟩ := Run.exists_copied h hmem
    have hread : Register.read effect log k = some (some (stored s), size) := by
      refine (Register.read_eq_some_iff effect).2 ⟨pre, _, post, hsplit, ?_, fun l hl => ?_⟩
      · simp [effect, hcopy, copy_eq_stored ht hsize hcopy]
      · exact effect_eq_none_iff.2 (hpost l hl)
    rw [get_fst, hentry, hread]
    rfl

/-- An overwritten key reads as its second string. -/
theorem last_write_wins_play : ∃ log c,
    (new 30 (some FifoEvictor.new)).play 0 [.set "a" (cString "one") 4, .set "a" (cString "two") 4,
      .get "b"] = some (log, c) ∧ (c.get "a").1 = (some (stored "two"), 4) := by
  obtain ⟨c, hc⟩ : ∃ c, (new 30 (some FifoEvictor.new)).play 0
      [.set "a" (cString "one") 4, .set "a" (cString "two") 4, .get "b"] =
        some ([(.set "a" (cString "one") 4, .set ⟨[], true⟩),
          (.set "a" (cString "two") 4, .set ⟨[], true⟩), (.get "b", .get (none, 0))], c) :=
    ⟨_, rfl⟩
  refine ⟨_, c, hc, (last_write_wins (run_of_play hc) ?_ "a").2
    [(.set "a" (cString "one") 4, .set ⟨[], true⟩)] "two" 4 [] [(.get "b", .get (none, 0))] rfl ?_⟩
  · intro key val size reply hmem
    simp only [List.mem_cons, Prod.mk.injEq, Call.set.injEq, List.not_mem_nil, or_false] at hmem
    rcases hmem with ⟨⟨-, rfl, rfl⟩, -⟩ | ⟨⟨-, rfl, rfl⟩, -⟩ | ⟨h, -⟩
    · exact ⟨"one", by decide, rfl, by decide⟩
    · exact ⟨"two", by decide, rfl, by decide⟩
    · cases h
  · intro l hl
    obtain rfl := List.mem_singleton.1 hl
    exact id

end Cache
end CacheBench
