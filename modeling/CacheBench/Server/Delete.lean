/-
# Does a deletion tell the truth?

`del` says whether `dict_` has an entry for the key, `get` whether the entry has a
value, and a `get` that misses leaves an entry without one.  So after such a get, and
until something removes the key, `del` reports the deletion of a key that is not there
(`Cache.Missed`).  `space_used()` falls by the size of the
value unless the sum of the sizes has passed `2^32` and the counter is below it.

These are the only two exceptions, to what `del` returns and to how DELETE is answered
(`Cache.deletesTruly_iff`).
-/

import CacheBench.Store.Placeholder
import CacheBench.Server.Serve

namespace CacheBench
namespace Cache

variable {ε : Type} [Evictor ε] {c c' : Cache ε} {log : List (Call × Reply)} {k : KeyType}

/-- What a deletion should do, as a call and as a request. -/
structure DeletesTruly (B : Boost) (c : Cache ε) (k : KeyType) : Prop where
  returns : (c.del k).1 = true ↔ (c.get k).1.1 ≠ none
  drops : c.Live k → (c.del k).2.spaceUsed.toNat + (c.get k).1.2.toNat = c.spaceUsed.toNat
  others : ∀ j, j ≠ k → ((c.del k).2.get j).1 = (c.get j).1
  otherwise : ¬c.Live k → (c.del k).2 = c
  answered : ∀ version keepAlive version' keepAlive',
    (Answers B c ⟨.delete, keyTarget k, version, keepAlive⟩ 200 ↔
      Answers B c ⟨.get, keyTarget k, version', keepAlive'⟩ 200) ∧
    (¬Answers B c ⟨.get, keyTarget k, version', keepAlive'⟩ 200 →
      Answers B c ⟨.delete, keyTarget k, version, keepAlive⟩ 404)

/-! ### When a deletion tells the truth -/

/-- Where a DELETE tells the truth there is no placeholder. -/
theorem DeletesTruly.not_placeholder {B : Boost} (h : DeletesTruly B c k) :
    ¬∃ n, c.dict.lookup k = some (none, n) := by
  rintro ⟨n, hn⟩
  have hfound := h.returns
  rw [del_fst, get_fst, entry, hn] at hfound
  exact hfound.1 rfl rfl

/-- **Deletion tells the truth unless a get has missed.**  In every state that a run can
reach, with or without an evictor, when all values are C strings with `size = strlen +
1`: `del` and DELETE say and do of `k` what they should if and only if no get of `k` has
missed since `k` was last removed, and the counter is not below the size of its entry. -/
theorem deletesTruly_iff {maxmem : SizeType} {ev : Option ε} (B : Boost)
    (h : Run (new maxmem ev) log c) (hlog : ∀ l ∈ log, SetsCString l) (k : KeyType) :
    DeletesTruly B c k ↔ ¬Missed log k ∧ (c.entry k).2 ≤ c.spaceUsed := by
  have hstocked : c.Stocked := Run.stocked h hlog
  rw [← Run.placeholder_iff h, UInt32.le_iff_toNat_le]
  constructor
  · intro htrue
    refine ⟨htrue.not_placeholder, ?_⟩
    rcases lookup_cases htrue.not_placeholder with hnone | ⟨p, n, hsome⟩
    · rw [entry, hnone]
      exact Nat.zero_le _
    · have hdrops := htrue.drops (by rw [Live, entry, hsome]; exact Option.some_ne_none p)
      rw [get_fst] at hdrops
      omega
  · rintro ⟨hnot, hle⟩
    have hreturns := del_fst_iff_live hnot
    refine ⟨by rw [hreturns, get_fst]; rfl, fun _ => ?_, fun j hj => ?_, fun hdead => ?_,
      fun version keepAlive version' keepAlive' => ?_⟩
    · have hsub := UInt32.toNat_sub_of_le c.size (c.entry k).2 (UInt32.le_iff_toNat_le.2 hle)
      unfold spaceUsed at *
      rw [del_snd_size, get_fst, hsub]
      omega
    · rw [get_fst, get_fst, del_snd_entry, if_neg hj]
    · refine del_of_lookup_eq_none c k ((lookup_cases hnot).resolve_right ?_)
      rintro ⟨p, n, hsome⟩
      exact hdead (by rw [Live, entry, hsome]; exact Option.some_ne_none p)
    · rw [hstocked.answers_get_iff, answers_delete_iff, answers_delete_iff, hreturns,
        ← Bool.not_eq_true, hreturns]
      simp

/-- A key that is set and never missed is deleted truly. -/
theorem deletesTruly_iff_play : ∃ log c,
    (new 30 (some FifoEvictor.new)).play 0 [.set "a" (cString "one") 4, .get "a"] = some (log, c) ∧
      DeletesTruly plainBoost c "a" := by
  obtain ⟨c, hc, hle⟩ : ∃ c,
      (new 30 (some FifoEvictor.new)).play 0 [.set "a" (cString "one") 4, .get "a"] =
        some ([(.set "a" (cString "one") 4, .set ⟨[], true⟩),
          (.get "a", .get (some (stored "one"), 4))], c) ∧
      (c.entry "a").2 ≤ c.spaceUsed := ⟨_, rfl, by decide⟩
  refine ⟨_, c, hc, (deletesTruly_iff plainBoost (run_of_play hc) ?_ "a").2 ⟨?_, hle⟩⟩
  · intro l hl key val size reply heq
    subst heq
    simp only [List.mem_cons, Prod.mk.injEq, Call.set.injEq, List.not_mem_nil, or_false] at hl
    rcases hl with ⟨⟨-, rfl, rfl⟩, -⟩ | ⟨h, -⟩
    · exact ⟨"one", by decide, rfl, by decide⟩
    · cases h
  · rintro ⟨pre, n, post, heq, -⟩
    have hmem : ((.get "a", .get (none, n)) : Call × Reply) ∈
        [((.set "a" (cString "one") 4, .set ⟨[], true⟩) : Call × Reply),
          (.get "a", .get (some (stored "one"), 4))] := by
      rw [heq]
      simp
    simp at hmem

/-- **A get that misses makes a deletion lie:** on a fresh cache, after a get of `k`,
`del` reports that `k` was deleted, though there is no such key. -/
theorem del_finds_placeholder :
    ∃ log c, Run (new 30 (some FifoEvictor.new)) log c ∧ (∀ l ∈ log, SetsCString l) ∧
      (c.del "k").1 = true ∧ (c.get "k").1.1 = none ∧ ¬DeletesTruly plainBoost c "k" := by
  refine ⟨_, _, Trace.run_singleton_iff.2 (.get _ "k"), fun l hl => ?_, rfl, rfl, fun h => ?_⟩
  · rw [List.mem_singleton] at hl
    subst hl
    intro _ _ _ _ heq
    cases heq
  · exact h.returns.1 rfl rfl

end Cache
end CacheBench
