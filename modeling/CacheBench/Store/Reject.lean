/-
# What a rejected set leaves behind

Without an evictor `set` rejects a value that does not fit.  The test comes after the
old entry of the key has been deleted, so the old value is gone by then: what remains is
the cache that `del` leaves, whatever the sizes.  In a reachable state an entry without
a value has size 0, so a rejected set changes neither the replies of `get` nor
`space_used()` exactly when its key had no value to lose
(`Cache.set_rejected_unchanged_iff`).
-/

import CacheBench.Store.Placeholder

namespace CacheBench
namespace Cache

variable {ε : Type} [Evictor ε] {c c' : Cache ε} {log : List (Call × Reply)} {key : KeyType}
variable {val : List ByteType} {size : SizeType} {r : Report}

/-- A rejected set has deleted the old entry of its key and done nothing else. -/
theorem SetReturns.eq_del_of_rejected (h : c.SetReturns key val size r c')
    (hrej : r.admitted = false) : c' = (c.del key).2 := by
  rcases setReturns_iff.1 h with ⟨-, -, -, rfl⟩ | ⟨n, copied, -, -, rfl, -⟩
  · rfl
  · cases hrej

variable {maxmem : SizeType}

/-- **A rejected set is a no-op exactly when its key had no value.**  In every state that
a cache without evictor can reach, a set that returns without inserting leaves the reply
of `get` for every key and `space_used()` as they were if and only if `get` of the key
that was to be set returned the null pointer. -/
theorem set_rejected_unchanged_iff (h : Run (new maxmem (none : Option ε)) log c)
    (hset : c.SetReturns key val size r c') (hrej : r.admitted = false) :
    ((∀ j, (c'.get j).1 = (c.get j).1) ∧ c'.spaceUsed = c.spaceUsed) ↔ ¬c.Live key := by
  obtain rfl := hset.eq_del_of_rejected hrej
  constructor
  · rintro ⟨hget, -⟩ hlive
    have hkey := hget key
    rw [get_fst, get_fst, del_snd_entry, if_pos rfl] at hkey
    exact hlive (congrArg Prod.fst hkey).symm
  · intro hlive
    have hentry := Run.entry_eq_of_not_live h hlive
    constructor
    · intro j
      rw [get_fst, get_fst, del_snd_entry]
      split_ifs with hj
      · rw [hj, hentry]
      · rfl
    · rw [spaceUsed, spaceUsed, del_snd_size, hentry]
      exact UInt32.sub_zero _

/-- A value of 40 bytes rejected for a new key, with 30 bytes allowed. -/
theorem set_rejected_unchanged_iff_play : ∃ log c c',
    (new 30 (none : Option FifoEvictor)).play 0 [.set "a" (cString "x") 2] = some (log, c) ∧
    c.SetReturns "b" (cString "y") 40 ⟨[], false⟩ c' ∧
    (∀ j, (c'.get j).1 = (c.get j).1) ∧ c'.spaceUsed = c.spaceUsed := by
  obtain ⟨log, c, hc, c', hset, hlive⟩ : ∃ log c,
      (new 30 (none : Option FifoEvictor)).play 0 [.set "a" (cString "x") 2] = some (log, c) ∧
      ∃ c', c.set 0 "b" (cString "y") 40 = some (⟨[], false⟩, c') ∧ ¬c.Live "b" :=
    ⟨_, _, rfl, _, rfl, by decide⟩
  exact ⟨log, c, c', hc, ⟨0, hset⟩,
    (set_rejected_unchanged_iff (run_of_play hc) ⟨0, hset⟩ rfl).2 hlive⟩

/-- **A rejected overwrite loses the old value:** with 30 bytes allowed and `a` bound to a
string of two bytes, setting `a` to 40 bytes is rejected and `get` of `a` returns null.  No
sum comes near `2^32`. -/
theorem set_rejected_loses_value : ∃ log c c',
    Run (new 30 (none : Option FifoEvictor)) log c ∧
    c.SetReturns "a" (cString "y") 40 ⟨[], false⟩ c' ∧
    (∀ pre key val size reply post d, log = pre ++ (.set key val size, reply) :: post →
      Run (new 30 (none : Option FifoEvictor)) pre d → d.NoWrap key size) ∧ c.NoWrap "a" 40 ∧
    ¬((∀ j, (c'.get j).1 = (c.get j).1) ∧ c'.spaceUsed = c.spaceUsed) := by
  obtain ⟨c, hc, c', hset, hwrap, hne⟩ : ∃ c,
      (new 30 (none : Option FifoEvictor)).play 0 [.set "a" (cString "x") 2] =
        some ([(.set "a" (cString "x") 2, .set ⟨[], true⟩)], c) ∧
      ∃ c', c.set 0 "a" (cString "y") 40 = some (⟨[], false⟩, c') ∧ c.NoWrap "a" 40 ∧
        (c'.get "a").1 ≠ (c.get "a").1 :=
    ⟨_, rfl, _, rfl, by unfold NoWrap; decide, by decide⟩
  refine ⟨_, c, c', run_of_play hc, ⟨0, hset⟩, ?_, hwrap, fun h => hne (h.1 "a")⟩
  intro pre key val size reply post d hlog hd
  rcases pre with _ | ⟨l, pre⟩
  · obtain ⟨hl, -⟩ := List.cons.inj hlog
    simp only [Prod.mk.injEq, Call.set.injEq] at hl
    obtain ⟨⟨rfl, rfl, rfl⟩, -⟩ := hl
    obtain rfl := Trace.run_nil_iff.1 hd
    unfold NoWrap
    decide
  · simp at hlog

end Cache
end CacheBench
