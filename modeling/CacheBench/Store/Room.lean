/-
# What a set makes room for

On a cache with its own `FifoEvictor`, after any run, a set of a C string that fits
`maxmem` terminates, evicts the keys of the shortest prefix of the queue that makes
room, stores the string and leaves every other key alone, if and only if the `int`
index of its copy loop can reach the end of the string
(`Cache.set_accommodates_iff`).

A value larger than `maxmem` should be turned away.  With the evictor it never is:
the loop empties the queue and then runs for ever, unless the `uint32_t` sum wraps on
the way and the value is stored.  Without an evictor it is turned away except when the
sum wraps (`Cache.oversize_set_iff`).
-/

import CacheBench.Store.Fifo

namespace CacheBench
namespace Cache

/-- `key` is bound to `val` with `size`: its entry is the copy that `set` makes of
the two. -/
def Bound {ε : Type} (c : Cache ε) (key : KeyType) (val : List ByteType) (size : SizeType) : Prop :=
  ∃ copied, copyValue val size = some copied ∧
    c.dict.lookup key = some (some copied.copy, size)

/-- What a set of the C string `s` should have done to `c` when it returns with the
report `r` in the state `c'`. -/
structure Accommodates (c : Cache FifoEvictor) (key : KeyType) (s : String) (size : SizeType)
    (r : Report) (c' : Cache FifoEvictor) : Prop where
  found : (c'.get key).1 = (some (stored s), size)
  within : c'.spaceUsed ≤ c.maxmem
  victims : ∃ n, c.FreesRoom key size n ∧ r.evicted = c.queue.take n
  gone : ∀ j ∈ r.evicted, j ≠ key → c'.dict.lookup j = none
  frame : ∀ j, j ≠ key → j ∉ r.evicted → c'.dict.lookup j = c.dict.lookup j

variable {c c' : Cache FifoEvictor} {key : KeyType} {size : SizeType} {r : Report}

/-- What a set that returns did, on the first-in, first-out cache. -/
theorem Queued.accommodates (h : c.Queued) {s : String} (hs : IsCString s)
    (hsize : size.toNat = s.length + 1) (hset : c.SetReturns key (cString s) size r c') :
    c.Accommodates key s size r c' := by
  obtain ⟨n, copied, hfree, hcopy, rfl, rfl⟩ := h.setReturns_iff.1 hset
  obtain ⟨-, hlookup, hcount⟩ := h.setReturns_after hfree copied.copy
  rw [copyValue_cString hs hsize] at hcopy
  split_ifs at hcopy
  obtain rfl := Option.some.inj hcopy
  refine ⟨?_, ?_, ⟨n, hfree, rfl⟩, fun j hmem hj => ?_, fun j hj hmem => ?_⟩
  · rw [get_fst, entry, hlookup, if_pos rfl]
    rfl
  · have hstop := hfree.enough
    unfold exceeds spaceUsed at *
    rw [hcount]
    simpa using hstop
  · rw [hlookup, if_neg hj, if_pos hmem]
  · rw [hlookup, if_neg hj, if_neg hmem]

variable {maxmem : SizeType} {log : List (Call × Reply)}

/-- **A set that fits is carried out, up to the range of an `int`.**  In every state
a run can reach, for every key and every C string with `size = strlen + 1 ≤ maxmem`,
`set` returns and has done what `Accommodates` says exactly when the string is
shorter than `2^31`. -/
theorem set_accommodates_iff (h : Run (new maxmem (some FifoEvictor.new)) log c) (key : KeyType)
    {s : String} (hs : IsCString s) (hsize : size.toNat = s.length + 1) (hle : size ≤ maxmem) :
    (∃ r c', c.SetReturns key (cString s) size r c' ∧ c.Accommodates key s size r c') ↔
      s.length < 2 ^ 31 := by
  have hq := Run.queued h
  constructor
  · rintro ⟨r, c', hset, -⟩
    exact hq.length_lt hs hset
  · intro hlt
    have hmax : c.maxmem = maxmem := Run.maxmem h
    obtain ⟨n, -, hset⟩ := hq.exists_set (Run.tallied h) hs hsize (hmax ▸ hle) hlt key
    exact ⟨_, _, hset, hq.accommodates hs hsize hset⟩

/-- A set that has to evict two keys, one of them read in between. -/
theorem set_accommodates_iff_play : ∃ log c,
    (new 12 (some FifoEvictor.new)).play 0 [.set "a" (cString "one") 4, .set "b" (cString "two") 4,
      .get "a"] = some (log, c) ∧
    ∃ r c', c.SetReturns "c" (cString "threefour") 10 r c' ∧
      c.Accommodates "c" "threefour" 10 r c' := by
  obtain ⟨log, c, hc⟩ : ∃ log c, (new 12 (some FifoEvictor.new)).play 0
      [.set "a" (cString "one") 4, .set "b" (cString "two") 4, .get "a"] = some (log, c) :=
    ⟨_, _, rfl⟩
  exact ⟨log, c, hc, (set_accommodates_iff (run_of_play hc) "c" (by decide) (by decide)
    (by decide)).2 (by decide)⟩

/-- **A string of `2^31` bytes defeats it:** on a fresh cache that has room for it
twice over, `set` has no defined outcome. -/
theorem set_overflows_int :
    let s := String.ofList (List.replicate (2 ^ 31) 'a')
    IsCString s ∧ (2147483649 : SizeType).toNat = s.length + 1 ∧
      (2147483649 : SizeType) ≤ 4294967295 ∧
      ¬∃ r c', (new 4294967295 (some FifoEvictor.new)).SetReturns "k" (cString s) 2147483649
        r c' := by
  intro s
  have hs : IsCString s := letters_isCString _
  have hlen : s.length = 2147483648 := letters_length _
  have hsize : (2147483649 : SizeType).toNat = s.length + 1 := by
    rw [hlen]
    rfl
  refine ⟨hs, hsize, by decide, ?_⟩
  rintro ⟨r, c', hset⟩
  obtain ⟨n, copied, -, hcopy, -, -⟩ := (queued_new _ _).setReturns_iff.1 hset
  rw [copyValue_cString hs hsize, if_neg (by rw [hlen]; omega)] at hcopy
  cases hcopy

/-! ### Values that can never fit -/

variable {val : List ByteType} {ev : Option FifoEvictor}

/-- A set that reaches the insertion binds its key to its value. -/
theorem bound_insertCopy {ε : Type} [Evictor ε] {c : Cache ε} {copied : Copying}
    (hcopy : copyValue val size = some copied) (n : ℕ) :
    ((evictions n (c.del key).2).cache.insertCopy key copied.copy size).Bound key val size := by
  refine ⟨copied, hcopy, ?_⟩
  rw [insertCopy_dict _ _ _ _ (evictions_del_lookup_self n c key), Finmap.lookup_insert]

/-- **A value is turned away only without an evictor,** and there only if the
`uint32_t` sum of `size` and what is left without the old entry of the key is itself
above `maxmem`.  In every other state `set` stores the value or does not return,
however far its size is above `maxmem`. -/
theorem oversize_set_iff (h : Run (new maxmem ev) log c) (key : KeyType) (val : List ByteType)
    (size : SizeType) :
    ((∃ r c', c.SetReturns key val size r c') ∧
        ∀ r c', c.SetReturns key val size r c' → ¬c'.Bound key val size) ↔
      ev = none ∧ maxmem < c.spaceUsed - (c.entry key).2 + size := by
  have hev : c.evictor = none ↔ ev = none := Run.evictor_eq_none h
  have hexceeds : (c.del key).2.exceeds size = true ↔
      maxmem < c.spaceUsed - (c.entry key).2 + size := by
    unfold exceeds spaceUsed
    rw [decide_eq_true_iff, del_snd_maxmem, del_snd_size, Run.maxmem h, new_maxmem]
  constructor
  · rintro ⟨⟨r, c', hset⟩, hnot⟩
    rcases Cache.setReturns_iff.1 hset with ⟨hrej, hnone, -, -⟩ | ⟨n, copied, -, hcopy, -, rfl⟩
    · exact ⟨hev.1 hnone, hexceeds.1 hrej⟩
    · exact absurd (bound_insertCopy hcopy n) (hnot _ _ hset)
  · rintro ⟨hnone, hgt⟩
    have hset : c.SetReturns key val size ⟨[], false⟩ (c.del key).2 :=
      Cache.setReturns_iff.2 (Or.inl ⟨hexceeds.2 hgt, hev.2 hnone, rfl, rfl⟩)
    refine ⟨⟨_, _, hset⟩, fun r c' hset' => ?_⟩
    obtain ⟨-, rfl⟩ := hset.deterministic hset'
    rintro ⟨copied, -, hlookup⟩
    rw [del_snd_dict, Finmap.lookup_erase] at hlookup
    cases hlookup

/-- Without an evictor and far from `2^32`, a value that is too large is turned away. -/
theorem oversize_set_iff_play : ∃ log c,
    (new 30 (none : Option FifoEvictor)).play 0 [.set "a" (cString "value_1") 8] = some (log, c) ∧
    ∀ r c', c.SetReturns "a" (cString "") 31 r c' → ¬c'.Bound "a" (cString "") 31 := by
  obtain ⟨log, c, hc, hgt⟩ : ∃ log c, (new 30 (none : Option FifoEvictor)).play 0
      [.set "a" (cString "value_1") 8] = some (log, c) ∧
      30 < c.spaceUsed - (c.entry "a").2 + 31 := ⟨_, _, rfl, by decide⟩
  exact ⟨log, c, hc, ((oversize_set_iff (run_of_play hc) "a" (cString "") 31).2
    ⟨rfl, hgt⟩).2⟩

/-- **With the evictor `set` runs for ever:** on a fresh cache of 30 bytes a value of
31 bytes is never turned away and never stored. -/
theorem oversize_set_diverges :
    ¬∃ r c', (new 30 (some FifoEvictor.new)).SetReturns "k"
      (cString "vvvvvvvvvvvvvvvvvvvvvvvvvvvvvv") 31 r c' := by
  rintro ⟨r, c', hset⟩
  obtain ⟨n, copied, hfree, -, -, -⟩ := (queued_new _ _).setReturns_iff.1 hset
  obtain rfl : n = 0 := Nat.le_zero.1 hfree.le
  exact absurd hfree.enough (by decide)

end Cache
end CacheBench
