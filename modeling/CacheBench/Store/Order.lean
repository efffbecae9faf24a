/-
# Who is evicted next

`set` and `get` push a node for their key every time, so a live key can have many
nodes in the evictor's queue.  It goes with the first of them: between two live keys
it is the order of their first nodes that decides (`List.Ahead`), and a set evicts
exactly as many as it takes to bring the total down (`Cache.Exact.freesRoom_iff`).

`Cache.Sound.exists_evicting_set` makes that order visible from outside: for every live key
there is a size with which a set of a new key evicts it and nothing behind it.
-/

import Mathlib.Data.Set.Finite.Basic
import CacheBench.Lib.Ahead
import CacheBench.Store.Fifo

namespace CacheBench
namespace Cache

variable {ε : Type}

/-- Exactly the keys that hold a value take up memory. -/
def Weighed (c : Cache ε) : Prop := ∀ k, c.Live k ↔ (c.entry k).2 ≠ 0

section Totals

variable {c d : Cache ε}

/-- The entries that are left after deletions. -/
theorem without_entry (c : Cache ε) (keys : List KeyType) (k : KeyType) :
    (c.without keys).entry k = if k ∈ keys then (none, 0) else c.entry k := by
  unfold entry
  rw [without_lookup]
  split_ifs <;> rfl

/-- What is left of an exact count stays exact. -/
theorem Exact.without (h : c.Exact) (keys : List KeyType) : (c.without keys).Exact := by
  induction keys generalizing c with
  | nil => exact h
  | cons key keys ih => exact ih (h.del key)

/-- A cache that reports every entry of another that takes up memory has at least its
total. -/
theorem total_le_total (h : ∀ k, (c.entry k).2 ≠ 0 → d.entry k = c.entry k) :
    c.total ≤ d.total := by
  refine Finmap.total_le_total _ fun k e he hne => ?_
  have hc : c.entry k = e := by rw [entry, he, Option.getD_some]
  have hsize : e.2 ≠ 0 := fun hzero => hne (by rw [hzero]; rfl)
  have hd : d.entry k = e := (h k (by rwa [hc])).trans hc
  unfold entry at hd
  cases hlookup : d.dict.lookup k with
  | none =>
    rw [hlookup, Option.getD_none] at hd
    exact absurd (by rw [← hd]) hsize
  | some e' =>
    rw [hlookup, Option.getD_some] at hd
    rw [hd]

/-- The fewer keys are deleted, the more is left. -/
theorem total_without_le {ks ls : List KeyType} (h : ∀ k ∈ ls, k ∈ ks) :
    (c.without ks).total ≤ (c.without ls).total := by
  refine total_le_total fun k hk => ?_
  rw [without_entry] at hk
  split_ifs at hk with hks
  · exact absurd rfl hk
  · rw [without_entry, without_entry, if_neg hks, if_neg fun hls => hks (h k hls)]

end Totals

variable {c c' : Cache FifoEvictor} {key : KeyType} {size : SizeType} {n : ℕ}

/-- A key with a value is in the queue. -/
theorem Queued.mem_queue (h : c.Queued) {k : KeyType} (hk : c.Live k) : k ∈ c.queue := by
  refine h.covers k fun hnone => hk ?_
  rw [entry, hnone]
  rfl

/-- **The test without remainders:** while no sum wraps, a prefix of the queue makes
room when the rest of the entries and the new size are within the limit. -/
theorem Exact.freesRoom_iff (h : c.Exact) (hwrap : c.maxmem.toNat + size.toNat < 2 ^ 32) :
    c.FreesRoom key size n ↔ n ≤ c.queue.length ∧
      ((c.del key).2.without (c.queue.take n)).total + size.toNat ≤ c.maxmem.toNat ∧
      ∀ m < n, c.maxmem.toNat <
        ((c.del key).2.without (c.queue.take m)).total + size.toNat := by
  have hexceeds : ∀ m, ((c.del key).2.without (c.queue.take m)).exceeds size = true ↔
      c.maxmem.toNat < ((c.del key).2.without (c.queue.take m)).total + size.toNat := by
    intro m
    have hm := (h.del key).without (c.queue.take m)
    have hle := hm.within
    rw [without_maxmem, del_snd_maxmem] at hle
    rw [exceeds_iff, hm.size, without_maxmem, del_snd_maxmem, Nat.mod_eq_of_lt (by omega)]
  constructor
  · intro hfree
    refine ⟨hfree.le, not_lt.1 fun hlt => ?_, fun m hm => (hexceeds m).1 (hfree.needed m hm)⟩
    exact Bool.false_ne_true (hfree.enough.symm.trans ((hexceeds n).2 hlt))
  · rintro ⟨hle, henough, hneeded⟩
    refine ⟨hle, ?_, fun m hm => (hexceeds m).2 (hneeded m hm)⟩
    rw [← Bool.not_eq_true, hexceeds]
    exact not_lt.2 henough

/-- One prefix at most is the shortest that makes room. -/
theorem FreesRoom.unique {m : ℕ} (hn : c.FreesRoom key size n) (hm : c.FreesRoom key size m) :
    n = m := by
  rcases lt_trichotomy n m with hlt | rfl | hlt
  · exact absurd (hn.enough.symm.trans (hm.needed n hlt)) Bool.false_ne_true
  · rfl
  · exact absurd (hm.enough.symm.trans (hn.needed m hlt)) Bool.false_ne_true

/-- What a set that popped `n` nodes leaves under each key. -/
theorem Queued.setReturns_entry (h : c.Queued) (hfree : c.FreesRoom key size n) (copy : Block)
    (k : KeyType) :
    ((Cache.evictions n (c.del key).2).cache.insertCopy key copy size).entry k =
      if k = key then (some copy, size)
      else if k ∈ c.queue.take n then (none, 0) else c.entry k := by
  rw [entry, (h.setReturns_after hfree copy).2.1]
  split_ifs <;> rfl

/-- The keys with a value after a set. -/
theorem Queued.setReturns_live (h : c.Queued) (hfree : c.FreesRoom key size n) (copy : Block)
    (k : KeyType) :
    ((Cache.evictions n (c.del key).2).cache.insertCopy key copy size).Live k ↔
      k = key ∨ k ∉ c.queue.take n ∧ c.Live k := by
  unfold Live
  rw [h.setReturns_entry hfree]
  split_ifs with hk hmem
  · simp [hk]
  · simp [hk, hmem]
  · simp [hk, hmem]

/-- A set of the empty string completes when it fits, whatever size it is given. -/
theorem Queued.exists_setReturns (h : c.Queued) (hfree : c.FreesRoom key size n) :
    ∃ copy c', c.SetReturns key [nul] size ⟨c.queue.take n, true⟩ c' ∧
      c'.queue = c.queue.drop n ++ [key] ∧
      (∀ k, c'.dict.lookup k = if k = key then some (some copy, size)
        else if k ∈ c.queue.take n then none else c.dict.lookup k) ∧
      c'.size = ((c.del key).2.without (c.queue.take n)).size + size := by
  have hcopy : copyValue [nul] size =
      some ((Copying.alloc size).write (size - 1).toNat nul) := by
    simp [copyValue, copyLoop]
  exact ⟨_, _, h.setReturns_iff.2 ⟨n, _, hfree, hcopy, rfl, rfl⟩,
    h.setReturns_after hfree _⟩

/-- Some key of plain letters has no entry, and is none of the given ones. -/
theorem exists_fresh (c : Cache ε) (keys : List KeyType) :
    ∃ z, c.dict.lookup z = none ∧ z ∉ keys ∧ ∃ n, z = letters n := by
  have hinfinite := Set.infinite_range_of_injective letters_injective
  obtain ⟨z, ⟨n, rfl⟩, hz⟩ := hinfinite.exists_notMem_finset (c.dict.keys ∪ keys.toFinset)
  rw [Finset.mem_union, List.mem_toFinset, not_or] at hz
  exact ⟨_, Finmap.lookup_eq_none.2 fun h => hz.1 (Finmap.mem_keys.2 h), hz.2, n, rfl⟩

/-! ### What sets that fit keep -/

/-- What holds of the cache after any run whose sets have a size and fit, when no sum can
wrap. -/
structure Sound (c : Cache FifoEvictor) : Prop where
  queued : c.Queued
  exact : c.Exact
  weighed : c.Weighed
  limit : 2 * c.maxmem.toNat < 2 ^ 32

/-- In a new cache there is nothing to order. -/
theorem sound_new {maxmem : SizeType} (hmax : 2 * maxmem.toNat < 2 ^ 32) :
    (new maxmem (some FifoEvictor.new)).Sound :=
  ⟨queued_new _ _, exact_new _ _, fun k => by simp [Live, entry], hmax⟩

/-- A set of a size that fits keeps the invariant. -/
theorem Sound.set {val : List ByteType} {r : Report} (h : c.Sound) (hpos : size ≠ 0)
    (hle : size ≤ c.maxmem) (hset : c.SetReturns key val size r c') : c'.Sound := by
  have hlimit := h.limit
  have hmax : c'.maxmem = c.maxmem := Step.maxmem (.set hset)
  rw [UInt32.le_iff_toNat_le] at hle
  refine ⟨h.queued.step (.set hset), h.exact.set (h.exact.noWrap_of_le (by omega) key) hset, ?_,
    by rwa [hmax]⟩
  obtain ⟨n, copied, hfree, -, rfl, rfl⟩ := h.queued.setReturns_iff.1 hset
  intro k
  rw [h.queued.setReturns_live hfree, h.queued.setReturns_entry hfree]
  split_ifs with hk hmem
  · simp [hk, hpos]
  · simp [hk, hmem]
  · simp [hk, hmem, h.weighed k]

/-- A get keeps the invariant. -/
theorem Sound.get (h : c.Sound) (key : KeyType) : (c.get key).2.Sound := by
  refine ⟨h.queued.get key, ⟨?_, ?_⟩, fun k => ?_, h.limit⟩
  · rw [get_snd_size, get_snd_total, h.exact.size]
  · rw [get_snd_total, get_snd_maxmem]
    exact h.exact.within
  · unfold Live
    rw [get_snd_entry]
    exact h.weighed k

/-- A deletion keeps the invariant. -/
theorem Sound.del (h : c.Sound) (key : KeyType) : (c.del key).2.Sound := by
  refine ⟨h.queued.del key, h.exact.del key, fun k => ?_, by rw [del_snd_maxmem]; exact h.limit⟩
  unfold Live
  rw [del_snd_entry]
  split_ifs with hk
  · simp
  · exact h.weighed k

/-- A reset keeps the invariant. -/
theorem Sound.reset (h : c.Sound) : c.reset.Sound :=
  ⟨h.queued.reset, ⟨rfl, Nat.zero_le _⟩, fun k => by simp [Live, entry], h.limit⟩

/-- **The order of eviction shows.**  For every key that takes up memory there is a
size with which a set of a new key pops the nodes up to the first node of that key and
no further. -/
theorem Sound.exists_evicting_set (h : c.Sound) {x z : KeyType} (hx : c.Live x)
    (hz : c.dict.lookup z = none) :
    ∃ size : SizeType, size ≠ 0 ∧ size ≤ c.maxmem ∧
      c.FreesRoom z size (c.queue.idxOf x + 1) := by
  have hmax := h.limit
  have hmem := h.queued.mem_queue hx
  have hkept := (h.exact.without (c.queue.take (c.queue.idxOf x))).within
  have hdel := total_del_add (c.without (c.queue.take (c.queue.idxOf x))) x
  have hnext : (c.without (c.queue.take (c.queue.idxOf x + 1))) =
      ((c.without (c.queue.take (c.queue.idxOf x))).del x).2 := by
    rw [List.take_succ_eq_append_getElem (List.idxOf_lt_length_iff.2 hmem), List.getElem_idxOf,
      without_append]
    rfl
  rw [without_entry, if_neg (List.notMem_take_idxOf hmem), ← hnext] at hdel
  rw [without_maxmem] at hkept
  have hpos : 0 < (c.entry x).2.toNat := Nat.pos_of_ne_zero fun hzero =>
    (h.weighed x).1 hx (UInt32.toNat_inj.1 hzero)
  -- the size that fills the memory up once `x` has gone
  obtain ⟨size, hsize⟩ : ∃ size : SizeType, size.toNat =
      c.maxmem.toNat - (c.without (c.queue.take (c.queue.idxOf x + 1))).total :=
    ⟨UInt32.ofNat _, UInt32.toNat_ofNat_of_lt' (by unfold UInt32.size; omega)⟩
  refine ⟨size, fun hzero => ?_, ?_, (h.exact.freesRoom_iff (by omega)).2 ⟨?_, ?_, fun m hm => ?_⟩⟩
  · rw [hzero, UInt32.toNat_zero] at hsize
    omega
  · rw [UInt32.le_iff_toNat_le]
    omega
  · exact Nat.succ_le_of_lt (List.idxOf_lt_length_iff.2 hmem)
  · rw [del_of_lookup_eq_none _ _ hz]
    omega
  · have hmono : (c.without (c.queue.take (c.queue.idxOf x))).total ≤
        (c.without (c.queue.take m)).total :=
      total_without_le fun k hk => List.take_subset_take_left _ (Nat.le_of_lt_succ hm) hk
    rw [del_of_lookup_eq_none _ _ hz]
    omega

end Cache
end CacheBench
