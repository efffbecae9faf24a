/-
# A node that only goes with others

Popping a node of a key that takes up no memory never ends the eviction loop, so nodes of
such keys are popped together with the next node of a key that does.  Where one of them
has an earlier node of its own key among them, it is not missed: a cache whose queue has
it and one whose queue does not (`Cache.Echo`) go on the same under every call, as long as
these keys are never set (`Cache.Echo.set`).
-/

import CacheBench.Store.Fifo
import CacheBench.Store.LastWrite

namespace CacheBench
namespace Cache

/-- `c` is `d`, or has one more node in its queue, behind nodes of keys with `Never` that
its own key is one of.  No key with `Never` takes up memory. -/
structure Echo (Never : KeyType → Prop) (c d : Cache FifoEvictor) : Prop where
  dict : c.dict = d.dict
  size : c.size = d.size
  maxmem : c.maxmem = d.maxmem
  left : c.Queued
  right : d.Queued
  weightless : ∀ k, Never k → (c.entry k).2 = 0
  queue : c.queue = d.queue ∨ ∃ front back k rest, c.queue = front ++ back ++ k :: rest ∧
    d.queue = front ++ back ++ rest ∧ k ∈ back ∧ ∀ j ∈ back, Never j

/-! ### Deleting keys that take up no memory -/

section Without

variable {ε : Type} {c d : Cache ε}

/-- Caches with the same entries and the same counter have the same left over. -/
theorem without_congr (hdict : c.dict = d.dict) (hsize : c.size = d.size) (keys : List KeyType) :
    (c.without keys).dict = (d.without keys).dict ∧
      (c.without keys).size = (d.without keys).size := by
  induction keys generalizing c d with
  | nil => exact ⟨hdict, hsize⟩
  | cons key keys ih =>
    obtain ⟨hdict', hsize'⟩ := del_congr hdict hsize key
    exact ih hdict' hsize'

/-- A key that is deleted already is not missed in the rest. -/
theorem without_append_cons {ks ls : List KeyType} {k : KeyType} (hk : k ∈ ks) :
    c.without (ks ++ k :: ls) = c.without (ks ++ ls) := by
  have hnone : (c.without ks).dict.lookup k = none := by rw [without_lookup, if_pos hk]
  rw [without_append, without_append]
  show (((c.without ks).del k).2).without ls = _
  rw [del_of_lookup_eq_none _ _ hnone]

/-- Keys that count nothing may be deleted as well. -/
theorem without_append_size {ks ls : List KeyType} (h : ∀ k ∈ ls, (c.entry k).2 = 0) :
    (c.without (ks ++ ls)).size = (c.without ks).size := by
  induction ls using List.reverseRecOn with
  | nil => rw [List.append_nil]
  | append_singleton ls k ih =>
    have hzero : ((c.without (ks ++ ls)).entry k).2 = 0 := by
      unfold entry
      rw [without_lookup]
      split_ifs
      · rfl
      · exact h k (by simp)
    rw [← List.append_assoc, without_append]
    show ((c.without (ks ++ ls)).del k).2.size = _
    rw [del_snd_size, hzero, UInt32.sub_zero]
    exact ih fun j hj => h j (List.mem_append_left _ hj)

end Without

/-! ### The loop does not stop among them -/

variable {Never : KeyType → Prop} {c c' d : Cache FifoEvictor} {key : KeyType} {size : SizeType}

/-- The two tests agree after the same deletions. -/
theorem Echo.exceeds_congr (h : Echo Never c d) (keys : List KeyType) :
    ((c.del key).2.without keys).exceeds size = ((d.del key).2.without keys).exceeds size := by
  obtain ⟨hdict, hsize⟩ := del_congr h.dict h.size key
  unfold exceeds spaceUsed
  rw [(without_congr hdict hsize keys).2, without_maxmem, without_maxmem, del_snd_maxmem,
    del_snd_maxmem, h.maxmem]

/-- The test does not see the keys that are never set. -/
theorem Echo.exceeds_append (h : Echo Never c d) {ks ls : List KeyType} (hls : ∀ k ∈ ls, Never k) :
    ((c.del key).2.without (ks ++ ls)).exceeds size = ((c.del key).2.without ks).exceeds size := by
  have hzero : ∀ k ∈ ls, ((c.del key).2.entry k).2 = 0 := by
    intro k hk
    rw [del_snd_entry]
    split_ifs
    · rfl
    · exact h.weightless k (hls k hk)
  unfold exceeds spaceUsed
  rw [without_append_size hzero, without_maxmem, without_maxmem]

/-- Where the queues begin alike the same prefix makes room. -/
theorem Echo.freesRoom_of_take (h : Echo Never c d) {n : ℕ} (hle : n ≤ d.queue.length)
    (hsame : ∀ m ≤ n, c.queue.take m = d.queue.take m) (hfree : c.FreesRoom key size n) :
    d.FreesRoom key size n := by
  refine ⟨hle, ?_, fun m hm => ?_⟩
  · rw [← h.exceeds_congr, ← hsame n le_rfl]
    exact hfree.enough
  · rw [← h.exceeds_congr, ← hsame m hm.le]
    exact hfree.needed m hm

/-- The last node popped is not one that frees nothing. -/
theorem Echo.le_of_freesRoom (h : Echo Never c d) {n : ℕ} {front back rest : List KeyType}
    (hqueue : c.queue = front ++ back ++ rest) (hback : ∀ j ∈ back, Never j)
    (hfree : c.FreesRoom key size n) (hn : n ≤ (front ++ back).length) : n ≤ front.length := by
  by_contra hlt
  have htake : c.queue.take n = front ++ back.take (n - front.length) := by
    rw [hqueue, List.take_append_of_le_length hn, List.take_append,
      List.take_of_length_le (by omega)]
  have hstop := hfree.enough
  rw [htake, h.exceeds_append fun j hj => hback j (List.mem_of_mem_take hj)] at hstop
  have hgo := hfree.needed front.length (by omega)
  rw [hqueue, List.append_assoc, List.take_left, hstop] at hgo
  cases hgo

/-- **The loop pops the same keys from both.**  On `d` it may make one pass less. -/
theorem Echo.exists_freesRoom (h : Echo Never c d) {n : ℕ} (hfree : c.FreesRoom key size n) :
    ∃ m, d.FreesRoom key size m ∧
      (c.del key).2.without (c.queue.take n) = (c.del key).2.without (d.queue.take m) ∧
      (c.queue.drop n = d.queue.drop m ∨ ∃ front back k rest,
        c.queue.drop n = front ++ back ++ k :: rest ∧ d.queue.drop m = front ++ back ++ rest ∧
        k ∈ back ∧ ∀ j ∈ back, Never j) := by
  rcases h.queue with heq | ⟨front, back, k, rest, hc, hd, hk, hback⟩
  · have hfree' := h.freesRoom_of_take (heq ▸ hfree.le) (fun m _ => by rw [heq]) hfree
    exact ⟨n, hfree', by rw [heq], Or.inl (by rw [heq])⟩
  · have hle := hfree.le
    rw [hc, List.length_append, List.length_cons] at hle
    have hlen : d.queue.length = (front ++ back).length + rest.length := by
      rw [hd, List.length_append]
    -- up to the node of `k` the queues are the same
    have hsame : ∀ m ≤ (front ++ back).length, c.queue.take m = d.queue.take m := by
      intro m hm
      rw [hc, hd, List.take_append_of_le_length hm, List.take_append_of_le_length hm]
    have hlater : ∀ t,
        (c.del key).2.without (c.queue.take ((front ++ back).length + (t + 1))) =
          (c.del key).2.without (d.queue.take ((front ++ back).length + t)) := by
      intro t
      rw [hc, hd, List.take_length_add_append, List.take_length_add_append, List.take_succ_cons,
        without_append_cons (List.mem_append_right _ hk)]
    rcases Nat.lt_or_ge (front ++ back).length n with hn | hn
    · obtain ⟨t, rfl⟩ := Nat.exists_eq_add_of_lt hn
      refine ⟨(front ++ back).length + t, ⟨by omega, ?_, fun m hm => ?_⟩, hlater t, Or.inl ?_⟩
      · rw [← h.exceeds_congr, ← hlater]
        exact hfree.enough
      · rw [← h.exceeds_congr]
        rcases Nat.lt_or_ge (front ++ back).length m with hlt | hge
        · obtain ⟨s, rfl⟩ := Nat.exists_eq_add_of_lt hlt
          rw [Nat.add_assoc, ← hlater]
          exact hfree.needed _ (by omega)
        · rw [← hsame m hge]
          exact hfree.needed m (by omega)
      · rw [hc, hd, Nat.add_assoc, List.drop_length_add_append, List.drop_length_add_append,
          List.drop_succ_cons]
    · have hfront := h.le_of_freesRoom hc hback hfree hn
      have hfree' := h.freesRoom_of_take (by omega) (fun m hm => hsame m (hm.trans hn)) hfree
      refine ⟨n, hfree', by rw [hsame n hn],
        Or.inr ⟨front.drop n, back, k, rest, ?_, ?_, hk, hback⟩⟩
      · rw [hc, List.append_assoc, List.drop_append_of_le_length hfront, List.append_assoc]
      · rw [hd, List.append_assoc, List.drop_append_of_le_length hfront, List.append_assoc]

/-! ### Every call keeps it so -/

/-- A get of the same key on both sides keeps the echo. -/
theorem Echo.get (h : Echo Never c d) (key : KeyType) :
    Echo Never (c.get key).2 (d.get key).2 := by
  have hc : (c.get key).2.queue = c.queue ++ [key] := queue_touch h.left.isSome key
  have hd : (d.get key).2.queue = d.queue ++ [key] := queue_touch h.right.isSome key
  refine ⟨by rw [get_snd_dict, get_snd_dict, h.dict], h.size, h.maxmem, h.left.get key,
    h.right.get key, fun k hk => by rw [get_snd_entry, h.weightless k hk], ?_⟩
  rcases h.queue with heq | ⟨front, back, k, rest, hcq, hdq, hk, hback⟩
  · exact Or.inl (by rw [hc, hd, heq])
  · exact Or.inr ⟨front, back, k, rest ++ [key], by rw [hc, hcq]; simp, by rw [hd, hdq]; simp, hk,
      hback⟩

/-- A deletion on both sides keeps the echo. -/
theorem Echo.del (h : Echo Never c d) (key : KeyType) :
    Echo Never (c.del key).2 (d.del key).2 := by
  obtain ⟨hdict, hsize⟩ := del_congr h.dict h.size key
  refine ⟨hdict, hsize, by rw [del_snd_maxmem, del_snd_maxmem, h.maxmem], h.left.del key,
    h.right.del key, fun k hk => ?_, ?_⟩
  · rw [del_snd_entry]
    split_ifs
    · rfl
    · exact h.weightless k hk
  · rw [queue_congr (del_snd_evictor c key), queue_congr (del_snd_evictor d key)]
    exact h.queue

/-- A reset on both sides keeps the echo. -/
theorem Echo.reset (h : Echo Never c d) : Echo Never c.reset d.reset :=
  ⟨rfl, rfl, h.maxmem, h.left.reset, h.right.reset, fun _ _ => rfl, h.queue⟩

/-- **So does a set,** of a key that is not one of them. -/
theorem Echo.set (h : Echo Never c d) (hkey : ¬Never key) {val : List ByteType} {r : Report}
    (hset : c.SetReturns key val size r c') :
    ∃ r' d', d.SetReturns key val size r' d' ∧ Echo Never c' d' := by
  have hc' : c'.Queued := h.left.step (.set hset)
  have hmax : c'.maxmem = c.maxmem := Step.maxmem (.set hset)
  have hzero : ∀ k, Never k → (c'.entry k).2 = 0 := by
    intro k hk
    rcases hset.entry_of_ne (fun heq => hkey (heq ▸ hk)) with hsame | hnone
    · rw [hsame, h.weightless k hk]
    · rw [hnone]
  obtain ⟨n, copied, hfree, hcopy, -, rfl⟩ := h.left.setReturns_iff.1 hset
  obtain ⟨m, hfree', hkeys, hqueue⟩ := h.exists_freesRoom hfree
  have hset' := h.right.setReturns_iff.2 ⟨m, copied, hfree', hcopy, rfl, rfl⟩
  obtain ⟨hcq, hcd, hcs⟩ := h.left.setReturns_after hfree copied.copy
  obtain ⟨hdq, hdd, hds⟩ := h.right.setReturns_after hfree' copied.copy
  obtain ⟨hdict, hsize⟩ := del_congr h.dict h.size key
  obtain ⟨hdict, hsize⟩ := without_congr hdict hsize (d.queue.take m)
  refine ⟨_, _, hset', ⟨Finmap.ext_lookup fun k => ?_, ?_, ?_, hc', h.right.step (.set hset'),
    hzero, ?_⟩⟩
  · rw [hcd, hdd]
    by_cases hk : k = key
    · rw [if_pos hk, if_pos hk]
    · have hlookup := congrArg (fun e : Cache FifoEvictor => e.dict.lookup k) hkeys
      simp only [without_lookup, del_snd_dict, Finmap.lookup_erase_ne hk] at hlookup
      rw [if_neg hk, if_neg hk, hlookup, h.dict]
  · rw [hcs, hds, hkeys, hsize]
  · rw [hmax, h.maxmem]
    exact (Step.maxmem (.set hset')).symm
  · rw [hcq, hdq]
    rcases hqueue with heq | ⟨front, back, k, rest, hcq', hdq', hk, hback⟩
    · exact Or.inl (by rw [heq])
    · exact Or.inr ⟨front, back, k, rest ++ [key], by rw [hcq']; simp, by rw [hdq']; simp, hk,
        hback⟩

end Cache
end CacheBench
