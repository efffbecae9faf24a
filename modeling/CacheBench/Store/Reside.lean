/-
# How long an entry stays

A `FifoEvictor` takes a key away only after every key whose first node is ahead of it.  What
the cache would still count then, the entry of the key with those behind it, is what the key
has to fear (`Cache.behind`): a set evicts the key exactly when that and the new value do not
fit together (`Cache.Queued.evicts_iff`).

No call adds more to it than the size that it sets (`Cache.Queued.behind_step`), whatever
becomes of the nodes in the queue.  So a key is safe from eviction until that many bytes have
been set since (`Cache.outlasts`).  With no node of its own in the queue a key has nothing
behind it yet, and so a value that is set then outlasts every run of calls whose sets,
its own with them, are of no more than `maxmem` bytes together.
-/

import CacheBench.Store.LastWrite
import CacheBench.Store.Order
import CacheBench.Store.Touches

namespace CacheBench

/-- The size that a call sets. -/
def Call.setSize : Call → ℕ
  | .set _ _ size => size.toNat
  | _ => 0

/-- The call neither sets nor deletes `k`, and is no reset. -/
def Call.Spares (k : KeyType) : Call → Prop
  | .set key _ _ => k ≠ key
  | .get _ => True
  | .del key => k ≠ key
  | .reset => False

namespace Cache

/-- What the cache still counts when every node ahead of the first one of `k` has been
popped. -/
def behind (c : Cache FifoEvictor) (k : KeyType) : ℕ :=
  (c.without (c.queue.take (c.queue.idxOf k))).total

variable {c c' d : Cache FifoEvictor} {k key : KeyType} {size : SizeType} {val : List ByteType}
variable {r : Report} {l : Call × Reply} {log log' : List (Call × Reply)} {maxmem : SizeType}

/-- An entry counts unless its key is ahead. -/
theorem without_ahead_entry (c : Cache FifoEvictor) (k j : KeyType) :
    (c.without (c.queue.take (c.queue.idxOf k))).entry j =
      if c.queue.Ahead j k then (none, 0) else c.entry j := by
  rw [without_entry]
  exact if_congr List.mem_take_idxOf_iff rfl rfl

/-- What counts in `d` counts in `c`. -/
theorem behind_le (h : ∀ j, ¬d.queue.Ahead j k → (d.entry j).2 ≠ 0 →
    ¬c.queue.Ahead j k ∧ c.entry j = d.entry j) : d.behind k ≤ c.behind k := by
  refine total_le_total fun j hj => ?_
  rw [without_ahead_entry] at hj
  by_cases hd : d.queue.Ahead j k
  · rw [if_pos hd] at hj
    exact absurd rfl hj
  · rw [if_neg hd] at hj
    obtain ⟨hc, hentry⟩ := h j hd hj
    rw [without_ahead_entry, without_ahead_entry, if_neg hd, if_neg hc, hentry]

/-- A deletion leaves the queue as it is. -/
theorem del_queue (c : Cache FifoEvictor) (key : KeyType) : (c.del key).2.queue = c.queue :=
  queue_congr (del_snd_evictor c key)

/-- A deletion takes away from it, if anything, -/
theorem behind_del_le (c : Cache FifoEvictor) (key k : KeyType) :
    (c.del key).2.behind k ≤ c.behind k := by
  refine behind_le fun j hahead hsize => ?_
  rw [del_queue] at hahead
  rw [del_snd_entry] at hsize ⊢
  split_ifs at hsize ⊢
  · exact absurd rfl hsize
  · exact ⟨hahead, rfl⟩

/-- and no more than the entry that it deletes. -/
theorem behind_le_del_add (c : Cache FifoEvictor) (key k : KeyType) :
    c.behind k ≤ (c.del key).2.behind k + (c.entry key).2.toNat := by
  have hsplit := total_del_add (c.without (c.queue.take (c.queue.idxOf k))) key
  have hone : ((c.without (c.queue.take (c.queue.idxOf k))).entry key).2.toNat ≤
      (c.entry key).2.toNat := by
    rw [without_ahead_entry]
    split_ifs
    · exact Nat.zero_le _
    · exact le_rfl
  have hrest : ((c.without (c.queue.take (c.queue.idxOf k))).del key).2.total ≤
      (c.del key).2.behind k := by
    refine total_le_total fun j _ => ?_
    rw [without_ahead_entry, del_snd_entry, del_snd_entry, without_ahead_entry, del_queue]
    split_ifs <;> rfl
  unfold behind at *
  omega

/-- **No call adds more than it sets.** -/
theorem Queued.behind_step (h : c.Queued) (hstep : Step c l c') (k : KeyType) :
    c'.behind k ≤ c.behind k + l.1.setSize := by
  cases hstep with
  | @set _ key val size r hset =>
    obtain ⟨n, copied, hfree, -, rfl, rfl⟩ := h.setReturns_iff.1 hset
    have hentry := h.setReturns_entry hfree copied.copy
    refine (behind_le_del_add _ key k).trans (Nat.add_le_add ?_ ?_)
    · refine behind_le fun j hahead hsize => ?_
      rw [del_queue, (h.setReturns_after hfree copied.copy).1] at hahead
      rw [del_snd_entry, hentry] at hsize ⊢
      split_ifs at hsize ⊢ with hj hmem
      · exact absurd rfl hsize
      · exact absurd rfl hsize
      -- a node ahead that is not popped stays ahead
      · exact ⟨fun hbefore => hahead (hbefore.drop_append hfree.le hmem), rfl⟩
    · rw [hentry, if_pos rfl]
      exact le_rfl
  | get key =>
    refine behind_le fun j hahead _ => ?_
    have hqueue : (c.get key).2.queue = c.queue ++ [key] := queue_touch h.isSome key
    rw [hqueue] at hahead
    exact ⟨fun hbefore => hahead hbefore.append, (get_snd_entry c key j).symm⟩
  | del key => exact behind_del_le c key k
  | reset => exact behind_le fun j _ hsize => absurd rfl hsize

/-! ### What a set evicts -/

/-- With no node in the queue a key has nothing behind it. -/
theorem Queued.behind_of_notMem (h : c.Queued) (hk : k ∉ c.queue) : c.behind k = 0 := by
  have hdict : (c.without (c.queue.take (c.queue.idxOf k))).dict = ∅ := by
    refine Finmap.ext_lookup fun j => ?_
    rw [List.idxOf_of_notMem hk, List.take_length, without_lookup, Finmap.lookup_empty]
    split_ifs with hj
    · rfl
    · by_contra hne
      exact hj (h.covers j hne)
  unfold behind total
  rw [hdict, Finmap.total_empty]

/-- **A set evicts a key** exactly when what is behind that key and the new value do not fit
together. -/
theorem Exact.mem_take_iff (h : c.Exact) (hwrap : c.maxmem.toNat + size.toNat < 2 ^ 32) {n : ℕ}
    (hfree : c.FreesRoom key size n) :
    k ∈ c.queue.take n ↔
      k ∈ c.queue ∧ c.maxmem.toNat < (c.del key).2.behind k + size.toNat := by
  obtain ⟨-, henough, hneeded⟩ := (h.freesRoom_iff hwrap).1 hfree
  have hbehind : (c.del key).2.behind k =
      ((c.del key).2.without (c.queue.take (c.queue.idxOf k))).total := by
    unfold behind
    rw [del_queue]
  rw [hbehind]
  constructor
  · intro hmem
    have hk := List.mem_of_mem_take hmem
    exact ⟨hk, hneeded _ ((List.mem_take_iff_idxOf_lt hk).1 hmem)⟩
  · rintro ⟨hk, hlt⟩
    by_contra hmem
    have hle : n ≤ c.queue.idxOf k := not_lt.1 (mt (List.mem_take_iff_idxOf_lt hk).2 hmem)
    have hmono : ((c.del key).2.without (c.queue.take (c.queue.idxOf k))).total ≤
        ((c.del key).2.without (c.queue.take n)).total :=
      total_without_le fun j hj => List.take_subset_take_left _ hle hj
    omega

/-- No set whose value fits beside what is behind a key evicts the key. -/
theorem Queued.notMem_evictedBy (h : c.Queued) (hexact : c.Exact) (hstep : Step c l c')
    (hwrap : c.maxmem.toNat + l.1.setSize < 2 ^ 32)
    (hroom : c.behind k + l.1.setSize ≤ c.maxmem.toNat) : k ∉ evictedBy l := by
  cases hstep with
  | @set _ key _ _ _ hset =>
    obtain ⟨n, copied, hfree, -, rfl, -⟩ := h.setReturns_iff.1 hset
    intro hmem
    have hlt := ((hexact.mem_take_iff hwrap hfree).1 hmem).2
    have hdel := behind_del_le c key k
    exact absurd hlt (not_lt.2 ((Nat.add_le_add_right hdel _).trans hroom))
  | get | del | reset => exact List.not_mem_nil

/-- What a call that spares a key and does not evict it leaves of its entry. -/
theorem Step.entry_of_spares (hstep : Step c l c') (hspares : l.1.Spares k)
    (hevicted : k ∉ evictedBy l) : c'.entry k = c.entry k := by
  cases hstep with
  | @set _ key val size r hset =>
    have hstays : ¬Removes k (.set key val size, .set r) := not_or.2 ⟨hspares, hevicted⟩
    have hentry := @Step.entry_eq _ _ _ _ _ (.set hset) k (some (c.entry k)) rfl
    rwa [Register.apply, effect_eq_none_iff.2 hstays] at hentry
  | get key => exact get_snd_entry c key k
  | del key =>
    rw [del_snd_entry, if_neg hspares]
  | reset => exact hspares.elim

/-! ### Runs -/

/-- What the sets among the calls of `log` set, together. -/
def bytesSet : List (Call × Reply) → ℕ
  | [] => 0
  | l :: log => l.1.setSize + bytesSet log

/-- What two logs set they set together. -/
theorem bytesSet_append (log log' : List (Call × Reply)) :
    bytesSet (log ++ log') = bytesSet log + bytesSet log' := by
  induction log with
  | nil => exact (Nat.zero_add _).symm
  | cons l log ih => rw [List.cons_append, bytesSet, bytesSet, ih, Nat.add_assoc]

/-- What is behind a key grows by what is set. -/
theorem Run.behind_le (h : Run c log d) (hq : c.Queued) (k : KeyType) :
    d.Queued ∧ d.behind k ≤ c.behind k + bytesSet log := by
  induction h with
  | nil => exact ⟨hq, le_rfl⟩
  | @snoc log l d d' _ hstep ih =>
    obtain ⟨hd, hle⟩ := ih
    have hone := hd.behind_step hstep k
    have hsum : bytesSet (log ++ [l]) = bytesSet log + l.1.setSize := bytesSet_append log [l]
    exact ⟨hd.step hstep, by omega⟩

/-- No sum of the run wraps. -/
theorem Run.exact_of_setSize {e : FifoEvictor} (h : Run (new maxmem (some e)) log c)
    (hwrap : ∀ l ∈ log, maxmem.toNat + l.1.setSize < 2 ^ 32) : c.Exact := by
  refine Run.exact h fun key val size reply hmem => ?_
  have hsize : maxmem.toNat + size.toNat < 2 ^ 32 := hwrap _ hmem
  omega

/-- **A key is safe** while what is behind it leaves room for all that is set. -/
theorem Run.notMem_evictedBy {e : FifoEvictor} (h : Run (new maxmem (some e)) log c)
    (h' : Run c log' d) (hwrap : ∀ l ∈ log ++ log', maxmem.toNat + l.1.setSize < 2 ^ 32)
    (hroom : c.behind k + bytesSet log' ≤ maxmem.toNat) : ∀ l ∈ log', k ∉ evictedBy l := by
  intro l hl
  obtain ⟨pre, post, rfl⟩ := List.append_of_mem hl
  obtain ⟨m, hpre, hpost⟩ := Trace.run_append_iff.1 h'
  obtain ⟨m', hstep, -⟩ := Trace.run_cons_iff.1 hpost
  obtain ⟨hm, hle⟩ := Run.behind_le hpre (Run.queued h) k
  have hrun : Run (new maxmem (some e)) (log ++ pre) m := Trace.run_append_iff.2 ⟨c, h, hpre⟩
  have hexact : m.Exact :=
    Run.exact_of_setSize hrun fun l' hl' => hwrap l' (by
      rw [← List.append_assoc]
      exact List.mem_append_left _ hl')
  have hmax : m.maxmem = maxmem := Run.maxmem hrun
  have hsum : bytesSet (pre ++ l :: post) = bytesSet pre + (l.1.setSize + bytesSet post) :=
    bytesSet_append pre (l :: post)
  refine hm.notMem_evictedBy hexact hstep ?_ ?_
  · rw [hmax]
    exact hwrap l (by simp)
  · rw [hmax]
    omega

/-- What calls that spare a key and do not evict it leave of its entry. -/
theorem Run.entry_of_spares (h : Run c log d) (hspares : ∀ l ∈ log, l.1.Spares k)
    (hkept : ∀ l ∈ log, k ∉ evictedBy l) : d.entry k = c.entry k := by
  refine Trace.Run.invariant_along h (P := fun m => m.entry k = c.entry k)
    (fun pre l post m m' hsplit _ hstep hm => ?_) rfl
  have hl : l ∈ log := by simp [hsplit]
  exact (hstep.entry_of_spares (hspares l hl) (hkept l hl)).trans hm

/-- **How long an entry stays.**  After any run of calls on a cache with a `FifoEvictor`, of
sizes that cannot wrap, a key is not evicted by the calls that follow as long as what is behind
the key and what they set are within `maxmem` together; and if none of them sets or deletes
the key or resets the cache, its entry is what it was.  A set that comes then evicts the key
exactly when the key has a node and what is behind it does not leave room for the new value. -/
theorem outlasts {e : FifoEvictor} (h : Run (new maxmem (some e)) log c) (h' : Run c log' d)
    (hwrap : ∀ l ∈ log ++ log', maxmem.toNat + l.1.setSize < 2 ^ 32)
    (hroom : c.behind k + bytesSet log' ≤ maxmem.toNat) :
    (∀ l ∈ log', k ∉ evictedBy l) ∧
      ((∀ l ∈ log', l.1.Spares k) → d.entry k = c.entry k) ∧
      ∀ key val size r d', d.SetReturns key val size r d' → maxmem.toNat + size.toNat < 2 ^ 32 →
        (k ∈ r.evicted ↔
          k ∈ d.queue ∧ maxmem.toNat < (d.del key).2.behind k + size.toNat) := by
  have hkept := Run.notMem_evictedBy h h' hwrap hroom
  have hrun : Run (new maxmem (some e)) (log ++ log') d := Trace.run_append_iff.2 ⟨c, h, h'⟩
  have hmax : d.maxmem = maxmem := Run.maxmem hrun
  refine ⟨hkept, fun hspares => Run.entry_of_spares h' hspares hkept,
    fun key val size r d' hset hsize => ?_⟩
  obtain ⟨n, copied, hfree, -, rfl, -⟩ := (Run.queued hrun).setReturns_iff.1 hset
  have hiff := (Run.exact_of_setSize hrun hwrap).mem_take_iff (k := k) (by rwa [hmax]) hfree
  rwa [hmax] at hiff

/-- The first value outlasts a second of all the bytes that are left, and goes with the next. -/
theorem outlasts_play : ∃ log c log' d,
    (new 10 (some FifoEvictor.new)).play 3 [.set "a" (cString "one") 4] = some (log, c) ∧
    c.play 3 [.get "b", .set "b" (cString "three") 6] = some (log', d) ∧
    d.entry "a" = c.entry "a" ∧
    ∀ r d', d.SetReturns "c" (cString "") 1 r d' → "a" ∈ r.evicted := by
  obtain ⟨c, d, hc, hd, hbehind, hqueue, hnext⟩ : ∃ c d,
      (new 10 (some FifoEvictor.new)).play 3 [.set "a" (cString "one") 4] =
        some ([(.set "a" (cString "one") 4, .set ⟨[], true⟩)], c) ∧
      c.play 3 [.get "b", .set "b" (cString "three") 6] =
        some ([(.get "b", .get (none, 0)), (.set "b" (cString "three") 6, .set ⟨[], true⟩)], d) ∧
      c.behind "a" = 4 ∧ d.queue = ["a", "b", "b"] ∧ (d.del "c").2.behind "a" = 10 :=
    ⟨_, _, rfl, rfl, by decide, rfl, by decide⟩
  obtain ⟨-, hstays, hevicts⟩ := outlasts (k := "a") (run_of_play hc) (run_of_play hd)
    (by decide) (by rw [hbehind]; decide)
  refine ⟨_, c, _, d, hc, hd, hstays (by simp [Call.Spares]), fun r d' hset => ?_⟩
  rw [hevicts "c" _ 1 r d' hset (by decide), hqueue, hnext]
  decide

end Cache
end CacheBench
