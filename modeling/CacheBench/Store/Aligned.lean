/-
# Two caches with the same contents

Two caches that report the same of every key need not evict the same keys, for their
queues can differ.  They do as long as their queues hold the live keys in the same order
(`Cache.Aligned.mem_take_iff`): what one keeps just before it pops a key is what the
other keeps if it does not pop that key.  A get, a delete and a reset keep the two in the
same order, whatever nodes of other keys there are; a set keeps them so exactly when, in
both queues, its key comes to stand behind the same live keys (`Cache.InStep`,
`Cache.Aligned.set`, `Cache.Aligned.inStep`).
-/

import CacheBench.Store.Order

namespace CacheBench
namespace Cache

variable {c c' d d' : Cache FifoEvictor} {key : KeyType} {size : SizeType} {n : ℕ}

/-- The caches report the same of every key, and their queues hold the live keys in the
same order. -/
structure Aligned (c d : Cache FifoEvictor) : Prop where
  entry : ∀ k, c.entry k = d.entry k
  order : ∀ x y, c.Live x → c.Live y → (c.queue.Ahead x y ↔ d.queue.Ahead x y)

/-- Aligned caches have the same keys. -/
theorem Aligned.live_iff (h : Aligned c d) (k : KeyType) : c.Live k ↔ d.Live k := by
  unfold Live
  rw [h.entry k]

/-- A cache is aligned with itself. -/
theorem Aligned.refl (c : Cache FifoEvictor) : Aligned c c := ⟨fun _ => rfl, fun _ _ _ _ => Iff.rfl⟩

/-- Which of two aligned caches comes first is all the same. -/
theorem Aligned.symm (h : Aligned c d) : Aligned d c :=
  ⟨fun k => (h.entry k).symm, fun x y hx hy =>
    (h.order x y ((h.live_iff x).2 hx) ((h.live_iff y).2 hy)).symm⟩

/-- What the first cache evicts for a set, the second evicts. -/
theorem Aligned.mem_take (h : Aligned c d) (hc : c.Sound) (hd : d.Sound)
    (hmax : c.maxmem = d.maxmem) (hle : size ≤ c.maxmem) {m : ℕ} (hn : c.FreesRoom key size n)
    (hm : d.FreesRoom key size m) {y : KeyType} (hy : c.Live y) (hmem : y ∈ c.queue.take n) :
    y ∈ d.queue.take m := by
  by_contra hkept
  have hlimit := hc.limit
  rw [UInt32.le_iff_toNat_le] at hle
  have hfirst := ((hc.exact.freesRoom_iff (by omega)).1 hn).2.2 (c.queue.idxOf y)
    ((List.mem_take_iff_idxOf_lt (hc.queued.mem_queue hy)).1 hmem)
  have hroom := ((hd.exact.freesRoom_iff (by rw [← hmax]; omega)).1 hm).2.1
  -- what the first keeps just before it pops `y`, the second keeps in the end
  have hmono : ((c.del key).2.without (c.queue.take (c.queue.idxOf y))).total ≤
      ((d.del key).2.without (d.queue.take m)).total := by
    refine total_le_total fun k hk => ?_
    rw [without_entry, del_snd_entry] at hk ⊢
    split_ifs at hk with hkmem hkey
    · exact absurd rfl hk
    · exact absurd rfl hk
    · have hlive : c.Live k := (hc.weighed k).2 hk
      have hkd : k ∉ d.queue.take m := by
        intro hkd
        by_cases hky : k = y
        · exact hkept (hky ▸ hkd)
        · have hnot : ¬c.queue.Ahead k y := fun hahead => hkmem
            ((List.mem_take_iff_idxOf_lt (hc.queued.mem_queue hlive)).2 hahead)
          have hyk := (List.ahead_or_ahead (hc.queued.mem_queue hlive) hky).resolve_left hnot
          exact hkept (((h.order y k hy hlive).1 hyk).mem_take hkd)
      rw [if_neg hkd, without_entry, if_neg hkmem, del_snd_entry, if_neg hkey, if_neg hkey,
        h.entry k]
  rw [hmax] at hfirst
  omega

/-- **Aligned caches evict the same keys** for a set of the same size. -/
theorem Aligned.mem_take_iff (h : Aligned c d) (hc : c.Sound) (hd : d.Sound)
    (hmax : c.maxmem = d.maxmem) (hle : size ≤ c.maxmem) {m : ℕ} (hn : c.FreesRoom key size n)
    (hm : d.FreesRoom key size m) {y : KeyType} (hy : c.Live y) :
    y ∈ c.queue.take n ↔ y ∈ d.queue.take m :=
  ⟨h.mem_take hc hd hmax hle hn hm hy,
    h.symm.mem_take hd hc hmax.symm (hmax ▸ hle) hm hn ((h.live_iff y).1 hy)⟩

/-- When a set of `key` has made its room in both caches, the same of the live keys that
stay are ahead of `key`. -/
def InStep (c d : Cache FifoEvictor) (key : KeyType) (size : SizeType) : Prop :=
  ∀ n m, c.FreesRoom key size n → d.FreesRoom key size m →
    ∀ y, y ≠ key → c.Live y → y ∉ c.queue.take n →
      ((c.queue.drop n ++ [key]).Ahead y key ↔ (d.queue.drop m ++ [key]).Ahead y key)

/-- A key without a value has the empty entry. -/
theorem Weighed.entry_of_not_live (h : c.Weighed) {k : KeyType} (hk : ¬c.Live k) :
    c.entry k = (none, 0) :=
  Prod.ext (not_not.1 hk) (not_not.1 fun hne => hk ((h k).2 hne))

/-- A get on the one side leaves them aligned. -/
theorem Aligned.get_right (h : Aligned c d) (hd : d.Queued) (key : KeyType) :
    Aligned c (d.get key).2 := by
  refine ⟨fun k => (h.entry k).trans (get_snd_entry d key k).symm, fun x y hx hy => ?_⟩
  have hqueue : (d.get key).2.queue = d.queue ++ [key] := queue_touch hd.isSome key
  rw [h.order x y hx hy, hqueue, List.ahead_append_of_mem (hd.mem_queue ((h.live_iff x).1 hx))
    (hd.mem_queue ((h.live_iff y).1 hy))]

/-- A get on both sides leaves them aligned. -/
theorem Aligned.get (h : Aligned c d) (hc : c.Queued) (hd : d.Queued) (key : KeyType) :
    Aligned (c.get key).2 (d.get key).2 :=
  ((h.get_right hd key).symm.get_right hc key).symm

/-- A deletion on both sides leaves them aligned. -/
theorem Aligned.del (h : Aligned c d) (key : KeyType) : Aligned (c.del key).2 (d.del key).2 := by
  refine ⟨fun k => by rw [del_snd_entry, del_snd_entry, h.entry k], fun x y hx hy => ?_⟩
  have hlive : ∀ {x}, (c.del key).2.Live x → c.Live x := by
    intro x hx
    unfold Live at hx ⊢
    rw [del_snd_entry] at hx
    split_ifs at hx with hkey
    · exact absurd rfl hx
    · exact hx
  rw [queue_congr (del_snd_evictor c key), queue_congr (del_snd_evictor d key)]
  exact h.order x y (hlive hx) (hlive hy)

/-- A reset aligns any two caches. -/
theorem aligned_reset (c d : Cache FifoEvictor) : Aligned c.reset d.reset :=
  ⟨fun k => by simp [entry], fun x y hx => absurd hx (by simp [Live, entry])⟩

variable {val : List ByteType} {r r' : Report}

/-- **A set leaves two aligned caches with the same entries,** in step or not. -/
theorem Aligned.set_entry (h : Aligned c d) (hc : c.Sound) (hd : d.Sound)
    (hmax : c.maxmem = d.maxmem) (hle : size ≤ c.maxmem) (hcset : c.SetReturns key val size r c')
    (hdset : d.SetReturns key val size r' d') (k : KeyType) : c'.entry k = d'.entry k := by
  obtain ⟨n, copied, hn, hcopy, -, rfl⟩ := hc.queued.setReturns_iff.1 hcset
  obtain ⟨m, copied', hm, hcopy', -, rfl⟩ := hd.queued.setReturns_iff.1 hdset
  obtain rfl := Option.some.inj (hcopy.symm.trans hcopy')
  rw [hc.queued.setReturns_entry hn, hd.queued.setReturns_entry hm]
  by_cases hk : k = key
  · rw [if_pos hk, if_pos hk]
  · rw [if_neg hk, if_neg hk]
    by_cases hlive : c.Live k
    · rw [h.entry k]
      exact if_congr (h.mem_take_iff hc hd hmax hle hn hm hlive) rfl rfl
    · have hnone := hc.weighed.entry_of_not_live hlive
      rw [← h.entry k, hnone, ite_self, ite_self]

/-- **A set in step keeps two caches aligned.** -/
theorem Aligned.set (h : Aligned c d) (hc : c.Sound) (hd : d.Sound) (hmax : c.maxmem = d.maxmem)
    (hle : size ≤ c.maxmem) (hstep : InStep c d key size) (hcset : c.SetReturns key val size r c')
    (hdset : d.SetReturns key val size r' d') : Aligned c' d' := by
  refine ⟨h.set_entry hc hd hmax hle hcset hdset, ?_⟩
  obtain ⟨n, copied, hn, -, -, rfl⟩ := hc.queued.setReturns_iff.1 hcset
  obtain ⟨m, copied', hm, -, -, rfl⟩ := hd.queued.setReturns_iff.1 hdset
  have hmem : ∀ {y}, c.Live y → (y ∈ c.queue.take n ↔ y ∈ d.queue.take m) :=
    fun hy => h.mem_take_iff hc hd hmax hle hn hm hy
  intro x y hx hy
  rw [hc.queued.setReturns_live hn] at hx hy
  rw [(hc.queued.setReturns_after hn _).1, (hd.queued.setReturns_after hm _).1]
  have hself : ∀ {q : List KeyType} {y}, y ≠ key →
      ((q ++ [key]).Ahead key y ↔ ¬(q ++ [key]).Ahead y key) := by
    intro q y hy
    exact ⟨fun hahead => hahead.asymm, fun hnot =>
      (List.ahead_or_ahead (by simp) hy.symm).resolve_right hnot⟩
  by_cases hxk : x = key <;> by_cases hyk : y = key
  · subst hxk hyk
    exact ⟨fun hahead => absurd hahead hahead.asymm, fun hahead => absurd hahead hahead.asymm⟩
  · obtain ⟨hynot, hylive⟩ := hy.resolve_left hyk
    rw [hxk, hself hyk, hself hyk, hstep n m hn hm y hyk hylive hynot]
  · obtain ⟨hxnot, hxlive⟩ := hx.resolve_left hxk
    rw [hyk, hstep n m hn hm x hxk hxlive hxnot]
  · obtain ⟨hxnot, hxlive⟩ := hx.resolve_left hxk
    obtain ⟨hynot, hylive⟩ := hy.resolve_left hyk
    rw [List.ahead_drop_append hn.le (hc.queued.mem_queue hxlive) (hc.queued.mem_queue hylive)
      hxnot hynot, h.order x y hxlive hylive, List.ahead_drop_append hm.le
      (hd.queued.mem_queue ((h.live_iff x).1 hxlive))
      (hd.queued.mem_queue ((h.live_iff y).1 hylive)) (mt (hmem hxlive).2 hxnot)
      (mt (hmem hylive).2 hynot)]

/-- **Only a set in step keeps them aligned.** -/
theorem Aligned.inStep (h' : Aligned c' d') (hc : c.Queued) (hd : d.Queued)
    (hcset : c.SetReturns key val size r c') (hdset : d.SetReturns key val size r' d') :
    InStep c d key size := by
  obtain ⟨n, copied, hn, -, -, rfl⟩ := hc.setReturns_iff.1 hcset
  obtain ⟨m, copied', hm, -, -, rfl⟩ := hd.setReturns_iff.1 hdset
  intro n' m' hn' hm' y hy hlive hnot
  obtain rfl := hn.unique hn'
  obtain rfl := hm.unique hm'
  have horder := h'.order y key ((hc.setReturns_live hn _ y).2 (Or.inr ⟨hnot, hlive⟩))
    ((hc.setReturns_live hn _ key).2 (Or.inl rfl))
  rwa [(hc.setReturns_after hn _).1, (hd.setReturns_after hm _).1] at horder

/-- Caches with the same entries use the same memory. -/
theorem size_eq_of_entry_eq (h : ∀ k, c.entry k = d.entry k) (hc : c.Exact) (hd : d.Exact) :
    c.size = d.size := by
  have hle := total_le_total fun k (_ : (c.entry k).2 ≠ 0) => (h k).symm
  have hge := total_le_total fun k (_ : (d.entry k).2 ≠ 0) => h k
  rw [← UInt32.toNat_inj, hc.size, hd.size]
  exact le_antisymm hle hge

end Cache
end CacheBench
