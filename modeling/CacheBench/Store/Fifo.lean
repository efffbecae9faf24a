/-
# The cache with its first-in, first-out evictor

Every key in `dict_`, with a value or without, has a node in the evictor's queue
(`Cache.Queued`): `get` and `set` push one whenever they may add an entry, and a key
loses its entry with the first of its nodes that is popped.  So when the queue is
empty there is nothing left to evict and the counter is `0`
(`Cache.entries_in_reach`), and the eviction loop leaves at the latest then
(`Cache.Queued.exists_exits`), if the value fits at all.

What the loop does is popping nodes: after `n` passes it has popped the first `n`
nodes and deleted their keys (`Cache.evictions_fifo`), so a set evicts the keys of
the shortest prefix of the queue that makes room (`Cache.FreesRoom`).
-/

import CacheBench.Store.Accounting
import CacheBench.Store.Copy

namespace CacheBench
namespace Cache

/-- The evictor's queue, front first. -/
def queue (c : Cache FifoEvictor) : List KeyType := (c.evictor.map FifoEvictor.contents).getD []

/-- The cache after deleting each of `keys`. -/
def without {ε : Type} (c : Cache ε) (keys : List KeyType) : Cache ε :=
  keys.foldl (fun c key => (c.del key).2) c

/-- `n` is the length of the shortest prefix of the queue after whose removal the
`uint32_t` test `space_used() + size > maxmem` fails, measured after any old entry of
`key` was deleted. -/
structure FreesRoom (c : Cache FifoEvictor) (key : KeyType) (size : SizeType) (n : ℕ) : Prop where
  le : n ≤ c.queue.length
  enough : ((c.del key).2.without (c.queue.take n)).exceeds size = false
  needed : ∀ m < n, ((c.del key).2.without (c.queue.take m)).exceeds size = true

/-- The cache has its evictor, and every key in `dict_` is in the queue. -/
structure Queued (c : Cache FifoEvictor) : Prop where
  isSome : c.evictor.isSome = true
  covers : ∀ k, c.dict.lookup k ≠ none → k ∈ c.queue

variable {c c' : Cache FifoEvictor}

/-! ### The queue -/

/-- The queue of a cache is that of its evictor. -/
theorem queue_of_some {e : FifoEvictor} (he : c.evictor = some e) : c.queue = e.contents := by
  unfold queue
  rw [he]
  rfl

/-- A touch puts the key at the end of the queue. -/
theorem queue_touch (h : c.evictor.isSome = true) (key : KeyType) :
    (c.touch key).queue = c.queue ++ [key] := by
  obtain ⟨e, he⟩ := Option.isSome_iff_exists.1 h
  unfold queue
  rw [touch_evictor, he]
  rfl

/-- Nothing but the evictor has a part in the queue. -/
theorem queue_congr {d : Cache FifoEvictor} (h : c.evictor = d.evictor) : c.queue = d.queue := by
  unfold queue
  rw [h]

/-- Keys may be deleted in two goes. -/
theorem without_append {ε : Type} (c : Cache ε) (ks ls : List KeyType) :
    c.without (ks ++ ls) = (c.without ks).without ls :=
  List.foldl_append

/-- Deletion looks at neither the evictor nor the limit. -/
theorem del_congr {ε : Type} {c d : Cache ε} (hdict : c.dict = d.dict) (hsize : c.size = d.size)
    (key : KeyType) : (c.del key).2.dict = (d.del key).2.dict ∧
      (c.del key).2.size = (d.del key).2.size := by
  simp [entry, hdict, hsize]

/-- Deletions do not change the limit. -/
@[simp] theorem without_maxmem {ε : Type} (c : Cache ε) (keys : List KeyType) :
    (c.without keys).maxmem = c.maxmem := by
  induction keys generalizing c with
  | nil => rfl
  | cons key keys ih => exact (ih _).trans (del_snd_maxmem c key)

/-- What is left after deletions. -/
theorem without_lookup {ε : Type} (c : Cache ε) (keys : List KeyType) (k : KeyType) :
    (c.without keys).dict.lookup k = if k ∈ keys then none else c.dict.lookup k := by
  induction keys generalizing c with
  | nil => rfl
  | cons key keys ih =>
    show ((c.del key).2.without keys).dict.lookup k = _
    rw [ih, del_snd_dict, Finmap.lookup_erase_eq_ite]
    by_cases hk : k = key
    · simp [hk]
    · simp [hk]

/-- **What the loop does to a queue:** `n` passes pop `n` nodes and delete their
keys. -/
theorem evictions_fifo (h : c.evictor.isSome = true) {n : ℕ} (hn : n ≤ c.queue.length) :
    (evictions n c).evicted = c.queue.take n ∧
      (evictions n c).cache.queue = c.queue.drop n ∧
      (evictions n c).cache.evictor.isSome = true ∧
      (evictions n c).cache.dict = (c.without (c.queue.take n)).dict ∧
      (evictions n c).cache.size = (c.without (c.queue.take n)).size := by
  induction n with
  | zero => exact ⟨rfl, rfl, h, rfl, rfl⟩
  | succ n ih =>
    obtain ⟨hkeys, hqueue, hsome, hdict, hsize⟩ := ih (Nat.le_of_succ_le hn)
    obtain ⟨e, he⟩ := Option.isSome_iff_exists.1 hsome
    have hcontents : e.contents = c.queue.drop n := (queue_of_some he).symm.trans hqueue
    have hfront : c.queue.drop n = c.queue[n] :: c.queue.drop (n + 1) :=
      List.drop_eq_getElem_cons hn
    have hkey : (Evictor.evict e).1 = c.queue[n] := by
      show (FifoEvictor.evict e).1 = _
      rw [FifoEvictor.evict, hcontents, hfront]
    have hrest : (Evictor.evict e).2.contents = c.queue.drop (n + 1) := by
      rw [FifoEvictor.evict_snd_contents, hcontents, hfront, List.tail_cons]
    obtain ⟨hkeys', hdict', hsize', hev'⟩ := evictOne_of_some _ he
    rw [evictions_succ, hkeys', hdict', hsize', hkey, hkeys, List.take_succ_eq_append_getElem hn,
      without_append]
    refine ⟨rfl, ?_, by rw [hev']; rfl, ?_, ?_⟩
    · exact (queue_of_some hev').trans hrest
    · rw [hdict]
      exact (del_snd_dict _ _).symm
    · rw [entry, hdict, hsize]
      exact (del_snd_size _ _).symm

/-- The passes of the loop that a set of `key` makes, as a prefix of the queue. -/
theorem exits_iff_freesRoom (h : c.evictor.isSome = true) {key : KeyType} {size : SizeType} {n : ℕ}
    (hn : n ≤ c.queue.length) :
    While.Exits (tooFull size) evictOne ⟨[], (c.del key).2⟩ n ↔ c.FreesRoom key size n := by
  have hqueue : (c.del key).2.queue = c.queue := queue_congr (del_snd_evictor c key)
  have hexceeds : ∀ m ≤ n, tooFull size (evictOne^[m] ⟨[], (c.del key).2⟩) =
      ((c.del key).2.without (c.queue.take m)).exceeds size := by
    intro m hm
    obtain ⟨-, -, -, -, hsize⟩ := evictions_fifo (c := (c.del key).2) (n := m)
      (by rw [del_snd_evictor, h]) (by rw [hqueue]; omega)
    rw [hqueue] at hsize
    show (evictions m (c.del key).2).cache.exceeds size = _
    unfold exceeds spaceUsed
    rw [hsize, evictions_maxmem, without_maxmem]
  constructor
  · intro hex
    exact ⟨hn, (hexceeds n le_rfl).symm.trans hex.stop,
      fun m hm => (hexceeds m hm.le).symm.trans (hex.go m hm)⟩
  · intro hfree
    exact ⟨fun m hm => (hexceeds m hm.le).trans (hfree.needed m hm),
      (hexceeds n le_rfl).trans hfree.enough⟩

/-! ### Every entry is in the evictor's reach -/

/-- In a new cache there is nothing to queue. -/
theorem queued_new (maxmem : SizeType) (e : FifoEvictor) : (new maxmem (some e)).Queued :=
  ⟨rfl, fun k hk => absurd (Finmap.lookup_empty k) hk⟩

/-- A deletion leaves the queue as it is. -/
theorem Queued.del (h : c.Queued) (key : KeyType) : (c.del key).2.Queued := by
  refine ⟨by rw [del_snd_evictor, h.isSome], fun k hk => ?_⟩
  rw [del_snd_dict, Finmap.lookup_erase_eq_ite] at hk
  rw [queue_congr (del_snd_evictor c key)]
  exact h.covers k (ite_ne_left_iff.1 hk).2.symm

/-- A get queues the key whose entry it makes. -/
theorem Queued.get (h : c.Queued) (key : KeyType) : (c.get key).2.Queued := by
  refine ⟨by rw [get_snd_evictor, Option.isSome_map, h.isSome], fun k hk => ?_⟩
  have hqueue : (c.get key).2.queue = c.queue ++ [key] := queue_touch h.isSome key
  rw [hqueue, List.mem_append, List.mem_singleton]
  rw [get_snd_dict, subscript_snd_lookup] at hk
  by_cases heq : k = key
  · exact Or.inr heq
  · left
    refine h.covers k ?_
    rwa [if_neg fun hand => heq hand.1] at hk

/-- After a reset there is nothing to queue. -/
theorem Queued.reset (h : c.Queued) : c.reset.Queued :=
  ⟨h.isSome, fun k hk => absurd (Finmap.lookup_empty k) hk⟩

/-- One pass of the loop pops a node and deletes its key, so every other key keeps
its node. -/
theorem Queued.evictOne {w : Evicting FifoEvictor} (h : w.cache.Queued) :
    (evictOne w).cache.Queued := by
  obtain ⟨e, he⟩ := Option.isSome_iff_exists.1 h.isSome
  obtain ⟨-, hdict, -, hev⟩ := evictOne_of_some w he
  refine ⟨by rw [hev]; rfl, fun k hk => ?_⟩
  rw [hdict, Finmap.lookup_erase_eq_ite] at hk
  obtain ⟨hne, hk⟩ := ite_ne_left_iff.1 hk
  have hmem : k ∈ e.contents := queue_of_some he ▸ h.covers k hk.symm
  rw [queue_of_some hev]
  obtain ⟨_ | ⟨key, rest⟩⟩ := e
  · cases hmem
  · rcases List.mem_cons.1 hmem with rfl | hrest
    · exact absurd rfl hne
    · exact hrest

/-- What the loop pops it deletes. -/
theorem Queued.evictions (h : c.Queued) (n : ℕ) : (evictions n c).cache.Queued := by
  induction n with
  | zero => exact h
  | succ n ih =>
    rw [evictions_succ]
    exact ih.evictOne

/-- An insertion queues its key. -/
theorem Queued.insertCopy (h : c.Queued) (key : KeyType) (copy : Block) (size : SizeType) :
    (c.insertCopy key copy size).Queued := by
  refine ⟨by rw [insertCopy_evictor, Option.isSome_map, h.isSome], fun k hk => ?_⟩
  have hqueue : (c.insertCopy key copy size).queue = c.queue ++ [key] := queue_touch h.isSome key
  rw [hqueue, List.mem_append, List.mem_singleton]
  by_cases heq : k = key
  · exact Or.inr heq
  · rw [insertCopy_lookup_of_ne _ _ _ _ heq] at hk
    exact Or.inl (h.covers k hk)

/-- **Every call keeps the entries in the queue.** -/
theorem Queued.step {l : Call × Reply} (h : c.Queued) (hstep : Step c l c') : c'.Queued := by
  cases hstep with
  | set hset =>
    rcases setReturns_iff.1 hset with ⟨-, -, -, rfl⟩ | ⟨n, copied, -, -, -, rfl⟩
    · exact h.del _
    · exact ((h.del _).evictions n).insertCopy _ _ _
  | get => exact h.get _
  | del => exact h.del _
  | reset => exact h.reset

/-- **The entries are in the queue** after every run. -/
theorem Run.queued {maxmem : SizeType} {e : FifoEvictor} {log : List (Call × Reply)}
    (h : Run (new maxmem (some e)) log c) : c.Queued :=
  Trace.Run.invariant h (fun _ _ _ hstep hc => hc.step hstep) (queued_new maxmem e)

/-- With an empty queue there is nothing stored. -/
theorem Queued.dict_eq_empty (h : c.Queued) (hq : c.queue = []) : c.dict = ∅ := by
  refine Finmap.ext_lookup fun k => ?_
  rw [Finmap.lookup_empty]
  by_contra hk
  have hmem := h.covers k hk
  rw [hq] at hmem
  cases hmem

/-- Every key in `dict_` is in the queue, and without a queue there is nothing stored and
nothing counted. -/
structure InReach (c : Cache FifoEvictor) : Prop where
  covers : ∀ k, c.dict.lookup k ≠ none → k ∈ c.queue
  empty : c.queue = [] → c.dict = ∅ ∧ c.spaceUsed = 0

/-- What is in the queue is within the reach of the loop. -/
theorem Queued.inReach (h : c.Queued) (ht : c.Tallied) : c.InReach := by
  refine ⟨h.covers, fun hq => ?_⟩
  have hdict := h.dict_eq_empty hq
  refine ⟨hdict, UInt32.toNat_inj.1 ?_⟩
  unfold Tallied total at ht
  rw [hdict, Finmap.total_empty, Nat.zero_mod] at ht
  exact ht

/-- **Nothing is ever out of the evictor's reach.**  After any run of calls, of any sizes, on
a cache with an evictor that nothing else touches, and after any number of passes of the
eviction loop of a set, every key in `dict_`, with a value or without, is in the queue; and
when the queue is empty, so is `dict_`, and the space used is 0. -/
theorem entries_in_reach {maxmem : SizeType} {e : FifoEvictor} {log : List (Call × Reply)}
    (h : Run (new maxmem (some e)) log c) :
    c.InReach ∧ ∀ key n, (Cache.evictions n (c.del key).2).cache.InReach := by
  have hq := Run.queued h
  have ht := Run.tallied h
  exact ⟨hq.inReach ht, fun key n => ((hq.del key).evictions n).inReach ((ht.del key).evictions n)⟩

/-- A placeholder and two values, one of which evicts the other. -/
theorem entries_in_reach_play : ∃ log c,
    (new 8 (some FifoEvictor.new)).play 3
      [.get "z", .set "a" (cString "one") 4, .set "b" (cString "three") 6] = some (log, c) ∧
    c.queue = ["b"] ∧ c.InReach := by
  obtain ⟨log, c, hplay, hqueue⟩ : ∃ log c, (new 8 (some FifoEvictor.new)).play 3
      [.get "z", .set "a" (cString "one") 4, .set "b" (cString "three") 6] = some (log, c) ∧
      c.queue = ["b"] := ⟨_, _, rfl, rfl⟩
  exact ⟨log, c, hplay, hqueue, (entries_in_reach (run_of_play hplay)).1⟩

/-- **The loop terminates:** a value within the limit fits at the latest when the
queue is empty. -/
theorem Queued.exists_exits (h : c.Queued) (ht : c.Tallied) {size : SizeType}
    (hsize : size ≤ c.maxmem) :
    ∃ n ≤ c.queue.length, While.Exits (tooFull size) Cache.evictOne ⟨[], c⟩ n := by
  have hempty : tooFull size (Cache.evictOne^[c.queue.length] ⟨[], c⟩) = false := by
    have hq : (Cache.evictions c.queue.length c).cache.queue = [] := by
      rw [(evictions_fifo h.isSome le_rfl).2.1, List.drop_length]
    have hreach := (h.evictions c.queue.length).inReach (ht.evictions c.queue.length)
    have hzero : (Cache.evictions c.queue.length c).cache.size = 0 := (hreach.empty hq).2
    show (Cache.evictions c.queue.length c).cache.exceeds size = false
    rw [← Bool.not_eq_true, exceeds_iff, evictions_maxmem, hzero, UInt32.toNat_zero]
    rw [UInt32.le_iff_toNat_le] at hsize
    have := size.toNat_lt
    omega
  obtain ⟨n, hn⟩ := While.exists_exits ⟨_, hempty⟩
  refine ⟨n, ?_, hn⟩
  by_contra hlt
  rw [hn.go _ (not_le.1 hlt)] at hempty
  cases hempty

/-- Past the end of the queue the loop changes nothing, so it never leaves there. -/
theorem Queued.exits_le (h : c.Queued) {size : SizeType} {n : ℕ}
    (hn : While.Exits (tooFull size) Cache.evictOne ⟨[], c⟩ n) : n ≤ c.queue.length := by
  by_contra hlt
  have hgo := hn.go _ (not_le.1 hlt)
  obtain ⟨k, rfl⟩ := Nat.exists_eq_add_of_le (not_le.1 hlt).le
  have hsame : ∀ k, (Cache.evictions (c.queue.length + k) c).cache.queue = [] ∧
      (Cache.evictions (c.queue.length + k) c).cache.size =
        (Cache.evictions c.queue.length c).cache.size := by
    intro k
    induction k with
    | zero =>
      exact ⟨by rw [Nat.add_zero, (evictions_fifo h.isSome le_rfl).2.1, List.drop_length], rfl⟩
    | succ k ih =>
      have hw := h.evictions (c.queue.length + k)
      obtain ⟨e, he⟩ := Option.isSome_iff_exists.1 hw.isSome
      have hnil : e.contents = [] := (queue_of_some he).symm.trans ih.1
      obtain ⟨-, -, hsize, hev⟩ := evictOne_of_some _ he
      rw [← Nat.add_assoc, evictions_succ]
      constructor
      · rw [queue_of_some hev, FifoEvictor.evict_snd_contents, hnil, List.tail_nil]
      · rw [hsize, entry, hw.dict_eq_empty ih.1, Finmap.lookup_empty, ih.2]
        simp
  have hstop := hn.stop
  have hexceeds : tooFull size (Cache.evictions (c.queue.length + k) c) =
      tooFull size (Cache.evictions c.queue.length c) := by
    unfold tooFull exceeds spaceUsed
    rw [(hsame k).2, evictions_maxmem, evictions_maxmem]
  rw [show tooFull size (Cache.evictOne^[c.queue.length + k] ⟨[], c⟩) =
    tooFull size (Cache.evictOne^[c.queue.length] ⟨[], c⟩) from hexceeds, hgo] at hstop
  cases hstop

/-- **A set on the first-in, first-out cache.**  It pops the shortest prefix of the
queue that makes room, deletes its keys, and inserts the copy. -/
theorem Queued.setReturns_iff (h : c.Queued) {key : KeyType} {val : List ByteType}
    {size : SizeType} {r : Report} :
    c.SetReturns key val size r c' ↔
      ∃ n copied, c.FreesRoom key size n ∧ copyValue val size = some copied ∧
        r = ⟨c.queue.take n, true⟩ ∧
        c' = (Cache.evictions n (c.del key).2).cache.insertCopy key copied.copy size := by
  have hqueue : (c.del key).2.queue = c.queue := queue_congr (del_snd_evictor c key)
  have hkeys : ∀ {n}, n ≤ c.queue.length →
      (Cache.evictions n (c.del key).2).evicted = c.queue.take n := by
    intro n hn
    rw [(evictions_fifo (h.del key).isSome (by rwa [hqueue])).1, hqueue]
  rw [Cache.setReturns_iff]
  constructor
  · rintro (⟨-, hev, -, -⟩ | ⟨n, copied, hn, hcopy, rfl, rfl⟩)
    · have hsome := h.isSome
      rw [hev] at hsome
      cases hsome
    · have hle : n ≤ c.queue.length := hqueue ▸ (h.del key).exits_le hn
      exact ⟨n, copied, (exits_iff_freesRoom h.isSome hle).1 hn, hcopy, by rw [hkeys hle], rfl⟩
  · rintro ⟨n, copied, hfree, hcopy, rfl, rfl⟩
    exact Or.inr ⟨n, copied, (exits_iff_freesRoom h.isSome hfree.le).2 hfree, hcopy,
      by rw [hkeys hfree.le], rfl⟩

/-- **What such a set leaves behind.** -/
theorem Queued.setReturns_after (h : c.Queued) {key : KeyType} {size : SizeType} {n : ℕ}
    (hfree : c.FreesRoom key size n) (copy : Block) :
    let c' := (Cache.evictions n (c.del key).2).cache.insertCopy key copy size
    c'.queue = c.queue.drop n ++ [key] ∧
      (∀ k, c'.dict.lookup k = if k = key then some (some copy, size)
        else if k ∈ c.queue.take n then none else c.dict.lookup k) ∧
      c'.size = ((c.del key).2.without (c.queue.take n)).size + size := by
  have hqueue : (c.del key).2.queue = c.queue := queue_congr (del_snd_evictor c key)
  obtain ⟨-, hrest, hsome, hdict, hsize⟩ :=
    evictions_fifo (h.del key).isSome (n := n) (hqueue ▸ hfree.le)
  rw [hqueue] at hrest hdict hsize
  refine ⟨?_, fun k => ?_, by rw [insertCopy_size, hsize]⟩
  · rw [← hrest]
    exact queue_touch hsome key
  · split_ifs with hk hmem
    · rw [insertCopy_dict _ _ _ _ (evictions_del_lookup_self n c key), hk, Finmap.lookup_insert]
    · rw [insertCopy_lookup_of_ne _ _ _ _ hk, hdict, without_lookup, if_pos hmem]
    · rw [insertCopy_lookup_of_ne _ _ _ _ hk, hdict, without_lookup, if_neg hmem, del_snd_dict,
        Finmap.lookup_erase_ne hk]

/-! ### Sets of C strings -/

/-- A set of a C string that came back did not overflow its `int` index. -/
theorem Queued.length_lt (h : c.Queued) {key : KeyType} {s : String} (hs : IsCString s)
    {size : SizeType} {r : Report} (hset : c.SetReturns key (cString s) size r c') :
    s.length < 2 ^ 31 := by
  obtain ⟨n, copied, -, hcopy, -, -⟩ := h.setReturns_iff.1 hset
  by_contra hge
  have hnone := copyLoop_eq_none hs (i := 0) (by omega)
    (by rw [String.length_toList]; omega) (Copying.alloc size)
  unfold copyValue cString at hcopy
  rw [hnone] at hcopy
  cases hcopy

/-- **A C string that fits is stored,** whole and with its size. -/
theorem Queued.exists_set (h : c.Queued) (ht : c.Tallied) {s : String} (hs : IsCString s)
    {size : SizeType} (hsize : size.toNat = s.length + 1) (hle : size ≤ c.maxmem)
    (hlt : s.length < 2 ^ 31) (key : KeyType) :
    ∃ n, c.FreesRoom key size n ∧ c.SetReturns key (cString s) size ⟨c.queue.take n, true⟩
      ((Cache.evictions n (c.del key).2).cache.insertCopy key (stored s) size) := by
  obtain ⟨n, hn, hex⟩ := (h.del key).exists_exits (ht.del key) (by rwa [del_snd_maxmem])
  rw [queue_congr (del_snd_evictor c key)] at hn
  have hfree := (exits_iff_freesRoom h.isSome hn).1 hex
  have hcopy : copyValue (cString s) size = some ⟨stored s, false⟩ := by
    rw [copyValue_cString hs hsize, if_pos hlt]
  exact ⟨n, hfree, h.setReturns_iff.2 ⟨n, _, hfree, hcopy, rfl, rfl⟩⟩

/-- **Where there is room nothing is evicted.** -/
theorem Queued.exists_set_of_room (h : c.Queued) {s : String} (hs : IsCString s)
    {size : SizeType} (hsize : size.toNat = s.length + 1) (hlt : s.length < 2 ^ 31)
    {key : KeyType} (hroom : (c.del key).2.size.toNat + size.toNat ≤ c.maxmem.toNat) :
    ∃ c', c.SetReturns key (cString s) size ⟨[], true⟩ c' ∧
      (∀ k, c'.dict.lookup k =
        if k = key then some (some (stored s), size) else c.dict.lookup k) ∧
      c'.size.toNat = (c.del key).2.size.toNat + size.toNat := by
  have hmax := c.maxmem.toNat_lt
  have hfree : c.FreesRoom key size 0 := by
    refine ⟨Nat.zero_le _, ?_, fun m hm => absurd hm (Nat.not_lt_zero m)⟩
    show (c.del key).2.exceeds size = false
    rw [← Bool.not_eq_true, exceeds_iff, del_snd_maxmem]
    omega
  have hcopy : copyValue (cString s) size = some ⟨stored s, false⟩ := by
    rw [copyValue_cString hs hsize, if_pos hlt]
  obtain ⟨-, hlookup, hsize'⟩ := h.setReturns_after hfree (stored s)
  refine ⟨_, h.setReturns_iff.2 ⟨0, _, hfree, hcopy, rfl, rfl⟩, fun k => ?_, ?_⟩
  · rw [hlookup, List.take_zero, if_neg List.not_mem_nil]
  · have hsum : ((c.del key).2.size + size).toNat =
        (c.del key).2.size.toNat + size.toNat := by
      rw [UInt32.toNat_add, Nat.mod_eq_of_lt (by omega)]
    rw [hsize', List.take_zero]
    exact hsum

end Cache
end CacheBench
