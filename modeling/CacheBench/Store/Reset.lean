/-
# Is a cache as new after reset?

`reset` clears `dict_` and the counter and leaves the evictor alone, so the nodes of
the keys it drops stay in the queue.  What a client sees of a run of calls is, for
each call, its reply and `space_used()` after it (`Cache.Behaves`).  After `reset` it
sees what it would see of a new cache exactly when there is no evictor, or no node was
left in the queue, or the limit is one of the two under which no set that returns ever
evicts: `0`, where nothing of any size fits, and `2^32 - 1`, which the test cannot
exceed (`Cache.reset_behaves_iff`).

Otherwise the node `z` at the front of the queue tells the two apart: with the memory
full, a set that evicts pops that node before the one whose key makes room.
-/

import CacheBench.Store.Order

namespace CacheBench
namespace Cache

variable {ε : Type} [Evictor ε]

/-- One completed call, its reply as the caller sees it, and `space_used()` after it. -/
inductive Shown : Cache ε → Call × Seen × SizeType → Cache ε → Prop
  | call {c c' : Cache ε} {call : Call} {reply : Reply} :
      Step c (call, reply) c' → Shown c (call, reply.seen, c'.spaceUsed) c'

/-- The calls of `results`, made on `c`, complete with these results. -/
def Behaves (c : Cache ε) (results : List (Call × Seen × SizeType)) : Prop :=
  ∃ c', Trace.Run Shown c results c'

/-- A list of calls, each executed with the given fuel: what the caller sees of it. -/
def look (fuel : ℕ) : Cache ε → List Call → Option (List (Call × Seen × SizeType))
  | _, [] => some []
  | c, call :: calls =>
    (c.exec fuel call).bind fun p =>
      (look fuel p.2 calls).map fun rest => (call, p.1.seen, p.2.spaceUsed) :: rest

/-- What the calls are seen to do when they are made. -/
theorem behaves_of_look {c : Cache ε} (fuel : ℕ) (calls : List Call)
    {results : List (Call × Seen × SizeType)} (h : c.look fuel calls = some results) :
    c.Behaves results := by
  induction calls generalizing c results with
  | nil =>
    obtain rfl := Option.some.inj h
    exact ⟨c, .nil⟩
  | cons call calls ih =>
    obtain ⟨⟨reply, d⟩, hexec, hrest⟩ := Option.bind_eq_some_iff.1 h
    obtain ⟨rest, hlook, rfl⟩ := Option.map_eq_some_iff.1 hrest
    obtain ⟨c', hrun⟩ := ih hlook
    exact ⟨c', Trace.run_cons_iff.2 ⟨d, .call (step_iff_exec.2 ⟨fuel, hexec⟩), hrun⟩⟩

/-- A new cache, with a new `FifoEvictor` or without an evictor. -/
def fresh (maxmem : SizeType) (fifo : Bool) : Cache FifoEvictor :=
  new maxmem (if fifo then some FifoEvictor.new else none)

/-! ### Limits under which nothing is evicted -/

/-- The limit cannot be exceeded, or it is `0` and so is every size. -/
def Unevicting (c : Cache ε) : Prop :=
  c.maxmem = 4294967295 ∨ c.maxmem = 0 ∧ c.size = 0 ∧ ∀ k, (c.entry k).2 = 0

/-- The caches differ in the state of their evictors at most, and never evict. -/
structure Alike (c d : Cache ε) : Prop where
  dict : c.dict = d.dict
  size : c.size = d.size
  maxmem : c.maxmem = d.maxmem
  left : c.evictor.isSome = true
  right : d.evictor.isSome = true
  unevicting : c.Unevicting

section Unevicting

variable {c c' d : Cache ε} {key : KeyType} {size : SizeType}

section

omit [Evictor ε]

/-- A deletion makes no eviction necessary. -/
theorem Unevicting.del (h : c.Unevicting) (key : KeyType) : (c.del key).2.Unevicting := by
  rcases h with hmax | ⟨hmax, hsize, hentry⟩
  · exact Or.inl ((del_snd_maxmem c key).trans hmax)
  · refine Or.inr ⟨(del_snd_maxmem c key).trans hmax, ?_, fun k => ?_⟩
    · rw [del_snd_size, hsize, hentry]
      rfl
    · rw [del_snd_entry]
      split_ifs
      · rfl
      · exact hentry k

/-- Where nothing is evicted only a limit of 0 is exceeded. -/
theorem Unevicting.exceeds_iff (h : c.Unevicting) :
    c.exceeds size = true ↔ c.maxmem = 0 ∧ size ≠ 0 := by
  have hlt := (c.size + size).toNat_lt
  unfold exceeds spaceUsed
  rw [decide_eq_true_iff]
  rcases h with hmax | ⟨hmax, hsize, -⟩
  · rw [hmax, UInt32.lt_iff_toNat_lt]
    exact ⟨fun hgt => absurd hgt (by change ¬4294967295 < _; omega),
      fun h => absurd h.1 (by decide)⟩
  · rw [hmax, hsize, UInt32.zero_add, UInt32.pos_iff_ne_zero]
    simp

/-- Which of two caches that are alike comes first is all the same. -/
theorem Alike.symm (h : Alike c d) : Alike d c := by
  refine ⟨h.dict.symm, h.size.symm, h.maxmem.symm, h.right, h.left, ?_⟩
  have hu := h.unevicting
  unfold Unevicting entry at hu ⊢
  rwa [← h.dict, ← h.size, ← h.maxmem]

/-- The test of the loop does not tell them apart. -/
theorem Alike.exceeds_eq (h : Alike c d) (size : SizeType) : c.exceeds size = d.exceeds size := by
  unfold exceeds spaceUsed
  rw [h.size, h.maxmem]

/-- A deletion on both sides leaves them alike. -/
theorem Alike.del (h : Alike c d) (key : KeyType) : Alike (c.del key).2 (d.del key).2 := by
  obtain ⟨hdict, hsize⟩ := del_congr h.dict h.size key
  exact ⟨hdict, hsize, by rw [del_snd_maxmem, del_snd_maxmem, h.maxmem],
    by rw [del_snd_evictor, h.left], by rw [del_snd_evictor, h.right], h.unevicting.del key⟩

/-- A reset on both sides leaves them alike. -/
theorem Alike.reset (h : Alike c d) : Alike c.reset d.reset := by
  refine ⟨rfl, rfl, h.maxmem, h.left, h.right, ?_⟩
  rcases h.unevicting with hmax | ⟨hmax, -, -⟩
  · exact Or.inl hmax
  · exact Or.inr ⟨hmax, rfl, fun k => rfl⟩

end

/-- **A loop that leaves makes no pass.**  Where it would make one, no pass changes the
test. -/
theorem Unevicting.exits_eq_zero (h : c.Unevicting) {n : ℕ}
    (hn : While.Exits (tooFull size) evictOne ⟨[], c⟩ n) : n = 0 := by
  by_contra hpos
  have hgo : c.exceeds size = true := hn.go 0 (Nat.pos_of_ne_zero hpos)
  have hw : (evictions n c).cache.Unevicting := evictions_induction c (P := Unevicting)
    (fun d e k hd => Unevicting.del (c := { d with evictor := some e }) hd k) h n
  have hstop := exceeds_evictions_of_exits hn
  rw [← Bool.not_eq_true, hw.exceeds_iff, evictions_maxmem, ← h.exceeds_iff] at hstop
  exact hstop hgo

/-- A set that returns on such a cache inserts its copy at once. -/
theorem Unevicting.setReturns_iff (h : c.Unevicting) (hev : c.evictor.isSome = true)
    {val : List ByteType} {r : Report} :
    c.SetReturns key val size r c' ↔ c.exceeds size = false ∧ ∃ copied,
      copyValue val size = some copied ∧ r = ⟨[], true⟩ ∧
        c' = (c.del key).2.insertCopy key copied.copy size := by
  have hexceeds : (c.del key).2.exceeds size = c.exceeds size := by
    rw [Bool.eq_iff_iff, (h.del key).exceeds_iff, h.exceeds_iff, del_snd_maxmem]
  rw [Cache.setReturns_iff]
  constructor
  · rintro (⟨-, hnone, -, -⟩ | ⟨n, copied, hn, hcopy, rfl, rfl⟩)
    · rw [hnone] at hev
      cases hev
    · obtain rfl := (h.del key).exits_eq_zero hn
      exact ⟨hexceeds ▸ hn.stop, copied, hcopy, rfl, rfl⟩
  · rintro ⟨hstop, copied, hcopy, rfl, rfl⟩
    exact Or.inr ⟨0, copied, .zero (hexceeds.trans hstop), hcopy, rfl, rfl⟩

/-- An insertion that passes the test makes no eviction necessary. -/
theorem Unevicting.insertCopy (h : c.Unevicting) (hstop : c.exceeds size = false) (copy : Block) :
    ((c.del key).2.insertCopy key copy size).Unevicting := by
  have hnone : (c.del key).2.dict.lookup key = none := by
    rw [del_snd_dict, Finmap.lookup_erase]
  rw [← Bool.not_eq_true, h.exceeds_iff] at hstop
  rcases h.del key with hmax | ⟨hmax, hsize, hentry⟩
  · exact Or.inl hmax
  · rw [del_snd_maxmem] at hmax
    obtain rfl : size = 0 := not_not.1 fun hne => hstop ⟨hmax, hne⟩
    refine Or.inr ⟨(del_snd_maxmem c key).trans hmax, ?_, fun k => ?_⟩
    · rw [insertCopy_size, hsize]
      rfl
    · by_cases hk : k = key
      · rw [hk, insertCopy_entry_self _ _ _ _ hnone]
      · rw [entry, insertCopy_lookup_of_ne _ _ _ _ hk]
        exact hentry k

/-- A get on both sides leaves them alike. -/
theorem Alike.get (h : Alike c d) (key : KeyType) : Alike (c.get key).2 (d.get key).2 := by
  refine ⟨?_, h.size, h.maxmem, ?_, ?_, ?_⟩
  · rw [get_snd_dict, get_snd_dict, h.dict]
  · rw [get_snd_evictor, Option.isSome_map, h.left]
  · rw [get_snd_evictor, Option.isSome_map, h.right]
  · rcases h.unevicting with hmax | ⟨hmax, hsize, hzero⟩
    · exact Or.inl hmax
    · exact Or.inr ⟨hmax, hsize, fun k => (get_snd_entry c key k).symm ▸ hzero k⟩

/-- An insertion on both sides leaves them alike. -/
theorem Alike.insertCopy (h : Alike c d) (hstop : c.exceeds size = false) (copy : Block) :
    Alike ((c.del key).2.insertCopy key copy size) ((d.del key).2.insertCopy key copy size) := by
  have hdel := h.del key
  refine ⟨?_, ?_, ?_, ?_, ?_, h.unevicting.insertCopy hstop copy⟩
  · show emplace _ _ _ = emplace _ _ _
    rw [hdel.dict]
  · rw [insertCopy_size, insertCopy_size, hdel.size]
  · rw [insertCopy_maxmem, insertCopy_maxmem, hdel.maxmem]
  · rw [insertCopy_evictor, Option.isSome_map, hdel.left]
  · rw [insertCopy_evictor, Option.isSome_map, hdel.right]

/-- **A set on the one is a set on the other,** and leaves them alike. -/
theorem Alike.set (h : Alike c d) {val : List ByteType} {r : Report}
    (hset : c.SetReturns key val size r c') :
    ∃ d', d.SetReturns key val size r d' ∧ Alike c' d' := by
  obtain ⟨hstop, copied, hcopy, rfl, rfl⟩ := (h.unevicting.setReturns_iff h.left).1 hset
  exact ⟨_, (h.symm.unevicting.setReturns_iff h.right).2
    ⟨(h.exceeds_eq size).symm.trans hstop, copied, hcopy, rfl, rfl⟩, h.insertCopy hstop _⟩

/-- **Both caches take the same step.** -/
theorem Alike.shown (h : Alike c d) {l : Call × Seen × SizeType} (hc : Shown c l c') :
    ∃ d', Shown d l d' ∧ Alike c' d' := by
  -- a step of the other to a cache alike shows the same when its reply does
  have hsame : ∀ {call} {reply reply' : Reply} {c' d'}, Step d (call, reply') d' →
      reply'.seen = reply.seen → Alike c' d' →
        ∃ d', Shown d (call, reply.seen, c'.spaceUsed) d' ∧ Alike c' d' := by
    intro call reply reply' c' d' hstep hseen halike
    have hshown := Shown.call hstep
    rw [hseen, spaceUsed, ← halike.size] at hshown
    exact ⟨d', hshown, halike⟩
  obtain ⟨hstep⟩ := hc
  cases hstep with
  | set hset =>
    obtain ⟨d', hset', halike⟩ := h.set hset
    exact hsame (.set hset') rfl halike
  | get key =>
    refine hsame (.get d key) ?_ (h.get key)
    rw [get_fst, get_fst, entry, entry, h.dict]
  | del key =>
    refine hsame (.del d key) ?_ (h.del key)
    rw [del_fst, del_fst, h.dict]
  | reset => exact hsame (.reset d) rfl h.reset

/-- **Caches that differ in their evictors at most,** and never evict, look the same. -/
theorem Alike.behaves (h : Alike c d) {results : List (Call × Seen × SizeType)}
    (hc : c.Behaves results) : d.Behaves results := by
  obtain ⟨c', hrun⟩ := hc
  obtain ⟨d', hrun', -⟩ := Trace.Run.simulate hrun (fun _ _ _ _ hR hstep => hR.shown hstep) h
  exact ⟨d', hrun'⟩

end Unevicting

/-! ### A node that outlived the reset -/

variable {c c' : Cache FifoEvictor} {maxmem : SizeType} {log : List (Call × Reply)}

/-- What is shown is seen of a call that was made. -/
theorem Shown.exists_step {ε : Type} [Evictor ε] {c c' : Cache ε} {call : Call} {seen : Seen}
    {used : SizeType} (h : Shown c (call, seen, used) c') :
    ∃ reply, Step c (call, reply) c' ∧ reply.seen = seen := by
  generalize hl : (call, seen, used) = l at h
  obtain ⟨hstep⟩ := h
  obtain ⟨rfl, hseen⟩ := Prod.mk.inj hl
  exact ⟨_, hstep, (Prod.mk.inj hseen).1.symm⟩

/-- One cache is left by what is shown. -/
theorem Shown.deterministic {ε : Type} [Evictor ε] {c c₁ c₂ : Cache ε}
    {l : Call × Seen × SizeType} (h₁ : Shown c l c₁) (h₂ : Shown c l c₂) : c₁ = c₂ := by
  obtain ⟨call, seen, used⟩ := l
  obtain ⟨reply₁, h₁, -⟩ := h₁.exists_step
  obtain ⟨reply₂, h₂, -⟩ := h₂.exists_step
  exact h₁.next_unique h₂

/-- The calls that tell a cache with `z` at the front of its queue from a new one: fill
the memory, read `z`, make room, delete `z`. -/
def probe (maxmem : SizeType) (x y z : KeyType) : List (Call × Seen × SizeType) :=
  [(.set y [nul] maxmem, .nothing, maxmem), (.get z, .entry (none, 0), maxmem),
    (.set x [nul] 1, .nothing, 1), (.del z, .found true, 1)]

/-- The first half of the probe, on a cache with nothing stored. -/
theorem Queued.probe_half (h : c.Queued) (hdict : c.dict = ∅) (hsize : c.size = 0) {y z : KeyType}
    (hyz : y ≠ z) :
    ∃ c₂ copy, Trace.Run Shown c [(.set y [nul] c.maxmem, .nothing, c.maxmem),
        (.get z, .entry (none, 0), c.maxmem)] c₂ ∧
      c₂.Queued ∧ c₂.queue = c.queue ++ [y] ++ [z] ∧ c₂.size = c.maxmem ∧ c₂.maxmem = c.maxmem ∧
      ∀ k, c₂.dict.lookup k = if k = y then some (some copy, c.maxmem)
        else if k = z then some (none, 0) else none := by
  have hnone : ∀ k, c.dict.lookup k = none := fun k => by rw [hdict, Finmap.lookup_empty]
  have hfree : c.FreesRoom y c.maxmem 0 := by
    refine ⟨Nat.zero_le _, ?_, fun m hm => absurd hm (Nat.not_lt_zero m)⟩
    show (c.del y).2.exceeds c.maxmem = false
    rw [del_of_lookup_eq_none _ _ (hnone y), ← Bool.not_eq_true, exceeds_iff, hsize,
      UInt32.toNat_zero, Nat.zero_add, Nat.mod_eq_of_lt c.maxmem.toNat_lt]
    exact lt_irrefl _
  obtain ⟨copy, c₁, hset, hqueue, hlookup, hcount⟩ := h.exists_setReturns hfree
  have hq₁ : c₁.Queued := h.step (.set hset)
  have hmax : c₁.maxmem = c.maxmem := Step.maxmem (.set hset)
  replace hcount : c₁.size = c.maxmem := by
    rw [hcount, List.take_zero]
    show (c.del y).2.size + c.maxmem = c.maxmem
    rw [del_of_lookup_eq_none _ _ (hnone y), hsize, UInt32.zero_add]
  have hentry : c₁.entry z = (none, 0) := by
    rw [entry, hlookup, if_neg hyz.symm, List.take_zero, if_neg List.not_mem_nil, hnone]
    rfl
  refine ⟨(c₁.get z).2, copy, ?_, hq₁.get z, ?_, hcount, hmax, fun k => ?_⟩
  · have hfirst := Shown.call (.set hset)
    have hsecond := Shown.call (.get c₁ z)
    rw [spaceUsed, hcount] at hfirst
    rw [spaceUsed, get_snd_size, hcount, get_fst, hentry] at hsecond
    exact .snoc (.snoc .nil hfirst) hsecond
  · have hget : (c₁.get z).2.queue = c₁.queue ++ [z] := queue_touch hq₁.isSome z
    rw [hget, hqueue, List.drop_zero]
  · rw [get_snd_dict, subscript_snd_lookup, hlookup, hlookup, List.take_zero, hnone, hnone]
    by_cases hky : k = y
    · simp [hky, hyz]
    · by_cases hkz : k = z
      · simp [hkz, hyz.symm]
      · simp [hky, hkz]

/-- **A new cache passes the probe:** one eviction makes room, and it takes `y`. -/
theorem probe_new (hpos : maxmem ≠ 0) (hmax : maxmem ≠ 4294967295) {x y z : KeyType} (hxy : x ≠ y)
    (hxz : x ≠ z) (hyz : y ≠ z) : (fresh maxmem true).Behaves (probe maxmem x y z) := by
  obtain ⟨c₂, copy, hrun, hq, hqueue, hsize, hm, hlookup⟩ :=
    (queued_new maxmem FifoEvictor.new).probe_half rfl rfl hyz
  replace hqueue : c₂.queue = [y, z] := hqueue
  rw [new_maxmem] at hsize hm hlookup
  have hx : c₂.dict.lookup x = none := by rw [hlookup, if_neg hxy, if_neg hxz]
  have hempty : ((c₂.del x).2.without (c₂.queue.take 1)).size = 0 := by
    rw [del_of_lookup_eq_none _ _ hx, hqueue]
    show (c₂.del y).2.size = 0
    rw [del_snd_size, entry, hlookup, if_pos rfl, hsize]
    exact UInt32.sub_self _
  have hfree : c₂.FreesRoom x 1 1 := by
    have hlt := maxmem.toNat_lt
    have hne : maxmem.toNat ≠ 4294967295 := fun heq => hmax (UInt32.toNat_inj.1 heq)
    have hne' : maxmem.toNat ≠ 0 := fun heq => hpos (UInt32.toNat_inj.1 heq)
    refine ⟨by rw [hqueue]; exact Nat.le_succ 1, ?_, fun m hm' => ?_⟩
    · rw [← Bool.not_eq_true, exceeds_iff, hempty, without_maxmem, del_snd_maxmem, hm,
        UInt32.toNat_zero, UInt32.toNat_one]
      omega
    · obtain rfl : m = 0 := Nat.lt_one_iff.1 hm'
      show (c₂.del x).2.exceeds 1 = true
      rw [del_of_lookup_eq_none _ _ hx, exceeds_iff, hsize, hm, UInt32.toNat_one]
      omega
  obtain ⟨copy', c₃, hset, -, hlookup₃, hsize₃⟩ := hq.exists_setReturns hfree
  rw [hempty] at hsize₃
  have hz : c₃.dict.lookup z = some (none, 0) := by
    rw [hlookup₃, if_neg hxz.symm, hqueue, if_neg (by simpa using hyz.symm), hlookup,
      if_neg hyz.symm, if_pos rfl]
  have hthird := Shown.call (.set hset)
  have hfourth := Shown.call (.del c₃ z)
  rw [spaceUsed, hsize₃] at hthird
  rw [spaceUsed, del_snd_size, entry, del_fst, hz, hsize₃] at hfourth
  exact ⟨_, Trace.run_append_iff.2 ⟨c₂, hrun, .snoc (.snoc .nil hthird) hfourth⟩⟩

/-- **A cache with `z` at the front of its queue fails it:** the same set evicts `z`
first, and the delete finds nothing. -/
theorem Queued.probe_fails (h : c.Queued) (hdict : c.dict = ∅) (hsize : c.size = 0)
    (hmax : c.maxmem ≠ 4294967295) {x y z : KeyType} {rest : List KeyType} (hxy : x ≠ y)
    (hxz : x ≠ z) (hyz : y ≠ z) (hqueue : c.queue = z :: rest) :
    ¬c.Behaves (probe c.maxmem x y z) := by
  rintro ⟨c₄, hprobe⟩
  obtain ⟨c₂, copy, hrun, hq, hqueue₂, hsize₂, hm, hlookup⟩ := h.probe_half hdict hsize hyz
  obtain ⟨d₂, hrun', hrest⟩ := Trace.run_append_iff.1
    (show Trace.Run Shown c ([_, _] ++ [_, _]) c₄ from hprobe)
  obtain rfl := Trace.Run.unique hrun hrun' fun _ _ _ _ => Shown.deterministic
  obtain ⟨c₃, hthird, hfourth⟩ := Trace.run_cons_iff.1 hrest
  obtain ⟨reply₃, hthird, -⟩ := hthird.exists_step
  obtain ⟨reply₄, hfourth, hfound⟩ := (Trace.run_singleton_iff.1 hfourth).exists_step
  cases hthird with
  | set hset =>
    obtain ⟨n, copied, hfree, -, rfl, rfl⟩ := hq.setReturns_iff.1 hset
    -- the memory is full, so the loop pops `z` at least
    have hpos : n ≠ 0 := by
      rintro rfl
      have hx : c₂.dict.lookup x = none := by rw [hlookup, if_neg hxy, if_neg hxz]
      have hstop : (c₂.del x).2.exceeds 1 = false := hfree.enough
      have hlt := c.maxmem.toNat_lt
      have hne : c.maxmem.toNat ≠ 4294967295 := fun heq => hmax (UInt32.toNat_inj.1 heq)
      rw [del_of_lookup_eq_none _ _ hx, ← Bool.not_eq_true, exceeds_iff, hsize₂, hm,
        UInt32.toNat_one] at hstop
      omega
    have hmem : z ∈ c₂.queue.take n := by
      obtain ⟨m, rfl⟩ := Nat.exists_eq_succ_of_ne_zero hpos
      rw [hqueue₂, hqueue]
      simp
    have hgone := (hq.setReturns_after hfree copied.copy).2.1 z
    rw [if_neg hxz.symm, if_pos hmem] at hgone
    cases hfourth with
    | del =>
      rw [Reply.seen, del_fst, hgone] at hfound
      cases hfound

/-- **When a reset cache is as good as new.**  After a run and `reset`, every further
run of completed calls has the results that it has on a new cache exactly when there is
no evictor, or the limit is `0` or `2^32 - 1`, or no node was left in the queue. -/
theorem reset_behaves_iff {fifo : Bool} (h : Run (fresh maxmem fifo) log c) :
    (∀ results, c.reset.Behaves results ↔ (fresh maxmem fifo).Behaves results) ↔
      fifo = false ∨ maxmem = 0 ∨ maxmem = 4294967295 ∨ c.queue = [] := by
  have hmax : c.maxmem = maxmem := Run.maxmem h
  constructor
  · intro hsame
    by_contra hcond
    simp only [not_or, Bool.not_eq_false] at hcond
    obtain ⟨rfl, hpos, hlast, hqueue⟩ := hcond
    obtain ⟨z, rest, hz⟩ := List.exists_cons_of_ne_nil hqueue
    obtain ⟨y, -, hy, -⟩ := exists_fresh c [z]
    obtain ⟨x, -, hx, -⟩ := exists_fresh c [y, z]
    simp only [List.mem_cons, List.not_mem_nil, or_false, not_or] at hx hy
    refine (Run.queued h).reset.probe_fails rfl rfl ?_ hx.1 hx.2 hy hz ?_
    · rwa [reset_maxmem, hmax]
    · rw [reset_maxmem, hmax, hsame]
      exact probe_new hpos hlast hx.1 hx.2 hy
  · intro hcond
    suffices hsame : c.reset = fresh maxmem fifo ∨ Alike c.reset (fresh maxmem fifo) by
      intro results
      rcases hsame with heq | halike
      · rw [heq]
      · exact ⟨halike.behaves, halike.symm.behaves⟩
    cases fifo with
    | false =>
      have hnone : c.evictor = none := (Run.evictor_eq_none h).2 rfl
      left
      rw [reset, hmax, hnone]
      rfl
    | true =>
      have hq : c.Queued := Run.queued h
      obtain ⟨e, he⟩ := Option.isSome_iff_exists.1 hq.isSome
      have halike : c.reset.Unevicting → Alike c.reset (fresh maxmem true) :=
        fun hu => ⟨rfl, rfl, hmax, hq.isSome, rfl, hu⟩
      rcases hcond with hfalse | h0 | hlast | hqueue
      · cases hfalse
      · exact Or.inr (halike (Or.inr ⟨hmax.trans h0, rfl, fun k => rfl⟩))
      · exact Or.inr (halike (Or.inl (hmax.trans hlast)))
      · left
        obtain ⟨contents⟩ := e
        obtain rfl : contents = [] := (queue_of_some he).symm.trans hqueue
        rw [reset, hmax, he]
        rfl

/-- A run that leaves a node behind, so that neither side holds. -/
theorem reset_behaves_iff_play : ∃ log c, (fresh 2 true).play 0 [.get "z"] = some (log, c) ∧
    ((∀ results, c.reset.Behaves results ↔ (fresh 2 true).Behaves results) ↔
      true = false ∨ (2 : SizeType) = 0 ∨ (2 : SizeType) = 4294967295 ∨ c.queue = []) := by
  obtain ⟨log, c, hc⟩ : ∃ log c, (fresh 2 true).play 0 [.get "z"] = some (log, c) := ⟨_, _, rfl⟩
  exact ⟨log, c, hc, reset_behaves_iff (run_of_play hc)⟩

/-- **A node that outlives the reset:** after a read of `z` and a reset, four calls
complete as on a new cache, and only the new one still finds `z` to delete. -/
theorem reset_leaves_node :
    ∃ log c, Run (fresh 2 true) log c ∧
      c.reset.Behaves [(.set "y" (cString "") 2, .nothing, 2), (.get "z", .entry (none, 0), 2),
        (.set "x" (cString "") 1, .nothing, 1), (.del "z", .found false, 1)] ∧
      (fresh 2 true).Behaves [(.set "y" (cString "") 2, .nothing, 2),
        (.get "z", .entry (none, 0), 2), (.set "x" (cString "") 1, .nothing, 1),
        (.del "z", .found true, 1)] ∧
      ¬∀ results, c.reset.Behaves results ↔ (fresh 2 true).Behaves results := by
  have hnew : (fresh 2 true).Behaves (probe 2 "x" "y" "z") :=
    probe_new (by decide) (by decide) (by decide) (by decide) (by decide)
  have hq : ((fresh 2 true).get "z").2.reset.Queued :=
    ((queued_new 2 FifoEvictor.new).get "z").reset
  refine ⟨_, _, Trace.run_singleton_iff.2 (.get _ "z"), ?_, hnew, fun hsame => ?_⟩
  · exact behaves_of_look 2
      [.set "y" (cString "") 2, .get "z", .set "x" (cString "") 1, .del "z"] rfl
  · exact hq.probe_fails rfl rfl (by decide) (x := "x") (y := "y") (z := "z") (by decide)
      (by decide) (by decide) rfl ((hsame _).2 hnew)

end Cache
end CacheBench
