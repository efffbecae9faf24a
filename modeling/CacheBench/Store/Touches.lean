/-
# What becomes of a touch

`get` and `set` tell the evictor of their keys, and `evict` takes keys back from it.  On a
`FifoEvictor` no touch is lost, doubled or overtaken: over a whole run, the keys that were
evicted, in order, and then the queue are the keys that were touched, in order
(`Cache.touched_eq`).

So the eviction loops of a run take no more passes together than it has calls, however many
a single set takes.  And `maxmem` does not bound the queue: what bounds it is the number of
gets and sets, and only a set that evicts makes it shorter.
-/

import CacheBench.Store.Fifo

namespace CacheBench
namespace Cache

/-- The key that a completed call touches. -/
def touched : Call × Reply → List KeyType
  | (.set key _ _, .set r) => if r.admitted then [key] else []
  | (.get key, _) => [key]
  | _ => []

/-- The keys that a completed call evicts, in order. -/
def evictedBy : Call × Reply → List KeyType
  | (.set _ _ _, .set r) => r.evicted
  | _ => []

variable {c c' : Cache FifoEvictor} {log : List (Call × Reply)} {maxmem : SizeType}
variable {l : Call × Reply}

/-- A call touches one key at most. -/
theorem length_touched_le (l : Call × Reply) : (touched l).length ≤ 1 := by
  unfold touched
  split
  · split_ifs
    · exact le_rfl
    · exact Nat.zero_le _
  · exact le_rfl
  · exact Nat.zero_le _

/-- A run touches at most one key a call. -/
theorem length_touches_le (log : List (Call × Reply)) :
    (log.map touched).flatten.length ≤ log.length := by
  induction log with
  | nil => exact le_rfl
  | cons l log ih =>
    have hone := length_touched_le l
    rw [List.map_cons, List.flatten_cons, List.length_append, List.length_cons]
    omega

/-- **One call** takes what it evicts from the front of the queue and puts what it touches at
its end. -/
theorem Queued.queue_step (h : c.Queued) (hstep : Step c l c') :
    c.queue ++ touched l = evictedBy l ++ c'.queue := by
  cases hstep with
  | set hset =>
    obtain ⟨n, copied, hfree, -, rfl, rfl⟩ := h.setReturns_iff.1 hset
    rw [(h.setReturns_after hfree copied.copy).1, ← List.append_assoc]
    show c.queue ++ _ = c.queue.take n ++ c.queue.drop n ++ _
    rw [List.take_append_drop]
    rfl
  | get => exact (queue_touch h.isSome _).symm
  | del => exact (List.append_nil _).trans (queue_congr (del_snd_evictor c _)).symm
  | reset => exact List.append_nil _

/-- **No touch is lost, doubled or overtaken.**  After every run of calls, of any sizes, on a
cache with a `FifoEvictor` that nothing else touches: what was in the queue at first and the
keys that were touched since, in order, are the keys that were evicted and the queue.  So all
eviction loops of the run together took at most as many passes as there were keys at first
and calls since, and the queue is as long as all touches leave it less all evictions. -/
theorem touched_eq {e : FifoEvictor} (h : Run (new maxmem (some e)) log c) :
    e.contents ++ (log.map touched).flatten = (log.map evictedBy).flatten ++ c.queue ∧
      (log.map evictedBy).flatten.length ≤ e.contents.length + log.length := by
  have heq : e.contents ++ (log.map touched).flatten =
      (log.map evictedBy).flatten ++ c.queue := by
    induction h with
    | nil => exact List.append_nil _
    | @snoc log l c c' hrun hstep ih =>
      have hqueue := (Run.queued hrun).queue_step hstep
      rw [List.map_append, List.map_append, List.flatten_append, List.flatten_append,
        ← List.append_assoc, ih, List.append_assoc, List.append_assoc]
      simp only [List.map_singleton, List.flatten_singleton]
      rw [hqueue]
  refine ⟨heq, ?_⟩
  have hlen := congrArg List.length heq
  have htouches := length_touches_le log
  rw [List.length_append, List.length_append] at hlen
  omega

/-- A touch of a key that is not there, and two values of which one evicts the other. -/
theorem touched_eq_play : ∃ log c,
    (new 8 (some FifoEvictor.new)).play 3
      [.get "z", .set "a" (cString "one") 4, .set "b" (cString "three") 6] = some (log, c) ∧
    ["z", "a", "b"] = (log.map evictedBy).flatten ++ c.queue := by
  obtain ⟨c, hc⟩ : ∃ c, (new 8 (some FifoEvictor.new)).play 3
      [.get "z", .set "a" (cString "one") 4, .set "b" (cString "three") 6] =
        some ([(.get "z", .get (none, 0)), (.set "a" (cString "one") 4, .set ⟨[], true⟩),
          (.set "b" (cString "three") 6, .set ⟨["z", "a"], true⟩)], c) := ⟨_, rfl⟩
  exact ⟨_, c, hc, (touched_eq (run_of_play hc)).1⟩

end Cache
end CacheBench
