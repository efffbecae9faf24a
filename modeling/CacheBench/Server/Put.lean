/-
# What a PUT stores

A PUT asks `get` whether the key has a value, for the status, and then sets it.  The get
puts a placeholder where there was none; the set deletes it again, so neither the status
nor what is stored depends on it.  After any run of requests a PUT of a value that fits
is answered 201 for a new key and 204 for one that had a value, a GET of the key returns
the value, and a GET of any other key is answered as before or not found, exactly when
the value is shorter than `2^31`, where the `int` index of the copy loop ends
(`Cache.put_stores_iff`).
-/

import CacheBench.Store.Order
import CacheBench.Server.Serve

namespace CacheBench
namespace Cache

variable {c c' d : Cache FifoEvictor} {maxmem : SizeType} {B : Boost}
  {log : List (Request × Except Thrown Response)} {k v : String}

/-- What a PUT of `v` under `k` should do: it is answered by whether `k` had a value; a
GET of `k` then returns `v`; and a GET of any other key is answered as it would have
been before, or not found. -/
def StoresPut (B : Boost) (c : Cache FifoEvictor) (k v : String) : Prop :=
  ∀ version keepAlive, ∃ reply c',
    Handles B c ⟨.put, pairTarget k v, version, keepAlive⟩ (.ok reply) c' ∧
    reply.status = (if c.Live k then 204 else 201) ∧
    ∀ version keepAlive,
      (∃ reply d, Handles B c' ⟨.get, keyTarget k, version, keepAlive⟩ (.ok reply) d ∧
        reply.status = 200 ∧ reply.body = kvJsonAsString B k v) ∧
      ∀ j, j ≠ k → ∃ before after d d',
        Handles B c ⟨.get, keyTarget j, version, keepAlive⟩ (.ok before) d ∧
        Handles B c' ⟨.get, keyTarget j, version, keepAlive⟩ (.ok after) d' ∧
        (after = before ∨ after.status = 404)

/-- How a GET is answered depends on the entry of its key alone. -/
theorem handles_get_congr {version : ℕ} {keepAlive : Bool} {out : Except Thrown Response}
    (hentry : d.entry k = c.entry k)
    (h : Handles B c ⟨.get, keyTarget k, version, keepAlive⟩ out c') :
    Handles B d ⟨.get, keyTarget k, version, keepAlive⟩ out (d.get k).2 := by
  rw [handles_get_iff] at h ⊢
  rw [hentry]
  exact ⟨rfl, h.2⟩

/-- After any run of requests a PUT stores a value shorter than `2^31` that fits, and leaves
under any other key what it had, or nothing. -/
theorem exists_put (B : Boost) (h : Serves B (serverCache maxmem) log c)
    (hnul : ∀ l ∈ log, IsCString l.1.target) (hk : SlashFree k) (hv : SlashFree v)
    (hvnul : IsCString v) (hfit : v.length + 1 ≤ maxmem.toNat) (hlt : v.length < 2 ^ 31)
    (version : ℕ) (keepAlive : Bool) :
    ∃ c', Handles B c ⟨.put, pairTarget k v, version, keepAlive⟩
        (.ok (putReply B ⟨.put, pairTarget k v, version, keepAlive⟩ k (c.entry k).1.isNone)) c' ∧
      c'.entry k = (some (stored v), UInt32.ofNat (v.length + 1)) ∧
      ∀ j, j ≠ k → c'.entry j = c.entry j ∨ c'.entry j = (none, 0) := by
  obtain ⟨calls, hrun, -⟩ := h.calls hnul
  have hq : (c.get k).2.Queued := (Run.queued hrun).get k
  have htallied : (c.get k).2.Tallied := (Run.tallied hrun).step (.get c k)
  have hmax : (c.get k).2.maxmem = maxmem := Run.maxmem hrun
  have hsize := toNat_put_size hfit
  obtain ⟨n, hfree, hset⟩ := hq.exists_set htallied hvnul hsize
    (by rwa [hmax, UInt32.le_iff_toNat_le, hsize]) hlt k
  refine ⟨_, (handles_put_iff hk hv).2 ⟨⟨_, hset⟩, rfl⟩, ?_, fun j hj => ?_⟩
  · rw [hq.setReturns_entry hfree, if_pos rfl]
  · have hentry := hset.entry_of_ne hj
    rwa [get_snd_entry] at hentry

/-- **What the server answers is what was stored.**  After any run of requests whose
targets have no `'\0'` in them, and for every key and value without a slash, the value
without a `'\0'` and within the limit: the PUT does what `StoresPut` says if and only if
the value is shorter than `2^31`. -/
theorem put_stores_iff (B : Boost) (h : Serves B (serverCache maxmem) log c)
    (hnul : ∀ l ∈ log, IsCString l.1.target) (hk : SlashFree k) (hv : SlashFree v)
    (hvnul : IsCString v) (hfit : v.length + 1 ≤ maxmem.toNat) :
    StoresPut B c k v ↔ v.length < 2 ^ 31 := by
  obtain ⟨calls, hrun, hsets⟩ := h.calls hnul
  have hq : (c.get k).2.Queued := (Run.queued hrun).get k
  have hstocked : c.Stocked := Run.stocked hrun hsets
  constructor
  · intro hput
    obtain ⟨reply, c', hhandles, -⟩ := hput 11 true
    obtain ⟨⟨r, hset⟩, -⟩ := (handles_put_iff hk hv).1 hhandles
    exact hq.length_lt hvnul hset
  · intro hlt version keepAlive
    obtain ⟨c', hput, hself, hother⟩ :=
      exists_put B h hnul hk hv hvnul hfit hlt version keepAlive
    refine ⟨_, _, hput, ?_, fun version keepAlive => ⟨?_, fun j hj => ?_⟩⟩
    · show (if (c.entry k).1.isNone then 201 else 204) = _
      by_cases hlive : c.Live k
      · rw [if_pos hlive, if_neg (by simpa [Live] using hlive)]
      · rw [if_neg hlive, if_pos (by simpa [Live] using hlive)]
    · refine ⟨_, _, handles_get_iff.2 ⟨rfl, Or.inr ⟨stored v, v, ?_, ?_, rfl⟩⟩, rfl, rfl⟩
      · rw [hself]
      · rw [hself]
        exact heldValue_stored hvnul (toNat_put_size hfit)
    · obtain ⟨before, d, hbefore⟩ := hstocked.exists_get B j version keepAlive
      rcases hother j hj with hj' | hj'
      · exact ⟨before, before, d, _, hbefore, handles_get_congr hj' hbefore, Or.inl rfl⟩
      · exact ⟨before, _, d, _, hbefore,
          handles_get_iff.2 ⟨rfl, Or.inl ⟨by rw [hj'], rfl⟩⟩, Or.inr rfl⟩

/-- A PUT that evicts another key, after a GET that missed. -/
theorem put_stores_iff_run : ∃ log c, Serves plainBoost (serverCache 8) log c ∧
    StoresPut plainBoost c "a" "three" := by
  obtain ⟨log, c, h, hnul⟩ : ∃ log c, Serves plainBoost (serverCache 8) log c ∧
      ∀ l ∈ log, IsCString l.1.target := by
    refine ⟨[(⟨.get, keyTarget "a", 11, true⟩, _), (⟨.put, pairTarget "b" "one", 11, true⟩, _)], _,
      .snoc (.snoc .nil (handles_get_iff.2 ⟨rfl, Or.inl ⟨rfl, rfl⟩⟩))
        ((handles_put_iff (by decide) (by decide)).2 ⟨⟨_, 0, rfl⟩, rfl⟩), ?_⟩
    intro l hl
    simp only [List.mem_cons, List.not_mem_nil, or_false] at hl
    rcases hl with rfl | rfl <;> decide
  exact ⟨log, c, h, (put_stores_iff plainBoost h hnul (by decide) (by decide) (by decide)
    (by decide)).2 (by decide)⟩

/-- **A value of `2^31` bytes defeats it:** a server with room for it twice over has no
defined outcome for the PUT. -/
theorem put_overflows_int :
    let v := String.ofList (List.replicate (2 ^ 31) 'a')
    SlashFree "k" ∧ SlashFree v ∧ IsCString v ∧ v.length + 1 ≤ (4294967295 : SizeType).toNat ∧
      ¬StoresPut plainBoost (serverCache 4294967295) "k" v := by
  intro v
  have hlen : v.length = 2 ^ 31 := letters_length _
  have hslash : SlashFree v := letters_slashFree _
  have hnul : IsCString v := letters_isCString _
  refine ⟨by decide, hslash, hnul, ?_, fun hput => ?_⟩
  · rw [hlen]
    decide
  · obtain ⟨reply, c', hhandles, -⟩ := hput 11 true
    obtain ⟨⟨r, hset⟩, -⟩ := (handles_put_iff (by decide) hslash).1 hhandles
    have hlt := ((queued_new 4294967295 FifoEvictor.new).get "k").length_lt hnul hset
    rw [hlen] at hlt
    exact lt_irrefl _ hlt

end Cache
end CacheBench
