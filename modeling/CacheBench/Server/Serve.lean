/-
# Runs of requests

`cache_server.cc` gives the cache its own `FifoEvictor` and hands every request of
every client to `handle_request`, one at a time.  A run of requests is a run of calls
of the cache (`Serves.calls`): a request makes at most one call, or for a PUT a get and
a set, whose value is a C string with `size = strlen + 1` when the target has no
`'\0'` in it.  So whatever holds of the cache after every run of such calls holds
between requests; and what a GET copies of a stored value is that value
(`heldValue_stored`).
-/

import CacheBench.Server.Outcome
import CacheBench.Store.Fifo
import CacheBench.Store.LastWrite

namespace CacheBench

open Cache (SetsCString)

/-- The requests and outcomes of `log`, one after the other, lead from one state of the
server's cache to another. -/
abbrev Serves (B : Boost) :
    Cache FifoEvictor → List (Request × Except Thrown Response) → Cache FifoEvictor → Prop :=
  Trace.Run fun c l c' => Handles B c l.1 l.2 c'

/-- The cache that `main` creates. -/
def serverCache (maxmem : SizeType) : Cache FifoEvictor :=
  Cache.new maxmem (some FifoEvictor.new)

/-! ### What a GET copies -/

/-- A terminated string is copied with its terminator. -/
theorem strncpy_terminated {s : List ByteType} (hs : nul ∉ s) :
    strncpy ((s ++ [nul]).map some) (s.length + 1) = some (s ++ [nul]) := by
  induction s with
  | nil => simp [strncpy]
  | cons b s ih =>
    obtain ⟨hb, hs⟩ := not_or.1 (mt List.mem_cons.2 hs)
    rw [List.length_cons, List.cons_append, List.map_cons, strncpy, if_neg (Ne.symm hb), ih hs]
    rfl

/-- **A GET finds the string that was stored.** -/
theorem heldValue_stored {s : String} (hs : IsCString s) {size : SizeType}
    (hsize : size.toNat = s.length + 1) : heldValue (stored s) size = some s := by
  have hlen : s.toList.length = s.length := String.length_toList
  have hpos : size ≠ 0 := by
    rintro rfl
    rw [UInt32.toNat_zero] at hsize
    omega
  have hlast : (size - 1).toNat = s.toList.length := by
    rw [UInt32.toNat_sub_of_le _ _ (by rw [UInt32.le_iff_toNat_le, hsize]; simp), hsize, hlen]
    simp
  have hne := decide_ne_of_notMem hs
  rw [heldValue, if_neg hpos, hsize, ← hlen, stored, cString, strncpy_terminated hs,
    Option.map_some, hlast, List.set_append_right _ _ le_rfl, Nat.sub_self, List.set_cons_zero,
    List.takeWhile_append_of_pos hne]
  simp

/-! ### A request is a run of calls -/

variable {B : Boost} {c c' : Cache FifoEvictor} {maxmem : SizeType}

/-- A value within the limit has its length for a size. -/
theorem toNat_put_size {n : ℕ} (hfit : n + 1 ≤ maxmem.toNat) :
    (UInt32.ofNat (n + 1)).toNat = n + 1 :=
  UInt32.toNat_ofNat_of_lt' (hfit.trans_lt maxmem.toNat_lt)

/-- So has a value that the copy loop gets to the end of. -/
theorem toNat_copied_size {n : ℕ} (hlt : n < 2 ^ 31) : (UInt32.ofNat (n + 1)).toNat = n + 1 :=
  UInt32.toNat_ofNat_of_lt' (by unfold UInt32.size; omega)

/-- **The calls that a request makes.** -/
theorem Handles.calls {req : Request} {out : Except Thrown Response} (hq : c.Queued)
    (hnul : IsCString req.target) (h : Handles B c req out c') :
    ∃ calls, Cache.Run c calls c' ∧ ∀ l ∈ calls, SetsCString l := by
  have hone : ∀ {l}, Cache.Step c l c' → SetsCString l →
      ∃ calls, Cache.Run c calls c' ∧ ∀ l ∈ calls, SetsCString l := by
    intro l hstep hl
    exact ⟨[l], Trace.run_singleton_iff.2 hstep, fun l' hl' => List.mem_singleton.1 hl' ▸ hl⟩
  rcases h.cache_cases with rfl | ⟨key, rfl⟩ | ⟨key, rfl⟩ | rfl | ⟨key, val, r, -, ⟨-, hval⟩, hset⟩
  · exact ⟨[], .nil, fun _ hl => absurd hl List.not_mem_nil⟩
  · exact hone (.get c key) fun _ _ _ _ hl => by cases hl
  · exact hone (.del c key) fun _ _ _ _ hl => by cases hl
  · exact hone (.reset c) fun _ _ _ _ hl => by cases hl
  · have hs : IsCString val := fun hmem => hnul (hval nul hmem)
    have hlt : val.length < 2 ^ 31 := (hq.get key).length_lt hs hset
    have hsize := toNat_copied_size hlt
    refine ⟨[(.get key, _), (.set key (cString val) _, _)],
      .snoc (.snoc .nil (.get c key)) (.set hset), fun l hl => ?_⟩
    rcases List.mem_cons.1 hl with rfl | hl
    · exact fun _ _ _ _ hl => by cases hl
    · rw [List.mem_singleton] at hl
      subst hl
      intro key' val' size' reply' heq
      simp only [Prod.mk.injEq, Call.set.injEq] at heq
      obtain ⟨⟨-, rfl, rfl⟩, -⟩ := heq
      exact ⟨val, hs, rfl, hsize⟩

/-- **A run of requests is a run of calls.** -/
theorem Serves.calls {log : List (Request × Except Thrown Response)}
    (h : Serves B (serverCache maxmem) log c) (hnul : ∀ l ∈ log, IsCString l.1.target) :
    ∃ calls, Cache.Run (serverCache maxmem) calls c ∧ ∀ l ∈ calls, SetsCString l := by
  induction h with
  | nil => exact ⟨[], .nil, fun _ hl => absurd hl List.not_mem_nil⟩
  | @snoc log l _ _ _ hstep ih =>
    obtain ⟨calls, hrun, hsets⟩ := ih fun l' hl' => hnul l' (List.mem_append_left _ hl')
    obtain ⟨calls', hrun', hsets'⟩ :=
      hstep.calls (Cache.Run.queued hrun) (hnul l (by simp))
    refine ⟨calls ++ calls', Trace.run_append_iff.2 ⟨_, hrun, hrun'⟩, fun l' hl' => ?_⟩
    rcases List.mem_append.1 hl' with hl' | hl'
    · exact hsets l' hl'
    · exact hsets' l' hl'

/-- No request changes the limit. -/
theorem Handles.maxmem_eq {req : Request} {out : Except Thrown Response}
    (h : Handles B c req out c') : c'.maxmem = c.maxmem := by
  rcases h.cache_cases with rfl | ⟨key, rfl⟩ | ⟨key, rfl⟩ | rfl | ⟨key, val, r, -, -, hset⟩
  · rfl
  · exact Cache.get_snd_maxmem c key
  · exact Cache.del_snd_maxmem c key
  · rfl
  · exact (Cache.Step.maxmem (.set hset)).trans (Cache.get_snd_maxmem c key)

/-- No run of requests changes the limit. -/
theorem Serves.maxmem_eq {log : List (Request × Except Thrown Response)} (h : Serves B c log c') :
    c'.maxmem = c.maxmem :=
  Trace.Run.invariant (P := fun d => d.maxmem = c.maxmem) h
    (fun _ _ _ hstep hd => hstep.maxmem_eq.trans hd) rfl

/-- The reply to the request has the given status. -/
def Answers {ε : Type} [Evictor ε] (B : Boost) (c : Cache ε) (req : Request) (status : ℕ) : Prop :=
  ∃ res c', Handles B c req (.ok res) c' ∧ res.status = status

section Answers

variable {ε : Type} [Evictor ε] {c : Cache ε} {version : ℕ} {keepAlive : Bool} {k : KeyType}

/-- A GET is answered 200 when its key is live, and 404 otherwise. -/
theorem Cache.Stocked.answers_get_iff (h : c.Stocked) {status : ℕ} :
    Answers B c ⟨.get, keyTarget k, version, keepAlive⟩ status ↔
      c.Live k ∧ status = 200 ∨ ¬c.Live k ∧ status = 404 := by
  constructor
  · rintro ⟨res, c', hget, rfl⟩
    rcases (handles_get_iff.1 hget).2 with ⟨hnone, hres⟩ | ⟨p, val, hp, -, hres⟩
    · rw [Except.ok.inj hres]
      exact Or.inr ⟨fun hlive => hlive hnone, rfl⟩
    · rw [Except.ok.inj hres]
      exact Or.inl ⟨fun hnone => Option.some_ne_none p (hp.symm.trans hnone), rfl⟩
  · rintro (⟨hlive, rfl⟩ | ⟨hdead, rfl⟩)
    · obtain ⟨p, hp⟩ := Option.ne_none_iff_exists'.1 hlive
      obtain ⟨s, hs, rfl, hn⟩ := h k p _ (Prod.ext hp rfl)
      exact ⟨_, _, handles_get_iff.2
        ⟨rfl, Or.inr ⟨_, s, hp, heldValue_stored hs hn, rfl⟩⟩, rfl⟩
    · exact ⟨_, _, handles_get_iff.2 ⟨rfl, Or.inl ⟨not_not.1 hdead, rfl⟩⟩, rfl⟩

/-- Every GET of `/key` is answered. -/
theorem Cache.Stocked.exists_get (h : c.Stocked) (B : Boost) (k : String) (version : ℕ)
    (keepAlive : Bool) :
    ∃ reply d, Handles B c ⟨.get, keyTarget k, version, keepAlive⟩ (.ok reply) d := by
  by_cases hlive : c.Live k
  · obtain ⟨reply, d, hreply, -⟩ := h.answers_get_iff.2 (Or.inl ⟨hlive, rfl⟩)
    exact ⟨reply, d, hreply⟩
  · obtain ⟨reply, d, hreply, -⟩ := h.answers_get_iff.2 (Or.inr ⟨hlive, rfl⟩)
    exact ⟨reply, d, hreply⟩

/-- A DELETE is answered 200 when `del` returns true, and 404 otherwise. -/
theorem answers_delete_iff {status : ℕ} :
    Answers B c ⟨.delete, keyTarget k, version, keepAlive⟩ status ↔
      (c.del k).1 = true ∧ status = 200 ∨ (c.del k).1 = false ∧ status = 404 := by
  constructor
  · rintro ⟨res, c', hdel, rfl⟩
    rcases (handles_delete_iff.1 hdel).2 with ⟨hfound, hres⟩ | ⟨hfound, hres⟩
    · rw [Except.ok.inj hres]
      exact Or.inl ⟨hfound, rfl⟩
    · rw [Except.ok.inj hres]
      exact Or.inr ⟨hfound, rfl⟩
  · rintro (⟨hfound, rfl⟩ | ⟨hfound, rfl⟩)
    · exact ⟨_, _, handles_delete_iff.2 ⟨rfl, Or.inl ⟨hfound, rfl⟩⟩, rfl⟩
    · exact ⟨_, _, handles_delete_iff.2 ⟨rfl, Or.inr ⟨hfound, rfl⟩⟩, rfl⟩

end Answers

end CacheBench
