/-
# Requests that fail

A request that is answered 400 or 404 leaves no reply of its own to look for, and should
leave no trace in the others: with the request taken out of a run, every other request is
answered as before (`LeavesNoTrace`).  All but a GET leave the cache as it was.  A GET puts
an entry without a value in for its key, which a DELETE of the key then finds; and it
pushes a node, which can go unnoticed only if the entry was there already, and then only
when nothing is ever evicted, or when that node is popped with an earlier one of its key
(`leavesNoTrace_iff`).
-/

import CacheBench.Store.Reset
import CacheBench.Server.Apart

namespace CacheBench

variable {B : Boost} {maxmem : SizeType} {c c' d : Cache FifoEvictor}
  {log : List (Request × Except Thrown Response)} {req : Request} {res : Response} {k : KeyType}

/-- Whatever requests that fit come after it, they are answered the same without it. -/
def LeavesNoTrace (B : Boost) (maxmem : SizeType) (log : List (Request × Except Thrown Response))
    (l : Request × Except Thrown Response) : Prop :=
  ∀ post d, (∀ l' ∈ post, Fits maxmem l'.1) → Serves B (serverCache maxmem) (log ++ l :: post) d →
    ∃ d', Serves B (serverCache maxmem) (log ++ post) d'

/-- `k` has an entry already, and one more node of it in the queue is not noticed: nothing
is ever evicted, or from some node of `k` on there are only nodes of keys with slashes. -/
def Cache.Unnoticed (c : Cache FifoEvictor) (k : KeyType) : Prop :=
  c.dict.lookup k ≠ none ∧
    (c.maxmem = 0 ∨ c.maxmem = 4294967295 ∨ Trailing k c.queue)

/-! ### What a request that fails does -/

/-- **It leaves the cache as it was,** unless it is a GET. -/
theorem Handles.failed_cases (h : Handles B c req (.ok res) c')
    (hfail : res.status = 400 ∨ res.status = 404) :
    req.method ≠ .get ∧ c' = c ∨ ∃ key, req.method = .get ∧ substr1 req.target = .ok key ∧
      (c.entry key).1 = none ∧ c' = (c.get key).2 := by
  cases h.served with
  | getMissing hmethod hkey hnone => exact Or.inr ⟨_, hmethod, hkey, hnone, rfl⟩
  | getFound =>
    have hstatus : ∀ key val, (foundReply B req key val).status = 200 := fun _ _ => rfl
    rw [hstatus] at hfail
    omega
  | put =>
    have hstatus : ∀ key new, (putReply B req key new).status = if new then 201 else 204 :=
      fun _ _ => rfl
    rw [hstatus] at hfail
    split_ifs at hfail <;> omega
  | deleteMissing hmethod => exact Or.inl ⟨by rw [hmethod]; decide, rfl⟩
  | deleteFound =>
    have hstatus : (deletedReply B req).status = 200 := rfl
    rw [hstatus] at hfail
    omega
  | head hmethod => exact Or.inl ⟨by rw [hmethod]; decide, rfl⟩
  | postOther hmethod => exact Or.inl ⟨by rw [hmethod]; decide, rfl⟩
  | postReset =>
    have hstatus : (resetReply B).status = 200 := rfl
    rw [hstatus] at hfail
    omega
  | unknown hmethod => exact Or.inl ⟨by rw [hmethod]; decide, rfl⟩

/-! ### Nodes that are not noticed -/

/-- Caches that are alike answer alike. -/
theorem simulation_alike : Simulation (Cache.Alike (ε := FifoEvictor)) where
  dict h := h.dict
  size h := h.size
  get h key := h.get key
  del h key := h.del key
  reset h := h.reset
  set h _ hset := by
    obtain ⟨d', hset', halike⟩ := h.set hset
    exact ⟨_, d', hset', halike⟩

/-- A cache and its echo answer alike, for no request sets a key with a slash. -/
theorem simulation_echo : Simulation (Cache.Echo fun k => ¬SlashFree k) where
  dict h := h.dict
  size h := h.size
  get h key := h.get key
  del h key := h.del key
  reset h := h.reset
  set h hkey hset := h.set (not_not.2 hkey) hset

/-- **Caches related by a simulation are not told apart.** -/
theorem Simulation.not_toldApart {R : Cache FifoEvictor → Cache FifoEvictor → Prop}
    (hR : Simulation R) (h : R c d) : ¬ToldApart B maxmem c d := by
  refine Trace.not_apart_iff.2 fun ls t _ hrun => ?_
  obtain ⟨t', hrun', -⟩ := Trace.Run.simulate hrun (fun _ _ _ _ hR' hstep => hR.handles hR' hstep) h
  exact ⟨t', hrun'⟩

/-- Between requests a key with a slash takes up no memory. -/
theorem Serves.echo_self (h : Serves B (serverCache maxmem) log c) :
    Cache.Echo (fun k => ¬SlashFree k) c c := by
  have hstart : Cache.Echo (fun k => ¬SlashFree k) (serverCache maxmem) (serverCache maxmem) :=
    ⟨rfl, rfl, rfl, Cache.queued_new maxmem _, Cache.queued_new maxmem _, fun _ _ => rfl,
      Or.inl rfl⟩
  obtain ⟨d, -, hecho⟩ := Trace.Run.simulate h
    (fun _ _ _ _ hR hstep => simulation_echo.handles hR hstep) hstart
  exact ⟨rfl, rfl, rfl, hecho.left, hecho.left, hecho.weightless, Or.inl rfl⟩

/-- With these limits nothing is evicted between requests either. -/
theorem Serves.alike_self (h : Serves B (serverCache maxmem) log c)
    (hmax : maxmem = 0 ∨ maxmem = 4294967295) : Cache.Alike c c := by
  have hstart : Cache.Alike (serverCache maxmem) (serverCache maxmem) := by
    refine ⟨rfl, rfl, rfl, rfl, rfl, ?_⟩
    rcases hmax with rfl | rfl
    · exact Or.inr ⟨rfl, rfl, fun _ => rfl⟩
    · exact Or.inl rfl
  obtain ⟨d, -, halike⟩ := Trace.Run.simulate h
    (fun _ _ _ _ hR hstep => simulation_alike.handles hR hstep) hstart
  exact ⟨rfl, rfl, rfl, halike.left, halike.left, halike.unevicting⟩

/-- What a GET leaves in the queue when its key has an entry already. -/
theorem Cache.Unnoticed.not_toldApart (h : Serves B (serverCache maxmem) log c)
    (hk : c.Unnoticed k) : ¬ToldApart B maxmem (c.get k).2 c := by
  obtain ⟨hentry, hcases⟩ := hk
  have hdict : (c.get k).2.dict = c.dict := by
    refine Finmap.ext_lookup fun j => ?_
    rw [Cache.get_snd_dict, Cache.subscript_snd_lookup, if_neg fun hand => hentry hand.2]
  have hmax : c.maxmem = maxmem := h.maxmem_eq
  have hunevicting : maxmem = 0 ∨ maxmem = 4294967295 → ¬ToldApart B maxmem (c.get k).2 c := by
    intro hlimit
    have halike := h.alike_self hlimit
    exact simulation_alike.not_toldApart
      ⟨hdict, rfl, rfl, (halike.get k).left, halike.right, (halike.get k).unevicting⟩
  rw [hmax] at hcases
  rcases hcases with hzero | hlast | ⟨front, back, hqueue, hmem, hback⟩
  · exact hunevicting (Or.inl hzero)
  · exact hunevicting (Or.inr hlast)
  · have hecho := h.echo_self
    have hpush : (c.get k).2.queue = c.queue ++ [k] := Cache.queue_touch hecho.left.isSome k
    refine simulation_echo.not_toldApart ⟨hdict, rfl, rfl, hecho.left.get k, hecho.right,
      (hecho.get k).weightless, Or.inr ⟨front, back, k, [], ?_, ?_, hmem, hback⟩⟩
    · rw [hpush, hqueue]
    · rw [hqueue, List.append_nil]

/-! ### Nodes and entries that show -/

/-- An entry that was not there before is found by a DELETE. -/
theorem toldApart_get_of_lookup_eq_none (B : Boost) (maxmem : SizeType)
    (hnone : c.dict.lookup k = none) : ToldApart B maxmem (c.get k).2 c := by
  have hsome : (c.get k).2.dict.lookup k ≠ none := by
    rw [Cache.get_snd_dict, Cache.subscript_snd_lookup, if_pos ⟨rfl, hnone⟩]
    exact Option.some_ne_none _
  refine ⟨[(deleteRequest k, .ok (deletedReply B (deleteRequest k)))], _, fun l hl hput => ?_,
    Trace.run_singleton_iff.2 (Served.deleteFound rfl (substr1_keyTarget k) hsome).handles,
    fun t ht => ?_⟩
  · rw [List.mem_singleton.1 hl] at hput
    cases hput
  · have hmissing : Served B c (deleteRequest k) _ _ :=
      .deleteMissing rfl (substr1_keyTarget k) hnone
    have hreply := ((Trace.run_singleton_iff.1 ht).deterministic hmissing.handles).1
    have hstatus := congrArg Response.status (Except.ok.inj hreply)
    exact absurd hstatus (by show (200 : ℕ) ≠ 404; decide)

/-- **A node that does not go with an earlier one shows,** once the server is reset and a
key without a slash is read. -/
theorem toldApart_get_of_not_trailing (B : Boost) (hq : c.Queued) (hmax : c.maxmem = maxmem)
    (hpos : maxmem ≠ 0) (hlast : maxmem ≠ 4294967295) (htrail : ¬Trailing k c.queue) :
    ToldApart B maxmem (c.get k).2 c := by
  obtain ⟨z, hz, hzk⟩ := exists_letters [k]
  -- both servers, after a reset, a GET of `z` and another reset
  have hsteps : ∀ {s : Cache FifoEvictor} {queue}, s.Queued → s.maxmem = maxmem → s.queue = queue →
      ∃ s', Serves B s [(resetRequest, .ok (resetReply B)),
          (getRequest z, .ok (notFound B (getRequest z) z)),
          (resetRequest, .ok (resetReply B))] s' ∧
        Stage s' maxmem (queue ++ [z]) (fun _ => none) 0 := by
    intro s queue hs hsmax hsqueue
    have hstage : Stage s maxmem queue (fun j => s.dict.lookup j) s.size :=
      ⟨hs, hsmax, hsqueue, fun _ => rfl, rfl⟩
    obtain ⟨hreset, h₁⟩ := hstage.reset B
    obtain ⟨hget, h₂⟩ := h₁.get B (k := z) rfl
    obtain ⟨hreset', h₃⟩ := h₂.reset B
    exact ⟨_, .snoc (.snoc (.snoc .nil hreset) hget) hreset', h₃⟩
  have hpush : (c.get k).2.queue = c.queue ++ [k] := Cache.queue_touch hq.isSome k
  obtain ⟨c₁, hrun, hc₁⟩ := hsteps (hq.get k) hmax hpush
  obtain ⟨c₂, hrun', hc₂⟩ := hsteps hq hmax rfl
  rw [List.append_assoc] at hc₁
  refine Trace.Apart.of_run ?_ handles_unique (fun l hl => ?_) hrun hrun'
  · exact Stage.apart hpos hlast B hz (by simpa using hzk) [] []
      (fun _ hj => absurd hj List.not_mem_nil) htrail hc₁ hc₂
  · simp only [List.mem_cons, List.not_mem_nil, or_false] at hl
    rcases hl with rfl | rfl | rfl
    all_goals
      intro hput
      cases hput

/-- **What a GET that missed leaves is told apart,** unless it is not noticed. -/
theorem Serves.toldApart_get_iff (h : Serves B (serverCache maxmem) log c) (k : KeyType) :
    ToldApart B maxmem (c.get k).2 c ↔ ¬c.Unnoticed k := by
  constructor
  · exact fun hapart hk => hk.not_toldApart h hapart
  · intro hk
    by_cases hnone : c.dict.lookup k = none
    · exact toldApart_get_of_lookup_eq_none B maxmem hnone
    · have hmax : c.maxmem = maxmem := h.maxmem_eq
      have hcases := fun hor => hk ⟨hnone, hor⟩
      rw [hmax] at hcases
      exact toldApart_get_of_not_trailing B h.echo_self.left hmax
        (fun hzero => hcases (Or.inl hzero)) (fun hlast => hcases (Or.inr (Or.inl hlast)))
        fun htrail => hcases (Or.inr (Or.inr htrail))

/-! ### Runs without the request -/

/-- A request leaves no trace when no requests tell the caches apart. -/
theorem leavesNoTrace_iff_not_toldApart {out : Except Thrown Response}
    (h : Serves B (serverCache maxmem) log c) (hreq : Handles B c req out c') :
    LeavesNoTrace B maxmem log (req, out) ↔ ¬ToldApart B maxmem c' c := by
  have hstep : Serves B c [(req, out)] c' := Trace.run_singleton_iff.2 hreq
  rw [Trace.not_apart_iff]
  constructor
  · intro hleaves post d hfits hrun
    obtain ⟨d', hrun'⟩ := hleaves post d hfits
      (Trace.run_append_iff.2 ⟨c, h, Trace.run_cons_iff.2 ⟨c', hreq, hrun⟩⟩)
    obtain ⟨c₀, hlog, hpost⟩ := Trace.run_append_iff.1 hrun'
    obtain rfl := h.unique hlog handles_unique
    exact ⟨d', hpost⟩
  · intro hsame post d hfits hrun
    obtain ⟨c₀, hlog, hrest⟩ := Trace.run_append_iff.1 hrun
    obtain rfl := h.unique hlog handles_unique
    obtain ⟨c₁, hreq', hpost⟩ := Trace.run_cons_iff.1 hrest
    obtain rfl := handles_unique _ _ _ _ hreq hreq'
    obtain ⟨d', hpost'⟩ := hsame post d hfits hpost
    exact ⟨d', Trace.run_append_iff.2 ⟨_, h, hpost'⟩⟩

/-- **When a request that fails leaves no trace.**  After any run of requests, a request
that is answered 400 or 404 can be taken out, and every later run of requests whose PUTs
fit is answered as before, if and only if it is no GET, or one of a key of which nothing
more is noticed. -/
theorem leavesNoTrace_iff (h : Serves B (serverCache maxmem) log c)
    (hreq : Handles B c req (.ok res) c') (hfail : res.status = 400 ∨ res.status = 404) :
    LeavesNoTrace B maxmem log (req, .ok res) ↔
      (req.method = .get → ∀ key, substr1 req.target = .ok key → c.Unnoticed key) := by
  rw [leavesNoTrace_iff_not_toldApart h hreq]
  rcases hreq.failed_cases hfail with ⟨hmethod, rfl⟩ | ⟨key, hmethod, hkey, -, rfl⟩
  · refine iff_of_true ?_ fun hget => absurd hget hmethod
    exact Trace.not_apart_iff.2 fun ls t _ hrun => ⟨t, hrun⟩
  · rw [h.toldApart_get_iff, not_not]
    constructor
    · intro hunnoticed _ key' hkey'
      obtain rfl := Except.ok.inj (hkey.symm.trans hkey')
      exact hunnoticed
    · exact fun hall => hall hmethod key hkey

/-- The second of two GETs of a key with a slash. -/
theorem leavesNoTrace_iff_run : LeavesNoTrace plainBoost 30
    [(getRequest "a/b", .ok (notFound plainBoost (getRequest "a/b") "a/b"))]
    (getRequest "a/b", .ok (notFound plainBoost (getRequest "a/b") "a/b")) := by
  have hfirst : Handles plainBoost (serverCache 30) (getRequest "a/b") _ _ :=
    handles_get_iff.2 ⟨rfl, Or.inl ⟨rfl, rfl⟩⟩
  have hsecond : Handles plainBoost ((serverCache 30).get "a/b").2 (getRequest "a/b") _ _ :=
    handles_get_iff.2 ⟨rfl, Or.inl ⟨rfl, rfl⟩⟩
  refine (leavesNoTrace_iff (.snoc .nil hfirst) hsecond (Or.inr rfl)).2 fun _ key hkey => ?_
  obtain rfl := Except.ok.inj (hkey.symm.trans (substr1_keyTarget "a/b"))
  refine ⟨?_, Or.inr (Or.inr ⟨[], ["a/b"], rfl, List.mem_singleton_self _, fun j hj => ?_⟩)⟩
  · rw [Cache.get_snd_dict, Cache.subscript_snd_lookup, if_pos ⟨rfl, rfl⟩]
    exact Option.some_ne_none _
  · rw [List.mem_singleton.1 hj]
    decide

/-- **A GET that missed shows in the next DELETE:** on a fresh server a DELETE of `k` is
answered 200 after it, and not without it. -/
theorem get_leaves_trace :
    (∃ d, Serves plainBoost (serverCache 30)
      [(getRequest "k", .ok (notFound plainBoost (getRequest "k") "k")),
        (deleteRequest "k", .ok (deletedReply plainBoost (deleteRequest "k")))] d) ∧
      (deletedReply plainBoost (deleteRequest "k")).status = 200 ∧
      Answers plainBoost (serverCache 30) (deleteRequest "k") 404 ∧
      ¬LeavesNoTrace plainBoost 30 []
        (getRequest "k", .ok (notFound plainBoost (getRequest "k") "k")) := by
  have hget : Handles plainBoost (serverCache 30) (getRequest "k") _ _ :=
    handles_get_iff.2 ⟨rfl, Or.inl ⟨rfl, rfl⟩⟩
  have hdelete : Handles plainBoost ((serverCache 30).get "k").2 (deleteRequest "k") _ _ :=
    handles_delete_iff.2 ⟨rfl, Or.inl ⟨rfl, rfl⟩⟩
  refine ⟨⟨_, .snoc (.snoc .nil hget) hdelete⟩, rfl,
    answers_delete_iff.2 (Or.inr ⟨rfl, rfl⟩), fun hleaves => ?_⟩
  exact (leavesNoTrace_iff_not_toldApart .nil hget).1 hleaves
    (toldApart_get_of_lookup_eq_none plainBoost 30 rfl)

end CacheBench
