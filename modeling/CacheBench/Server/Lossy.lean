/-
# The server as a map that may forget

What a client relies on has no queue, no blocks and no `uint32_t` in it: there is a string
under each key or there is none, and a request is an operation on that map
(`Request.op`) with a reply that the map determines (`Replied`), but for a DELETE of a key
without a string, which may be answered either way.  A PUT may make the server forget other
strings, though only when they do not fit together within `maxmem`.

The cache of the server is such a map (`Cache.Kept.replies`).  So the server is linearizable
as one, to clients on any number of connections (`Service.linearizable_lossy`), and what a GET
finds was put by a request that had been called by then, with no other operation on the key
entirely between the two (`Service.no_stale_get`).
-/

import CacheBench.Lib.LossyMap
import CacheBench.Server.Linearizable
import CacheBench.Store.Order
import CacheBench.Store.Placeholder

namespace CacheBench

/-- What a string takes up, with its `'\0'`. -/
def weight (s : String) : ℕ := s.length + 1

/-- What a request does to the strings of the server. -/
def Request.op (req : Request) : LossyMap.Op String String :=
  match req.method, substr1 req.target with
  | .put, .ok line => .put (putPair line).1 (putPair line).2
  | .delete, .ok key => .erase key
  | .post, _ => if req.target = "/reset" then .clear else .keep
  | _, _ => .keep

/-- The reply to a HEAD. -/
def headReply (B : Boost) (req : Request) (n : ℕ) : Response :=
  let res := { startReply B req with status := 200 }
  let res := res.set .contentType "application/json"
  let res := res.set .accept "application/json"
  (res.insert .spaceUsed (toString n)).preparePayload

/-- The reply to a request, when `m` is what is under each key. -/
inductive Replied (B : Boost) (m : String → Option String) : Request → Response → Prop
  | getMissing {req : Request} {key : String} : req.method = .get → substr1 req.target = .ok key →
      m key = none → Replied B m req (notFound B req key)
  | getFound {req : Request} {key val : String} : req.method = .get → substr1 req.target = .ok key →
      m key = some val → Replied B m req (foundReply B req key val)
  | put {req : Request} {line : String} : req.method = .put → substr1 req.target = .ok line →
      Replied B m req (putReply B req (putPair line).1 (m (putPair line).1).isNone)
  | deleteMissing {req : Request} {key : String} : req.method = .delete →
      substr1 req.target = .ok key → m key = none → Replied B m req (notFound B req key)
  | deleteFound {req : Request} {key : String} : req.method = .delete →
      substr1 req.target = .ok key → Replied B m req (deletedReply B req)
  | head {req : Request} : req.method = .head →
      Replied B m req (headReply B req (LossyMap.total weight m % 2 ^ 32))
  | postOther {req : Request} : req.method = .post → req.target ≠ "/reset" →
      Replied B m req (notFound B req req.target)
  | postReset {req : Request} : req.method = .post → req.target = "/reset" →
      Replied B m req (resetReply B)
  | unknown {req : Request} : req.method = .other → Replied B m req (badRequest B req)

open Linearize (Linearizes Before)

/-- A request to a map that may forget. -/
structure Recalls (B : Boost) (cap : ℕ) (m : String → Option String) (l : Request × Response)
    (m' : String → Option String) : Prop where
  step : LossyMap.Step weight cap m l.1.op m'
  replied : Replied B m l.1 l.2

/-- A request to a map that forgets nothing. -/
structure Remembers (B : Boost) (m : String → Option String) (l : Request × Response)
    (m' : String → Option String) : Prop where
  apply : m' = l.1.op.apply m
  replied : Replied B m l.1 l.2

/-! ### What the cache keeps -/

/-- The string under each key. -/
def Cache.contents {ε : Type} (c : Cache ε) (k : String) : Option String :=
  (c.entry k).1.bind fun p => heldValue p (c.entry k).2

/-- What holds of the cache of the server between requests. -/
structure Cache.Kept (c : Cache FifoEvictor) : Prop where
  queued : c.Queued
  tallied : c.Tallied
  stocked : c.Stocked
  blank : ∀ k, ¬c.Live k → c.entry k = (none, 0)
  exact : c.maxmem.toNat < 2 ^ 31 → c.Exact

variable {B : Boost} {c c' : Cache FifoEvictor} {maxmem : SizeType}

/-- No size of a C string that was set can wrap a small counter. -/
theorem Cache.Run.exact_of_cStrings {calls : List (Call × Reply)}
    (h : Cache.Run (serverCache maxmem) calls c) (hcalls : ∀ l ∈ calls, Cache.SetsCString l)
    (hmax : maxmem.toNat < 2 ^ 31) : c.Exact := by
  refine Trace.Run.invariant_along h (fun pre l post m t hsplit hpre hstep hexact => ?_)
    (exact_new maxmem (some FifoEvictor.new))
  refine hexact.step hstep fun key val size reply hl => hexact.noWrap_of_le ?_ key
  subst hl
  obtain ⟨s, hs, rfl, hsize⟩ := hcalls _ (by simp [hsplit]) key val size reply rfl
  have hm : m.maxmem = maxmem := Cache.Run.maxmem hpre
  cases hstep with
  | set hset =>
    have hlt := (Cache.Run.queued hpre).length_lt hs hset
    rw [hm]
    omega

/-- **Only strings are kept,** after a run of sets of C strings. -/
theorem Cache.Run.kept {calls : List (Call × Reply)}
    (h : Cache.Run (serverCache maxmem) calls c) (hcalls : ∀ l ∈ calls, Cache.SetsCString l) :
    c.Kept := by
  have hm : c.maxmem = maxmem := Cache.Run.maxmem h
  exact ⟨Cache.Run.queued h, Cache.Run.tallied h, Cache.Run.stocked h hcalls,
    fun _ => Cache.Run.entry_eq_of_not_live h,
    fun hmax => exact_of_cStrings h hcalls (by rwa [hm] at hmax)⟩

/-- A key has a string or its entry is empty. -/
theorem Cache.Kept.entry_cases (h : c.Kept) (k : String) :
    (∃ s n, c.entry k = (some (stored s), n) ∧ n.toNat = weight s ∧ c.contents k = some s) ∨
      c.entry k = (none, 0) ∧ c.contents k = none := by
  by_cases hlive : c.Live k
  · obtain ⟨p, hp⟩ := Option.ne_none_iff_exists'.1 hlive
    obtain ⟨s, hs, rfl, hsize⟩ := h.stocked k p _ (Prod.ext hp rfl)
    refine Or.inl ⟨s, _, Prod.ext hp rfl, hsize, ?_⟩
    rw [contents, hp]
    exact heldValue_stored hs hsize
  · have hblank := h.blank k hlive
    exact Or.inr ⟨hblank, by rw [contents, hblank]; rfl⟩

/-- Where there is a block there is a string. -/
theorem Cache.Kept.contents_isNone (h : c.Kept) (k : String) :
    (c.contents k).isNone = (c.entry k).1.isNone := by
  rcases h.entry_cases k with ⟨s, n, hentry, -, hcontents⟩ | ⟨hentry, hcontents⟩
  · rw [hentry, hcontents]
    rfl
  · rw [hentry, hcontents]
    rfl

/-- **The counter counts the strings.** -/
theorem Cache.Kept.total_eq (h : c.Kept) : LossyMap.total weight c.contents = c.total := by
  have hsize : ∀ k, (c.dict.lookup k).elim 0 (fun e => e.2.toNat) = (c.entry k).2.toNat := by
    intro k
    unfold entry
    cases c.dict.lookup k <;> rfl
  rw [total, ← LossyMap.total_lookup]
  refine finsum_congr fun k => ?_
  show (c.contents k).elim 0 weight = (c.dict.lookup k).elim 0 fun e => e.2.toNat
  rw [hsize]
  rcases h.entry_cases k with ⟨s, n, hentry, hweight, hcontents⟩ | ⟨hentry, hcontents⟩
  · rw [hentry, hcontents]
    exact hweight.symm
  · rw [hentry, hcontents]
    rfl

/-! ### What the calls do to the strings -/

/-- The string is that of the entry. -/
theorem Cache.contents_congr {ε : Type} {c d : Cache ε} {j k : String}
    (h : c.entry j = d.entry k) : c.contents j = d.contents k := by
  rw [contents, h]
  rfl

/-- A get changes no string. -/
theorem Cache.contents_get {ε : Type} [Evictor ε] (c : Cache ε) (key : String) :
    (c.get key).2.contents = c.contents :=
  funext fun k => contents_congr (get_snd_entry c key k)

/-- A deletion takes one string away. -/
theorem Cache.contents_del {ε : Type} (c : Cache ε) (key : String) :
    (c.del key).2.contents = Function.update c.contents key none := by
  funext k
  rw [contents, del_snd_entry, Function.update_apply]
  split_ifs <;> rfl

/-- A reset takes all of them away. -/
theorem Cache.contents_reset {ε : Type} (c : Cache ε) : c.reset.contents = fun _ => none := rfl

/-- A deletion keeps the invariant. -/
theorem Cache.Kept.del (h : c.Kept) (key : String) : (c.del key).2.Kept := by
  refine ⟨h.queued.del key, h.tallied.del key, fun k p n hk => ?_, fun k hlive => ?_,
    fun hmax => (h.exact (by rwa [del_snd_maxmem] at hmax)).del key⟩
  · rw [del_snd_entry] at hk
    split_ifs at hk
    · cases hk
    · exact h.stocked k p n hk
  · unfold Live at hlive
    rw [del_snd_entry] at hlive ⊢
    split_ifs at hlive ⊢
    · rfl
    · exact h.blank k hlive

/-- A get keeps the invariant. -/
theorem Cache.Kept.get (h : c.Kept) (key : String) : (c.get key).2.Kept := by
  refine ⟨h.queued.get key, ?_, fun k p n hk => ?_, fun k hlive => ?_, fun hmax => ?_⟩
  · unfold Tallied
    rw [get_snd_size, get_snd_total]
    exact h.tallied
  · rw [get_snd_entry] at hk
    exact h.stocked k p n hk
  · unfold Live at hlive
    rw [get_snd_entry] at hlive ⊢
    exact h.blank k hlive
  · have hexact := h.exact hmax
    refine ⟨by rw [get_snd_size, get_snd_total, hexact.size], ?_⟩
    rw [get_snd_total]
    exact hexact.within

/-- There are strings under finitely many keys. -/
theorem Cache.contents_finite {ε : Type} (c : Cache ε) : {k | c.contents k ≠ none}.Finite := by
  refine c.dict.keys.finite_toSet.subset fun k hk => ?_
  by_contra hmem
  have hnone : c.dict.lookup k = none := Finmap.lookup_eq_none.2 fun h => hmem (Finmap.mem_keys.2 h)
  refine hk ?_
  rw [contents, entry, hnone]
  rfl

/-- Where there is room for the string beside the others, nothing has to go. -/
theorem Cache.Kept.room (h : c.Kept) {key s : String}
    (hsize : (UInt32.ofNat (s.length + 1)).toNat = s.length + 1)
    (hroom : LossyMap.total weight (Function.update c.contents key (some s)) ≤ c.maxmem.toNat) :
    (c.del key).2.exceeds (UInt32.ofNat (s.length + 1)) = false := by
  have htally : (c.del key).2.size.toNat = (c.del key).2.total % 2 ^ 32 := (h.del key).tallied
  rw [LossyMap.total_update weight c.contents_finite, ← c.contents_del, (h.del key).total_eq,
    weight] at hroom
  rw [← Bool.not_eq_true, exceeds_iff, del_snd_maxmem, hsize, htally]
  omega

/-- **A set of a string puts it.** -/
theorem Cache.Kept.puts (h : c.Kept) {key s : String} (hs : IsCString s) {r : Report}
    (hset : c.SetReturns key (cString s) (UInt32.ofNat (s.length + 1)) r c') :
    LossyMap.Puts weight c.maxmem.toNat c.contents key s c'.contents := by
  have hsize := toNat_copied_size (h.queued.length_lt hs hset)
  obtain ⟨n, copied, hfree, hcopy, -, rfl⟩ := h.queued.setReturns_iff.1 hset
  have hentry := h.queued.setReturns_entry hfree copied.copy
  have hstored : copied.copy = stored s := copy_eq_stored hs hsize hcopy
  have hself : ((Cache.evictions n (c.del key).2).cache.insertCopy key copied.copy
      (UInt32.ofNat (s.length + 1))).contents key = some s := by
    rw [contents, hentry, if_pos rfl, hstored]
    exact heldValue_stored hs hsize
  have hother : ∀ j, j ≠ key → ((Cache.evictions n (c.del key).2).cache.insertCopy key copied.copy
      (UInt32.ofNat (s.length + 1))).contents j =
        if j ∈ c.queue.take n then none else c.contents j := by
    intro j hj
    rw [contents, hentry, if_neg hj]
    split_ifs <;> rfl
  refine ⟨hself, fun j hj => ?_, fun hroom => ?_⟩
  · rw [hother j hj]
    split_ifs
    · exact Or.inr rfl
    · exact Or.inl rfl
  · have hnone : n = 0 := by
      by_contra hne
      have hexceeds := hfree.needed 0 (Nat.pos_of_ne_zero hne)
      exact Bool.false_ne_true ((h.room hsize hroom).symm.trans hexceeds)
    subst hnone
    funext j
    by_cases hj : j = key
    · rw [hj, Function.update_self]
      exact hself
    · rw [Function.update_of_ne hj, hother j hj, List.take_zero, if_neg List.not_mem_nil]

/-! ### What the requests do to the strings -/

section
variable {req : Request} {line key : String}

/-- A GET changes nothing. -/
theorem Request.op_of_get (h : req.method = .get) : req.op = .keep := by
  simp [op, h]

/-- A HEAD changes nothing. -/
theorem Request.op_of_head (h : req.method = .head) : req.op = .keep := by
  simp [op, h]

/-- A request with an unknown method changes nothing. -/
theorem Request.op_of_other (h : req.method = .other) : req.op = .keep := by
  simp [op, h]

/-- A PUT puts its value. -/
theorem Request.op_of_put (h : req.method = .put) (hline : substr1 req.target = .ok line) :
    req.op = .put (putPair line).1 (putPair line).2 := by
  simp [op, h, hline]

/-- A DELETE erases its key. -/
theorem Request.op_of_delete (h : req.method = .delete) (hkey : substr1 req.target = .ok key) :
    req.op = .erase key := by
  simp [op, h, hkey]

/-- A POST clears the map, or changes nothing. -/
theorem Request.op_of_post (h : req.method = .post) :
    req.op = if req.target = "/reset" then .clear else .keep := by
  simp [op, h]

end

/-- **A request to the cache is a request to the map of its strings.** -/
theorem Cache.Kept.recalls (h : c.Kept) {req : Request} {res : Response}
    (hnul : IsCString req.target) (hreq : Handles B c req (.ok res) c') :
    Recalls B c.maxmem.toNat c.contents (req, res) c'.contents := by
  have hkeep : req.op = .keep → c'.contents = c.contents →
      LossyMap.Step weight c.maxmem.toNat c.contents req.op c'.contents := by
    intro hop hsame
    rw [hop, hsame]
    exact .keep
  generalize hout : Except.ok res = out at hreq
  cases hreq.served with
  | throws => cases hout
  | @getMissing key hmethod hkey hnone =>
    obtain rfl := Except.ok.inj hout
    refine ⟨hkeep (Request.op_of_get hmethod) (c.contents_get key), .getMissing hmethod hkey ?_⟩
    rw [← Option.isNone_iff_eq_none, h.contents_isNone, Option.isNone_iff_eq_none]
    exact hnone
  | @getFound key _ _ hmethod hkey hp hheld =>
    obtain rfl := Except.ok.inj hout
    refine ⟨hkeep (Request.op_of_get hmethod) (c.contents_get key), .getFound hmethod hkey ?_⟩
    rw [contents, hp]
    exact hheld
  | @put line r _ hmethod hline hset =>
    obtain rfl := Except.ok.inj hout
    have hval : IsCString (putPair line).2 :=
      fun hmem => hnul (substr1_subset hline nul ((putPair_subset line).2 nul hmem))
    have hputs := (h.get (putPair line).1).puts hval hset
    rw [contents_get] at hputs
    refine ⟨?_, ?_⟩
    · show LossyMap.Step _ _ _ req.op _
      rw [Request.op_of_put hmethod hline]
      exact .put hputs
    · rw [← h.contents_isNone]
      exact .put hmethod hline
  | @deleteMissing key hmethod hkey hnone =>
    obtain rfl := Except.ok.inj hout
    have hnothing : c.contents key = none := by
      rw [contents, entry, hnone]
      rfl
    refine ⟨?_, .deleteMissing hmethod hkey hnothing⟩
    show LossyMap.Step _ _ _ req.op _
    rw [Request.op_of_delete hmethod hkey]
    have herase : LossyMap.Step weight c.maxmem.toNat c.contents (.erase key)
      (Function.update c.contents key none) := .erase
    rwa [← hnothing, Function.update_eq_self] at herase
  | @deleteFound key hmethod hkey hsome =>
    obtain rfl := Except.ok.inj hout
    refine ⟨?_, .deleteFound hmethod hkey⟩
    show LossyMap.Step _ _ _ req.op _
    rw [Request.op_of_delete hmethod hkey, contents_del]
    exact .erase
  | head hmethod hreply =>
    obtain rfl := Except.ok.inj hout
    obtain rfl := Except.ok.inj (Prod.mk.inj (Option.some.inj hreply)).1
    have hcount : c.spaceUsed.toNat = LossyMap.total weight c.contents % 2 ^ 32 := by
      rw [h.total_eq]
      exact h.tallied
    refine ⟨hkeep (Request.op_of_head hmethod) rfl, ?_⟩
    rw [hcount]
    exact .head hmethod
  | postOther hmethod htarget =>
    obtain rfl := Except.ok.inj hout
    refine ⟨hkeep ?_ rfl, .postOther hmethod htarget⟩
    rw [Request.op_of_post hmethod, if_neg htarget]
  | postReset hmethod htarget =>
    obtain rfl := Except.ok.inj hout
    refine ⟨?_, .postReset hmethod htarget⟩
    show LossyMap.Step _ _ _ req.op _
    rw [Request.op_of_post hmethod, if_pos htarget, contents_reset]
    exact .clear
  | unknown hmethod =>
    obtain rfl := Except.ok.inj hout
    exact ⟨hkeep (Request.op_of_other hmethod) rfl, .unknown hmethod⟩

/-! ### Runs -/

/-- A run of answers is a run of outcomes. -/
theorem Serves.of_replies {log : List (Request × Response)}
    (h : Trace.Run (Cache.Replies B) (serverCache maxmem) log c) :
    Serves B (serverCache maxmem) (log.map fun l => (l.1, .ok l.2)) c :=
  h.map fun _ _ _ hstep => hstep

/-- Only strings are kept, after a run of answers to requests without `'\0'`. -/
theorem kept_of_replies {log : List (Request × Response)}
    (h : Trace.Run (Cache.Replies B) (serverCache maxmem) log c)
    (hnul : ∀ l ∈ log, IsCString l.1.target) : c.Kept ∧ c.maxmem = maxmem := by
  have hserves := Serves.of_replies h
  obtain ⟨calls, hcalls, hsets⟩ := Serves.calls hserves fun l' hl' => by
    obtain ⟨l, hl, rfl⟩ := List.mem_map.1 hl'
    exact hnul l hl
  exact ⟨Cache.Run.kept hcalls hsets, Serves.maxmem_eq hserves⟩

/-- **A run of requests to the cache is one to the map of its strings.** -/
theorem recalls_of_replies {log : List (Request × Response)}
    (h : Trace.Run (Cache.Replies B) (serverCache maxmem) log c)
    (hnul : ∀ l ∈ log, IsCString l.1.target) :
    Trace.Run (Recalls B maxmem.toNat) (fun _ => none) log c.contents := by
  induction h with
  | nil => exact .nil
  | @snoc log l d d' hrun hstep ih =>
    have hlog : ∀ l' ∈ log, IsCString l'.1.target :=
      fun l' hl' => hnul l' (List.mem_append_left _ hl')
    obtain ⟨hkept, hmax⟩ := kept_of_replies hrun hlog
    rw [← hmax] at ih ⊢
    exact (ih hlog).snoc (hkept.recalls (hnul l (by simp)) hstep)

/-- **Where there is room for everything,** a map that may forget does not. -/
theorem remembers_of_recalls {cap : ℕ} {log : List (Request × Response)}
    {m : String → Option String} {bound : String → ℕ}
    (h : Trace.Run (Recalls B cap) (fun _ => none) log m)
    (hfin : (Function.support bound).Finite) (hcap : ∑ᶠ k, bound k ≤ cap)
    (hputs : ∀ l ∈ log, ∀ k v, l.1.op = .put k v → weight v ≤ bound k) :
    Trace.Run (Remembers B) (fun _ => none) log m ∧ LossyMap.Within weight bound m := by
  induction h with
  | nil => exact ⟨.nil, fun k v hk => by cases hk⟩
  | @snoc log l m₁ m₂ _ hstep ih =>
    obtain ⟨hrun, hwithin⟩ := ih fun l' hl' => hputs l' (List.mem_append_left _ hl')
    have hop := hputs l (by simp)
    have happly := hstep.step.eq_apply hwithin hfin hcap hop
    exact ⟨hrun.snoc ⟨happly, hstep.replied⟩, happly ▸ hwithin.apply hop⟩

namespace Service

variable {parse : List ByteType → Request} {y : Service FifoEvictor} {ls : List Happening}

/-- The requests that were answered, in that order, are requests to a map that may forget. -/
theorem recalls_order {buffer : RecvBuffer} {endpoint : Endpoint}
    (h : Run B parse (start buffer endpoint (serverCache maxmem)) ls y)
    (hnul : ∀ l ∈ order ls, IsCString l.2.1.target) :
    ∃ m, Trace.Run (Recalls B maxmem.toNat) (fun _ => none) ((order ls).map Prod.snd) m := by
  refine ⟨_, recalls_of_replies (run_order h) fun l hl => ?_⟩
  obtain ⟨l', hl', rfl⟩ := List.mem_map.1 hl
  exact hnul l' hl'

/-- **The server is linearizable as a map that may forget.**  Of any run of the server whose
requests have no `'\0'` in their targets, the history as the clients see it is linearized by
the order in which the requests were answered, as requests to a map that is empty at first. -/
theorem linearizable_lossy {buffer : RecvBuffer} {endpoint : Endpoint}
    (h : Run B parse (start buffer endpoint (serverCache maxmem)) ls y)
    (hnul : ∀ l ∈ order ls, IsCString l.2.1.target) :
    Linearizes (Recalls B maxmem.toNat) (fun _ => none) (history ls) (order ls) := by
  obtain ⟨m, hlegal⟩ := recalls_order h hnul
  exact linearizes_of_order h hlegal

/-- The two requests are answered in turn. -/
theorem order_putThenGet (put get : Response) : order (putThenGet put get) =
    [(.tcp 0 0, ⟨.put, "/a/one", 11, true⟩, put), (.tcp 0 1, ⟨.get, "/a", 11, true⟩, get)] :=
  rfl

/-- Neither of the two requests has a `'\0'` in its target. -/
theorem isCString_putThenGet (put get : Response) :
    ∀ l ∈ order (putThenGet put get), IsCString l.2.1.target := by
  have hput : IsCString "/a/one" := by decide
  have hget : IsCString "/a" := by decide
  rw [order_putThenGet, List.forall_mem_cons, List.forall_mem_singleton]
  exact ⟨hput, hget⟩

/-- A PUT and a GET, to a map that may forget. -/
theorem linearizable_lossy_putThenGet : ∃ ls y,
    Run plainBoost (fun _ => ⟨.head, "/", 11, true⟩) (start (.replicate nul) "" (serverCache 30))
      ls y ∧ (order ls).length = 2 ∧
      Linearizes (Recalls plainBoost 30) (fun _ => none) (history ls) (order ls) := by
  obtain ⟨put, get, y, x, -, -, hrun, -⟩ := run_putThenGet
  exact ⟨_, y, hrun, rfl, linearizable_lossy hrun (isCString_putThenGet put get)⟩

/-- **With room for everything the server forgets nothing.**  When the strings that the
requests put are of bounded lengths, for each key its own, and `maxmem` has room for one of each
with its `'\0'`, the server is linearizable as a map: a GET finds what was last put. -/
theorem linearizable_exact {buffer : RecvBuffer} {endpoint : Endpoint} (bound : String → ℕ)
    (h : Run B parse (start buffer endpoint (serverCache maxmem)) ls y)
    (hnul : ∀ l ∈ order ls, IsCString l.2.1.target) (hfin : (Function.support bound).Finite)
    (hcap : ∑ᶠ k, bound k ≤ maxmem.toNat)
    (hputs : ∀ l ∈ order ls, ∀ k v, l.2.1.op = .put k v → v.length + 1 ≤ bound k) :
    Linearizes (Remembers B) (fun _ => none) (history ls) (order ls) := by
  obtain ⟨m, hlegal⟩ := recalls_order h hnul
  have hlog : ∀ l ∈ (order ls).map Prod.snd, ∀ k v, l.1.op = .put k v → weight v ≤ bound k := by
    intro l hl
    obtain ⟨l', hl', rfl⟩ := List.mem_map.1 hl
    exact hputs l' hl'
  exact linearizes_of_order h (remembers_of_recalls hlegal hfin hcap hlog).1

/-- A PUT and a GET, to a map with four bytes under one key. -/
theorem linearizable_exact_putThenGet : ∃ ls y,
    Run plainBoost (fun _ => ⟨.head, "/", 11, true⟩) (start (.replicate nul) "" (serverCache 30))
      ls y ∧ (order ls).length = 2 ∧
      Linearizes (Remembers plainBoost) (fun _ => none) (history ls) (order ls) := by
  obtain ⟨put, get, y, x, -, -, hrun, -⟩ := run_putThenGet
  have hone : (∑ᶠ k, if k = "a" then 4 else 0) = 4 :=
    (finsum_eq_single _ "a" fun k hk => if_neg hk).trans (if_pos rfl)
  refine ⟨_, y, hrun, rfl, linearizable_exact (fun k => if k = "a" then 4 else 0) hrun
    (isCString_putThenGet put get) ?_ (by rw [hone]; decide) ?_⟩
  · refine (Set.finite_singleton "a").subset fun k hk => ?_
    by_contra hne
    exact hk (if_neg hne)
  · rw [order_putThenGet, List.forall_mem_cons, List.forall_mem_singleton]
    refine ⟨fun k v hput => ?_, fun k v hget => by cases hget⟩
    have hop : Request.op ⟨.put, "/a/one", 11, true⟩ = .put "a" "one" := by decide
    obtain ⟨rfl, rfl⟩ := LossyMap.Op.put.inj (hop.symm.trans hput)
    decide

/-- A GET that was answered 200 found what is under its key. -/
theorem exists_found {m : String → Option String} {req : Request} {res : Response} {key : String}
    (h : Replied B m req res) (hmethod : req.method = .get) (hkey : substr1 req.target = .ok key)
    (hfound : res.status = 200) : ∃ v, m key = some v ∧ res = foundReply B req key v := by
  cases h with
  | getMissing => cases hfound
  | @getFound key' val _ hkey' hval =>
    obtain rfl := Except.ok.inj (hkey'.symm.trans hkey)
    exact ⟨val, hval, rfl⟩
  | put hm | deleteMissing hm | deleteFound hm | head hm | postOther hm | postReset hm
  | unknown hm => cases hmethod.symm.trans hm

/-- **No GET is stale.**  In any run of the server whose requests have no `'\0'` in their
targets, a GET that is answered 200 is answered with a string that a PUT stored under its key
which was called before the GET returned; and no other PUT or DELETE of the key, and no reset,
was called after that one had returned and returned before the GET was called. -/
theorem no_stale_get {buffer : RecvBuffer} {endpoint : Endpoint} {i : OpId} {req : Request}
    {res : Response} {key : String}
    (h : Run B parse (start buffer endpoint (serverCache maxmem)) ls y)
    (hnul : ∀ l ∈ order ls, IsCString l.2.1.target) (hmethod : req.method = .get)
    (hkey : substr1 req.target = .ok key) (hcall : .call i req ∈ history ls)
    (hret : .ret i res ∈ history ls) (hfound : res.status = 200) :
    ∃ v j put, res = foundReply B req key v ∧ Request.op put = .put key v ∧
      .call j put ∈ history ls ∧ ¬Before (history ls) (.ret i res) (.call j put) ∧
      ∀ k other r r', other.op.Touches key → Before (history ls) (.ret j r) (.call k other) →
        ¬Before (history ls) (.ret k r') (.call i req) := by
  obtain ⟨t, hlegal⟩ := recalls_order h hnul
  have hlin := linearizes_of_order h hlegal
  obtain ⟨req', hmem⟩ := hlin.returned i res hret
  obtain rfl : req = req' := hlin.call_eq hcall (hlin.called _ hmem)
  obtain ⟨pre, post, hsplit⟩ := List.append_of_mem hmem
  rw [hsplit, List.map_append, List.map_cons, Trace.run_append_iff] at hlegal
  obtain ⟨m, hpre, hrest⟩ := hlegal
  obtain ⟨m', hget, -⟩ := Trace.run_cons_iff.1 hrest
  obtain ⟨v, hv, hres⟩ := exists_found hget.replied hmethod hkey hfound
  -- the last request on the key before the GET, in the order of the effects
  have hops := hpre.map (f := fun l => l.1.op) fun _ _ _ hstep => hstep.step
  rw [List.map_map] at hops
  obtain ⟨a, b, hab, hlast⟩ := LossyMap.exists_put_of_run hops hv
  obtain ⟨pre₁, rest, rfl, -, hrest⟩ := List.map_eq_append_iff.1 hab
  obtain ⟨⟨j, put, resj⟩, mid, rfl, hput, rfl⟩ := List.map_eq_cons_iff.1 hrest
  refine ⟨v, j, put, hres, hput, hlin.called (j, put, resj) (by simp [hsplit]), ?_, ?_⟩
  · exact hlin.not_before (by simpa using hsplit)
  · intro k other r r' htouches hleft hright
    have hmid := hlin.mem_between (by simpa using hsplit) hleft hright
    exact hlast _ (List.mem_map.2 ⟨_, hmid, rfl⟩) htouches

/-- A GET of what was put. -/
theorem no_stale_get_putThenGet : ∃ ls y v j put res,
    Run plainBoost (fun _ => ⟨.head, "/", 11, true⟩) (start (.replicate nul) "" (serverCache 30))
      ls y ∧ res = foundReply plainBoost ⟨.get, "/a", 11, true⟩ "a" v ∧
    .ret (.tcp 0 1) res ∈ history ls ∧ .call j put ∈ history ls ∧ put.op = .put "a" v := by
  obtain ⟨put, get, y, x, -, hfound, hrun, -⟩ := run_putThenGet
  have hcall : .call (.tcp 0 1) ⟨.get, "/a", 11, true⟩ ∈ history (putThenGet put get) :=
    List.mem_of_getElem? (i := 2) rfl
  have hret : .ret (.tcp 0 1) get ∈ history (putThenGet put get) :=
    List.mem_of_getElem? (i := 3) rfl
  obtain ⟨v, j, req, hres, hop, hmem, -, -⟩ :=
    no_stale_get hrun (isCString_putThenGet put get) rfl rfl hcall hret hfound
  exact ⟨_, y, v, j, req, get, hrun, hres, hret, hmem, hop⟩

end Service
end CacheBench
