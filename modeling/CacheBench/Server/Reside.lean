/-
# How long a value is there

A request makes calls of the cache, and what they set is the value of the request, if it is a
PUT (`MadeBy`).  So what holds of calls that follow each other holds of requests: from the
first GET or PUT of a key on, the key is safe from eviction until more than `maxmem` bytes of
values have been put, those of the key itself among them (`Service.retained`).  Which clients
put them, over which connections, and what else they ask for, does not matter.
-/

import CacheBench.Server.Lossy
import CacheBench.Store.Reside

namespace CacheBench

open Cache (touched bytesSet)

/-- The key that a GET or a PUT asks the cache for. -/
def Request.named (req : Request) : Option String :=
  match req.method, substr1 req.target with
  | .get, .ok key => some key
  | .put, .ok line => some (putPair line).1
  | _, _ => none

/-- What the value of a PUT takes up, with its `'\0'`. -/
def Request.putBytes (req : Request) : ℕ :=
  match req.op with
  | .put _ val => weight val
  | _ => 0

/-- What the values of all PUTs take up. -/
def putBytes (reqs : List Request) : ℕ := (reqs.map Request.putBytes).sum

/-- The calls are such that the requests make. -/
structure MadeBy (reqs : List Request) (calls : List (Call × Reply)) : Prop where
  bytes : bytesSet calls = putBytes reqs
  small : ∀ l ∈ calls, l.1.setSize ≤ 2 ^ 31
  spares : ∀ k, (∀ req ∈ reqs, ¬req.op.Touches k) → ∀ l ∈ calls, l.1.Spares k
  touches : ∀ l ∈ calls, ∀ k ∈ touched l, ∃ req ∈ reqs, req.named = some k

variable {B : Boost} {c c' : Cache FifoEvictor} {maxmem : SizeType} {req : Request}
variable {reqs reqs' : List Request} {calls calls' : List (Call × Reply)}

/-- A request that makes no call, as none puts anything. -/
theorem madeBy_nil (h : putBytes reqs = 0) : MadeBy reqs [] :=
  ⟨h.symm, by simp, by simp, by simp⟩

/-- A request that makes one call, which sets nothing. -/
theorem madeBy_singleton {l : Call × Reply} (hput : req.putBytes = 0) (hset : l.1.setSize = 0)
    (hspares : ∀ k, ¬req.op.Touches k → l.1.Spares k)
    (htouches : ∀ k ∈ touched l, req.named = some k) : MadeBy [req] [l] := by
  refine ⟨?_, ?_, fun k hk => ?_, ?_⟩
  · simp [bytesSet, putBytes, hput, hset]
  · simp [hset]
  · rw [List.forall_mem_singleton] at hk ⊢
    exact hspares k hk
  · rw [List.forall_mem_singleton]
    exact fun k hk => ⟨req, List.mem_singleton_self req, htouches k hk⟩

/-- Calls that requests make one after the other. -/
theorem MadeBy.append (h : MadeBy reqs calls) (h' : MadeBy reqs' calls') :
    MadeBy (reqs ++ reqs') (calls ++ calls') := by
  refine ⟨?_, fun l hl => ?_, fun k hk l hl => ?_, fun l hl k hk => ?_⟩
  · have hbytes := h.bytes
    have hbytes' := h'.bytes
    simp only [putBytes, Cache.bytesSet_append, List.map_append, List.sum_append] at *
    omega
  · rcases List.mem_append.1 hl with hl | hl
    · exact h.small l hl
    · exact h'.small l hl
  · rcases List.mem_append.1 hl with hl | hl
    · exact h.spares k (fun req hreq => hk req (List.mem_append_left _ hreq)) l hl
    · exact h'.spares k (fun req hreq => hk req (List.mem_append_right _ hreq)) l hl
  · rcases List.mem_append.1 hl with hl | hl
    · obtain ⟨req, hreq, hnamed⟩ := h.touches l hl k hk
      exact ⟨req, List.mem_append_left _ hreq, hnamed⟩
    · obtain ⟨req, hreq, hnamed⟩ := h'.touches l hl k hk
      exact ⟨req, List.mem_append_right _ hreq, hnamed⟩

section
variable {line key : String}

/-- A request that changes nothing puts nothing. -/
theorem Request.putBytes_of_keep (h : req.op = .keep) : req.putBytes = 0 := by
  rw [putBytes, h]

/-- A PUT puts its value with the terminator. -/
theorem Request.putBytes_of_put {val : String} (h : req.op = .put key val) :
    req.putBytes = weight val := by
  rw [putBytes, h]

/-- A GET names its key. -/
theorem Request.named_of_get (h : req.method = .get) (hkey : substr1 req.target = .ok key) :
    req.named = some key := by
  rw [named, h, hkey]

/-- A PUT names its key. -/
theorem Request.named_of_put (h : req.method = .put) (hline : substr1 req.target = .ok line) :
    req.named = some (putPair line).1 := by
  rw [named, h, hline]

/-- A GET makes one call, a get. -/
theorem madeBy_get (hmethod : req.method = .get) (hkey : substr1 req.target = .ok key)
    (e : EntryType) : MadeBy [req] [(.get key, .get e)] := by
  refine madeBy_singleton (Request.putBytes_of_keep (Request.op_of_get hmethod)) rfl
    (fun _ _ => trivial) fun k hk => ?_
  rw [List.mem_singleton.1 hk]
  exact Request.named_of_get hmethod hkey

/-- A PUT makes two, a get and a set of its value. -/
theorem madeBy_put (hmethod : req.method = .put) (hline : substr1 req.target = .ok line)
    (hlt : (putPair line).2.length < 2 ^ 31) (e : EntryType) (r : Report) :
    MadeBy [req] [(.get (putPair line).1, .get e), (.set (putPair line).1
      (cString (putPair line).2) (UInt32.ofNat ((putPair line).2.length + 1)), .set r)] := by
  have hop := Request.op_of_put hmethod hline
  have hsize := toNat_copied_size hlt
  have hnamed := Request.named_of_put hmethod hline
  refine ⟨?_, ?_, fun k hk => ?_, ?_⟩
  · simp [bytesSet, putBytes, Call.setSize, Request.putBytes_of_put hop, weight]
    omega
  · simp only [List.forall_mem_cons, Call.setSize, hsize]
    exact ⟨Nat.zero_le _, hlt, by simp⟩
  · rw [List.forall_mem_singleton, hop] at hk
    simp only [List.forall_mem_cons]
    exact ⟨trivial, Ne.symm hk, by simp⟩
  · refine List.forall_mem_cons.2 ⟨fun k hk => ?_, List.forall_mem_singleton.2 fun k hk => ?_⟩
    · rw [List.mem_singleton.1 hk]
      exact ⟨req, List.mem_singleton_self req, hnamed⟩
    · dsimp only [touched] at hk
      split_ifs at hk
      · rw [List.mem_singleton.1 hk]
        exact ⟨req, List.mem_singleton_self req, hnamed⟩
      · cases hk

end

/-- **The calls that a request makes.** -/
theorem Cache.Queued.exists_madeBy {res : Response} (hq : c.Queued) (hnul : IsCString req.target)
    (h : Cache.Replies B c (req, res) c') :
    ∃ calls, Cache.Run c calls c' ∧ MadeBy [req] calls := by
  have hnothing : req.op = .keep → ∃ calls, Cache.Run c calls c ∧ MadeBy [req] calls :=
    fun hop => ⟨[], .nil, madeBy_nil (by simp [putBytes, Request.putBytes_of_keep hop])⟩
  have hserved := Handles.served h
  generalize hout : Except.ok res = out at hserved
  cases hserved with
  | throws => cases hout
  | @getMissing key hmethod hkey | @getFound key _ _ hmethod hkey =>
    exact ⟨_, Trace.run_singleton_iff.2 (.get c key), madeBy_get hmethod hkey _⟩
  | @put line r _ hmethod hline hset =>
    have hval : IsCString (putPair line).2 :=
      fun hmem => hnul (substr1_subset hline nul ((putPair_subset line).2 nul hmem))
    have hlt := (hq.get (putPair line).1).length_lt hval hset
    exact ⟨_, .snoc (.snoc .nil (.get c (putPair line).1)) (.set hset),
      madeBy_put hmethod hline hlt _ r⟩
  | @deleteMissing key hmethod hkey =>
    have hop := Request.op_of_delete hmethod hkey
    exact ⟨[], .nil, madeBy_nil (by simp [putBytes, Request.putBytes, hop])⟩
  | @deleteFound key hmethod hkey =>
    have hop := Request.op_of_delete hmethod hkey
    refine ⟨_, Trace.run_singleton_iff.2 (.del c key), madeBy_singleton ?_ rfl ?_ nofun⟩
    · simp [Request.putBytes, hop]
    · intro k hk
      rw [hop] at hk
      exact Ne.symm hk
  | head hmethod => exact hnothing (Request.op_of_head hmethod)
  | postOther hmethod htarget =>
    exact hnothing (by rw [Request.op_of_post hmethod, if_neg htarget])
  | postReset hmethod htarget =>
    have hop : req.op = .clear := by rw [Request.op_of_post hmethod, if_pos htarget]
    refine ⟨_, Trace.run_singleton_iff.2 (.reset c), madeBy_singleton ?_ rfl ?_ nofun⟩
    · simp [Request.putBytes, hop]
    · intro k hk
      rw [hop] at hk
      exact absurd trivial hk
  | unknown hmethod => exact hnothing (Request.op_of_other hmethod)

/-- **The calls that a run of requests makes.** -/
theorem exists_madeBy {log : List (Request × Response)} (hq : c.Queued)
    (hnul : ∀ l ∈ log, IsCString l.1.target) (h : Trace.Run (Cache.Replies B) c log c') :
    ∃ calls, Cache.Run c calls c' ∧ MadeBy (log.map Prod.fst) calls := by
  suffices h' : c'.Queued ∧ ∃ calls, Cache.Run c calls c' ∧ MadeBy (log.map Prod.fst) calls from
    h'.2
  induction h with
  | nil => exact ⟨hq, [], .nil, madeBy_nil rfl⟩
  | @snoc log l d d' _ hstep ih =>
    obtain ⟨hd, calls, hrun, hmade⟩ := ih fun l' hl' => hnul l' (List.mem_append_left _ hl')
    obtain ⟨calls', hrun', hmade'⟩ := hd.exists_madeBy (hnul l (by simp)) hstep
    refine ⟨Trace.Run.invariant hrun' (fun _ _ _ hs hm => hm.step hs) hd, calls ++ calls',
      Trace.run_append_iff.2 ⟨d, hrun, hrun'⟩, ?_⟩
    rw [List.map_append]
    exact hmade.append hmade'

/-- A key that no call touches gets no node. -/
theorem Cache.Run.mem_queue {d : Cache FifoEvictor} (h : Cache.Run c calls d) (hq : c.Queued)
    {k : KeyType} (hk : k ∈ d.queue) : k ∈ c.queue ∨ ∃ l ∈ calls, k ∈ touched l := by
  induction h with
  | nil => exact Or.inl hk
  | @snoc log l d d' hrun hstep ih =>
    have hd : d.Queued := Trace.Run.invariant hrun (fun _ _ _ hs hm => hm.step hs) hq
    have hmem : k ∈ d.queue ++ touched l := by
      rw [hd.queue_step hstep]
      exact List.mem_append_right _ hk
    rcases List.mem_append.1 hmem with hmem | hmem
    · exact (ih hmem).imp_right fun ⟨l', hl', htouched⟩ =>
        ⟨l', List.mem_append_left _ hl', htouched⟩
    · exact Or.inr ⟨l, by simp, hmem⟩

/-- A GET finds what is under its key. -/
theorem Replied.eq_found {m : String → Option String} {res : Response} {key val : String}
    (h : Replied B m req res) (hmethod : req.method = .get) (hkey : substr1 req.target = .ok key)
    (hval : m key = some val) : res = foundReply B req key val := by
  cases h with
  | @getMissing key' _ hkey' hnone =>
    obtain rfl := Except.ok.inj (hkey'.symm.trans hkey)
    cases hval.symm.trans hnone
  | @getFound key' val' _ hkey' hsome =>
    obtain rfl := Except.ok.inj (hkey'.symm.trans hkey)
    obtain rfl := Option.some.inj (hval.symm.trans hsome)
    rfl
  | put hm | deleteMissing hm | deleteFound hm | head hm | postOther hm | postReset hm
  | unknown hm => cases hmethod.symm.trans hm

/-- **A value that was put is there** when a GET comes, if since some moment before the first
request for its key no more than `maxmem` bytes have been put, and nothing was done to the key
since the PUT. -/
theorem contents_of_putBytes {d : Cache FifoEvictor} {log mid mid' : List (Request × Response)}
    {put : Request} {res : Response} {key val : String}
    (h : Trace.Run (Cache.Replies B) (serverCache maxmem) (log ++ (mid ++ (put, res) :: mid')) d)
    (hnul : ∀ l ∈ log ++ (mid ++ (put, res) :: mid'), IsCString l.1.target)
    (hmax : maxmem.toNat < 2 ^ 31) (hnew : ∀ l ∈ log, l.1.named ≠ some key)
    (hput : put.op = .put key val) (hspares : ∀ l ∈ mid', ¬l.1.op.Touches key)
    (hroom : putBytes ((mid ++ (put, res) :: mid').map Prod.fst) ≤ maxmem.toNat) :
    d.contents key = some val := by
  simp only [List.forall_mem_append, List.forall_mem_cons] at hnul
  obtain ⟨hnul, hnulMid, hnulPut, hnulMid'⟩ := hnul
  obtain ⟨c₁, h₁, hrest⟩ := Trace.run_append_iff.1 h
  obtain ⟨c₂, h₂, hrest⟩ := Trace.run_append_iff.1 hrest
  obtain ⟨c₃, hstep, h₃⟩ := Trace.run_cons_iff.1 hrest
  -- the calls of the requests, in three parts: up to the moment, up to the PUT, and since
  have hq : (serverCache maxmem).Queued := Cache.queued_new maxmem FifoEvictor.new
  obtain ⟨calls, hcalls, hmade⟩ := exists_madeBy hq hnul h₁
  have hq₁ : c₁.Queued := Cache.Run.queued hcalls
  have hput₂ : Trace.Run (Cache.Replies B) c₁ (mid ++ [(put, res)]) c₃ := h₂.snoc hstep
  obtain ⟨calls₂, hcalls₂, hmade₂⟩ := exists_madeBy hq₁
    (List.forall_mem_append.2 ⟨hnulMid, List.forall_mem_singleton.2 hnulPut⟩) hput₂
  have hrun₂ : Cache.Run (serverCache maxmem) (calls ++ calls₂) c₃ :=
    Trace.run_append_iff.2 ⟨c₁, hcalls, hcalls₂⟩
  obtain ⟨calls₃, hcalls₃, hmade₃⟩ := exists_madeBy (Cache.Run.queued hrun₂) hnulMid' h₃
  -- after the PUT the value is there
  have hval : c₃.contents key = some val := by
    obtain ⟨hkept, -⟩ := kept_of_replies (Trace.run_append_iff.2 ⟨c₁, h₁, h₂⟩)
      (List.forall_mem_append.2 ⟨hnul, hnulMid⟩)
    have hputs := (hkept.recalls hnulPut hstep).step
    rw [hput] at hputs
    cases hputs with
    | put hputs => exact hputs.self
  -- what is behind the key then was put since the moment
  have hnode : key ∉ c₁.queue := by
    intro hmem
    rcases Cache.Run.mem_queue hcalls hq hmem with hmem | ⟨l, hl, htouched⟩
    · cases hmem
    · obtain ⟨req, hreq, hnamed⟩ := hmade.touches l hl key htouched
      obtain ⟨l', hl', rfl⟩ := List.mem_map.1 hreq
      exact hnew l' hl' hnamed
  have hbehind := (Cache.Run.behind_le hcalls₂ hq₁ key).2
  have hbytes : putBytes ((mid ++ (put, res) :: mid').map Prod.fst) =
      bytesSet calls₂ + bytesSet calls₃ := by
    rw [hmade₂.bytes, hmade₃.bytes]
    simp [putBytes, Nat.add_assoc]
  rw [hq₁.behind_of_notMem hnode] at hbehind
  rw [hbytes] at hroom
  have hkept := Cache.Run.notMem_evictedBy hrun₂ hcalls₃ (k := key) (fun l hl => ?_) (by omega)
  · rw [← hval]
    refine Cache.contents_congr (Cache.Run.entry_of_spares hcalls₃ (hmade₃.spares key ?_) hkept)
    intro req hreq
    obtain ⟨l, hl, rfl⟩ := List.mem_map.1 hreq
    exact hspares l hl
  · have hsmall : l.1.setSize ≤ 2 ^ 31 := by
      rcases List.mem_append.1 hl with hl | hl
      · exact ((List.mem_append.1 hl).elim (hmade.small l) (hmade₂.small l))
      · exact hmade₃.small l hl
    omega

namespace Service

variable {parse : List ByteType → Request} {y : Service FifoEvictor} {ls : List Happening}

/-- **A value that was put is there** until more than `maxmem` bytes have been put since its key
was first asked for.  In any run of the server whose requests have no `'\0'` in their targets,
with a limit below `2^31`: when a PUT of a key was answered, and after it a GET of that key, and
no other PUT of it, DELETE of it or reset in between, then the GET found the value, provided that
the values of all PUTs from some moment before the first GET or PUT of the key are within
`maxmem` together. -/
theorem retained {buffer : RecvBuffer} {endpoint : Endpoint} {i j : OpId} {put req : Request}
    {res res' : Response} {key val : String} {pre mid mid' post : List (OpId × Request × Response)}
    (h : Run B parse (start buffer endpoint (serverCache maxmem)) ls y)
    (hnul : ∀ l ∈ order ls, IsCString l.2.1.target) (hmax : maxmem.toNat < 2 ^ 31)
    (hsplit : order ls = pre ++ (mid ++ (j, put, res') :: mid') ++ (i, req, res) :: post)
    (hnew : ∀ l ∈ pre, l.2.1.named ≠ some key) (hput : put.op = .put key val)
    (hspares : ∀ l ∈ mid', ¬l.2.1.op.Touches key)
    (hroom : putBytes ((mid ++ (j, put, res') :: mid').map fun l => l.2.1) ≤ maxmem.toNat)
    (hmethod : req.method = .get) (hkey : substr1 req.target = .ok key) :
    res = foundReply B req key val := by
  have hrun := run_order h
  rw [hsplit, List.map_append, List.map_cons] at hrun
  rw [hsplit] at hnul
  obtain ⟨d, hrun, hrest⟩ := Trace.run_append_iff.1 hrun
  obtain ⟨d', hget, -⟩ := Trace.run_cons_iff.1 hrest
  rw [List.forall_mem_append, List.forall_mem_cons] at hnul
  obtain ⟨hnul, hnulGet, -⟩ := hnul
  have hnul' : ∀ l ∈ (pre ++ (mid ++ (j, put, res') :: mid')).map Prod.snd,
      IsCString l.1.target := List.forall_mem_map.2 hnul
  obtain ⟨hkept, -⟩ := kept_of_replies hrun hnul'
  have hreplied := (hkept.recalls hnulGet hget).replied
  simp only [List.map_append, List.map_cons] at hrun hnul'
  have hval := contents_of_putBytes hrun hnul' hmax (List.forall_mem_map.2 hnew) hput
    (List.forall_mem_map.2 hspares) (by simpa [Function.comp_def] using hroom)
  exact hreplied.eq_found hmethod hkey hval

/-- A value that was put is found. -/
theorem retained_putThenGet : ∃ ls y put get,
    Run plainBoost (fun _ => ⟨.head, "/", 11, true⟩) (start (.replicate nul) "" (serverCache 30))
      ls y ∧ order ls =
        [(.tcp 0 0, ⟨.put, "/a/one", 11, true⟩, put), (.tcp 0 1, ⟨.get, "/a", 11, true⟩, get)] ∧
      get = foundReply plainBoost ⟨.get, "/a", 11, true⟩ "a" "one" := by
  obtain ⟨put, get, y, x, -, -, hrun, -⟩ := run_putThenGet
  have hop : Request.op ⟨.put, "/a/one", 11, true⟩ = .put "a" "one" := by decide
  have hbytes : putBytes [⟨.put, "/a/one", 11, true⟩] ≤ (30 : SizeType).toNat := by decide
  have hsplit : order (putThenGet put get) =
      [] ++ ([] ++ (.tcp 0 0, ⟨.put, "/a/one", 11, true⟩, put) :: []) ++
        (.tcp 0 1, ⟨.get, "/a", 11, true⟩, get) :: [] := order_putThenGet put get
  exact ⟨_, y, put, get, hrun, hsplit, retained hrun (isCString_putThenGet put get) (by decide)
    hsplit nofun hop nofun hbytes rfl rfl⟩

end Service
end CacheBench
