/-
# Telling two servers apart

A node in the evictor's queue shows when a PUT evicts: with one key `a` stored, a PUT for
which there is no room without it pops the queue up to the first node of `a` and no
further (`Stage.make_room`).  Only a key without a slash can be stored.  So two servers
with nothing stored, one of which has a node of `k` more in its queue, are told apart by
requests whose PUTs all fit, unless that node comes after an earlier node of `k` with only
keys that have slashes in between (`Stage.apart`): the nodes in front of it are popped one
stored key at a time, and then an entry without a value for `k` is evicted by the one
server and not by the other.
-/

import CacheBench.Store.Echo
import CacheBench.Store.Order
import CacheBench.Server.Serve

namespace CacheBench

/-- A PUT must fit. -/
def Fits (maxmem : SizeType) (req : Request) : Prop :=
  req.method = .put → ∀ line, substr1 req.target = .ok line →
    (putPair line).2.length + 1 ≤ maxmem.toNat

/-- What is known of a cache on the way: what it has under each key, and its queue. -/
structure Stage (c : Cache FifoEvictor) (maxmem : SizeType) (queue : List KeyType)
    (entries : KeyType → Option EntryType) (used : SizeType) : Prop where
  queued : c.Queued
  maxmem : c.maxmem = maxmem
  queue : c.queue = queue
  lookup : ∀ k, c.dict.lookup k = entries k
  size : c.size = used

/-! ### The requests -/

/-- A GET of `/key`. -/
def getRequest (key : String) : Request := ⟨.get, keyTarget key, 11, true⟩

/-- A PUT of `/key/val`. -/
def putRequest (key val : String) : Request := ⟨.put, pairTarget key val, 11, true⟩

/-- A DELETE of `/key`. -/
def deleteRequest (key : String) : Request := ⟨.delete, keyTarget key, 11, true⟩

/-- The POST that resets the cache. -/
def resetRequest : Request := ⟨.post, "/reset", 11, true⟩

/-- The answer to a PUT of `n` letters under a new key. -/
def created (B : Boost) (key : String) (n : ℕ) : Except Thrown Response :=
  .ok (putReply B (putRequest key (letters n)) key true)

/-- A PUT of two strings without a slash fits when the value does. -/
theorem fits_putRequest {maxmem : SizeType} {key val : String} (hkey : SlashFree key)
    (hval : SlashFree val) (hfit : val.length + 1 ≤ maxmem.toNat) :
    Fits maxmem (putRequest key val) := by
  intro _ line hline
  obtain rfl := Except.ok.inj (hline.symm.trans (substr1_pairTarget key val))
  rwa [putPair_of_slashFree hkey hval]

variable {B : Boost} {c d : Cache FifoEvictor} {maxmem used : SizeType}
  {entries : KeyType → Option EntryType} {queue front rest : List KeyType} {a k x z : KeyType}

/-! ### One request at a time -/

/-- A reset clears the stage. -/
theorem Stage.reset (h : Stage c maxmem queue entries used) (B : Boost) :
    Handles B c resetRequest (.ok (resetReply B)) c.reset ∧
      Stage c.reset maxmem queue (fun _ => none) 0 :=
  ⟨handles_reset_iff.2 ⟨rfl, rfl⟩,
    ⟨h.queued.reset, h.maxmem, h.queue, fun k => Finmap.lookup_empty k, rfl⟩⟩

/-- A GET of a key that is not there leaves an entry without a value and a node. -/
theorem Stage.get (h : Stage c maxmem queue entries used) (B : Boost) (hk : entries k = none) :
    Handles B c (getRequest k) (.ok (notFound B (getRequest k) k)) (c.get k).2 ∧
      Stage (c.get k).2 maxmem (queue ++ [k])
        (fun j => if j = k then some (none, 0) else entries j) used := by
  have hnone : c.dict.lookup k = none := (h.lookup k).trans hk
  refine ⟨handles_get_iff.2 ⟨rfl, Or.inl ⟨by rw [Cache.entry, hnone]; rfl, rfl⟩⟩,
    ⟨h.queued.get k, h.maxmem, ?_, fun j => ?_, h.size⟩⟩
  · rw [← h.queue]
    exact Cache.queue_touch h.queued.isSome k
  · rw [Cache.get_snd_dict, Cache.subscript_snd_lookup, h.lookup, h.lookup]
    by_cases hj : j = k
    · rw [if_pos hj, if_pos ⟨hj, hk⟩]
    · rw [if_neg hj, if_neg fun hand => hj hand.1]

/-- A PUT of a new key, once it is known which nodes it pops. -/
theorem Stage.put (h : Stage c maxmem queue entries used) (B : Boost) {n : ℕ}
    {gone kept : List KeyType} (hx : SlashFree x) (hnew : entries x = none) (hn : n < 2 ^ 31)
    (hfit : n + 1 ≤ maxmem.toNat) (hqueue : queue ++ [x] = gone ++ kept)
    (hfree : (c.get x).2.FreesRoom x (UInt32.ofNat (n + 1)) gone.length) :
    ∃ c', Handles B c (putRequest x (letters n)) (created B x n) c' ∧
      Stage c' maxmem (kept ++ [x])
        (fun j => if j = x then some (some (stored (letters n)), UInt32.ofNat (n + 1))
          else if j ∈ gone then none else entries j)
        ((((c.get x).2.del x).2.without gone).size + UInt32.ofNat (n + 1)) := by
  obtain ⟨-, hget⟩ := h.get B hnew
  have hsize := toNat_put_size hfit
  have hcopy : copyValue (cString (letters n)) (UInt32.ofNat (n + 1)) =
      some ⟨stored (letters n), false⟩ := by
    rw [copyValue_cString (letters_isCString n) (by rw [hsize, letters_length]), letters_length,
      if_pos hn]
  have hset := hget.queued.setReturns_iff.2 ⟨gone.length, _, hfree, hcopy, rfl, rfl⟩
  obtain ⟨hq, hlookup, hused⟩ := hget.queued.setReturns_after hfree (stored (letters n))
  have htake : (c.get x).2.queue.take gone.length = gone := by
    rw [hget.queue, hqueue, List.take_left]
  have hdrop : (c.get x).2.queue.drop gone.length = kept := by
    rw [hget.queue, hqueue, List.drop_left]
  rw [htake] at hlookup hused
  refine ⟨_, (handles_put_iff hx (letters_slashFree n)).2 ⟨?_, ?_⟩,
    ⟨hget.queued.step (.set hset), (Cache.Step.maxmem (.set hset)).trans hget.maxmem, ?_,
      fun j => ?_, hused⟩⟩
  · rw [letters_length]
    exact ⟨_, hset⟩
  · rw [Cache.entry, h.lookup, hnew]
    rfl
  · rw [hq, hdrop]
  · rw [hlookup, hget.lookup]
    by_cases hj : j = x
    · rw [if_pos hj, if_pos hj]
    · rw [if_neg hj, if_neg hj, if_neg hj]

/-- What the loop of a PUT of a new key starts from takes up as much as before. -/
theorem Stage.del_get (h : Stage c maxmem queue entries used) (hnew : entries x = none) :
    ((c.get x).2.del x).2.maxmem = maxmem ∧ ((c.get x).2.del x).2.size = used ∧
      ∀ j, (((c.get x).2.del x).2.entry j).2 = ((entries j).getD (none, 0)).2 := by
  refine ⟨?_, ?_, fun j => ?_⟩
  · rw [Cache.del_snd_maxmem, Cache.get_snd_maxmem, h.maxmem]
  · rw [Cache.del_snd_size, Cache.get_snd_entry, Cache.get_snd_size, h.size, Cache.entry, h.lookup,
      hnew]
    exact UInt32.sub_zero _
  · rw [Cache.del_snd_entry, Cache.get_snd_entry, Cache.entry, h.lookup]
    split_ifs with hj
    · rw [hj, hnew]
      rfl
    · rfl

/-- A PUT on a cache with nothing stored pops nothing. -/
theorem Stage.fill (h : Stage c maxmem queue (fun _ => none) 0) (B : Boost) {n : ℕ}
    (ha : SlashFree a) (hn : n < 2 ^ 31) (hfit : n + 1 ≤ maxmem.toNat) :
    ∃ c', Handles B c (putRequest a (letters n)) (created B a n) c' ∧
      Stage c' maxmem (queue ++ [a, a])
        (fun j => if j = a then some (some (stored (letters n)), UInt32.ofNat (n + 1)) else none)
        (UInt32.ofNat (n + 1)) := by
  have hlt := maxmem.toNat_lt
  have hsize := toNat_put_size hfit
  obtain ⟨hmax, hzero, -⟩ := h.del_get (x := a) rfl
  have hfree : (c.get a).2.FreesRoom a (UInt32.ofNat (n + 1)) ([] : List KeyType).length := by
    refine ⟨Nat.zero_le _, ?_, fun m hm => absurd hm (Nat.not_lt_zero m)⟩
    show ((c.get a).2.del a).2.exceeds _ = false
    rw [← Bool.not_eq_true, Cache.exceeds_iff, hzero, hmax, hsize, UInt32.toNat_zero]
    omega
  obtain ⟨c', hput, hc'⟩ := h.put B ha rfl hn hfit (List.nil_append _).symm hfree
  refine ⟨c', hput, ⟨hc'.queued, hc'.maxmem, ?_, fun j => ?_, ?_⟩⟩
  · rw [hc'.queue, List.append_assoc]
    rfl
  · rw [hc'.lookup]
    simp
  · rw [hc'.size]
    show ((c.get a).2.del a).2.size + _ = _
    rw [hzero, UInt32.zero_add]

/-- **A PUT that has no room pops up to the key that gives it,** when `a` alone takes up
memory. -/
theorem Stage.make_room (h : Stage c maxmem (front ++ a :: rest) entries used) (B : Boost) {n : ℕ}
    (ha : a ∉ front) (hself : ((entries a).getD (none, 0)).2 = used)
    (hother : ∀ j, j ≠ a → ((entries j).getD (none, 0)).2 = 0)
    (hx : SlashFree x) (hnew : entries x = none) (hn : n < 2 ^ 31) (hfit : n + 1 ≤ maxmem.toNat)
    (hfull : maxmem.toNat < used.toNat + (n + 1)) (hwrap : used.toNat + (n + 1) < 2 ^ 32) :
    ∃ c', Handles B c (putRequest x (letters n)) (created B x n) c' ∧
      Stage c' maxmem (rest ++ [x, x])
        (fun j => if j = x then some (some (stored (letters n)), UInt32.ofNat (n + 1))
          else if j ∈ front ++ [a] then none else entries j) (UInt32.ofNat (n + 1)) := by
  have hlt := maxmem.toNat_lt
  have hsize := toNat_put_size hfit
  obtain ⟨hmax, hused, hentry⟩ := h.del_get hnew
  obtain ⟨e, he⟩ : ∃ e, e = ((c.get x).2.del x).2 := ⟨_, rfl⟩
  rw [← he] at hmax hused hentry
  have hkept : ∀ m ≤ front.length, (e.without ((front ++ [a]).take m)).size = used := by
    intro m hm
    rw [List.take_append_of_le_length hm, ← hused]
    refine @Cache.without_append_size _ e [] _ fun j hj => ?_
    rw [hentry, hother j fun heq => ha (List.mem_of_mem_take (heq ▸ hj))]
  have hgone : (e.without (front ++ [a])).size = 0 := by
    have hfront := hkept front.length le_rfl
    rw [List.take_left] at hfront
    rw [Cache.without_append]
    show ((e.without front).del a).2.size = 0
    rw [Cache.del_snd_size, Cache.without_entry, if_neg ha, hfront, hentry, hself, UInt32.sub_self]
  have hexceeds : ∀ keys, (e.without keys).exceeds (UInt32.ofNat (n + 1)) = true ↔
      maxmem.toNat < ((e.without keys).size.toNat + (n + 1)) % 2 ^ 32 := by
    intro keys
    rw [Cache.exceeds_iff, Cache.without_maxmem, hmax, hsize]
  have hsplit : front ++ a :: rest ++ [x] = (front ++ [a]) ++ (rest ++ [x]) := by simp
  have hqueue : (c.get x).2.queue = (front ++ [a]) ++ (rest ++ [x]) :=
    (h.get B hnew).2.queue.trans hsplit
  have hfree : (c.get x).2.FreesRoom x (UInt32.ofNat (n + 1)) (front ++ [a]).length := by
    refine ⟨?_, ?_, fun m hm => ?_⟩
    · rw [hqueue]
      exact (List.prefix_append _ _).length_le
    · rw [hqueue, List.take_left, ← he, ← Bool.not_eq_true, hexceeds, hgone, UInt32.toNat_zero]
      omega
    · rw [hqueue, List.take_append_of_le_length hm.le, ← he, hexceeds]
      rw [List.length_append, List.length_singleton] at hm
      rw [hkept m (by omega)]
      omega
  obtain ⟨c', hput, hc'⟩ := h.put B hx hnew hn hfit hsplit hfree
  refine ⟨c', hput, ⟨hc'.queued, hc'.maxmem, ?_, hc'.lookup, ?_⟩⟩
  · rw [hc'.queue]
    simp
  · rw [hc'.size, ← he, hgone, UInt32.zero_add]

/-! ### Rounds of requests -/

/-- From some node of `k` on, the queue has only nodes of keys with slashes. -/
def Trailing (k : KeyType) (queue : List KeyType) : Prop :=
  ∃ front back, queue = front ++ back ∧ k ∈ back ∧ ∀ j ∈ back, ¬SlashFree j

/-- Some run of requests that fit goes one way from `c` and not from `d`. -/
abbrev ToldApart (B : Boost) (maxmem : SizeType) : Cache FifoEvictor → Cache FifoEvictor → Prop :=
  Trace.Apart (fun c (l : Request × Except Thrown Response) c' => Handles B c l.1 l.2 c')
    fun l => Fits maxmem l.1

/-- There is always one key more. -/
theorem exists_letters (keys : List KeyType) : ∃ x, SlashFree x ∧ x ∉ keys := by
  obtain ⟨-, -, hx, n, rfl⟩ := Cache.exists_fresh (serverCache 0) keys
  exact ⟨_, letters_slashFree n, hx⟩

/-- A request and its outcome leave one cache. -/
theorem handles_unique (s : Cache FifoEvictor) (l : Request × Except Thrown Response)
    (t t' : Cache FifoEvictor) (h : Handles B s l.1 l.2 t) (h' : Handles B s l.1 l.2 t') : t = t' :=
  (h.deterministic h').2

/-- The length of a value that takes up half of the memory, rounded up. -/
def big (maxmem : SizeType) : ℕ := maxmem.toNat - maxmem.toNat / 2 - 1

/-- The length of a value for which there is no room beside it. -/
def small (maxmem : SizeType) : ℕ := maxmem.toNat / 2

/-- The requests, and their replies, that pop the queue up to its first node of `a`. -/
def popping (B : Boost) (maxmem : SizeType) (a x : KeyType) :
    List (Request × Except Thrown Response) :=
  [(putRequest a (letters (big maxmem)), created B a (big maxmem)),
    (putRequest x (letters (small maxmem)), created B x (small maxmem)),
    (resetRequest, .ok (resetReply B))]

/-- The requests, and their replies, that evict an entry without a value for `k` if there
is a node of `k` before the first node of `z`. -/
def telling (B : Boost) (maxmem : SizeType) (z k x : KeyType) :
    List (Request × Except Thrown Response) :=
  [(putRequest z (letters (big maxmem)), created B z (big maxmem)),
    (getRequest k, .ok (notFound B (getRequest k) k)),
    (putRequest x (letters (small maxmem)), created B x (small maxmem))]

section Rounds

variable (hpos : maxmem ≠ 0) (hlast : maxmem ≠ 4294967295)

include hpos hlast

/-- Two values of which each fits, and both together do not. -/
theorem halves : big maxmem < 2 ^ 31 ∧ small maxmem < 2 ^ 31 ∧ big maxmem + 1 ≤ maxmem.toNat ∧
    small maxmem + 1 ≤ maxmem.toNat ∧
      maxmem.toNat < (UInt32.ofNat (big maxmem + 1)).toNat + (small maxmem + 1) ∧
      (UInt32.ofNat (big maxmem + 1)).toNat + (small maxmem + 1) < 2 ^ 32 := by
  have hlt := maxmem.toNat_lt
  have hne : maxmem.toNat ≠ 0 := fun heq => hpos (UInt32.toNat_inj.1 heq)
  have hne' : maxmem.toNat ≠ 4294967295 := fun heq => hlast (UInt32.toNat_inj.1 heq)
  have hbig : big maxmem + 1 ≤ maxmem.toNat := by
    unfold big
    omega
  rw [toNat_put_size hbig]
  unfold big small at *
  omega

/-- The requests that pop the nodes ahead fit. -/
theorem fits_popping (B : Boost) (ha : SlashFree a) (hx : SlashFree x) :
    ∀ l ∈ popping B maxmem a x, Fits maxmem l.1 := by
  obtain ⟨-, -, hbig, hsmall, -⟩ := halves hpos hlast
  intro l hl
  simp only [popping, List.mem_cons, List.not_mem_nil, or_false] at hl
  rcases hl with rfl | rfl | rfl
  · exact fits_putRequest ha (letters_slashFree _) (by rwa [letters_length])
  · exact fits_putRequest hx (letters_slashFree _) (by rwa [letters_length])
  · intro hput
    cases hput

/-- The requests that tell the caches apart fit. -/
theorem fits_telling (B : Boost) (hz : SlashFree z) (hx : SlashFree x) :
    ∀ l ∈ telling B maxmem z k x, Fits maxmem l.1 := by
  obtain ⟨-, -, hbig, hsmall, -⟩ := halves hpos hlast
  intro l hl
  simp only [telling, List.mem_cons, List.not_mem_nil, or_false] at hl
  rcases hl with rfl | rfl | rfl
  · exact fits_putRequest hz (letters_slashFree _) (by rwa [letters_length])
  · intro hput
    cases hput
  · exact fits_putRequest hx (letters_slashFree _) (by rwa [letters_length])

/-- With nothing stored, the requests do pop the queue up to the first node of `a`. -/
theorem Stage.popped (h : Stage c maxmem (front ++ a :: rest) (fun _ => none) 0) (B : Boost)
    (ha : a ∉ front) (hafree : SlashFree a) (hx : SlashFree x) (hxa : x ≠ a) :
    ∃ c', Serves B c (popping B maxmem a x) c' ∧
      Stage c' maxmem (rest ++ [a, a, x, x]) (fun _ => none) 0 := by
  obtain ⟨hbig, hsmall, hbigfit, hsmallfit, hfull, hwrap⟩ := halves hpos hlast
  obtain ⟨c₁, hput₁, h₁⟩ := h.fill B hafree hbig hbigfit
  rw [List.append_assoc, List.cons_append] at h₁
  obtain ⟨c₂, hput₂, h₂⟩ := h₁.make_room B ha (by rw [if_pos rfl]; rfl)
    (fun j hj => by rw [if_neg hj]; rfl) hx (if_neg hxa) hsmall hsmallfit hfull hwrap
  rw [List.append_assoc] at h₂
  obtain ⟨hreset, h₃⟩ := h₂.reset B
  exact ⟨_, .snoc (.snoc (.snoc .nil hput₁) hput₂) hreset, h₃⟩

/-- With nothing stored, the requests do evict the entry of `k` if it has a node there. -/
theorem Stage.told (h : Stage c maxmem (front ++ z :: rest) (fun _ => none) 0) (B : Boost)
    (hz : z ∉ front) (hzfree : SlashFree z) (hx : SlashFree x) (hkz : k ≠ z) (hxz : x ≠ z)
    (hxk : x ≠ k) :
    ∃ c', Serves B c (telling B maxmem z k x) c' ∧
      c'.dict.lookup k = if k ∈ front then none else some (none, 0) := by
  obtain ⟨hbig, hsmall, hbigfit, hsmallfit, hfull, hwrap⟩ := halves hpos hlast
  obtain ⟨c₁, hput₁, h₁⟩ := h.fill B hzfree hbig hbigfit
  obtain ⟨hget, h₂⟩ := h₁.get B (k := k) (if_neg hkz)
  rw [List.append_assoc, List.cons_append, List.append_assoc, List.cons_append] at h₂
  have hother : ∀ j, j ≠ z → (((fun j => if j = k then some (none, 0)
      else if j = z then some (some (stored (letters (big maxmem))), UInt32.ofNat (big maxmem + 1))
      else none : KeyType → Option EntryType) j).getD (none, 0)).2 = 0 := by
    intro j hj
    simp only [if_neg hj]
    split_ifs
    · rfl
    · rfl
  obtain ⟨c₃, hput₃, h₃⟩ := h₂.make_room B hz (by rw [if_neg hkz.symm, if_pos rfl]; rfl) hother hx
    (by rw [if_neg hxk, if_neg hxz]) hsmall hsmallfit hfull hwrap
  refine ⟨c₃, .snoc (.snoc (.snoc .nil hput₁) hget) hput₃, ?_⟩
  rw [h₃.lookup, if_neg hxk.symm, if_pos rfl]
  simp [hkz]

/-! ### What the rounds show -/

/-- When only keys with slashes are in front, and `k` is not one of them, the node of `k`
shows at once: of the two servers only one still has something of `k` to delete. -/
theorem Stage.apart_of_front (B : Boost) (hz : SlashFree z) (hzk : z ≠ k)
    (hfront : ∀ j ∈ front, ¬SlashFree j) (hk : k ∉ front)
    (hc : Stage c maxmem (front ++ k :: z :: rest) (fun _ => none) 0)
    (hd : Stage d maxmem (front ++ z :: rest) (fun _ => none) 0) : ToldApart B maxmem c d := by
  obtain ⟨x, hx, hmem⟩ := exists_letters [z, k]
  simp only [List.mem_cons, List.not_mem_nil, or_false, not_or] at hmem
  obtain ⟨hxz, hxk⟩ := hmem
  have hzfront : z ∉ front := fun hmem => hfront z hmem hz
  have hzfront' : z ∉ front ++ [k] := by simp [hzfront, hzk]
  rw [← List.singleton_append, ← List.append_assoc] at hc
  obtain ⟨c', hrun, hlookup⟩ := hc.told hpos hlast B hzfront' hz hx hzk.symm hxz hxk
  obtain ⟨d', hrun', hlookup'⟩ := hd.told hpos hlast B hzfront hz hx hzk.symm hxz hxk
  rw [if_pos (by simp)] at hlookup
  rw [if_neg hk] at hlookup'
  refine Trace.Apart.of_run ?_ handles_unique (fits_telling hpos hlast B hz hx) hrun hrun'
  refine ⟨[(deleteRequest k, .ok (notFound B (deleteRequest k) k))], c', fun l hl hput => ?_,
    Trace.run_singleton_iff.2 ?_, fun t ht => ?_⟩
  · rw [List.mem_singleton.1 hl] at hput
    cases hput
  · exact (Served.deleteMissing rfl (substr1_keyTarget k) hlookup).handles
  · have hdelete : Served B d' (deleteRequest k) _ _ :=
      .deleteFound rfl (substr1_keyTarget k) (by rw [hlookup']; exact Option.some_ne_none _)
    have hreply := ((Trace.run_singleton_iff.1 ht).deterministic hdelete.handles).1
    have hstatus := congrArg Response.status (Except.ok.inj hreply)
    exact absurd hstatus (by show (404 : ℕ) ≠ 200; decide)

/-- **A node of `k` more shows,** unless it comes after an earlier one with only keys that
have slashes in between.  By induction on what of the queue has not been looked at: each
key without a slash is stored and then popped, together with the keys with slashes before
it. -/
theorem Stage.apart (B : Boost) (hz : SlashFree z) (hzk : z ≠ k) (rest front : List KeyType)
    (hfront : ∀ j ∈ front, ¬SlashFree j) (htrail : ¬Trailing k (front ++ queue))
    (hc : Stage c maxmem (front ++ queue ++ k :: z :: rest) (fun _ => none) 0)
    (hd : Stage d maxmem (front ++ queue ++ z :: rest) (fun _ => none) 0) :
    ToldApart B maxmem c d := by
  induction queue generalizing front rest c d with
  | nil =>
    rw [List.append_nil] at hc hd htrail
    have hk : k ∉ front := fun hmem => htrail ⟨[], front, rfl, hmem, hfront⟩
    exact Stage.apart_of_front hpos hlast B hz hzk hfront hk hc hd
  | cons a queue ih =>
    by_cases ha : SlashFree a
    · obtain ⟨x, hx, hxa⟩ := exists_letters [a]
      have hafront : a ∉ front := fun hmem => hfront a hmem ha
      rw [List.append_assoc, List.cons_append] at hc hd
      obtain ⟨c', hrun, hc'⟩ := hc.popped hpos hlast B hafront ha hx (by simpa using hxa)
      obtain ⟨d', hrun', hd'⟩ := hd.popped hpos hlast B hafront ha hx (by simpa using hxa)
      rw [List.append_assoc] at hc' hd'
      refine Trace.Apart.of_run ?_ handles_unique (fits_popping hpos hlast B ha hx) hrun hrun'
      refine ih (rest ++ [a, a, x, x]) [] (fun _ hj => absurd hj List.not_mem_nil) ?_ hc' hd'
      rintro ⟨pre, back, hqueue, hback⟩
      rw [List.nil_append] at hqueue
      exact htrail ⟨front ++ a :: pre, back, by rw [hqueue]; simp, hback⟩
    · rw [← List.singleton_append, ← List.append_assoc front] at hc hd htrail
      refine ih rest (front ++ [a]) (fun j hj => ?_) htrail hc hd
      rcases List.mem_append.1 hj with hj | hj
      · exact hfront j hj
      · rw [List.mem_singleton.1 hj]
        exact ha

end Rounds

end CacheBench
