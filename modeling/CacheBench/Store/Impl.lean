/-
# The cache with its pointers

`cache/cache_lib.cc` once more, a level below `CacheBench.Store.Cache`: an entry of `dict_` is
a pointer with a size, `set` gets its block from `new[]`, and `del`, the eviction loop and
`reset` give blocks back with `delete[]`.  A write of the copy loop that misses the block, and
a `delete[]` of what is not allocated, are recorded in the heap.

The array that `set` is given is still taken by value: it lies outside the blocks of the
cache, or at least outside those that the call deletes before it copies.  A call
`set(k, get(k), n)`, whose copy loop reads the block that was just deleted, is outside the
model, and nothing is recorded of reads.

`reset` goes through `dict_` in an order that nothing is known of, so it takes the order.

A cache with pointers represents a cache with blocks when each of its pointers is to the block
that the other has in the same place, and its table of pointers owns the heap
(`Impl.Represents`).  A call on the one can be made on the other with the same reply, and
leaves them so (`Impl.Represents.step`, `Impl.Represents.exists_step`); so the two have the
same runs (`Impl.refines`).
-/

import CacheBench.Lib.Heap
import CacheBench.Store.Accounting

namespace CacheBench

/-- `class Cache::Impl`, with the heap that its pointers point into. -/
structure Impl (ε : Type) where
  dict : Finmap fun _ : KeyType => Option ℕ × SizeType
  size : SizeType
  maxmem : SizeType
  evictor : Option ε
  heap : Heap Block

/-- The state of the eviction loop: the keys evicted so far and the cache. -/
structure ImplEvicting (ε : Type) where
  evicted : List KeyType
  impl : Impl ε

namespace Impl

section Operations

variable {ε : Type} [Evictor ε]

/-- `Cache::Cache(maxmem, …, evictor, …)`. -/
def new (maxmem : SizeType) (evictor : Option ε) : Impl ε := ⟨∅, 0, maxmem, evictor, .empty⟩

/-- `pImpl_->dict_[key].first`, where there is an entry. -/
def pointer (c : Impl ε) (key : KeyType) : Option ℕ := (c.dict.lookup key).bind Prod.fst

/-- `pImpl_->evictor_->touch_key(key)`, when there is an evictor. -/
def touch (c : Impl ε) (key : KeyType) : Impl ε :=
  { c with evictor := c.evictor.map fun e => Evictor.touchKey e key }

/-- `Cache::get`. -/
def get (c : Impl ε) (key : KeyType) : (Option ℕ × SizeType) × Impl ε :=
  let c := c.touch key
  match c.dict.lookup key with
  | some e => (e, c)
  | none => ((none, 0), { c with dict := c.dict.insert key (none, 0) })

/-- `Cache::del`. -/
def del (c : Impl ε) (key : KeyType) : Bool × Impl ε :=
  match c.dict.lookup key with
  | none => (false, c)
  | some (p, n) =>
    (true, { c with size := c.size - n, heap := c.heap.delete p, dict := c.dict.erase key })

/-- `Cache::reset`, with the keys as its loop comes upon them. -/
def reset (c : Impl ε) (order : List KeyType) : Impl ε :=
  { c with heap := c.heap.deleteAll (order.map c.pointer), dict := ∅, size := 0 }

/-- `space_used() + size > pImpl_->maxmem_`. -/
def exceeds (c : Impl ε) (size : SizeType) : Bool := decide (c.maxmem < c.size + size)

/-- The body of the eviction loop, `del(pImpl_->evictor_->evict())`. -/
def evictOne (w : ImplEvicting ε) : ImplEvicting ε :=
  match w.impl.evictor with
  | none => w
  | some e =>
    let (key, e) := Evictor.evict e
    ⟨w.evicted ++ [key], (del { w.impl with evictor := some e } key).2⟩

/-- `while(space_used() + size > pImpl_->maxmem_)`. -/
def evictLoop (fuel : ℕ) (size : SizeType) (c : Impl ε) : Option (ImplEvicting ε) :=
  While.run (fun w : ImplEvicting ε => w.impl.exceeds size) evictOne fuel ⟨[], c⟩

/-- The end of `set`, from `new byte_type[size]` on: `insert` leaves an existing entry alone. -/
def insertCopy (c : Impl ε) (key : KeyType) (copied : Copying) (size : SizeType) : Impl ε :=
  let (p, heap) := c.heap.new copied.copy
  let dict := if (c.dict.lookup key).isSome then c.dict else c.dict.insert key (some p, size)
  touch { c with heap := heap.flag copied.stray, dict := dict, size := c.size + size } key

/-- `Cache::set`, of an array that lies outside the cache's own blocks. -/
def set (fuel : ℕ) (c : Impl ε) (key : KeyType) (val : List ByteType) (size : SizeType) :
    Option (Report × Impl ε) :=
  let c := if (c.dict.lookup key).isSome then (c.del key).2 else c
  if c.exceeds size && c.evictor.isNone then
    some (⟨[], false⟩, c)
  else do
    let w ← evictLoop fuel size c
    let copied ← copyValue val size
    some (⟨w.evicted, true⟩, w.impl.insertCopy key copied size)

/-- `set` returns the report `r` and leaves the cache `c'`. -/
def SetReturns (c : Impl ε) (key : KeyType) (val : List ByteType) (size : SizeType) (r : Report)
    (c' : Impl ε) : Prop :=
  ∃ fuel, c.set fuel key val size = some (r, c')

/-- `order` is an order in which a loop can go through `dict_`. -/
structure Lists (c : Impl ε) (order : List KeyType) : Prop where
  nodup : order.Nodup
  mem_iff : ∀ k, k ∈ order ↔ c.dict.lookup k ≠ none

/-- One completed call, with the reply as the caller reads it at once: for `get` what is
behind the pointer. -/
inductive Step : Impl ε → Call × Reply → Impl ε → Prop
  | set {c c' : Impl ε} {key : KeyType} {val : List ByteType} {size : SizeType} {r : Report} :
      c.SetReturns key val size r c' → Step c (.set key val size, .set r) c'
  | get (c : Impl ε) (key : KeyType) :
      Step c (.get key, .get (c.heap.read (c.get key).1.1, (c.get key).1.2)) (c.get key).2
  | del (c : Impl ε) (key : KeyType) : Step c (.del key, .del (c.del key).1) (c.del key).2
  | reset {c : Impl ε} {order : List KeyType} :
      c.Lists order → Step c (.reset, .reset) (c.reset order)

/-- A finite run of completed calls. -/
abbrev Run : Impl ε → List (Call × Reply) → Impl ε → Prop := Trace.Run Step

/-- `d` is what `c` has behind its pointers, and the pointers of `c` own its heap. -/
structure Represents (c : Impl ε) (d : Cache ε) : Prop where
  lookup : ∀ k, d.dict.lookup k = (c.dict.lookup k).map fun e => (c.heap.read e.1, e.2)
  size : c.size = d.size
  maxmem : c.maxmem = d.maxmem
  evictor : c.evictor = d.evictor
  owned : c.heap.Owned c.pointer

end Operations
end Impl

/-- The same keys are evicted, and the one cache represents the other. -/
structure ImplEvicting.Represents {ε : Type} (w : ImplEvicting ε) (v : Evicting ε) : Prop where
  evicted : w.evicted = v.evicted
  impl : w.impl.Represents v.cache

namespace Impl

variable {ε : Type} {c c' : Impl ε} {d d' : Cache ε} {key : KeyType} {val : List ByteType}
variable {size : SizeType} {r : Report}

/-! ### What the operations do to the pointers -/

/-- `del` takes the entry away. -/
theorem del_snd_dict (c : Impl ε) (key : KeyType) : (c.del key).2.dict = c.dict.erase key := by
  unfold del
  cases h : c.dict.lookup key with
  | none => exact (Finmap.erase_of_lookup_eq_none h).symm
  | some e => rfl

/-- `del` gives the block of the entry back. -/
theorem del_snd_heap (c : Impl ε) (key : KeyType) :
    (c.del key).2.heap = c.heap.delete (c.pointer key) := by
  unfold del pointer
  cases c.dict.lookup key <;> rfl

/-- The other fields after `del`. -/
theorem del_snd_rest (c : Impl ε) (key : KeyType) :
    (c.del key).2.size = c.size - (c.dict.lookup key).elim 0 Prod.snd ∧
      (c.del key).2.maxmem = c.maxmem ∧ (c.del key).2.evictor = c.evictor := by
  unfold del
  cases c.dict.lookup key with
  | none => exact ⟨(UInt32.sub_zero _).symm, rfl, rfl⟩
  | some e => exact ⟨rfl, rfl, rfl⟩

/-- After `del` there is no pointer under the key. -/
theorem del_snd_pointer (c : Impl ε) (key : KeyType) :
    (c.del key).2.pointer = Function.update c.pointer key none := by
  funext k
  unfold pointer
  rw [del_snd_dict, Finmap.lookup_erase_eq_ite, Function.update_apply]
  split_ifs <;> rfl

/-! ### Every operation keeps the representation -/

/-- A new cache with pointers represents a new cache with blocks. -/
theorem represents_new (maxmem : SizeType) (ev : Option ε) :
    (new maxmem ev).Represents (Cache.new maxmem ev) :=
  ⟨fun k => by rw [Cache.new_dict, Finmap.lookup_empty]; rfl, rfl, rfl, rfl, Heap.owned_empty⟩

/-- The evictor plays no part in it. -/
theorem Represents.withEvictor (h : c.Represents d) (ev : Option ε) :
    ({ c with evictor := ev } : Impl ε).Represents { d with evictor := ev } :=
  ⟨h.lookup, h.size, h.maxmem, rfl, h.owned⟩

/-- The two have entries under the same keys. -/
theorem Represents.isSome_iff (h : c.Represents d) (key : KeyType) :
    (c.dict.lookup key).isSome = (d.dict.lookup key).isSome := by
  rw [h.lookup, Option.isSome_map]

/-- `del` does the same to both. -/
theorem Represents.del (h : c.Represents d) (key : KeyType) :
    (c.del key).1 = (d.del key).1 ∧ (c.del key).2.Represents (d.del key).2 := by
  obtain ⟨hsize, hmaxmem, hevictor⟩ := del_snd_rest c key
  refine ⟨?_, fun k => ?_, ?_, ?_, ?_, ?_⟩
  · rw [Cache.del_fst, ← h.isSome_iff]
    unfold Impl.del
    cases c.dict.lookup key <;> rfl
  · rw [Cache.del_snd_dict, del_snd_dict, del_snd_heap, Finmap.lookup_erase_eq_ite,
      Finmap.lookup_erase_eq_ite, h.lookup]
    split_ifs with hk
    · rfl
    · cases hentry : c.dict.lookup k with
      | none => rfl
      | some e =>
        have hpointer : c.pointer k = e.1 := by
          unfold pointer
          rw [hentry]
          rfl
        have hread := h.owned.read_delete (k := key) hk
        rw [hpointer] at hread
        rw [Option.map_some, Option.map_some, hread]
  · rw [Cache.del_snd_size, Cache.entry, h.lookup, ← h.size, hsize]
    cases c.dict.lookup key <;> rfl
  · rw [Cache.del_snd_maxmem, ← h.maxmem, hmaxmem]
  · rw [Cache.del_snd_evictor, ← h.evictor, hevictor]
  · rw [del_snd_pointer, del_snd_heap]
    exact h.owned.delete key

/-- The deletion of `set`, which first looks for the entry, is `del`. -/
theorem del_of_find (c : Impl ε) (key : KeyType) :
    (if (c.dict.lookup key).isSome then (c.del key).2 else c) = (c.del key).2 := by
  unfold del
  cases c.dict.lookup key <;> rfl

/-- The test of the loop is the same for both. -/
theorem Represents.exceeds (h : c.Represents d) (size : SizeType) :
    c.exceeds size = d.exceeds size := by
  unfold Impl.exceeds Cache.exceeds Cache.spaceUsed
  rw [h.maxmem, h.size]

/-- There is an order in which a loop can go through `dict_`. -/
theorem exists_lists (c : Impl ε) : ∃ order, c.Lists order := by
  refine ⟨c.dict.keys.toList, Finset.nodup_toList _, fun k => ?_⟩
  rw [Finset.mem_toList, Finmap.mem_keys, ne_eq, Finmap.lookup_eq_none, not_not]

/-- **A reset deletes every block there is,** once. -/
theorem Lists.owned_reset {order : List KeyType} (hl : c.Lists order)
    (ho : c.heap.Owned c.pointer) :
    (c.reset order).heap.Owned (fun _ : KeyType => none) ∧
      (c.reset order).heap.misused = c.heap.misused := by
  obtain ⟨howned, hmisused⟩ := ho.deleteAll hl.nodup
  have htable : (fun k => if k ∈ order then none else c.pointer k) = fun _ => none := by
    funext k
    split_ifs with hk
    · rfl
    · unfold pointer
      rw [not_not.1 (mt (hl.mem_iff k).2 hk)]
      rfl
  exact ⟨htable ▸ howned, hmisused⟩

/-- A reset does the same to both, in whatever order. -/
theorem Represents.reset {order : List KeyType} (h : c.Represents d) (hl : c.Lists order) :
    (c.reset order).Represents d.reset :=
  ⟨fun _ => rfl, rfl, h.maxmem, h.evictor, (hl.owned_reset h.owned).1⟩

variable [Evictor ε]

/-- `get` returns the pointer of the entry. -/
theorem get_fst_fst (c : Impl ε) (key : KeyType) : (c.get key).1.1 = c.pointer key := by
  unfold get touch pointer
  dsimp only
  cases c.dict.lookup key <;> rfl

/-- `get` does nothing to the heap. -/
@[simp] theorem get_snd_heap (c : Impl ε) (key : KeyType) : (c.get key).2.heap = c.heap := by
  unfold get touch
  dsimp only
  cases c.dict.lookup key <;> rfl

/-- The other fields after `get`. -/
theorem get_snd_rest (c : Impl ε) (key : KeyType) :
    (c.get key).2.size = c.size ∧ (c.get key).2.maxmem = c.maxmem ∧
      (c.get key).2.evictor = c.evictor.map fun e => Evictor.touchKey e key := by
  unfold get touch
  dsimp only
  cases c.dict.lookup key <;> exact ⟨rfl, rfl, rfl⟩

/-- `get` leaves an entry under `key`, and the others as they are. -/
theorem get_snd_lookup (c : Impl ε) (key k : KeyType) :
    (c.get key).2.dict.lookup k =
      if k = key ∧ c.dict.lookup key = none then some (none, 0) else c.dict.lookup k := by
  unfold get touch
  dsimp only
  cases hkey : c.dict.lookup key with
  | some e => simp
  | none => simp only [Finmap.lookup_insert_eq_ite, and_true]

/-- The entry that `get` makes has no pointer. -/
theorem get_snd_pointer (c : Impl ε) (key : KeyType) : (c.get key).2.pointer = c.pointer := by
  funext k
  unfold pointer
  rw [get_snd_lookup]
  split_ifs with hk
  · rw [hk.1, hk.2]
    rfl
  · rfl

/-- A get reads behind the pointer what the other cache has there. -/
theorem Represents.get (h : c.Represents d) (key : KeyType) :
    (c.heap.read (c.get key).1.1, (c.get key).1.2) = (d.get key).1 ∧
      (c.get key).2.Represents (d.get key).2 := by
  obtain ⟨hsize, hmaxmem, hevictor⟩ := get_snd_rest c key
  have hheap := get_snd_heap c key
  refine ⟨?_, fun k => ?_, ?_, ?_, ?_, ?_⟩
  · rw [Cache.get_fst, Cache.entry, h.lookup]
    unfold Impl.get touch
    dsimp only
    cases c.dict.lookup key <;> rfl
  · rw [Cache.get_snd_dict, Cache.subscript_snd_lookup, get_snd_lookup, hheap, h.lookup, h.lookup]
    simp only [Option.map_eq_none_iff]
    split_ifs <;> rfl
  · rw [Cache.get_snd_size, ← h.size, hsize]
  · rw [Cache.get_snd_maxmem, ← h.maxmem, hmaxmem]
  · rw [Cache.get_snd_evictor, ← h.evictor, hevictor]
  · rw [get_snd_pointer, hheap]
    exact h.owned

/-- One pass of the eviction loop evicts the same key. -/
theorem Represents.evictOne {w : ImplEvicting ε} {v : Evicting ε} (h : w.Represents v) :
    (evictOne w).Represents (Cache.evictOne v) := by
  obtain ⟨hkeys, hrep⟩ := h
  unfold Impl.evictOne Cache.evictOne
  rw [hrep.evictor]
  cases v.cache.evictor with
  | none => exact ⟨hkeys, hrep⟩
  | some e => exact ⟨by rw [hkeys], ((hrep.withEvictor _).del _).2⟩

/-- A new block for a key that has none. -/
theorem Represents.insertCopy (h : c.Represents d) (hkey : d.dict.lookup key = none)
    (copied : Copying) :
    (c.insertCopy key copied size).Represents (d.insertCopy key copied.copy size) := by
  have hnone : c.dict.lookup key = none := by
    rw [h.lookup, Option.map_eq_none_iff] at hkey
    exact hkey
  have hdict : (c.insertCopy key copied size).dict =
      c.dict.insert key (some c.heap.next, size) := by
    show (if (c.dict.lookup key).isSome then _ else _) = _
    rw [hnone]
    rfl
  have hpointer : (c.insertCopy key copied size).pointer =
      Function.update c.pointer key (some c.heap.next) := by
    funext k
    unfold pointer
    rw [hdict, Finmap.lookup_insert_eq_ite, Function.update_apply]
    split_ifs <;> rfl
  have hnopointer : c.pointer key = none := by
    unfold pointer
    rw [hnone]
    rfl
  refine ⟨fun k => ?_, ?_, h.maxmem, ?_, ?_⟩
  · rw [Cache.insertCopy_dict _ _ _ _ hkey, hdict, Finmap.lookup_insert_eq_ite,
      Finmap.lookup_insert_eq_ite, h.lookup]
    split_ifs with hk
    · refine congrArg (fun b => some (b, size)) ?_
      exact ((Heap.lookup_new _).trans (if_pos rfl)).symm
    · cases hentry : c.dict.lookup k with
      | none => rfl
      | some e =>
        have hread := h.owned.read_new copied.copy k
        unfold pointer at hread
        rw [hentry] at hread
        exact congrArg (fun b => some (b, e.2)) hread.symm
  · show c.size + size = d.size + size
    rw [h.size]
  · show c.evictor.map _ = d.evictor.map _
    rw [h.evictor]
  · have howned := h.owned.new hnopointer copied.copy
    rw [hpointer]
    exact ⟨howned.live, howned.inj, howned.covered⟩

/-- **Two sets in step:** with the same fuel both return, with the same report, or neither
does. -/
theorem Represents.set (h : c.Represents d) (fuel : ℕ) (key : KeyType) (val : List ByteType)
    (size : SizeType) :
    Option.Rel (fun p q => p.1 = q.1 ∧ p.2.Represents q.2) (c.set fuel key val size)
      (d.set fuel key val size) := by
  have hdel := (h.del key).2
  have hloop : Option.Rel ImplEvicting.Represents (evictLoop fuel size (c.del key).2)
      (Cache.evictLoop fuel size (d.del key).2) :=
    While.run_rel (fun w v hw => hw.impl.exceeds size) (fun w v hw => Represents.evictOne hw)
      ⟨rfl, hdel⟩ fuel
  unfold Impl.set Cache.set
  rw [del_of_find, Cache.del_of_find]
  dsimp only
  rw [hdel.exceeds, hdel.evictor]
  split_ifs
  · exact .some ⟨rfl, hdel⟩
  · -- the key is absent when its copy is inserted
    have hkey : ∀ v, Cache.evictLoop fuel size (d.del key).2 = some v →
        v.cache.dict.lookup key = none := by
      intro v hv
      obtain ⟨n, -, -, rfl⟩ := While.run_eq_some_iff.1 hv
      exact Cache.evictions_del_lookup_self n d key
    generalize evictLoop fuel size (c.del key).2 = w at hloop ⊢
    generalize Cache.evictLoop fuel size (d.del key).2 = v at hloop hkey ⊢
    cases hloop with
    | none => exact .none
    | @some w v hw =>
      cases copyValue val size with
      | none => exact .none
      | some copied =>
        exact .some ⟨congrArg (Report.mk · true) hw.evicted,
          hw.impl.insertCopy (hkey v rfl) copied⟩

/-! ### Calls -/

variable {l : Call × Reply}

/-- **A call on the cache with pointers** is one on the cache with blocks. -/
theorem Represents.step (h : c.Represents d) (hstep : Step c l c') :
    ∃ d', Cache.Step d l d' ∧ c'.Represents d' := by
  cases hstep with
  | @set _ key val size r hset =>
    obtain ⟨fuel, hset⟩ := hset
    have hrel := h.set fuel key val size
    rw [hset] at hrel
    generalize hd : d.set fuel key val size = q at hrel
    cases hrel with
    | @some _ q hq =>
      obtain ⟨r', d'⟩ := q
      obtain ⟨rfl, hrep⟩ := hq
      exact ⟨d', .set ⟨fuel, hd⟩, hrep⟩
  | get key =>
    obtain ⟨hreply, hrep⟩ := h.get key
    rw [hreply]
    exact ⟨_, .get d key, hrep⟩
  | del key =>
    obtain ⟨hreply, hrep⟩ := h.del key
    rw [hreply]
    exact ⟨_, .del d key, hrep⟩
  | reset hl => exact ⟨_, .reset d, h.reset hl⟩

/-- **A call on the cache with blocks** is one on the cache with pointers. -/
theorem Represents.exists_step (h : c.Represents d) (hstep : Cache.Step d l d') :
    ∃ c', Step c l c' ∧ c'.Represents d' := by
  cases hstep with
  | @set _ key val size r hset =>
    obtain ⟨fuel, hset⟩ := hset
    have hrel := h.set fuel key val size
    rw [hset] at hrel
    generalize hc : c.set fuel key val size = p at hrel
    cases hrel with
    | @some p _ hp =>
      obtain ⟨r', c'⟩ := p
      obtain ⟨rfl, hrep⟩ := hp
      exact ⟨c', .set ⟨fuel, hc⟩, hrep⟩
  | get key =>
    obtain ⟨hreply, hrep⟩ := h.get key
    rw [← hreply]
    exact ⟨_, .get c key, hrep⟩
  | del key =>
    obtain ⟨hreply, hrep⟩ := h.del key
    rw [← hreply]
    exact ⟨_, .del c key, hrep⟩
  | reset =>
    obtain ⟨order, hl⟩ := c.exists_lists
    exact ⟨_, .reset hl, h.reset hl⟩

/-- Every run of the cache with pointers is one of the cache with blocks. -/
theorem Run.represents {maxmem : SizeType} {ev : Option ε} {log : List (Call × Reply)}
    (h : Run (new maxmem ev) log c) :
    ∃ d, Cache.Run (Cache.new maxmem ev) log d ∧ c.Represents d :=
  Trace.Run.simulate h (fun _ _ _ _ hrep hstep => hrep.step hstep) (represents_new maxmem ev)

/-- **The cache with pointers and the cache with blocks have the same runs.**  From a new
cache on, with any evictor, every run of calls of the one is a run of the other with the same
replies, what is read behind the pointers among them; and afterwards the one represents the
other, so that `space_used()`, the evictor and what is under each key are the same.  This is
so for sets whose array is none of the blocks of the cache, and with copies that run over
taken to change no other block. -/
theorem refines {maxmem : SizeType} {ev : Option ε} {log : List (Call × Reply)} :
    (∀ c, Run (new maxmem ev) log c →
        ∃ d, Cache.Run (Cache.new maxmem ev) log d ∧ c.Represents d) ∧
      ∀ d, Cache.Run (Cache.new maxmem ev) log d →
        ∃ c, Run (new maxmem ev) log c ∧ c.Represents d := by
  refine ⟨fun c h => Run.represents h, fun d h => ?_⟩
  exact Trace.Run.simulate h (R := fun (d : Cache ε) (c : Impl ε) => c.Represents d)
    (fun _ _ _ _ hrep hstep => hrep.exists_step hstep) (represents_new maxmem ev)

/-- A value that is set, evicted and asked for. -/
theorem refines_play : ∃ log d c,
    (Cache.new 8 (some FifoEvictor.new)).play 3 [.set "a" (cString "one") 4,
      .set "b" (cString "three") 6, .get "a"] = some (log, d) ∧
    Run (new 8 (some FifoEvictor.new)) log c ∧ c.Represents d := by
  obtain ⟨log, d, hd⟩ : ∃ log d, (Cache.new 8 (some FifoEvictor.new)).play 3
      [.set "a" (cString "one") 4, .set "b" (cString "three") 6, .get "a"] = some (log, d) :=
    ⟨_, _, rfl⟩
  obtain ⟨c, hrun, hrep⟩ := refines.2 d (Cache.run_of_play hd)
  exact ⟨log, d, c, hd, hrun, hrep⟩

end Impl
end CacheBench
