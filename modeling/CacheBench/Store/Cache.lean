/-
# The cache library

`cache/cache_lib.cc`, the local implementation of `class Cache` of
`cache/cache.hh`.

`dict_` is a finite map, so iteration order and buckets play no part; the
constructor's load factor and hash function are left out with them.  A stored
value is the block that `new byte_type[size]` allocates, one cell per byte, `none`
where nothing has been written yet; a `val_type` is such a block or the null
pointer.  `size_type` is `uint32_t`, and its arithmetic wraps as it does there.

What C++ leaves undefined is `none`: `set` reading past the array it was given
or overflowing its `int` index.  A write outside the new block is recorded
(`Copying.stray`); that it leaves every other block and the cache itself alone is an
assumption, for C++ promises nothing of it.  The array that `set` is given is taken by
value.  So it must not lie in a block of the cache that the same call deletes, as in
`set(k, get(k), n)`, where the copy loop would read freed memory; such calls are
outside the model.  The eviction loop may run for ever, so `set` takes fuel; that it
returns means that some fuel is enough.  `set` also reports which keys its loop evicted
and whether it reached the insertion, which its caller cannot see.
-/

import CacheBench.Lib.While
import CacheBench.Lib.FinmapTotal
import CacheBench.Store.Evictor

namespace CacheBench

/-- `Cache::byte_type`. -/
abbrev ByteType := Char

/-- `Cache::size_type`. -/
abbrev SizeType := UInt32

/-- What `new byte_type[n]` allocates: `n` cells, `none` until written. -/
abbrev Block := List (Option ByteType)

/-- `Cache::val_type`, a pointer to a block or `nullptr`. -/
abbrev ValType := Option Block

/-- `entry_type`. -/
abbrev EntryType := ValType × SizeType

/-- The type of `dict_`. -/
abbrev Dict := Finmap fun _ : KeyType => EntryType

/-- `'\0'`. -/
def nul : ByteType := Char.ofNat 0

/-- The array a C string occupies. -/
def cString (s : String) : List ByteType := s.toList ++ [nul]

/-- The block that holds a C string and nothing else. -/
def stored (s : String) : Block := (cString s).map some

/-- `class Cache::Impl`. -/
structure Cache (ε : Type) where
  dict : Dict
  size : SizeType
  maxmem : SizeType
  evictor : Option ε

/-! ### The copy that `set` makes -/

/-- The block that `set` copies into; `stray` once a write has missed it. -/
structure Copying where
  copy : Block
  stray : Bool
deriving DecidableEq, Repr

/-- `new byte_type[size]`. -/
def Copying.alloc (size : SizeType) : Copying := ⟨List.replicate size.toNat none, false⟩

/-- `copy[i] = b`. -/
def Copying.write (c : Copying) (i : ℕ) (b : ByteType) : Copying :=
  ⟨c.copy.set i (some b), c.stray || decide (c.copy.length ≤ i)⟩

/-- `while(val[i] != '\0'){ copy[i] = val[i]; i++; }`, on the part of `val` from
`i` on.  Nothing is defined past the end of the array, nor once the `int` `i`
would pass `INT_MAX`. -/
def copyLoop : List ByteType → ℕ → Copying → Option Copying
  | [], _, _ => none
  | b :: val, i, c =>
    if b = nul then some c
    else if i + 1 < 2 ^ 31 then copyLoop val (i + 1) (c.write i b)
    else none

/-- The copy of `val` that `set` stores: the loop, then `copy[size-1] = '\0'`. -/
def copyValue (val : List ByteType) (size : SizeType) : Option Copying :=
  (copyLoop val 0 (Copying.alloc size)).map fun c => c.write (size - 1).toNat nul

/-! ### The operations -/

/-- `unordered_map::insert`, which leaves an existing entry alone. -/
def emplace (d : Dict) (key : KeyType) (e : EntryType) : Dict :=
  if (d.lookup key).isSome then d else d.insert key e

/-- `dict_[key]`: the entry, and the map with `(nullptr, 0)` put in for a missing
key. -/
def subscript (d : Dict) (key : KeyType) : EntryType × Dict :=
  match d.lookup key with
  | some e => (e, d)
  | none => ((none, 0), d.insert key (none, 0))

/-- What a call of `set` did: the keys its loop evicted, in order, and whether it
reached the insertion. -/
structure Report where
  evicted : List KeyType
  admitted : Bool
deriving DecidableEq, Repr

/-- The state of the eviction loop: the keys evicted so far and the cache. -/
structure Evicting (ε : Type) where
  evicted : List KeyType
  cache : Cache ε

namespace Cache

variable {ε : Type} [Evictor ε]

/-- `Cache::Cache(maxmem, …, evictor, …)`. -/
def new (maxmem : SizeType) (evictor : Option ε) : Cache ε := ⟨∅, 0, maxmem, evictor⟩

/-- `Cache::space_used`. -/
def spaceUsed (c : Cache ε) : SizeType := c.size

/-- `pImpl_->evictor_->touch_key(key)`, when there is an evictor. -/
def touch (c : Cache ε) (key : KeyType) : Cache ε :=
  { c with evictor := c.evictor.map fun e => Evictor.touchKey e key }

/-- `Cache::get`. -/
def get (c : Cache ε) (key : KeyType) : EntryType × Cache ε :=
  let c := c.touch key
  let (e, d) := subscript c.dict key
  (e, { c with dict := d })

/-- `Cache::del`. -/
def del (c : Cache ε) (key : KeyType) : Bool × Cache ε :=
  match c.dict.lookup key with
  | none => (false, c)
  | some (_, n) => (true, { c with size := c.size - n, dict := c.dict.erase key })

/-- `Cache::reset`. -/
def reset (c : Cache ε) : Cache ε := { c with dict := ∅, size := 0 }

/-- `space_used() + size > pImpl_->maxmem_`. -/
def exceeds (c : Cache ε) (size : SizeType) : Bool := decide (c.maxmem < c.spaceUsed + size)

/-- The body of the eviction loop, `del(pImpl_->evictor_->evict())`.  Without an
evictor `set` returns before the loop. -/
def evictOne (w : Evicting ε) : Evicting ε :=
  match w.cache.evictor with
  | none => w
  | some e =>
    let (key, e) := Evictor.evict e
    ⟨w.evicted ++ [key], (del { w.cache with evictor := some e } key).2⟩

/-- `while(space_used() + size > pImpl_->maxmem_)`. -/
def evictLoop (fuel : ℕ) (size : SizeType) (c : Cache ε) : Option (Evicting ε) :=
  While.run (fun w : Evicting ε => w.cache.exceeds size) evictOne fuel ⟨[], c⟩

/-- The end of `set`: insertion, accounting and the touch. -/
def insertCopy (c : Cache ε) (key : KeyType) (copy : Block) (size : SizeType) : Cache ε :=
  touch { c with dict := emplace c.dict key (some copy, size), size := c.size + size } key

/-- `Cache::set`. -/
def set (fuel : ℕ) (c : Cache ε) (key : KeyType) (val : List ByteType) (size : SizeType) :
    Option (Report × Cache ε) :=
  let c := if (c.dict.lookup key).isSome then (c.del key).2 else c
  if c.exceeds size && c.evictor.isNone then
    some (⟨[], false⟩, c)
  else do
    let w ← evictLoop fuel size c
    let copied ← copyValue val size
    some (⟨w.evicted, true⟩, w.cache.insertCopy key copied.copy size)

end Cache

end CacheBench
