/-
# Eviction policies

`cache/evictor.hh` (`class Evictor`) and `cache/fifo_evictor.h`,
`cache/fifo_evictor.cc` (`class FifoEvictor`).

The virtual interface is a type class: whatever implements it is told of each
key that is set or read (`touchKey`) and hands out keys to evict (`evict`).  A
theorem about every `[Evictor ε]` therefore covers every implementation,
whatever keys its `evict` returns.  `FifoEvictor` is a queue that `touchKey`
pushes a node on at every touch, so a key can have many nodes; `evict` pops one.
-/

import Mathlib.Data.List.Basic

namespace CacheBench

/-- `key_type`. -/
abbrev KeyType := String

/-- `class Evictor`: `touch_key` tells the policy that a key has been set or
read, `evict` asks it for the next key to evict. -/
class Evictor (ε : Type) where
  touchKey : ε → KeyType → ε
  evict : ε → KeyType × ε

/-- `class FifoEvictor`: `contents_`, the front of the queue first. -/
structure FifoEvictor where
  contents : List KeyType
deriving DecidableEq, Repr

namespace FifoEvictor

/-- `FifoEvictor::FifoEvictor`. -/
def new : FifoEvictor := ⟨[]⟩

/-- `FifoEvictor::touch_key`: a node at the back, whether or not the key already
has one. -/
def touchKey (e : FifoEvictor) (key : KeyType) : FifoEvictor := ⟨e.contents ++ [key]⟩

/-- `FifoEvictor::evict`: the node at the front, or the empty key when there is
none. -/
def evict (e : FifoEvictor) : KeyType × FifoEvictor :=
  match e.contents with
  | [] => ("", e)
  | key :: rest => (key, ⟨rest⟩)

instance : Evictor FifoEvictor := ⟨touchKey, evict⟩

/-- A new queue is empty. -/
@[simp] theorem new_contents : new.contents = [] := rfl

/-- A touch pushes a node. -/
@[simp] theorem touchKey_contents (e : FifoEvictor) (key : KeyType) :
    (Evictor.touchKey e key).contents = e.contents ++ [key] := rfl

/-- An eviction pops a node. -/
@[simp] theorem evict_snd_contents (e : FifoEvictor) :
    (Evictor.evict e).2.contents = e.contents.tail := by
  obtain ⟨_ | ⟨key, rest⟩⟩ := e <;> rfl

end FifoEvictor

end CacheBench
