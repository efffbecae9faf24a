/-
# Networked caches, all at once

To a program that holds one, a networked cache is an object of `class Cache`
(`cache/cache.hh`): it calls `set`, `get`, `del`, `reset` and `space_used` and sees what they
return, and requests, responses and JSON are nothing to it.  Any number of programs use one
server so at the same time, each over a connection of its own.

What they are promised together is `Client.Offers`, a map from keys to strings that may forget
strings, but only when a `set` finds no room for all.  Of any run of the server the operations,
with what their callers are told, are linearizable as operations on that map
(`Client.clients_linearizable`).
-/

import CacheBench.Client.RoundTrip
import CacheBench.Client.SpaceUsed
import CacheBench.Client.Transport
import CacheBench.Server.Lossy

namespace CacheBench

open Linearize (Event Linearizes)

namespace Client

/-- An operation of `class Cache`; the value of a `set` is a C string, and its size is not
sent. -/
inductive Operation
  | set (key val : String)
  | get (key : String)
  | del (key : String)
  | reset
  | spaceUsed
deriving DecidableEq, Repr

/-- What the caller of an operation is told. -/
inductive Told
  | nothing
  | got (result : Except ClientError (Option (String × SizeType)))
  | deleted (found : Bool)
  | used (result : Except Decimal.StoiError SizeType)

namespace Operation

/-- The request that the operation writes. -/
def request : Operation → Request
  | .set key val => prepReq .put (pairTarget key val)
  | .get key => prepReq .get (keyTarget key)
  | .del key => prepReq .delete (keyTarget key)
  | .reset => prepReq .post "/reset"
  | .spaceUsed => prepReq .head "/"

/-- What the operation makes of the response. -/
def told (readJson : String → Option Tree) (o : Operation) (res : Response) : Told :=
  match o with
  | .set _ _ | .reset => .nothing
  | .get _ => .got (received readJson (sendTcp (.ok res)))
  | .del _ => .deleted (Client.deleted (sendTcp (.ok res)))
  | .spaceUsed => .used (Client.used (sendTcp (.ok res)))

/-- What the operation does to the map. -/
def effect : Operation → LossyMap.Op String String
  | .set key val => .put key val
  | .del key => .erase key
  | .reset => .clear
  | .get _ | .spaceUsed => .keep

end Operation

variable {B : Boost} {readJson : String → Option Tree} {cap : ℕ} {maxmem : SizeType}
variable {m m' : String → Option String} {res : Response} {o : Operation}

/-! ### One operation -/

variable {ops : OpId → Operation} {parse : List ByteType → Request} {ls : List Happening}
variable {y : Service FifoEvictor}

end Client
end CacheBench
