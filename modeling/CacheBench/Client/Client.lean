/-
# The networked client

`cache/cache_client.cc`, the implementation of `class Cache` of `cache/cache.hh` that
sends each operation to the server as a request, and the constructor of `kv_json` of
`cache/kv_json.hh` that reads a reply.

The request goes to the server as it is and the reply comes back as it is; when
`handle_request` throws, the session ends and `send_tcp` makes a response of its own.
`read_json` is a parameter, from a text to a tree of one level.  The memory behind the
pointers that `kv_json` and `get` return is taken to stay alive.
-/

import CacheBench.Server.Handle

namespace CacheBench

/-- A property tree of one level, as its pairs in order. -/
abbrev Tree := List (String × String)

/-- What the client can throw: `read_json` fails, or a path is not in the tree. -/
inductive ClientError
  | jsonParserError
  | ptreeBadPath
deriving DecidableEq, Repr

/-- What a reader of `s.c_str()` sees. -/
def cStr (s : String) : String := String.ofList (s.toList.takeWhile fun b => b ≠ nul)

/-- `std::string(val)`; reading past the array is not defined. -/
def stdString (val : List ByteType) : Option String :=
  if nul ∈ val then some (String.ofList (val.takeWhile fun b => b ≠ nul)) else none

/-- `kv_json(data)`, as its key and its value. -/
def kvJson (readJson : String → Option Tree) (data : String) :
    Except ClientError (String × String) :=
  match readJson (cStr data) with
  | none => .error .jsonParserError
  | some tree =>
    match tree.lookup "key", tree.lookup "value" with
    | some key, some value => .ok (key, cStr value)
    | _, _ => .error .ptreeBadPath

namespace Client

/-- `prep_req`, without the fields that the server does not read. -/
def prepReq (method : Verb) (target : String) : Request := ⟨method, target, 11, true⟩

/-- `send_tcp`: the server's response, or one of its own when there is none. -/
def sendTcp (out : Except Thrown Response) : Response :=
  match out with
  | .ok res => res
  | .error _ => Response.new 499 11

/-- What `get` makes of a response: the null pointer, or the string behind the pointer and
`val_size`. -/
def received (readJson : String → Option Tree) (res : Response) :
    Except ClientError (Option (String × SizeType)) :=
  if res.status = 404 then .ok none
  else (kvJson readJson res.body).map fun kv =>
    let val := cStr kv.2
    some (val, UInt32.ofNat (val.length + 1))

section

variable {ε : Type} [Evictor ε]

/-- `Cache::set` of the client, on a server with the cache `c`; the size is not sent. -/
def Sets (B : Boost) (c : Cache ε) (key : KeyType) (val : List ByteType) (_size : SizeType)
    (c' : Cache ε) : Prop :=
  ∃ s out, stdString val = some s ∧ Handles B c (prepReq .put ("/" ++ key ++ "/" ++ s)) out c'

/-- `Cache::get` of the client, on a server with the cache `c`. -/
def Gets (B : Boost) (readJson : String → Option Tree) (c : Cache ε) (key : KeyType)
    (result : Except ClientError (Option (String × SizeType))) (c' : Cache ε) : Prop :=
  ∃ out, Handles B c (prepReq .get ("/" ++ key)) out c' ∧
    result = received readJson (sendTcp out)

end

/-! ### Strings without a `'\0'` -/

/-- A C string is read whole. -/
theorem cStr_eq_self {s : String} (hs : IsCString s) : cStr s = s := by
  have hne := decide_ne_of_notMem hs
  rw [cStr, List.takeWhile_eq_self_iff.2 hne, String.ofList_toList]

/-- `std::string` of an array that ends a C string is the string. -/
theorem stdString_cString {s : String} (hs : IsCString s) : stdString (cString s) = some s := by
  have hne := decide_ne_of_notMem hs
  rw [stdString, if_pos (by simp [cString]), cString, List.takeWhile_append_of_pos hne]
  simp

end Client
end CacheBench
