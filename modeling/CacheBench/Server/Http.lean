/-
# Requests, responses and the error replies

`cache/request_processor.hh`: the parts of `http::request` that `handle_request`
reads, the response messages it builds, and its three error replies; and
`kv_json::as_string` of `cache/kv_json.hh`.

Beast and the property tree library are not part of the repository.  Of Beast the
model keeps the operations on a message that the server calls; two things of the
libraries are parameters (`Boost`): the text of `BOOST_BEAST_VERSION_STRING` and what
`write_json` prints for a flat tree.
-/

import CacheBench.Store.Cache

namespace CacheBench

/-- `http::verb`; `handle_request` tells no others apart. -/
inductive Verb
  | get
  | put
  | delete
  | head
  | post
  | other
deriving DecidableEq, Repr

/-- A byte that Beast accepts in a request target: anything but a control, a space and
DEL. -/
def TargetChar (b : ByteType) : Prop := 33 ≤ b.toNat ∧ b.toNat ≠ 127

instance (b : ByteType) : Decidable (TargetChar b) := inferInstanceAs (Decidable (_ ∧ _))

/-- A string of bytes that a request target may contain. -/
def IsTarget (s : String) : Prop := ∀ b ∈ s.toList, TargetChar b

instance (s : String) : Decidable (IsTarget s) := List.decidableBAll TargetChar s.toList

/-- The header fields that the server writes. -/
inductive Field
  | server
  | contentType
  | contentLength
  | contentLocation
  | accept
  | spaceUsed
deriving DecidableEq, Repr

/-- `http::request<http::string_body>`. -/
structure Request where
  method : Verb
  target : String
  version : ℕ
  keepAlive : Bool
deriving DecidableEq, Repr

/-- `http::response<http::string_body>`. -/
structure Response where
  status : ℕ
  version : ℕ
  keepAlive : Bool
  fields : List (Field × String)
  body : String
deriving DecidableEq, Repr

/-- What the server uses of Boost: `BOOST_BEAST_VERSION_STRING`, and `write_json` of a
tree that has one level, its pairs in the order they were put. -/
structure Boost where
  versionString : String
  writeJson : List (String × String) → String

namespace Response

/-- `http::response<http::string_body>{status, version}`, kept alive by default from
HTTP/1.1 on. -/
def new (status version : ℕ) : Response := ⟨status, version, decide (11 ≤ version), [], ""⟩

/-- `set(field, value)`, in place of any value the field has. -/
def set (res : Response) (field : Field) (value : String) : Response :=
  { res with fields := res.fields.filter (fun f => f.1 ≠ field) ++ [(field, value)] }

/-- `insert(field, value)`, beside any value the field has. -/
def insert (res : Response) (field : Field) (value : String) : Response :=
  { res with fields := res.fields ++ [(field, value)] }

/-- `content_length(n)`. -/
def setContentLength (res : Response) (n : ℕ) : Response := res.set .contentLength (toString n)

/-- `prepare_payload()`, which sets `Content-Length` to the size of the body. -/
def preparePayload (res : Response) : Response := res.setContentLength res.body.length

end Response

/-- A version, and the text that `write_json` prints where nothing has to be escaped. -/
def plainBoost : Boost where
  versionString := "Boost.Beast/322"
  writeJson pairs :=
    let line (p : String × String) := "    \"" ++ p.1 ++ "\": \"" ++ p.2 ++ "\""
    "\x7b\n" ++ String.intercalate ",\n" (pairs.map line) ++ "\n\x7d\n"

/-- `kv_json(key, value).as_string()`. -/
def kvJsonAsString (B : Boost) (key value : String) : String :=
  B.writeJson [("key", key), ("value", value)]

/-- What the three error replies share. -/
def errorReply (B : Boost) (req : Request) (status : ℕ) (body : String) : Response :=
  let res := Response.new status req.version
  let res := res.set .server B.versionString
  let res := res.set .contentType "text/html"
  let res := { res with keepAlive := req.keepAlive }
  let res := { res with body := body }
  res.preparePayload

/-- `server_error`. -/
def serverError (B : Boost) (req : Request) (message : String) : Response :=
  errorReply B req 500 ("An error occurred: '" ++ message ++ "'")

/-- `bad_request`. -/
def badRequest (B : Boost) (req : Request) : Response :=
  errorReply B req 400 "Unknown HTTP-method"

/-- `not_found`. -/
def notFound (B : Boost) (req : Request) (target : String) : Response :=
  errorReply B req 404 ("The resource '" ++ target ++ "' was not found.\n")

end CacheBench
