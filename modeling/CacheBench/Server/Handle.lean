/-
# Handling a request

`request_processor::handle_request` of `cache/request_processor.hh`, one definition
for each method it serves.  `substr(1)` throws on an empty target, before anything
else happens; `set` may not return; and the copy of a value that a GET makes is
undefined where it reads a byte that was never written.  So the outcome, when there is
one, is a response or what was thrown, and the cache.

What each request does is said by one lemma for each method (`handles_get_iff`,
`handles_put_iff`, `handles_delete_iff`, `handles_reset_iff`), for targets as the
networked client writes them.
-/

import Mathlib.Data.List.TakeWhile
import CacheBench.Server.Http
import CacheBench.Store.Copy
import CacheBench.Store.Run

namespace CacheBench

/-- What `handle_request` can throw. -/
inductive Thrown
  | outOfRange
deriving DecidableEq, Repr

/-- `std::string(target).substr(1)`. -/
def substr1 (target : String) : Except Thrown String :=
  match target.toList with
  | [] => .error .outOfRange
  | _ :: rest => .ok (String.ofList rest)

/-- A `stringstream` being read: what is left of it, and whether it is still good. -/
structure Stream where
  rest : List ByteType
  good : Bool
deriving DecidableEq, Repr

/-- `std::getline(stream, str, delim)`: the new `str` and the stream.  A stream that has
met its end is no longer good, and a stream that is not good leaves `str` alone. -/
def getline (s : Stream) (str : String) (delim : ByteType) : String × Stream :=
  if s.good then
    let line := String.ofList (s.rest.takeWhile fun b => b ≠ delim)
    match s.rest.dropWhile fun b => b ≠ delim with
    | [] => (line, ⟨[], false⟩)
    | _ :: rest => (line, ⟨rest, true⟩)
  else (str, s)

/-- `std::strncpy(dst, p, n)`, as what it writes to `dst`: bytes of `p` up to its first
`'\0'`, then `'\0'` up to `n` bytes.  Reading past `p`, or a byte never written, is not
defined. -/
def strncpy (p : Block) : ℕ → Option (List ByteType)
  | 0 => some []
  | n + 1 =>
    match p with
    | [] => none
    | none :: _ => none
    | some b :: p =>
      if b = nul then some (List.replicate (n + 1) nul)
      else (strncpy p n).map fun bytes => b :: bytes

/-- The string that a GET finds in its `val_holder`: a copy of the block with `'\0'` put
at `size - 1`, read up to the first `'\0'`. -/
def heldValue (p : Block) (size : SizeType) : Option String :=
  if size = 0 then none
  else (strncpy p size.toNat).map fun bytes =>
    String.ofList ((bytes.set (size - 1).toNat nul).takeWhile fun b => b ≠ nul)

section Handlers

variable {ε : Type} [Evictor ε]

/-- The response that every branch but the reset starts from. -/
def startReply (B : Boost) (req : Request) : Response :=
  let res := Response.new 200 11
  let res := res.set .server B.versionString
  { res with keepAlive := req.keepAlive }

/-- The reply to a GET that found `val` under `key`. -/
def foundReply (B : Boost) (req : Request) (key val : String) : Response :=
  let json := kvJsonAsString B key val
  let res := { startReply B req with status := 200, body := json }
  let res := res.set .contentType "json"
  let res := res.setContentLength (json.length + 1)
  res.preparePayload

/-- The branch of `handle_request` for GET. -/
def handleGet (B : Boost) (c : Cache ε) (req : Request) :
    Option (Except Thrown Response × Cache ε) :=
  match substr1 req.target with
  | .error e => some (.error e, c)
  | .ok key =>
    match c.get key with
    | ((none, _), c) => some (.ok (notFound B req key), c)
    | ((some p, size), c) =>
      (heldValue p size).map fun val => (.ok (foundReply B req key val), c)

/-- The reply to a PUT of `key`. -/
def putReply (B : Boost) (req : Request) (key : String) (created : Bool) : Response :=
  let res := (startReply B req).set .contentLocation ("/" ++ key)
  let res := { res with status := if created then 201 else 204 }
  let res := { res with keepAlive := true }
  res.preparePayload

/-- The branch of `handle_request` for PUT. -/
def handlePut (B : Boost) (fuel : ℕ) (c : Cache ε) (req : Request) :
    Option (Except Thrown Response × Cache ε) :=
  match substr1 req.target with
  | .error e => some (.error e, c)
  | .ok target =>
    let (key, stream) := getline ⟨target.toList, true⟩ "" '/'
    let (val, _) := getline stream "" '/'
    let (entry, c) := c.get key
    let created := entry.1.isNone
    let size := UInt32.ofNat (val.length + 1)
    (c.set fuel key (cString val) size).map fun p => (.ok (putReply B req key created), p.2)

/-- The reply to a DELETE that found its key. -/
def deletedReply (B : Boost) (req : Request) : Response :=
  let res := { startReply B req with status := 200 }
  let res := { res with keepAlive := req.keepAlive }
  res.preparePayload

/-- The branch of `handle_request` for DELETE. -/
def handleDelete (B : Boost) (c : Cache ε) (req : Request) :
    Option (Except Thrown Response × Cache ε) :=
  match substr1 req.target with
  | .error e => some (.error e, c)
  | .ok key =>
    match c.del key with
    | (true, c) => some (.ok (deletedReply B req), c)
    | (false, c) => some (.ok (notFound B req key), c)

/-- The branch of `handle_request` for HEAD. -/
def handleHead (B : Boost) (c : Cache ε) (req : Request) :
    Option (Except Thrown Response × Cache ε) :=
  let res := { startReply B req with status := 200 }
  let res := res.set .contentType "application/json"
  let res := res.set .accept "application/json"
  let res := res.insert .spaceUsed (toString c.spaceUsed.toNat)
  some (.ok res.preparePayload, c)

/-- The reply to a POST that reset the cache, a message of its own. -/
def resetReply (B : Boost) : Response :=
  let res := Response.new 200 11
  let res := { res with status := 200 }
  let res := res.set .server B.versionString
  let res := { res with body := "The Cache has been reset" }
  let res := res.set .contentType "text"
  res.preparePayload

/-- The branch of `handle_request` for POST. -/
def handlePost (B : Boost) (c : Cache ε) (req : Request) :
    Option (Except Thrown Response × Cache ε) :=
  if req.target ≠ "/reset" then some (.ok (notFound B req req.target), c)
  else some (.ok (resetReply B), c.reset)

/-- `handle_request`, with fuel for the eviction loop of a PUT. -/
def handleRequest (B : Boost) (fuel : ℕ) (c : Cache ε) (req : Request) :
    Option (Except Thrown Response × Cache ε) :=
  match req.method with
  | .get => handleGet B c req
  | .put => handlePut B fuel c req
  | .delete => handleDelete B c req
  | .head => handleHead B c req
  | .post => handlePost B c req
  | .other => some (.ok (badRequest B req), c)

/-- `handle_request` comes back with `out` and leaves the cache `c'`. -/
def Handles (B : Boost) (c : Cache ε) (req : Request) (out : Except Thrown Response)
    (c' : Cache ε) : Prop :=
  ∃ fuel, handleRequest B fuel c req = some (out, c')

end Handlers

/-! ### The pieces of a target -/

/-- A string that fits between two slashes. -/
def SlashFree (s : String) : Prop := '/' ∉ s.toList

instance (s : String) : Decidable (SlashFree s) := inferInstanceAs (Decidable (_ ∉ _))

/-- A letter is no slash. -/
theorem letters_slashFree (n : ℕ) : SlashFree (letters n) :=
  fun hb => absurd (mem_letters hb) (by decide)

/-- The target that the client writes for a key. -/
def keyTarget (key : String) : String := "/" ++ key

/-- The target that the client writes for a key and a value. -/
def pairTarget (key val : String) : String := "/" ++ key ++ "/" ++ val

/-- The key is what follows the slash. -/
theorem substr1_keyTarget (key : String) : substr1 (keyTarget key) = .ok key := by
  simp [substr1, keyTarget]

/-- The key and the value are what follows the slash. -/
theorem substr1_pairTarget (key val : String) :
    substr1 (pairTarget key val) = .ok (key ++ "/" ++ val) := by
  simp [substr1, pairTarget, String.append_assoc]

/-- The test for a byte that is not there. -/
theorem decide_ne_of_notMem {line : List ByteType} {delim : ByteType} (h : delim ∉ line) :
    ∀ b ∈ line, decide (b ≠ delim) = true :=
  fun _ hb => decide_eq_true fun heq => h (heq ▸ hb)

/-- `getline` reads up to the delimiter and takes it. -/
theorem getline_of_delim {line rest : List ByteType} {delim : ByteType} (h : delim ∉ line)
    (str : String) :
    getline ⟨line ++ delim :: rest, true⟩ str delim = (String.ofList line, ⟨rest, true⟩) := by
  have hne := decide_ne_of_notMem h
  unfold getline
  simp only [if_true, List.takeWhile_append_of_pos hne, List.dropWhile_append_of_pos hne]
  simp

/-- `getline` reads to the end where there is no delimiter. -/
theorem getline_of_notMem {line : List ByteType} {delim : ByteType} (h : delim ∉ line)
    (str : String) : getline ⟨line, true⟩ str delim = (String.ofList line, ⟨[], false⟩) := by
  have hne := decide_ne_of_notMem h
  unfold getline
  simp only [if_true, List.takeWhile_eq_self_iff.2 hne, List.dropWhile_eq_nil_iff.2 hne]

/-- What `getline` reads was in the stream, and what it leaves. -/
theorem getline_subset (s : Stream) (delim : ByteType) :
    (∀ b ∈ (getline s "" delim).1.toList, b ∈ s.rest) ∧
      ∀ b ∈ (getline s "" delim).2.rest, b ∈ s.rest := by
  unfold getline
  split_ifs with hgood
  · have hline : ∀ b ∈ (String.ofList (s.rest.takeWhile fun b => b ≠ delim)).toList,
        b ∈ s.rest := by
      intro b hb
      rw [String.toList_ofList] at hb
      exact (List.takeWhile_prefix _).subset hb
    cases hdrop : s.rest.dropWhile fun b => b ≠ delim with
    | nil => exact ⟨hline, fun b hb => absurd hb List.not_mem_nil⟩
    | cons d rest =>
      refine ⟨hline, fun b hb => ?_⟩
      exact (List.dropWhile_suffix _).subset (hdrop ▸ List.mem_cons_of_mem d hb)
  · exact ⟨fun b hb => by simp at hb, fun b hb => hb⟩

/-- What `getline` reads is free of the delimiter. -/
theorem getline_notMem (s : Stream) (delim : ByteType) :
    delim ∉ (getline s "" delim).1.toList := by
  have hline : delim ∉ (String.ofList (s.rest.takeWhile fun b => b ≠ delim)).toList := by
    rw [String.toList_ofList]
    intro hmem
    have hne := List.mem_takeWhile_imp hmem
    simp at hne
  unfold getline
  split_ifs with hgood
  · cases s.rest.dropWhile fun b => b ≠ delim with
    | nil => exact hline
    | cons d rest => exact hline
  · simp

/-- The key and the value that a PUT reads from what follows the first slash. -/
def putPair (line : String) : String × String :=
  let (key, stream) := getline ⟨line.toList, true⟩ "" '/'
  (key, (getline stream "" '/').1)

/-- Strings without a slash are read back. -/
theorem putPair_of_slashFree {key val : String} (hkey : SlashFree key) (hval : SlashFree val) :
    putPair (key ++ "/" ++ val) = (key, val) := by
  have htarget : (key ++ "/" ++ val).toList = key.toList ++ '/' :: val.toList := by simp
  rw [putPair, htarget, getline_of_delim hkey, String.ofList_toList]
  simp only [getline_of_notMem hval, String.ofList_toList]

/-- What a PUT reads has no slash. -/
theorem putPair_slashFree (line : String) :
    SlashFree (putPair line).1 ∧ SlashFree (putPair line).2 :=
  ⟨getline_notMem ⟨line.toList, true⟩ '/',
    getline_notMem (getline ⟨line.toList, true⟩ "" '/').2 '/'⟩

/-- What a PUT reads is out of its target. -/
theorem putPair_subset (line : String) :
    (∀ b ∈ (putPair line).1.toList, b ∈ line.toList) ∧
      ∀ b ∈ (putPair line).2.toList, b ∈ line.toList := by
  obtain ⟨hfirst, hrest⟩ := getline_subset ⟨line.toList, true⟩ '/'
  have hsecond := (getline_subset (getline ⟨line.toList, true⟩ "" '/').2 '/').1
  exact ⟨hfirst, fun b hb => hrest b (hsecond b hb)⟩

/-- What `substr(1)` leaves is out of the target. -/
theorem substr1_subset {target key : String} (h : substr1 target = .ok key) :
    ∀ b ∈ key.toList, b ∈ target.toList := by
  intro b hb
  unfold substr1 at h
  split at h
  · cases h
  · rename_i d rest hrest
    obtain rfl := Except.ok.inj h
    rw [String.toList_ofList] at hb
    rw [hrest]
    exact List.mem_cons_of_mem d hb

/-! ### What each request does -/

variable {ε : Type} [Evictor ε] {B : Boost} {c c' : Cache ε} {out : Except Thrown Response}
  {version : ℕ} {keepAlive : Bool}

/-- **A GET** is answered with the string of its key, or with 404. -/
theorem handles_get_iff_of_substr1 {target key : String} (hkey : substr1 target = .ok key) :
    Handles B c ⟨.get, target, version, keepAlive⟩ out c' ↔ c' = (c.get key).2 ∧
      ((c.entry key).1 = none ∧ out = .ok (notFound B ⟨.get, target, version, keepAlive⟩ key) ∨
        ∃ p val, (c.entry key).1 = some p ∧ heldValue p (c.entry key).2 = some val ∧
          out = .ok (foundReply B ⟨.get, target, version, keepAlive⟩ key val)) := by
  rcases hget : c.get key with ⟨⟨e, size⟩, d⟩
  have he : c.entry key = (e, size) := by rw [← Cache.get_fst, hget]
  have hhandle : ∀ fuel, handleRequest B fuel c ⟨.get, target, version, keepAlive⟩ =
      handleGet B c ⟨.get, target, version, keepAlive⟩ := fun _ => rfl
  unfold Handles
  simp only [hhandle, handleGet, hkey, hget, he]
  cases e with
  | none => simp [eq_comm, and_comm]
  | some p =>
    constructor
    · rintro ⟨-, hval⟩
      obtain ⟨val, hheld, heq⟩ := Option.map_eq_some_iff.1 hval
      obtain ⟨rfl, rfl⟩ := Prod.mk.inj heq
      exact ⟨rfl, Or.inr ⟨p, val, rfl, hheld, rfl⟩⟩
    · rintro ⟨rfl, ⟨hnone, -⟩ | ⟨q, val, hq, hheld, rfl⟩⟩
      · cases hnone
      · obtain rfl := Option.some.inj hq
        exact ⟨0, Option.map_eq_some_iff.2 ⟨val, hheld, rfl⟩⟩

/-- A GET of `/key`. -/
theorem handles_get_iff {key : String} :
    Handles B c ⟨.get, keyTarget key, version, keepAlive⟩ out c' ↔ c' = (c.get key).2 ∧
      ((c.entry key).1 = none ∧
          out = .ok (notFound B ⟨.get, keyTarget key, version, keepAlive⟩ key) ∨
        ∃ p val, (c.entry key).1 = some p ∧ heldValue p (c.entry key).2 = some val ∧
          out = .ok (foundReply B ⟨.get, keyTarget key, version, keepAlive⟩ key val)) :=
  handles_get_iff_of_substr1 (substr1_keyTarget key)

/-- **A DELETE** is answered as `del` returns. -/
theorem handles_delete_iff_of_substr1 {target key : String} (hkey : substr1 target = .ok key) :
    Handles B c ⟨.delete, target, version, keepAlive⟩ out c' ↔ c' = (c.del key).2 ∧
      ((c.del key).1 = true ∧ out = .ok (deletedReply B ⟨.delete, target, version, keepAlive⟩) ∨
        (c.del key).1 = false ∧
          out = .ok (notFound B ⟨.delete, target, version, keepAlive⟩ key)) := by
  rcases hdel : c.del key with ⟨found, d⟩
  have hhandle : ∀ fuel, handleRequest B fuel c ⟨.delete, target, version, keepAlive⟩ =
      handleDelete B c ⟨.delete, target, version, keepAlive⟩ := fun _ => rfl
  unfold Handles
  simp only [hhandle, handleDelete, hkey, hdel]
  cases found <;> simp [eq_comm, and_comm]

/-- A DELETE of `/key`. -/
theorem handles_delete_iff {key : String} :
    Handles B c ⟨.delete, keyTarget key, version, keepAlive⟩ out c' ↔ c' = (c.del key).2 ∧
      ((c.del key).1 = true ∧
          out = .ok (deletedReply B ⟨.delete, keyTarget key, version, keepAlive⟩) ∨
        (c.del key).1 = false ∧
          out = .ok (notFound B ⟨.delete, keyTarget key, version, keepAlive⟩ key)) :=
  handles_delete_iff_of_substr1 (substr1_keyTarget key)

/-- A PUT sets what it reads from its target. -/
theorem handles_put_iff_of_substr1 {target line : String} (hline : substr1 target = .ok line) :
    Handles B c ⟨.put, target, version, keepAlive⟩ out c' ↔
      (∃ r, (c.get (putPair line).1).2.SetReturns (putPair line).1 (cString (putPair line).2)
        (UInt32.ofNat ((putPair line).2.length + 1)) r c') ∧
        out = .ok (putReply B ⟨.put, target, version, keepAlive⟩ (putPair line).1
          (c.entry (putPair line).1).1.isNone) := by
  have hhandle : ∀ fuel, handleRequest B fuel c ⟨.put, target, version, keepAlive⟩ =
      ((c.get (putPair line).1).2.set fuel (putPair line).1 (cString (putPair line).2)
        (UInt32.ofNat ((putPair line).2.length + 1))).map fun p =>
          (.ok (putReply B ⟨.put, target, version, keepAlive⟩ (putPair line).1
            (c.entry (putPair line).1).1.isNone), p.2) := by
    intro fuel
    show handlePut B fuel c _ = _
    simp only [handlePut, putPair, hline, Cache.get_fst]
  unfold Handles Cache.SetReturns
  simp only [hhandle, Option.map_eq_some_iff, Prod.mk.injEq, Prod.exists]
  constructor
  · rintro ⟨fuel, r, d, hset, rfl, rfl⟩
    exact ⟨⟨r, fuel, hset⟩, rfl⟩
  · rintro ⟨⟨r, fuel, hset⟩, rfl⟩
    exact ⟨fuel, r, c', hset, rfl, rfl⟩

/-- A PUT of `/key/val`. -/
theorem handles_put_iff {key val : String} (hkey : SlashFree key) (hval : SlashFree val) :
    Handles B c ⟨.put, pairTarget key val, version, keepAlive⟩ out c' ↔
      (∃ r, (c.get key).2.SetReturns key (cString val) (UInt32.ofNat (val.length + 1)) r c') ∧
        out = .ok (putReply B ⟨.put, pairTarget key val, version, keepAlive⟩ key
          (c.entry key).1.isNone) := by
  rw [handles_put_iff_of_substr1 (substr1_pairTarget key val), putPair_of_slashFree hkey hval]

/-- **A POST of `/reset`** is answered and resets the cache. -/
theorem handles_reset_iff :
    Handles B c ⟨.post, "/reset", version, keepAlive⟩ out c' ↔ c' = c.reset ∧
      out = .ok (resetReply B) := by
  have hhandle : ∀ fuel, handleRequest B fuel c ⟨.post, "/reset", version, keepAlive⟩ =
      some (.ok (resetReply B), c.reset) := fun _ => rfl
  unfold Handles
  simp only [hhandle, Option.some.injEq, Prod.mk.injEq]
  constructor
  · rintro ⟨-, rfl, rfl⟩
    exact ⟨rfl, rfl⟩
  · rintro ⟨rfl, rfl⟩
    exact ⟨0, rfl, rfl⟩

end CacheBench
