/-
# What the client makes of failures

`send_tcp` of `cache/cache_client.cc` turns an exception into a response of status 499 with
an empty body, and the server has three error replies with bodies in plain text.  `del` of
the client looks for a status of 200; `get` looks for a status of 404 only, and takes the
body of anything else for JSON.  So `del` comes through every outcome, and `get` through
those of status 404 and those of status 200 with a pair to read in the body
(`survives_iff`).

The pointers that `kv_json` keeps and that `get` returns are into strings that are destroyed;
as in `CacheBench.Client.Client` they are taken as live.  Whether `get` throws and whether it
returns the null pointer does not depend on that.
-/

import CacheBench.Lib.Json
import CacheBench.Client.Client

namespace CacheBench
namespace Client

variable {readJson : String → Option Tree} {res : Response} {out : Except Thrown Response}

/-- What `del` makes of a response. -/
def deleted (res : Response) : Bool := decide (res.status = 200)

/-- `Cache::del` of the client, on a server with the cache `c`. -/
def Dels {ε : Type} [Evictor ε] (B : Boost) (c : Cache ε) (key : KeyType) (result : Bool)
    (c' : Cache ε) : Prop :=
  ∃ out, Handles B c (prepReq .delete ("/" ++ key)) out c' ∧ result = deleted (sendTcp out)

/-- **Over the wire a deletion is the one on the server.** -/
theorem dels_iff {ε : Type} [Evictor ε] {B : Boost} {c c' : Cache ε} {key : KeyType}
    {result : Bool} : Dels B c key result c' ↔ c' = (c.del key).2 ∧ result = (c.del key).1 := by
  have hhandles : ∀ {out}, Handles B c (prepReq .delete ("/" ++ key)) out c' ↔ c' = (c.del key).2 ∧
      ((c.del key).1 = true ∧ out = .ok (deletedReply B (prepReq .delete ("/" ++ key))) ∨
        (c.del key).1 = false ∧
          out = .ok (notFound B (prepReq .delete ("/" ++ key)) key)) := handles_delete_iff
  constructor
  · rintro ⟨out, hout, rfl⟩
    obtain ⟨rfl, ⟨hfound, rfl⟩ | ⟨hmissing, rfl⟩⟩ := hhandles.1 hout
    · exact ⟨rfl, hfound.symm⟩
    · exact ⟨rfl, hmissing.symm⟩
  · rintro ⟨rfl, rfl⟩
    cases hfound : (c.del key).1 with
    | true => exact ⟨_, hhandles.2 ⟨rfl, Or.inl ⟨hfound, rfl⟩⟩, rfl⟩
    | false => exact ⟨_, hhandles.2 ⟨rfl, Or.inr ⟨hfound, rfl⟩⟩, rfl⟩

/-- Neither `get` nor `del` throws, and without a status of 200 the one returns the null
pointer and the other false. -/
structure Survives (readJson : String → Option Tree) (res : Response) : Prop where
  returns : ∃ result, received readJson res = .ok result
  null : res.status ≠ 200 → received readJson res = .ok none
  notDeleted : res.status ≠ 200 → deleted res = false

/-- There is a pair to read in the body. -/
def HasPair (readJson : String → Option Tree) (body : String) : Prop :=
  ∃ tree key value, readJson (cStr body) = some tree ∧ tree.lookup "key" = some key ∧
    tree.lookup "value" = some value

/-- `kv_json` reads what has a pair. -/
theorem kvJson_eq_ok_iff {body : String} :
    (∃ kv, kvJson readJson body = .ok kv) ↔ HasPair readJson body := by
  unfold kvJson HasPair
  constructor
  · rintro ⟨kv, hkv⟩
    split at hkv
    · cases hkv
    · rename_i tree htree
      split at hkv
      · rename_i key value hkey hvalue
        exact ⟨tree, key, value, htree, hkey, hvalue⟩
      · cases hkv
  · rintro ⟨tree, key, value, htree, hkey, hvalue⟩
    exact ⟨(key, cStr value), by simp only [htree, hkey, hvalue]⟩

/-- Without a status of 200 nothing was deleted. -/
theorem deleted_of_ne (h : res.status ≠ 200) : deleted res = false := decide_eq_false h

/-- Only a status of 404 gives a null pointer. -/
theorem received_eq_none_iff : received readJson res = .ok none ↔ res.status = 404 := by
  unfold received
  split_ifs with h
  · exact ⟨fun _ => h, fun _ => rfl⟩
  · refine ⟨fun hnone => ?_, fun h' => absurd h' h⟩
    cases hkv : kvJson readJson res.body with
    | error e =>
      rw [hkv] at hnone
      cases hnone
    | ok kv =>
      rw [hkv] at hnone
      cases hnone

/-- `get` returns after a status of 404, and where there is a pair to read. -/
theorem received_returns_iff :
    (∃ result, received readJson res = .ok result) ↔
      res.status = 404 ∨ HasPair readJson res.body := by
  rw [← kvJson_eq_ok_iff]
  unfold received
  split_ifs with h
  · exact ⟨fun _ => Or.inl h, fun _ => ⟨none, rfl⟩⟩
  · cases hkv : kvJson readJson res.body with
    | error e =>
      constructor
      · rintro ⟨_, hresult⟩
        cases hresult
      · rintro (h' | ⟨_, hok⟩)
        · exact absurd h' h
        · cases hok
    | ok kv => exact ⟨fun _ => Or.inr ⟨kv, rfl⟩, fun _ => ⟨_, rfl⟩⟩

/-- **What the client comes through,** whatever the response. -/
theorem survives_response_iff : Survives readJson res ↔
    res.status = 404 ∨ res.status = 200 ∧ HasPair readJson res.body := by
  constructor
  · rintro ⟨hreturns, hnull, -⟩
    by_cases hok : res.status = 200
    · rcases received_returns_iff.1 hreturns with h | h
      · exact Or.inl h
      · exact Or.inr ⟨hok, h⟩
    · exact Or.inl (received_eq_none_iff.1 (hnull hok))
  · rintro (h | ⟨hok, hpair⟩)
    · have hnone : received readJson res = .ok none := received_eq_none_iff.2 h
      exact ⟨⟨none, hnone⟩, fun _ => hnone, deleted_of_ne⟩
    · exact ⟨received_returns_iff.2 (Or.inr hpair), fun h => absurd hok h, deleted_of_ne⟩

/-- **What the client comes through, exactly.**  For every reader of JSON and every outcome
of the exchange: `get` and `del` do as they should if and only if there was a response, and
its status is 404, or 200 with a pair in the body.  The strings behind the pointers of
`kv_json` and `get` are taken to live on. -/
theorem survives_iff (readJson : String → Option Tree) (out : Except Thrown Response) :
    Survives readJson (sendTcp out) ↔ ∃ res, out = .ok res ∧
      (res.status = 404 ∨ res.status = 200 ∧ HasPair readJson res.body) := by
  rw [survives_response_iff]
  cases out with
  | error e =>
    constructor
    · rintro (h | ⟨h, -⟩) <;> cases h
    · rintro ⟨_, h, -⟩
      cases h
  | ok res => simp [sendTcp]

/-- **Of the server's error replies the client comes through one,** the 404. -/
theorem survives_errorReply (B : Boost) (req : Request) (text : String) :
    Survives readJson (notFound B req text) ∧ ¬Survives readJson (badRequest B req) ∧
      ¬Survives readJson (serverError B req text) := by
  simp only [survives_response_iff]
  refine ⟨Or.inl rfl, ?_, ?_⟩
  · rintro (h | ⟨h, -⟩) <;> cases h
  · rintro (h | ⟨h, -⟩) <;> cases h

/-- **An exception in the exchange becomes one in `get`:** the empty body of the response of
status 499 is no JSON.  Nor does the client come through a reply of status 400 or 500. -/
theorem get_throws_after_exception :
    (sendTcp (.error .outOfRange)).status = 499 ∧
      received Json.readObject (sendTcp (.error .outOfRange)) = .error .jsonParserError ∧
      ¬Survives Json.readObject (sendTcp (.error .outOfRange)) ∧
      ∀ B req text, ¬Survives Json.readObject (sendTcp (.ok (badRequest B req))) ∧
        ¬Survives Json.readObject (sendTcp (.ok (serverError B req text))) := by
  have hthrows : received Json.readObject (sendTcp (.error .outOfRange)) =
      .error .jsonParserError := rfl
  refine ⟨rfl, hthrows, fun ⟨⟨_, h⟩, _, _⟩ => ?_,
    fun B req text => (survives_errorReply B req text).2⟩
  rw [hthrows] at h
  cases h

end Client
end CacheBench
