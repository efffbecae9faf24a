/-
# A set and a get over the wire

The client writes a key and a value into one target, `/key/value`, and the server takes it
apart at the slashes; a GET takes everything after the first slash for the key.  So no key
with a slash in it ever has a value on the server, and no value has a slash in it
(`Cache.Sent`).

A set through the client, and then a get of the same key, give back the value with its
length, and leave every other key what it had or nothing, exactly when neither the key nor
the value has a slash in it and the value is shorter than `2^31`
(`Client.roundTrips_iff`).
-/

import CacheBench.Lib.Json
import CacheBench.Client.Client
import CacheBench.Server.Put
import CacheBench.Server.WellFormed

namespace CacheBench

variable {B : Boost} {readJson : String → Option Tree} {c c' : Cache FifoEvictor}
variable {maxmem : SizeType} {log : List (Request × Except Thrown Response)} {key val : String}

/-- A target is a C string. -/
theorem IsTarget.isCString {s : String} (h : IsTarget s) : IsCString s :=
  fun hmem => absurd (h nul hmem).1 (by decide)

/-- Different strings are stored differently. -/
theorem stored_injective {s t : String} (h : stored s = stored t) : s = t :=
  Cache.cString_injective (List.map_injective_iff.2 (Option.some_injective _) h)

/-! ### What is stored on the server -/

/-- Keys and values on the server come out of targets, and have no slash in them. -/
def Cache.Sent (c : Cache FifoEvictor) : Prop :=
  ∀ k p n, c.entry k = (some p, n) → SlashFree k ∧ IsTarget k ∧
    ∃ s, SlashFree s ∧ IsTarget s ∧ p = stored s ∧ n.toNat = s.length + 1

/-- **Over a run of requests** keys and values on the server stay free of slashes. -/
theorem Serves.sent (h : Serves B (serverCache maxmem) log c)
    (hlog : ∀ l ∈ log, IsTarget l.1.target) : c.Sent :=
  h.holds (by decide) hlog

namespace Client

/-! ### What a reply says -/

/-- `read_json` reads what `write_json` wrote, and there is no `'\0'` in it. -/
structure Faithful (B : Boost) (readJson : String → Option Tree) : Prop where
  reads : ∀ key val, IsTarget key → IsTarget val →
    readJson (kvJsonAsString B key val) = some [("key", key), ("value", val)]
  isCString : ∀ key val, IsTarget key → IsTarget val → IsCString (kvJsonAsString B key val)

/-- A 404 is the null pointer. -/
theorem received_notFound (req : Request) (key : String) :
    received readJson (sendTcp (.ok (notFound B req key))) = .ok none := rfl

/-- **A found value is read out of its reply.** -/
theorem received_foundReply (hjson : Faithful B readJson) (req : Request) (hkey : IsTarget key)
    (hval : IsTarget val) : received readJson (sendTcp (.ok (foundReply B req key val))) =
      .ok (some (val, UInt32.ofNat (val.length + 1))) := by
  have hstatus : (foundReply B req key val).status ≠ 404 := by
    show (200 : ℕ) ≠ 404
    decide
  have hbody : (foundReply B req key val).body = kvJsonAsString B key val := rfl
  have hkv : kvJson readJson (kvJsonAsString B key val) = .ok (key, val) := by
    rw [kvJson, cStr_eq_self (hjson.isCString key val hkey hval), hjson.reads key val hkey hval]
    show Except.ok (key, cStr val) = _
    rw [cStr_eq_self hval.isCString]
  rw [sendTcp, received, if_neg hstatus, hbody, hkv]
  show Except.ok (some (cStr val, UInt32.ofNat ((cStr val).length + 1))) = _
  rw [cStr_eq_self hval.isCString]

/-- **What `get` of the client returns,** of a server that requests have filled: a value
that is stored, and then neither it nor its key has a slash in it, or the null pointer. -/
theorem gets_iff (hjson : Faithful B readJson) (hsent : c.Sent)
    {result : Except ClientError (Option (String × SizeType))} :
    Gets B readJson c key result c' ↔ c' = (c.get key).2 ∧
      (¬c.Live key ∧ result = .ok none ∨
        ∃ s, c.entry key = (some (stored s), UInt32.ofNat (s.length + 1)) ∧
          SlashFree key ∧ SlashFree s ∧ result = .ok (some (s, UInt32.ofNat (s.length + 1)))) := by
  constructor
  · rintro ⟨out, hget, rfl⟩
    obtain ⟨rfl, hout⟩ := handles_get_iff.1 hget
    refine ⟨rfl, ?_⟩
    rcases hout with ⟨hnone, rfl⟩ | ⟨p, v, hp, hheld, rfl⟩
    · exact Or.inl ⟨fun hlive => hlive hnone, received_notFound _ key⟩
    · obtain ⟨hkfree, hktarget, s, hsfree, hstarget, rfl, hn⟩ := hsent key p _ (Prod.ext hp rfl)
      rw [heldValue_stored hstarget.isCString hn] at hheld
      obtain rfl := Option.some.inj hheld
      have hsize : (c.entry key).2 = UInt32.ofNat (s.length + 1) := by
        rw [← hn, UInt32.ofNat_toNat]
      exact Or.inr ⟨s, Prod.ext hp hsize, hkfree, hsfree,
        received_foundReply hjson _ hktarget hstarget⟩
  · rintro ⟨rfl, ⟨hdead, rfl⟩ | ⟨s, hentry, -, -, rfl⟩⟩
    · exact ⟨_, handles_get_iff.2 ⟨rfl, Or.inl ⟨not_not.1 hdead, rfl⟩⟩,
        (received_notFound _ key).symm⟩
    · obtain ⟨-, hktarget, t, -, httarget, hst, hn⟩ := hsent key _ _ hentry
      obtain rfl := stored_injective hst
      refine ⟨_, handles_get_iff.2 ⟨rfl, Or.inr ⟨stored s, s, ?_, ?_, rfl⟩⟩,
        (received_foundReply hjson _ hktarget httarget).symm⟩
      · rw [hentry]
      · rw [hentry]
        exact heldValue_stored httarget.isCString hn

/-! ### A set and then a get -/

/-- `set(key, val, strlen(val) + 1)` of the client and then `get(key)` give back the value
with its length, and leave every other key what it had, or nothing. -/
def RoundTrips (B : Boost) (readJson : String → Option Tree) (c : Cache FifoEvictor)
    (key val : String) : Prop :=
  ∃ c₁ c₂, Sets B c key (cString val) (UInt32.ofNat (val.length + 1)) c₁ ∧
    Gets B readJson c₁ key (.ok (some (val, UInt32.ofNat (val.length + 1)))) c₂ ∧
    ∀ k, k ≠ key → c₂.Live k → c₂.entry k = c.entry k

/-- Slashes before a key and its value make a target. -/
theorem isTarget_pairTarget (hkey : IsTarget key) (hval : IsTarget val) :
    IsTarget (pairTarget key val) := by
  have hslash : TargetChar '/' := by decide
  intro b hb
  simp only [pairTarget, String.toList_append, List.mem_append] at hb
  rcases hb with ((hb | hb) | hb) | hb
  · rw [List.mem_singleton.1 hb]
    exact hslash
  · exact hkey b hb
  · rw [List.mem_singleton.1 hb]
    exact hslash
  · exact hval b hb

/-- `set` of the client is a PUT. -/
theorem sets_iff {size : SizeType} (hval : IsCString val) :
    Sets B c key (cString val) size c' ↔
      ∃ out, Handles B c ⟨.put, pairTarget key val, 11, true⟩ out c' := by
  constructor
  · rintro ⟨s, out, hs, hput⟩
    rw [stdString_cString hval] at hs
    obtain rfl := Option.some.inj hs
    exact ⟨out, hput⟩
  · rintro ⟨out, hput⟩
    exact ⟨val, out, stdString_cString hval, hput⟩

/-- **What the client reads back is what it wrote.**  After any run of requests, and for
every key and value of characters that a target may have, the value within the limit: a
set and a get do what `RoundTrips` says if and only if neither the key nor the value has a
slash in it and the value is shorter than `2^31`. -/
theorem roundTrips_iff (hjson : Faithful B readJson) (h : Serves B (serverCache maxmem) log c)
    (hlog : ∀ l ∈ log, IsTarget l.1.target) (hkey : IsTarget key) (hval : IsTarget val)
    (hfit : val.length + 1 ≤ maxmem.toNat) :
    RoundTrips B readJson c key val ↔
      SlashFree key ∧ SlashFree val ∧ val.length < 2 ^ 31 := by
  obtain ⟨calls, hrun, -⟩ := h.calls fun l hl => (hlog l hl).isCString
  have hq : (c.get key).2.Queued := (Cache.Run.queued hrun).get key
  constructor
  · rintro ⟨c₁, c₂, hsets, hgets, -⟩
    obtain ⟨out, hput⟩ := (sets_iff hval.isCString).1 hsets
    have hsent : c₁.Sent := by
      have hsnoc := Trace.Run.snoc (l := (⟨.put, pairTarget key val, 11, true⟩, out)) h hput
      refine Serves.sent hsnoc fun l hl => ?_
      rcases List.mem_append.1 hl with hl | hl
      · exact hlog l hl
      · rw [List.mem_singleton.1 hl]
        exact isTarget_pairTarget hkey hval
    rcases ((gets_iff hjson hsent).1 hgets).2 with ⟨-, hnone⟩ | ⟨s, -, hkfree, hsfree, hsome⟩
    · cases hnone
    · obtain rfl : val = s := (Prod.mk.inj (Option.some.inj (Except.ok.inj hsome))).1
      obtain ⟨⟨r, hset⟩, -⟩ := (handles_put_iff hkfree hsfree).1 hput
      exact ⟨hkfree, hsfree, hq.length_lt hval.isCString hset⟩
  · rintro ⟨hkfree, hvfree, hlt⟩
    obtain ⟨c₁, hput, hself, hother⟩ := Cache.exists_put B h (fun l hl => (hlog l hl).isCString)
      hkfree hvfree hval.isCString hfit hlt 11 true
    refine ⟨c₁, _, (sets_iff hval.isCString).2 ⟨_, hput⟩,
      ⟨_, handles_get_iff.2 ⟨rfl, Or.inr ⟨stored val, val, ?_, ?_, rfl⟩⟩,
        (received_foundReply hjson _ hkey hval).symm⟩, fun k hk hlive => ?_⟩
    · rw [hself]
    · rw [hself]
      exact heldValue_stored hval.isCString (toNat_put_size hfit)
    · rw [Cache.Live, Cache.get_snd_entry] at hlive
      rw [Cache.get_snd_entry]
      refine (hother k hk).resolve_right fun hnone => hlive ?_
      rw [hnone]

/-! ### The library's own printer -/

/-- A version, and what `write_json` prints. -/
def jsonBoost : Boost := ⟨"Boost.Beast/322", Json.writeObject⟩

/-- A printer and a reader that are faithful. -/
theorem faithful_jsonBoost : Faithful jsonBoost Json.readObject := by
  refine ⟨fun key val _ _ => Json.readObject_writeObject (List.cons_ne_nil _ _),
    fun key val _ _ hmem => ?_⟩
  rcases Json.notControl_of_mem_writeObject hmem with hle | heq
  · exact absurd hle (by decide)
  · exact absurd heq (by decide)

/-- A key and a value with quotes and backslashes, stored over one that was missed. -/
theorem roundTrips_iff_run : ∃ log c, Serves jsonBoost (serverCache 30) log c ∧
    RoundTrips jsonBoost Json.readObject c "k\"1" "a\\b" := by
  obtain ⟨log, c, h, hlog⟩ : ∃ log c, Serves jsonBoost (serverCache 30) log c ∧
      ∀ l ∈ log, IsTarget l.1.target := by
    refine ⟨[(⟨.get, keyTarget "k\"1", 11, true⟩, _), (⟨.put, pairTarget "b" "one", 11, true⟩, _)],
      _, .snoc (.snoc .nil (handles_get_iff.2 ⟨rfl, Or.inl ⟨rfl, rfl⟩⟩))
        ((handles_put_iff (by decide) (by decide)).2 ⟨⟨_, 0, rfl⟩, rfl⟩), ?_⟩
    intro l hl
    simp only [List.mem_cons, List.not_mem_nil, or_false] at hl
    rcases hl with rfl | rfl <;> decide
  exact ⟨log, c, h, (roundTrips_iff faithful_jsonBoost h hlog (by decide) (by decide)
    (by decide)).2 (by decide)⟩

/-- **A slash in the key moves the value:** on a fresh server, `set("a/b", "v", 2)` stores
`"b"` under `"a"`, and `get("a/b")` returns the null pointer. -/
theorem set_splits_key : IsTarget "a/b" ∧ IsTarget "v" ∧
    "v".length + 1 ≤ (30 : SizeType).toNat ∧
    (∃ c₁, Sets jsonBoost (serverCache 30) "a/b" (cString "v") 2 c₁ ∧
      c₁.entry "a" = (some (stored "b"), 2) ∧
      Gets jsonBoost Json.readObject c₁ "a/b" (.ok none) (c₁.get "a/b").2) ∧
    ¬RoundTrips jsonBoost Json.readObject (serverCache 30) "a/b" "v" := by
  have hpair : putPair ("a/b" ++ "/" ++ "v") = ("a", "b") := by decide
  have hput : ∀ {out c'}, Handles jsonBoost (serverCache 30) ⟨.put, pairTarget "a/b" "v", 11, true⟩
      out c' ↔ (∃ r, ((serverCache 30).get "a").2.SetReturns "a" (cString "b") 2 r c') ∧
        out = .ok (putReply jsonBoost ⟨.put, pairTarget "a/b" "v", 11, true⟩ "a" true) := by
    intro out c'
    rw [handles_put_iff_of_substr1 (substr1_pairTarget "a/b" "v"), hpair]
    rfl
  have hdead : ∀ {c'}, (∃ r, ((serverCache 30).get "a").2.SetReturns "a" (cString "b") 2 r c') →
      c'.entry "a/b" = (none, 0) := by
    rintro c' ⟨r, hset⟩
    exact (hset.entry_of_ne (by decide)).elim (fun h => h.trans rfl) id
  refine ⟨by decide, by decide, by decide, ?_, ?_⟩
  · obtain ⟨r, c₁, hset, hentry⟩ : ∃ r c₁,
        ((serverCache 30).get "a").2.SetReturns "a" (cString "b") 2 r c₁ ∧
          c₁.entry "a" = (some (stored "b"), 2) := ⟨_, _, ⟨0, rfl⟩, rfl⟩
    exact ⟨c₁, (sets_iff (by decide)).2 ⟨_, hput.2 ⟨⟨r, hset⟩, rfl⟩⟩, hentry,
      _, handles_get_iff.2 ⟨rfl, Or.inl ⟨by rw [hdead ⟨r, hset⟩], rfl⟩⟩, rfl⟩
  · rintro ⟨c₁, c₂, hsets, ⟨out, hget, hresult⟩, -⟩
    obtain ⟨_, hput'⟩ := (sets_iff (by decide)).1 hsets
    rcases (handles_get_iff.1 hget).2 with ⟨-, rfl⟩ | ⟨p, val, hp, -⟩
    · cases hresult
    · rw [hdead (hput.1 hput').1] at hp
      cases hp

end Client
end CacheBench
