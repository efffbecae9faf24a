/-
# A workload over the wire

The networked client is the other implementation of `class Cache`: its operations are
requests to the server, and `Client.Step` is one of them with what its caller sees.  A set
over the wire is a get and a set on the server, which touches the evictor twice; so a
workload over the wire is a workload on the server with more gets in it
(`Client.Run.calls`), and what holds of every workload holds of it.

Keys and values have to be free of slashes and made of characters that a target may have.
Then every operation returns, and none throws; every get returns the null pointer or the
value of its key (`Client.Run.result_of_get`).
-/

import CacheBench.Client.RoundTrip
import CacheBench.Client.SpaceUsed
import CacheBench.Client.Transport
import CacheBench.Store.Workload

namespace CacheBench

open Cache (Plays Suits setKeys sizeOfValue)

namespace Client

/-- What the caller of an operation sees. -/
inductive Seen
  | nothing
  | got (result : Except ClientError (Option (String × SizeType)))
  | deleted (found : Bool)

/-- `Cache::reset` of the client. -/
def Resets (B : Boost) (c c' : Cache FifoEvictor) : Prop :=
  ∃ out, Handles B c (prepReq .post "/reset") out c'

/-- One operation of the client, on the server with the cache `c`. -/
inductive Step (B : Boost) (readJson : String → Option Tree) :
    Cache FifoEvictor → Call × Seen → Cache FifoEvictor → Prop
  | set {c c' : Cache FifoEvictor} {key : KeyType} {val : List ByteType} {size : SizeType} :
      Sets B c key val size c' → Step B readJson c (.set key val size, .nothing) c'
  | get {c c' : Cache FifoEvictor} {key : KeyType}
      {result : Except ClientError (Option (String × SizeType))} :
      Gets B readJson c key result c' → Step B readJson c (.get key, .got result) c'
  | del {c c' : Cache FifoEvictor} {key : KeyType} {found : Bool} :
      Dels B c key found c' → Step B readJson c (.del key, .deleted found) c'
  | reset {c c' : Cache FifoEvictor} :
      Resets B c c' → Step B readJson c (.reset, .nothing) c'

/-- A finite run of operations of the client. -/
abbrev Run (B : Boost) (readJson : String → Option Tree) :
    Cache FifoEvictor → List (Call × Seen) → Cache FifoEvictor → Prop :=
  Trace.Run (Step B readJson)

/-- The key of the call, and the value that goes with it, can be part of a target. -/
def Wires (value : KeyType → String) : Call → Prop
  | .set key _ _ => SlashFree key ∧ IsTarget key ∧ SlashFree (value key) ∧ IsTarget (value key)
  | .get key => IsTarget key
  | _ => True

variable {B : Boost} {readJson : String → Option Tree} {c c' : Cache FifoEvictor}
variable {maxmem : SizeType} {value : KeyType → String} {m : ℕ} {log : List (Call × Seen)}
variable {call : Call} {seen : Seen} {key : KeyType}

/-! ### A workload on the server -/

/-- The keys of two workloads together. -/
theorem setKeys_append (calls calls' : List Call) :
    setKeys (calls ++ calls') = setKeys calls ∪ setKeys calls' := by
  simp [setKeys, List.filterMap_append]

/-- **An operation of the workload** is a request, and on the server a workload that sets the
same keys. -/
theorem Step.calls (hplays : Plays value call) (hwires : Wires value call)
    (h : Step B readJson c (call, seen) c') :
    (∃ req out, Handles B c req out c' ∧ IsTarget req.target) ∧
      ∃ calls, Cache.Run c calls c' ∧ (∀ l ∈ calls, Plays value l.1) ∧
        setKeys (calls.map Prod.fst) = setKeys [call] := by
  cases h with
  | @set _ key val size hsets =>
    obtain ⟨rfl, rfl⟩ := hplays
    obtain ⟨hkfree, hktarget, hvfree, hvtarget⟩ := hwires
    obtain ⟨out, hput⟩ := (sets_iff hvtarget.isCString).1 hsets
    refine ⟨⟨_, out, hput, isTarget_pairTarget hktarget hvtarget⟩, ?_⟩
    obtain ⟨⟨r, hset⟩, -⟩ := (handles_put_iff hkfree hvfree).1 hput
    refine ⟨_, .snoc (.snoc .nil (.get c key)) (.set hset), fun l hl => ?_, by simp [setKeys]⟩
    simp only [List.nil_append, List.mem_append, List.mem_singleton] at hl
    rcases hl with rfl | rfl
    · trivial
    · exact ⟨rfl, rfl⟩
  | @get _ key result hgets =>
    obtain ⟨out, hget, -⟩ := hgets
    have hslash : TargetChar '/' := by decide
    refine ⟨⟨_, out, hget, fun b hb => ?_⟩, ?_⟩
    · rcases List.mem_append.1 (String.toList_append ▸ hb) with hb | hb
      · rw [List.mem_singleton.1 hb]
        exact hslash
      · exact hwires b hb
    · obtain ⟨rfl, -⟩ := handles_get_iff.1 hget
      exact ⟨_, Trace.run_singleton_iff.2 (.get c key), by simp [Plays],
        by simp [setKeys]⟩
  | del => exact hplays.elim
  | reset => exact hplays.elim

/-- **A workload over the wire** is a run of requests, and a workload on the server that sets
the same keys. -/
theorem Run.calls (h : Run B readJson (serverCache maxmem) log c)
    (hplays : ∀ l ∈ log, Plays value l.1) (hwires : ∀ l ∈ log, Wires value l.1) :
    (∃ reqs, Serves B (serverCache maxmem) reqs c ∧ ∀ l ∈ reqs, IsTarget l.1.target) ∧
      ∃ calls, Cache.Run (serverCache maxmem) calls c ∧ (∀ l ∈ calls, Plays value l.1) ∧
        setKeys (calls.map Prod.fst) = setKeys (log.map Prod.fst) := by
  induction h with
  | nil => exact ⟨⟨[], .nil, by simp⟩, [], .nil, by simp, rfl⟩
  | @snoc log l c c' _ hstep ih =>
    obtain ⟨⟨reqs, hserves, htargets⟩, calls, hrun, hcalls, hkeys⟩ :=
      ih (fun l hl => hplays l (List.mem_append_left _ hl))
        fun l hl => hwires l (List.mem_append_left _ hl)
    obtain ⟨⟨req, out, hreq, htarget⟩, calls', hrun', hcalls', hkeys'⟩ :=
      hstep.calls (hplays l (by simp)) (hwires l (by simp))
    refine ⟨⟨_, .snoc (l := (req, out)) hserves hreq, fun l hl => ?_⟩, calls ++ calls',
      Trace.run_append_iff.2 ⟨_, hrun, hrun'⟩, fun l hl => ?_, ?_⟩
    · rcases List.mem_append.1 hl with hl | hl
      · exact htargets l hl
      · exact List.mem_singleton.1 hl ▸ htarget
    · rcases List.mem_append.1 hl with hl | hl
      · exact hcalls l hl
      · exact hcalls' l hl
    · rw [List.map_append, List.map_append, setKeys_append, setKeys_append, hkeys, hkeys']
      rfl

/-! ### What the caller sees -/

/-- **A get of the workload does not throw,** and returns the null pointer or the value of its
key. -/
theorem Run.result_of_get (hjson : Faithful B readJson) (hs : Suits value m maxmem)
    (h : Run B readJson (serverCache maxmem) log c) (hplays : ∀ l ∈ log, Plays value l.1)
    (hwires : ∀ l ∈ log, Wires value l.1) (hget : (.get key, seen) ∈ log) :
    seen = .got (.ok none) ∨ seen = .got (.ok (some (value key, sizeOfValue value key))) := by
  obtain ⟨pre, post, rfl⟩ := List.append_of_mem hget
  obtain ⟨d, hpre, hpost⟩ := Trace.run_append_iff.1 h
  obtain ⟨d', hstep, -⟩ := Trace.run_cons_iff.1 hpost
  obtain ⟨⟨reqs, hserves, htargets⟩, calls, hrun, hcalls, -⟩ :=
    Run.calls hpre (fun l hl => hplays l (List.mem_append_left _ hl))
      fun l hl => hwires l (List.mem_append_left _ hl)
  have hown := Cache.Run.holdsOwn hs hrun hcalls
  cases hstep with
  | get hgets =>
    obtain ⟨-, ⟨-, rfl⟩ | ⟨s, hentry, -, -, rfl⟩⟩ :=
      (gets_iff hjson (hserves.sent htargets)).1 hgets
    · exact Or.inl rfl
    · rcases hown key with hnone | hown
      · rw [hnone] at hentry
        cases hentry
      · rw [hown, Prod.mk.injEq] at hentry
        obtain rfl := stored_injective (Option.some.inj hentry.1)
        exact Or.inr rfl

/-- **The operations of a workload all return.** -/
theorem exists_run_of_plays (hjson : Faithful B readJson) (hs : Suits value m maxmem)
    (hint : m < 2 ^ 31) (hm : m ≤ maxmem.toNat) (todo : List Call)
    (hplays : ∀ call ∈ todo, Plays value call) (hwires : ∀ call ∈ todo, Wires value call) :
    ∃ log c, Run B readJson (serverCache maxmem) log c ∧ log.map Prod.fst = todo := by
  induction todo using List.reverseRecOn with
  | nil => exact ⟨[], _, .nil, rfl⟩
  | append_singleton todo call ih =>
    obtain ⟨log, c, hlog, hmap⟩ := ih (fun call hcall => hplays call (List.mem_append_left _ hcall))
      fun call hcall => hwires call (List.mem_append_left _ hcall)
    have hmem : ∀ l ∈ log, l.1 ∈ todo ++ [call] := fun l hl =>
      List.mem_append_left _ (hmap ▸ List.mem_map_of_mem hl)
    have hlogplays : ∀ l ∈ log, Plays value l.1 := fun l hl => hplays _ (hmem l hl)
    have hlogwires : ∀ l ∈ log, Wires value l.1 := fun l hl => hwires _ (hmem l hl)
    obtain ⟨⟨reqs, hserves, htargets⟩, calls, hrun, hcalls, -⟩ := hlog.calls hlogplays hlogwires
    have hplays' : Plays value call := hplays call (by simp)
    have hwires' : Wires value call := hwires call (by simp)
    suffices hstep : ∃ seen c', Step B readJson c (call, seen) c' by
      obtain ⟨seen, c', hstep⟩ := hstep
      exact ⟨_, c', .snoc hlog hstep, by rw [List.map_append, hmap, List.map_singleton]⟩
    cases call with
    | set key val size =>
      obtain ⟨rfl, rfl⟩ := hplays'
      obtain ⟨hkfree, hktarget, hvfree, hvtarget⟩ := hwires'
      have hlen := hs.length key
      obtain ⟨c', hput, -⟩ := Cache.exists_put B hserves (fun l hl => (htargets l hl).isCString)
        hkfree hvfree hvtarget.isCString (by omega) (by omega) 11 true
      exact ⟨_, c', .set ((sets_iff hvtarget.isCString).2 ⟨_, hput⟩)⟩
    | get key =>
      have hsent := hserves.sent htargets
      rcases Cache.Run.holdsOwn hs hrun hcalls key with hentry | hentry
      · have hdead : ¬c.Live key := fun hlive => hlive (congrArg Prod.fst hentry)
        exact ⟨_, _, .get ((gets_iff hjson hsent).2 ⟨rfl, Or.inl ⟨hdead, rfl⟩⟩)⟩
      · obtain ⟨hkfree, -, s, hsfree, -, hst, -⟩ := hsent key _ _ hentry
        obtain rfl := stored_injective hst
        exact ⟨_, _, .get ((gets_iff hjson hsent).2
          ⟨rfl, Or.inr ⟨value key, hentry, hkfree, hsfree, rfl⟩⟩)⟩
    | del key => exact hplays'.elim
    | reset => exact hplays'.elim

end Client
end CacheBench
