/-
# Warming the cache, and the whole benchmark

`Driver::warm` of `driver.cc` takes requests from the generator, sets only, until it has
made `size` sets; the benchmark warms the cache and then runs `baseline_latencies` on it.
Both are kept as the calls that they make, as in `CacheBench.Bench.Driver`.

The keys of the generator are distinct, so each key has one value, and no delete is ever
executed: the benchmark is a workload in the sense of `Cache.Plays`.  Whatever is drawn,
it comes to its end on a cache of 5001 bytes or more, every get returns nothing or the
value that the generator has for its key, and unless everything that was set fits into the
cache together, less than 5001 bytes of it are free (`benchmark_runs`).
-/

import CacheBench.Bench.Driver
import CacheBench.Bench.Keys
import CacheBench.Bench.Locality
import CacheBench.Store.Workload

namespace CacheBench
namespace Bench

/-- `Driver::warm` between two passes: its local, the generator, and the calls made. -/
structure Warming where
  sets : ℤ
  gen : Generator
  calls : List Call

/-- The body of the loop, once `gen_req` has returned. -/
def warmPass (b : Warming) (req : Request) (gen : Generator) : Warming :=
  if req.method = "set" then
    ⟨b.sets + 1, gen,
      b.calls ++ [.set req.key (valStr req) (UInt32.ofNat (req.valSize + 1))]⟩
  else { b with gen := gen }

/-- `while(sets < size)`, of which `k` passes are done. -/
def warmLoop (fuel : ℕ) (size : ℤ) (draws : ℕ → Draws) : ℕ → ℕ → Warming → Option Warming
  | 0, _, _ => none
  | passes + 1, k, b =>
    if b.sets < size then
      (b.gen.genReq fuel true (draws k)).bind fun (req, gen) =>
        warmLoop fuel size draws passes (k + 1) (warmPass b req gen)
    else some b

/-- `Driver::warm`. -/
def warm (fuel passes : ℕ) (g : Generator) (size : ℤ) (draws : ℕ → Draws) : Option Warming :=
  warmLoop fuel size draws passes 0 ⟨0, g, []⟩

/-- `warm(size)` and then `baseline_latencies`: the calls of the cache in order. -/
def benchmark (fuel passes : ℕ) (clock : ℕ → ℚ) (g : Generator) (size : ℤ)
    (draws : ℕ → Draws) (ws : List Draws) : Option (List Call) := do
  let b ← warm fuel passes g size draws
  let (l, _) ← baselineLatencies fuel clock b.gen ws
  return b.calls ++ calls l.trace

/-! ### The value of a key -/

/-- `n` times `'B'`. -/
def bytes (n : ℕ) : String := String.ofList (List.replicate n 'B')

/-- The value that the data have for a key. -/
def ownValue (data : List DataType) (k : KeyType) : String :=
  bytes (((data.lookup k).map Prod.fst).getD 0)

/-- The length of a value. -/
theorem length_bytes (n : ℕ) : (bytes n).length = n := by
  rw [bytes, ← String.length_toList, String.toList_ofList, List.length_replicate]

/-- All bytes of a value are the same. -/
theorem eq_of_mem_bytes {n : ℕ} {b : ByteType} (hb : b ∈ (bytes n).toList) : b = 'B' := by
  rw [bytes, String.toList_ofList] at hb
  exact List.eq_of_mem_replicate hb

/-- A value is a C string. -/
theorem isCString_bytes (n : ℕ) : IsCString (bytes n) :=
  fun hb => absurd (eq_of_mem_bytes hb) (by decide)

/-- The set of a tuple. -/
def setOf (e : DataType) : Call := .set e.1 (cString (bytes e.2.1)) (UInt32.ofNat (e.2.1 + 1))

/-- A get or a set of a tuple of the data. -/
def Asks (data : List DataType) (call : Call) : Prop :=
  ∃ e ∈ data, call = .get e.1 ∨ call = setOf e

/-- The generator that the constructor builds, from draws within their distributions, for a
size, a range and a shift that `int` has room for. -/
inductive Generator.Constructed : Generator → Prop
  | construct {log10 : ℕ → ℕ} {shuffle : List DataType → List DataType}
      {fuel localityRange : ℕ} {localityShift : ℚ} {size : ℤ} {sizeFactor : ℚ}
      {draws : ℕ → FillDraws} {g : Generator}
      (nonneg : 0 ≤ sizeFactor * size) (lt : sizeFactor * size < 2000000)
      (inRange : ∀ k, (draws k).InRange) (perm : ∀ data, (shuffle data).Perm data)
      (range : 1 ≤ localityRange) (shift : 0 < localityShift)
      (int : (localityRange / localityShift : ℚ) ≤ 2 ^ 31 - 1) :
      Bench.construct log10 shuffle fuel localityRange localityShift size sizeFactor draws =
        some g → Constructed g

/-- A generator as the constructor leaves it, or as `gen_req` does. -/
structure Generator.Prepared (g : Generator) : Prop where
  within : g.Within
  int : (g.localityRange / g.localityShift : ℚ) ≤ 2 ^ 31 - 1
  keys : (g.data.map Prod.fst).Nodup
  sizes : ∀ e ∈ g.data, e.2.1 ≤ 5000

variable {g g' : Generator} {fuel passes target : ℕ} {method : String} {req : Request}
variable {setOnly : Bool} {w : Draws} {maxmem : SizeType}

/-- The value of a key is that of its tuple. -/
theorem ownValue_of_mem (hkeys : (g.data.map Prod.fst).Nodup) {e : DataType} (he : e ∈ g.data) :
    ownValue g.data e.1 = bytes e.2.1 := by
  obtain ⟨pre, post, hdata⟩ := List.append_of_mem he
  have hlookup : g.data.lookup e.1 = some e.2 := by
    refine List.lookup_eq_some_iff.2 ⟨pre, post, hdata, fun p hp => ?_⟩
    rw [hdata, List.map_append, List.map_cons, List.nodup_append] at hkeys
    exact bne_iff_ne.2 fun heq => hkeys.2.2 p.1 (List.mem_map_of_mem hp) e.1 (by simp) heq.symm
  rw [ownValue, hlookup]
  rfl

/-- **The values suit a cache** that can count 5001 bytes more than its limit. -/
theorem Generator.Prepared.suits (h : g.Prepared) (hcount : maxmem.toNat + 5001 < 2 ^ 32) :
    Cache.Suits (ownValue g.data) 5001 maxmem := by
  refine ⟨fun k => isCString_bytes _, fun k => ?_, hcount⟩
  rw [ownValue, length_bytes]
  cases hlookup : g.data.lookup k with
  | none => simp
  | some e =>
    obtain ⟨pre, post, hdata, -⟩ := List.lookup_eq_some_iff.1 hlookup
    have hsize : e.1 ≤ 5000 := h.sizes (k, e) (by rw [hdata]; simp)
    show e.1 + 1 ≤ 5001
    omega

/-- Gets and sets of tuples are a workload. -/
theorem Asks.plays (hkeys : (g.data.map Prod.fst).Nodup) {call : Call} (h : Asks g.data call) :
    Cache.Plays (ownValue g.data) call := by
  obtain ⟨e, he, rfl | rfl⟩ := h
  · trivial
  · have hvalue := ownValue_of_mem hkeys he
    refine ⟨by rw [hvalue], ?_⟩
    rw [Cache.sizeOfValue, hvalue, length_bytes]

/-- A get that is asked for is of a tuple. -/
theorem Asks.exists_of_get (hkeys : (g.data.map Prod.fst).Nodup) {key : KeyType}
    (h : Asks g.data (.get key)) :
    ∃ valSize prob, (key, valSize, prob) ∈ g.data ∧ ownValue g.data key = bytes valSize := by
  obtain ⟨⟨k, valSize, prob⟩, he, heq | heq⟩ := h
  · obtain rfl := Call.get.inj heq
    exact ⟨valSize, prob, he, ownValue_of_mem hkeys he⟩
  · cases heq

/-! ### What `gen_req` returns -/

/-- A selection names a tuple of the data. -/
theorem mem_of_selectReq (h : g.selectReq fuel target method = some (req, g')) :
    req.method = method ∧ ∃ e ∈ g.data, req.key = e.1 ∧ req.valSize = e.2.1 := by
  simp only [Generator.selectReq, bind, pure, Option.bind_eq_some_iff, Option.some.injEq,
    Prod.mk.injEq] at h
  obtain ⟨_, -, j, -, _, -, e, he, rfl, -⟩ := h
  exact ⟨rfl, e, List.mem_of_getElem? he, rfl, rfl⟩

/-- What is not a delete names a tuple of the data. -/
theorem mem_of_genReq (h : g.genReq fuel setOnly w = some (req, g'))
    (hmethod : req.method ≠ "delete") : ∃ e ∈ g.data, req.key = e.1 ∧ req.valSize = e.2.1 := by
  unfold Generator.genReq at h
  split_ifs at h
  · exact (mem_of_selectReq h).2
  · exact (mem_of_selectReq h).2
  · obtain ⟨rfl, -⟩ := Prod.mk.inj (Option.some.inj h)
    exact absurd rfl hmethod
  · exact (mem_of_selectReq h).2
  · exact (mem_of_selectReq h).2

/-- What calls of `gen_req` leave as it is. -/
structure Generator.Alike (g g' : Generator) : Prop where
  data : g'.data = g.data
  maxTarget : g'.maxTarget = g.maxTarget

/-- Generators that are alike to one are alike. -/
theorem Generator.Alike.trans {g'' : Generator} (h : g.Alike g') (h' : g'.Alike g'') :
    g.Alike g'' :=
  ⟨h'.data.trans h.data, h'.maxTarget.trans h.maxTarget⟩

/-- **A prepared generator selects,** and stays prepared. -/
theorem Generator.Prepared.exists_selectReq (h : g.Prepared) (ht : target ≤ g.maxTarget)
    (method : String) : ∃ req g', g.selectReq g.data.length target method = some (req, g') ∧
      g'.Prepared ∧ g.Alike g' := by
  have hlt : g.currentLocality < 2 ^ 31 - 1 := by exact_mod_cast h.within.below.trans_le h.int
  obtain ⟨req, n, hreq⟩ := h.within.exists_selectReq (by omega) ht method
  exact ⟨req, _, hreq, ⟨h.within.advance (advance_of_selectReq hreq), h.int, h.keys, h.sizes⟩,
    rfl, rfl⟩

/-- So does every call of `gen_req`. -/
theorem Generator.Prepared.exists_genReq (h : g.Prepared) (hw : g.Allows w) (setOnly : Bool) :
    ∃ req g', g.genReq g.data.length setOnly w = some (req, g') ∧ g'.Prepared ∧ g.Alike g' := by
  unfold Generator.genReq
  split_ifs
  · exact h.exists_selectReq hw.target "set"
  · exact h.exists_selectReq hw.target "get"
  · exact ⟨_, g, rfl, h, rfl, rfl⟩
  · exact h.exists_selectReq hw.target "delete"
  · exact h.exists_selectReq hw.target "set"

/-! ### The two loops -/

/-- The driver sets the bytes that the generator has. -/
theorem valStr_eq (req : Request) : valStr req = cString (bytes req.valSize) := rfl

/-- **`warm` ends after `size` sets,** each of a tuple of the data. -/
theorem exists_warmLoop {size : ℤ} {draws : ℕ → Draws} {b : Warming} (hb : b.gen.Prepared)
    (hfuel : b.gen.data.length = fuel) (hdraws : ∀ k, b.gen.Allows (draws k))
    (hpasses : (size - b.sets).toNat < passes) (k : ℕ) :
    ∃ b', warmLoop fuel size draws passes k b = some b' ∧ b'.gen.Prepared ∧ b.gen.Alike b'.gen ∧
      ∃ sets, b'.calls = b.calls ++ sets ∧ sets.length = (size - b.sets).toNat ∧
        ∀ call ∈ sets, ∃ e ∈ b.gen.data, call = setOf e := by
  induction passes generalizing b k with
  | zero => omega
  | succ passes ih =>
    rw [warmLoop]
    by_cases hlt : b.sets < size
    · rw [if_pos hlt]
      obtain ⟨req, g', hreq, hg', hsame⟩ := hb.exists_selectReq (hdraws k).target "set"
      obtain ⟨hmethod, e, he, hkey, hsize⟩ := mem_of_selectReq hreq
      have hpass : warmPass b req g' = ⟨b.sets + 1, g', b.calls ++ [setOf e]⟩ := by
        rw [warmPass, if_pos hmethod, setOf, valStr_eq, hkey, hsize]
      have hbody : (b.gen.genReq fuel true (draws k)).bind (fun (req, gen) =>
          warmLoop fuel size draws passes (k + 1) (warmPass b req gen)) =
          warmLoop fuel size draws passes (k + 1) ⟨b.sets + 1, g', b.calls ++ [setOf e]⟩ := by
        rw [show b.gen.genReq fuel true (draws k) = some (req, g') from hfuel ▸ hreq, ← hpass]
        rfl
      obtain ⟨b', hb', hprep, hsame', sets, hcalls, hlen, hsets⟩ := @ih
        ⟨b.sets + 1, g', b.calls ++ [setOf e]⟩ hg' (by rw [hsame.data, hfuel])
        (fun j => (hdraws j).congr hsame.maxTarget)
        (by show (size - (b.sets + 1)).toNat < passes; omega) (k + 1)
      rw [hbody]
      refine ⟨b', hb', hprep, hsame.trans hsame', setOf e :: sets, ?_, ?_, ?_⟩
      · rw [hcalls]
        simp
      · rw [List.length_cons, hlen]
        show (size - (b.sets + 1)).toNat + 1 = _
        omega
      · intro call hcall
        rcases List.mem_cons.1 hcall with rfl | hcall
        · exact ⟨e, he, rfl⟩
        · exact hsame.data ▸ hsets call hcall
    · rw [if_neg hlt]
      refine ⟨b, rfl, hb, ⟨rfl, rfl⟩, [], (List.append_nil _).symm, ?_, by simp⟩
      show 0 = _
      omega

/-- One iteration of `baseline_latencies` asks for a tuple of the data, or makes no call. -/
theorem calls_iteration (clock : ℕ → ℚ) (b : Latencies)
    (h : g.genReq fuel false w = some (req, g')) :
    ∃ asked, calls (iteration clock b req).trace = calls b.trace ++ asked ∧
      ∀ call ∈ asked, Asks g.data call := by
  by_cases hw : w.IsDelete
  · obtain ⟨htrace, -⟩ := iteration_eq_of_delete clock b (genReq_method_of_isDelete h hw)
    exact ⟨[], by rw [htrace, List.append_nil], by simp⟩
  · have hmethod := genReq_method_of_not_isDelete h hw
    obtain ⟨span, htrace, -⟩ := iteration_eq_of_named clock b hmethod
    refine ⟨[named req], by rw [htrace, calls_append, calls_measured], fun call hcall => ?_⟩
    rw [List.mem_singleton.1 hcall, named]
    rcases hmethod with hget | hset
    · obtain ⟨e, he, hkey, -⟩ := mem_of_genReq h (by rw [hget]; decide)
      rw [if_pos hget, hkey]
      exact ⟨e, he, Or.inl rfl⟩
    · obtain ⟨e, he, hkey, hsize⟩ := mem_of_genReq h (by rw [hset]; decide)
      rw [if_neg (by rw [hset]; decide), if_pos hset, valStr_eq, hkey, hsize]
      exact ⟨e, he, Or.inr rfl⟩

/-- **`baseline_latencies` comes to its end,** and asks for tuples of the data only. -/
theorem exists_latencyLoop {clock : ℕ → ℚ} {ws : List Draws} {b : Latencies} (hg : g.Prepared)
    (hfuel : g.data.length = fuel) (hws : ∀ w ∈ ws, g.Allows w) :
    ∃ b' g', latencyLoop fuel clock g ws b = some (b', g') ∧
      ∃ asked, calls b'.trace = calls b.trace ++ asked ∧ ∀ call ∈ asked, Asks g.data call := by
  induction ws generalizing g b with
  | nil => exact ⟨b, g, rfl, [], (List.append_nil _).symm, by simp⟩
  | cons w ws ih =>
    obtain ⟨req, g₁, hreq, hg₁, hsame⟩ := hg.exists_genReq (hws w List.mem_cons_self) false
    rw [hfuel] at hreq
    obtain ⟨asked, hasked, hfirst⟩ := calls_iteration clock b hreq
    obtain ⟨b', g', hloop, rest, hrest, hall⟩ := @ih g₁ (iteration clock b req) hg₁
      (by rw [hsame.data, hfuel])
      fun w' hw' => (hws w' (List.mem_cons_of_mem _ hw')).congr hsame.maxTarget
    refine ⟨b', g', ?_, asked ++ rest, ?_, fun call hcall => ?_⟩
    · rw [latencyLoop, hreq]
      exact hloop
    · rw [hrest, hasked, List.append_assoc]
    · rcases List.mem_append.1 hcall with hcall | hcall
      · exact hfirst call hcall
      · exact hsame.data ▸ hall call hcall

/-! ### The whole benchmark -/

/-- **The constructor prepares a generator,** and builds its keys. -/
theorem Generator.Constructed.prepared (h : g.Constructed) :
    g.Prepared ∧ ∃ log10, ∀ e ∈ g.data, ∃ i keySize, e.1 = paddedKey log10 i keySize := by
  obtain @⟨log10, _, _, _, _, _, _, _, _, hlo, hhi, hdraws, hshuffle, hrange, hshift, hint, h⟩ := h
  obtain ⟨hvalid, hzero⟩ := construct_valid hlo hhi hdraws hshuffle hrange h
  obtain ⟨b, hb, rfl⟩ := Option.map_eq_some_iff.1 h
  obtain ⟨hsound, -⟩ := sound_of_fillLoop hlo hdraws hb
  obtain ⟨-, _, hrun⟩ := fillLoop_run hb
  have hperm := hshuffle b.data
  refine ⟨⟨hvalid.within hshift hzero, hint, ?_, fun e he => ?_⟩, log10, fun e he => ?_⟩
  · refine (hperm.map Prod.fst).nodup_iff.2 (List.Nodup.of_map keyNumber ?_)
    rw [List.map_map]
    exact (map_keyNumber_of_run hrun).symm ▸ List.nodup_range
  · exact (hsound.size e (hperm.mem_iff.1 he)).2
  · exact mem_data_of_run hrun e (hperm.mem_iff.1 he)

/-- **The calls of the benchmark:** as many sets as `warm` was asked for, and then gets and
sets, each of a tuple of the data. -/
theorem Generator.Prepared.exists_benchmark (h : g.Prepared) {n : ℤ} {draws : ℕ → Draws}
    {ws : List Draws} (clock : ℕ → ℚ) (hdraws : ∀ k, g.Allows (draws k))
    (hws : ∀ w ∈ ws, g.Allows w) (hpasses : n.toNat < passes) :
    ∃ sets asked, benchmark g.data.length passes clock g n draws ws = some (sets ++ asked) ∧
      sets.length = n.toNat ∧ (∀ call ∈ sets, ∃ e ∈ g.data, call = setOf e) ∧
      ∀ call ∈ sets ++ asked, Asks g.data call := by
  obtain ⟨b, hb, hprep, hsame, sets, hcalls, hlen, hsets⟩ :=
    @exists_warmLoop _ passes n draws ⟨0, g, []⟩ h rfl hdraws (by simpa using hpasses) 0
  obtain ⟨l, g', hloop, asked, htrace, hasked⟩ := @exists_latencyLoop b.gen _ clock ws .init hprep
    (congrArg List.length hsame.data) fun w hw => (hws w hw).congr hsame.maxTarget
  refine ⟨sets, asked, ?_, by simpa using hlen, hsets, fun call hcall => ?_⟩
  · have hwarm : warm g.data.length passes g n draws = some b := hb
    have hlat : baselineLatencies g.data.length clock b.gen ws = some (l, g') := hloop
    rw [benchmark, hwarm]
    show (do let (l, _) ← baselineLatencies g.data.length clock b.gen ws
             return b.calls ++ calls l.trace) = _
    rw [hlat, hcalls]
    exact congrArg (fun t => some (sets ++ t)) htrace
  · rcases List.mem_append.1 hcall with hcall | hcall
    · obtain ⟨e, he, rfl⟩ := hsets call hcall
      exact ⟨e, he, Or.inr rfl⟩
    · exact hsame.data ▸ hasked call hcall

/-- **The benchmark runs to its end, reads what it wrote, and fills the cache.**  For every
generator that the constructor builds and all draws within their distributions, on a new
cache of 5001 bytes or more, without an evictor or with a `FifoEvictor`: `warm` makes as many
sets as it was asked for and `baseline_latencies` comes to its end, every call of the two
returns, every get returns nothing or as many bytes as the generator has for its key, and
`space_used()` is the sum of the values of all keys that were set, or within 5001 bytes of
the limit where that sum is above it. -/
theorem benchmark_runs (hg : g.Constructed) (hfull : 5001 ≤ maxmem.toNat)
    (hcount : maxmem.toNat + 5001 < 2 ^ 32) (ev : Option FifoEvictor) (passes : ℕ) (n : ℤ)
    (draws : ℕ → Draws) (ws : List Draws) (clock : ℕ → ℚ)
    (hdraws : ∀ k, g.Allows (draws k)) (hws : ∀ w ∈ ws, g.Allows w) (hpasses : n.toNat < passes) :
    ∃ sets asked, benchmark g.data.length passes clock g n draws ws = some (sets ++ asked) ∧
      sets.length = n.toNat ∧ (∀ call ∈ sets, ∃ e ∈ g.data, call = setOf e) ∧
      ∃ log c, Cache.Run (Cache.new maxmem ev) log c ∧ log.map Prod.fst = sets ++ asked ∧
        (∀ key e, (.get key, .get e) ∈ log → e = (none, 0) ∨ ∃ valSize prob,
          (key, valSize, prob) ∈ g.data ∧
            e = (some (stored (bytes valSize)), UInt32.ofNat (valSize + 1))) ∧
        let sum := ∑ k ∈ Cache.setKeys (sets ++ asked), ((ownValue g.data k).length + 1)
        (sum ≤ maxmem.toNat → c.spaceUsed.toNat = sum) ∧
          (maxmem.toNat < sum →
            maxmem.toNat < c.spaceUsed.toNat + 5001 ∧ c.spaceUsed.toNat ≤ maxmem.toNat) := by
  have hprep := hg.prepared.1
  have hs := hprep.suits hcount
  obtain ⟨sets, asked, hbench, hlen, hsets, hasks⟩ :=
    hprep.exists_benchmark clock hdraws hws hpasses
  obtain ⟨log, c, hrun, hlog⟩ := Cache.exists_run_of_plays ev hs (by omega) hfull (sets ++ asked)
    fun call hcall => (hasks call hcall).plays hprep.keys
  have hmem : ∀ l ∈ log, Asks g.data l.1 := fun l hl =>
    hasks l.1 (hlog ▸ List.mem_map_of_mem hl)
  have hplays : ∀ l ∈ log, Cache.Plays (ownValue g.data) l.1 := fun l hl =>
    (hmem l hl).plays hprep.keys
  refine ⟨sets, asked, hbench, hlen, hsets, log, c, hrun, hlog, fun key e hget => ?_, ?_⟩
  · obtain ⟨valSize, prob, hpair, hvalue⟩ := (hmem _ hget).exists_of_get hprep.keys
    refine (Cache.Run.entry_of_get hs hrun hplays hget).imp_right fun he => ?_
    rw [Cache.sizeOfValue, hvalue, length_bytes] at he
    exact ⟨valSize, prob, hpair, he⟩
  · have hmax : c.maxmem = maxmem := Cache.Run.maxmem hrun
    have hexact := Cache.Run.exact_of_suits hs hrun hplays
    have hsettled := Cache.Run.settled hs hrun hplays
    rw [hlog] at hsettled
    subst hmax
    exact ⟨hsettled.size_eq, fun hover => ⟨hsettled.lt_size hover, hexact.size ▸ hexact.within⟩⟩

/-- A generator for five bytes. -/
theorem exists_constructed : ∃ g : Generator, g.Constructed := by
  have hdraws : (⟨43, 50, 0, 10, 0, 0⟩ : FillDraws).InRange := by
    constructor <;> norm_num [truncateInt]
  have hinit : Fill.init.Sound ((1 : ℚ) * (5 : ℤ)) := Fill.Sound.init (by norm_num)
  obtain ⟨b, hb⟩ : ∃ b, fillLoop (Nat.log 10) ((1 : ℚ) * (5 : ℤ))
      (fun _ => ⟨43, 50, 0, 10, 0, 0⟩) 1000001 .init = some b :=
    hinit.exists_fillLoop (by norm_num) (fun _ => hdraws) (Nat.zero_le _) (by simp [Fill.init])
  have hg : construct (Nat.log 10) id 1000001 100 (1 / 5) 5 1 (fun _ => ⟨43, 50, 0, 10, 0, 0⟩) =
      some ⟨b.data, b.totalProb, 100, 1 / 5, 0⟩ := construct_eq hb
  exact ⟨_, .construct (by norm_num) (by norm_num) (fun _ => hdraws) (fun data => .refl data)
    (by norm_num) (by norm_num) (by norm_num) hg⟩

/-- One set to warm a cache of 6000 bytes, and then a get and a set. -/
theorem benchmark_runs_five : ∃ g todo log c, Generator.Constructed g ∧
    benchmark g.data.length 2 (fun k => k) g 1 (fun _ => ⟨0, 0, 43, 0⟩)
      [⟨0, 0, 43, 0⟩, ⟨30, 0, 43, 0⟩] = some todo ∧
    Cache.Run (Cache.new 6000 (some FifoEvictor.new)) log c ∧ log.map Prod.fst = todo := by
  obtain ⟨g, hg⟩ := exists_constructed
  have hfull : 5001 ≤ (6000 : SizeType).toNat := by decide
  have hcount : (6000 : SizeType).toNat + 5001 < 2 ^ 32 := by decide
  have hallow : ∀ p, p ≤ 30 → g.Allows ⟨p, 0, 43, 0⟩ := fun p hp =>
    ⟨hp, Nat.zero_le _, Nat.zero_le _⟩
  obtain ⟨sets, asked, hbench, -, -, log, c, hrun, hlog, -⟩ :=
    benchmark_runs hg hfull hcount (some FifoEvictor.new) 2 1 (fun _ => ⟨0, 0, 43, 0⟩)
      [⟨0, 0, 43, 0⟩, ⟨30, 0, 43, 0⟩] (fun k => k) (fun _ => hallow 0 (by omega))
      (by simp [hallow]) (by decide)
  exact ⟨g, _, log, c, hg, hbench, hrun, hlog⟩

end Bench
end CacheBench
