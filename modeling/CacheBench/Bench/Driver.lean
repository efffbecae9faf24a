/-
# The benchmark driver

`Driver::baseline_latencies` of `driver.cc`: `nreq` times it takes a request from the
generator, makes the call that the request names between two readings of the clock, and
notes their difference.  The readings are a parameter, in milliseconds.  What the driver
does to the world is kept as a trace of the readings and the calls of the cache.

The generator names three methods, `"get"`, `"delete"` and `"set"`; the driver compares
with `"get"`, `"set"` and `"del"`.  So a delete is not executed, and its result is the
difference of two older readings.  The workload, which is what the generator returns for the
draws (`Generator.requests`), is executed as given exactly when none of its requests is a
delete (`baselineLatencies_executes_iff`).
-/

import CacheBench.Bench.Locality
import CacheBench.Store.Run

namespace CacheBench
namespace Bench

/-- A reading of `high_resolution_clock`, or a call of the cache. -/
inductive Event
  | now (t : ℚ)
  | call (c : Call)

/-- `baseline_latencies` between two iterations: its locals, how often it has read the
clock, and what it has done. -/
structure Latencies where
  t1 : ℚ
  t2 : ℚ
  results : List ℚ
  readings : ℕ
  trace : List Event

/-- Before the loop; a default-constructed `time_point` is the epoch. -/
def Latencies.init : Latencies := ⟨0, 0, [], 0, []⟩

/-- `t1 = now(); …; t2 = now();` around a call. -/
def Latencies.timed (clock : ℕ → ℚ) (b : Latencies) (c : Call) : Latencies :=
  let t1 := clock b.readings
  let t2 := clock (b.readings + 1)
  { b with
    t1 := t1
    t2 := t2
    readings := b.readings + 2
    trace := b.trace ++ [.now t1, .call c, .now t2] }

/-- `val_str.c_str()`, of `val_size_` times `'B'`. -/
def valStr (req : Request) : List ByteType :=
  cString (String.ofList (List.replicate req.valSize 'B'))

/-- The branch of the loop body that the method selects. -/
def dispatch (clock : ℕ → ℚ) (b : Latencies) (req : Request) : Latencies :=
  if req.method = "get" then b.timed clock (.get req.key)
  else if req.method = "set" then
    b.timed clock (.set req.key (valStr req) (UInt32.ofNat (req.valSize + 1)))
  else if req.method = "del" then b.timed clock (.del req.key)
  else b

/-- The loop body, once `gen_req` has returned. -/
def iteration (clock : ℕ → ℚ) (b : Latencies) (req : Request) : Latencies :=
  let b := dispatch clock b req
  { b with results := b.results ++ [b.t2 - b.t1] }

/-- The loop of `baseline_latencies`, one iteration for each list of draws. -/
def latencyLoop (fuel : ℕ) (clock : ℕ → ℚ) :
    Generator → List Draws → Latencies → Option (Latencies × Generator)
  | g, [], b => some (b, g)
  | g, w :: ws, b => (g.genReq fuel false w).bind fun (req, g) =>
      latencyLoop fuel clock g ws (iteration clock b req)

/-- `Driver::baseline_latencies`, for as many requests as there are draws. -/
def baselineLatencies (fuel : ℕ) (clock : ℕ → ℚ) (g : Generator) (ws : List Draws) :
    Option (Latencies × Generator) :=
  latencyLoop fuel clock g ws .init

/-! ### What it is for -/

/-- The requests that successive calls of `gen_req(false)` return, one for each list of
draws. -/
def Generator.requests (fuel : ℕ) : Generator → List Draws → Option (List Request × Generator)
  | g, [] => some ([], g)
  | g, w :: ws => (g.genReq fuel false w).bind fun (req, g) =>
      (requests fuel g ws).map fun (reqs, g) => (req :: reqs, g)

/-- The operation that a request names. -/
def named (req : Request) : Call :=
  if req.method = "get" then .get req.key
  else if req.method = "set" then .set req.key (valStr req) (UInt32.ofNat (req.valSize + 1))
  else .del req.key

/-- A call and the two readings around it. -/
def measured (req : Request) (span : ℚ × ℚ) : List Event :=
  [.now span.1, .call (named req), .now span.2]

/-- The requests are executed in turn, each between two readings that give its result, and
nothing else is done. -/
def Latencies.Executes (b : Latencies) (reqs : List Request) : Prop :=
  ∃ spans : List (ℚ × ℚ), spans.length = reqs.length ∧
    b.trace = (List.zipWith measured reqs spans).flatten ∧
    b.results = spans.map fun span => span.2 - span.1

/-- The method that is drawn. -/
def Draws.method (w : Draws) : String :=
  if w.p < 21 then "get" else if w.p < 30 then "delete" else "set"

/-- The draw of the method makes the request a delete. -/
def Draws.IsDelete (w : Draws) : Prop := 21 ≤ w.p ∧ w.p < 30

instance (w : Draws) : Decidable w.IsDelete := inferInstanceAs (Decidable (_ ∧ _))

/-- The calls of a trace. -/
def calls (trace : List Event) : List Call :=
  trace.filterMap fun
    | .now _ => none
    | .call c => some c

variable {fuel : ℕ} {clock : ℕ → ℚ} {g g' : Generator} {w : Draws} {ws : List Draws}
variable {b : Latencies} {req : Request} {reqs : List Request}

@[simp] theorem calls_nil : calls [] = [] := rfl

/-- The calls of a trace are those of its parts. -/
theorem calls_append (t t' : List Event) : calls (t ++ t') = calls t ++ calls t' :=
  List.filterMap_append ..

/-- One request makes one call. -/
theorem calls_measured (req : Request) (span : ℚ × ℚ) :
    calls (measured req span) = [named req] := rfl

/-! ### The methods -/

/-- One of three methods is drawn. -/
theorem Draws.method_cases (w : Draws) :
    w.method = "get" ∨ w.method = "set" ∨ w.method = "delete" := by
  unfold Draws.method
  split_ifs
  · exact .inl rfl
  · exact .inr (.inr rfl)
  · exact .inr (.inl rfl)

/-- A delete is drawn with 21 to 29. -/
theorem Draws.method_eq_delete_iff (w : Draws) : w.method = "delete" ↔ w.IsDelete := by
  unfold Draws.method Draws.IsDelete
  split_ifs
  · exact iff_of_false (by decide) (by omega)
  · exact iff_of_true rfl (by omega)
  · exact iff_of_false (by decide) (by omega)

/-- The methods that the generator names. -/
theorem genReq_method (h : g.genReq fuel false w = some (req, g')) : req.method = w.method := by
  have hsel : ∀ {target method}, g.selectReq fuel target method = some (req, g') →
      req.method = method := by
    intro target method hreq
    simp only [Generator.selectReq, bind, pure, Option.bind_eq_some_iff, Option.some.injEq,
      Prod.mk.injEq] at hreq
    obtain ⟨_, -, _, -, _, -, _, -, rfl, -⟩ := hreq
    rfl
  unfold Generator.genReq at h
  unfold Draws.method
  rw [if_neg Bool.false_ne_true] at h
  split_ifs at h with hget hdel hagain
  · rw [if_pos hget]
    exact hsel h
  · rw [if_neg hget, if_pos hdel]
    exact congrArg Request.method (Prod.mk.inj (Option.some.inj h)).1.symm
  · rw [if_neg hget, if_pos hdel]
    exact hsel h
  · rw [if_neg hget, if_neg hdel]
    exact hsel h

/-- The draw of a delete makes a delete. -/
theorem genReq_method_of_isDelete (h : g.genReq fuel false w = some (req, g'))
    (hw : w.IsDelete) : req.method = "delete" :=
  (genReq_method h).trans (w.method_eq_delete_iff.2 hw)

/-- Any other draw makes a get or a set. -/
theorem genReq_method_of_not_isDelete (h : g.genReq fuel false w = some (req, g'))
    (hw : ¬w.IsDelete) : req.method = "get" ∨ req.method = "set" := by
  rw [genReq_method h]
  rcases w.method_cases with hm | hm | hm
  · exact Or.inl hm
  · exact Or.inr hm
  · exact absurd (w.method_eq_delete_iff.1 hm) hw

/-! ### One iteration -/

/-- A get or a set is executed between two readings. -/
theorem iteration_eq_of_named (clock : ℕ → ℚ) (b : Latencies)
    (h : req.method = "get" ∨ req.method = "set") :
    ∃ span, (iteration clock b req).trace = b.trace ++ measured req span ∧
      (iteration clock b req).results = b.results ++ [span.2 - span.1] := by
  refine ⟨(clock b.readings, clock (b.readings + 1)), ?_⟩
  unfold iteration dispatch measured named
  rcases h with h | h
  · rw [if_pos h, if_pos h]
    exact ⟨rfl, rfl⟩
  · rw [if_neg (by rw [h]; decide), if_pos h, if_neg (by rw [h]; decide), if_pos h]
    exact ⟨rfl, rfl⟩

/-- **A delete is skipped,** and its result comes from the readings of an earlier request. -/
theorem iteration_eq_of_delete (clock : ℕ → ℚ) (b : Latencies) (h : req.method = "delete") :
    (iteration clock b req).trace = b.trace ∧
      (iteration clock b req).results = b.results ++ [b.t2 - b.t1] := by
  unfold iteration dispatch
  rw [if_neg (by rw [h]; decide), if_neg (by rw [h]; decide), if_neg (by rw [h]; decide)]
  exact ⟨rfl, rfl⟩

/-- One request more is executed. -/
theorem Latencies.Executes.iteration (hb : b.Executes reqs)
    (h : req.method = "get" ∨ req.method = "set") :
    (iteration clock b req).Executes (reqs ++ [req]) := by
  obtain ⟨spans, hlen, htrace, hresults⟩ := hb
  obtain ⟨span, htrace', hresults'⟩ := iteration_eq_of_named clock b h
  refine ⟨spans ++ [span], ?_, ?_, ?_⟩
  · rw [List.length_append, List.length_append, hlen]
    rfl
  · rw [htrace', htrace, List.zipWith_append hlen.symm, List.flatten_append]
    simp
  · rw [hresults', hresults, List.map_append]
    rfl

/-! ### The whole loop -/

/-- **The loop is a fold over the requests** that the generator returns. -/
theorem latencyLoop_eq (fuel : ℕ) (clock : ℕ → ℚ) (g : Generator) (ws : List Draws)
    (b : Latencies) : latencyLoop fuel clock g ws b =
      (g.requests fuel ws).map fun (reqs, g') => (reqs.foldl (iteration clock) b, g') := by
  induction ws generalizing g b with
  | nil => rfl
  | cons w ws ih =>
    rw [latencyLoop, Generator.requests]
    cases g.genReq fuel false w with
    | none => rfl
    | some p => simp only [Option.bind_some, ih, Option.map_map, Function.comp_def, List.foldl_cons]

/-- The requests have the methods that were drawn, one for each list of draws. -/
theorem requests_method (h : g.requests fuel ws = some (reqs, g')) :
    reqs.map Request.method = ws.map Draws.method := by
  induction ws generalizing g reqs with
  | nil =>
    obtain ⟨rfl, -⟩ := Prod.mk.inj (Option.some.inj h)
    rfl
  | cons w ws ih =>
    obtain ⟨⟨req, g₁⟩, hreq, hrest⟩ := Option.bind_eq_some_iff.1 h
    obtain ⟨⟨reqs', g₂⟩, hreqs, heq⟩ := Option.map_eq_some_iff.1 hrest
    obtain ⟨rfl, rfl⟩ := Prod.mk.inj heq
    rw [List.map_cons, List.map_cons, genReq_method hreq, ih hreqs]

/-- Gets and sets are executed one after the other. -/
theorem Latencies.Executes.foldl {done : List Request} (hb : b.Executes done)
    (hreqs : ∀ req ∈ reqs, req.method = "get" ∨ req.method = "set") :
    (reqs.foldl (Bench.iteration clock) b).Executes (done ++ reqs) := by
  induction reqs generalizing b done with
  | nil => rwa [List.append_nil]
  | cons req reqs ih =>
    have hone : (Bench.iteration clock b req).Executes (done ++ [req]) :=
      hb.iteration (hreqs req List.mem_cons_self)
    have hnext := ih hone fun req' hreq' => hreqs req' (List.mem_cons_of_mem _ hreq')
    rwa [List.append_assoc] at hnext

/-- **Each iteration makes one call, unless the request is a delete.** -/
theorem length_calls_foldl (b : Latencies)
    (hreqs : ∀ req ∈ reqs, req.method = "get" ∨ req.method = "set" ∨ req.method = "delete") :
    (calls (reqs.foldl (iteration clock) b).trace).length +
        reqs.countP (fun req => req.method = "delete") =
      (calls b.trace).length + reqs.length := by
  induction reqs generalizing b with
  | nil => rfl
  | cons req reqs ih =>
    have hrest := ih (iteration clock b req)
      fun req' hreq' => hreqs req' (List.mem_cons_of_mem _ hreq')
    rw [List.foldl_cons, List.length_cons]
    by_cases hdel : req.method = "delete"
    · rw [(iteration_eq_of_delete clock b hdel).1] at hrest
      rw [List.countP_cons_of_pos (by simpa using hdel)]
      omega
    · have hnamed : req.method = "get" ∨ req.method = "set" := by
        rcases hreqs req List.mem_cons_self with h | h | h
        · exact .inl h
        · exact .inr h
        · exact absurd h hdel
      obtain ⟨span, htrace, -⟩ := iteration_eq_of_named clock b hnamed
      rw [htrace, calls_append, calls_measured, List.length_append, List.length_singleton] at hrest
      rw [List.countP_cons_of_neg (by simpa using hdel)]
      omega

/-- As many calls as requests are made. -/
theorem length_calls_zipWith (reqs : List Request) (spans : List (ℚ × ℚ))
    (hlen : spans.length = reqs.length) :
    (calls (List.zipWith measured reqs spans).flatten).length = reqs.length := by
  induction reqs generalizing spans with
  | nil => rfl
  | cons req reqs ih =>
    rcases spans with _ | ⟨span, spans⟩
    · simp at hlen
    · rw [List.zipWith_cons_cons, List.flatten_cons, calls_append, calls_measured,
        List.length_append, ih spans (by simpa using hlen), List.length_singleton,
        List.length_cons, Nat.add_comm]

/-- **The loop executes its requests exactly when none is a delete.** -/
theorem executes_foldl_iff
    (hreqs : ∀ req ∈ reqs, req.method = "get" ∨ req.method = "set" ∨ req.method = "delete") :
    (reqs.foldl (iteration clock) .init).Executes reqs ↔
      ∀ req ∈ reqs, req.method ≠ "delete" := by
  constructor
  · rintro ⟨spans, hspans, htrace, -⟩ req hreq hdel
    have hcalls : (calls (reqs.foldl (iteration clock) .init).trace).length + _ = _ :=
      length_calls_foldl .init hreqs
    rw [htrace, length_calls_zipWith _ _ hspans] at hcalls
    have hpos : 0 < reqs.countP (fun req => req.method = "delete") :=
      List.countP_pos_iff.2 ⟨req, hreq, by simpa using hdel⟩
    simp only [Latencies.init, calls_nil, List.length_nil] at hcalls
    omega
  · intro hno
    have hinit : Latencies.init.Executes [] := ⟨[], rfl, rfl, rfl⟩
    exact hinit.foldl fun req hreq => by
      rcases hreqs req hreq with h | h | h
      · exact .inl h
      · exact .inr h
      · exact absurd h (hno req hreq)

/-- **A generator that is within its data returns a request for every list of draws.** -/
theorem Generator.Within.exists_requests (h : g.Within)
    (hint : (g.localityRange / g.localityShift : ℚ) ≤ 2 ^ 31 - 1)
    (hws : ∀ w ∈ ws, g.Allows w) :
    ∃ reqs g', g.requests g.data.length ws = some (reqs, g') := by
  induction ws generalizing g with
  | nil => exact ⟨[], g, rfl⟩
  | cons w ws ih =>
    obtain ⟨⟨req, g₁⟩, hreq⟩ := (h.safe hint).returns false w (hws w List.mem_cons_self)
    have hstep : g.Step (false, w, req) g₁ := ⟨hws w List.mem_cons_self, _, hreq⟩
    obtain ⟨n, rfl⟩ := Run.same (Trace.run_singleton_iff.2 hstep)
    obtain ⟨reqs, g', hreqs⟩ := ih (h.run (Trace.run_singleton_iff.2 hstep)) hint
      fun w' hw' => (hws w' (List.mem_cons_of_mem _ hw')).congr rfl
    refine ⟨req :: reqs, g', ?_⟩
    rw [requests, hreq, Option.bind_some]
    exact congrArg (Option.map _) hreqs

/-- **The benchmark executes its workload exactly when nothing is to be deleted.**  For
every generator, every sequence of draws and every clock: if `gen_req` returns, call after
call, as many requests as there are draws, then `baseline_latencies` returns, and it has
executed these requests, each in turn and with its own time as its result, if and only if no
draw makes one a delete.  `gen_req` does return them from a generator whose counter is within
the data, for all draws within their distributions. -/
theorem baselineLatencies_executes_iff (clock : ℕ → ℚ) (g : Generator) (ws : List Draws) :
    (∀ fuel reqs g', g.requests fuel ws = some (reqs, g') → reqs.length = ws.length ∧
      ∃ b, baselineLatencies fuel clock g ws = some (b, g') ∧
        (b.Executes reqs ↔ ∀ w ∈ ws, ¬w.IsDelete)) ∧
    (g.Within → (g.localityRange / g.localityShift : ℚ) ≤ 2 ^ 31 - 1 → (∀ w ∈ ws, g.Allows w) →
      ∃ reqs g', g.requests g.data.length ws = some (reqs, g')) := by
  refine ⟨fun fuel reqs g' h => ?_, Generator.Within.exists_requests⟩
  have hmethods := requests_method h
  have hlen : reqs.length = ws.length := by simpa using congrArg List.length hmethods
  have hdel : (∀ req ∈ reqs, req.method ≠ "delete") ↔ ∀ w ∈ ws, ¬w.IsDelete := by
    have hmap : (∀ m ∈ reqs.map Request.method, m ≠ "delete") ↔
        ∀ m ∈ ws.map Draws.method, m ≠ "delete" := by rw [hmethods]
    simpa only [List.forall_mem_map, Draws.method_eq_delete_iff, ne_eq] using hmap
  have hnamed : ∀ req ∈ reqs, req.method = "get" ∨ req.method = "set" ∨
      req.method = "delete" := by
    intro req hreq
    have hmem : req.method ∈ ws.map Draws.method := hmethods ▸ List.mem_map_of_mem hreq
    obtain ⟨w, -, hw⟩ := List.mem_map.1 hmem
    exact hw ▸ w.method_cases
  refine ⟨hlen, reqs.foldl (iteration clock) .init, ?_, (executes_foldl_iff hnamed).trans hdel⟩
  rw [baselineLatencies, latencyLoop_eq, h]
  rfl

/-- A get and a set from a generator of one tuple, with a clock that ticks once a
reading. -/
theorem baselineLatencies_executes_iff_two :
    let g : Generator := ⟨[("a", 2, 3)], 3, 1, 1 / 5, 0⟩
    let ws : List Draws := [⟨0, 0, 0, 0⟩, ⟨30, 0, 0, 3⟩]
    ∃ reqs g' b, g.requests 1 ws = some (reqs, g') ∧ reqs.length = 2 ∧
      baselineLatencies 1 (fun k => k) g ws = some (b, g') ∧ b.Executes reqs := by
  intro g ws
  obtain ⟨hexec, hreturns⟩ := baselineLatencies_executes_iff (fun k => k) g ws
  have hvalid : g.Valid := ⟨by simp [g], by decide, by decide, by decide⟩
  have hallows : ∀ w ∈ ws, g.Allows w := by
    have hmax : g.maxTarget = 3 := by decide
    intro w hw
    rcases List.mem_pair.1 hw with rfl | rfl
    · exact ⟨by decide, by decide, by rw [hmax]; decide⟩
    · exact ⟨by decide, by decide, by rw [hmax]⟩
  obtain ⟨reqs, g', hreqs⟩ := hreturns (hvalid.within (by norm_num [g]) rfl) (by norm_num [g])
    hallows
  obtain ⟨hlen, b, hb, hiff⟩ := hexec 1 reqs g' hreqs
  exact ⟨reqs, g', b, hreqs, hlen, hb, hiff.2 (by unfold Draws.IsDelete; decide)⟩

/-- **One delete, and no call:** `gen_req` returns a delete, the driver makes no call and
records the time 0 of two clocks that it has not read. -/
theorem baselineLatencies_skips_delete :
    let g : Generator := ⟨[("a", 2, 3)], 3, 1, 1 / 5, 0⟩
    ∃ req b g', g.requests 1 [⟨21, 0, 43, 0⟩] = some ([req], g') ∧ req.method = "delete" ∧
      baselineLatencies 1 (fun k => k) g [⟨21, 0, 43, 0⟩] = some (b, g') ∧ calls b.trace = [] ∧
      b.results = [0] ∧ ¬b.Executes [req] := by
  intro g
  obtain ⟨req, b, g', hreqs, hmethod, h, hcalls, hresults⟩ : ∃ req b g',
      g.requests 1 [⟨21, 0, 43, 0⟩] = some ([req], g') ∧ req.method = "delete" ∧
      baselineLatencies 1 (fun k => k) g [⟨21, 0, 43, 0⟩] = some (b, g') ∧ calls b.trace = [] ∧
      b.results = [0] :=
    ⟨_, _, _, rfl, rfl, rfl, rfl, congrArg (fun t => [t]) (sub_self (0 : ℚ))⟩
  refine ⟨req, b, g', hreqs, hmethod, h, hcalls, hresults, fun ⟨spans, hspans, htrace, _⟩ => ?_⟩
  have hone := length_calls_zipWith [req] spans hspans
  rw [← htrace, hcalls] at hone
  cases hone

end Bench
end CacheBench
