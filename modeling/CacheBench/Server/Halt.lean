/-
# What can stop the server

A request is answered, or it leaves the server in an exception, or it never ends, and for all
but the longest values which of the three is seen from the request and `maxmem` alone: looking
into an empty target throws, and a PUT does not end whose value has no room in `maxmem` even by
itself.  A value of 2³¹ characters or more is beyond the `int` that `set` counts with: its loop
runs for ever or its copy is not defined, and the second where it fits.  So the one thread of
the server goes on with what comes next exactly when it is none of these (`Service.fate`).

When it does not, nothing moves any more but the clients (`Service.halted`): one PUT on one
connection is enough to end the service for all of them (`Service.hangs_for_good`).
-/

import CacheBench.Server.Lossy

namespace CacheBench

/-- `handle_request` looks into a target that is empty. -/
def Request.Throws (req : Request) : Prop :=
  (req.method = .get ∨ req.method = .put ∨ req.method = .delete) ∧ req.target = ""

/-- A PUT of a value of `n` characters. -/
def Request.Puts (req : Request) (n : ℕ) : Prop :=
  req.method = .put ∧ ∃ line, substr1 req.target = .ok line ∧ (putPair line).2.length = n

/-- A PUT of a value that with its terminator exceeds the memory, without a sum of the two that
wraps. -/
def Request.Overfills (maxmem : SizeType) (req : Request) : Prop :=
  ∃ n, req.Puts n ∧ maxmem.toNat < n + 1 ∧ maxmem.toNat + (n + 1) < 2 ^ 32

/-- A PUT of a value that is too long for an `int`. -/
def Request.TooLong (req : Request) : Prop := ∃ n, req.Puts n ∧ 2 ^ 31 ≤ n

/-- A PUT of a value that with its terminator is within the memory. -/
def Request.Fits (maxmem : SizeType) (req : Request) : Prop :=
  ∃ n, req.Puts n ∧ n + 1 ≤ maxmem.toNat

/-- A PUT puts one value. -/
theorem Request.Puts.unique {req : Request} {m n : ℕ} (h : req.Puts m) (h' : req.Puts n) :
    m = n := by
  obtain ⟨-, line, hline, rfl⟩ := h
  obtain ⟨-, line', hline', rfl⟩ := h'
  rw [Except.ok.inj (hline.symm.trans hline')]

/-- What is not too long and does not overfill fits. -/
theorem Request.Puts.fits_iff {req : Request} {n : ℕ} (h : req.Puts n) (maxmem : SizeType) :
    n + 1 ≤ maxmem.toNat ∧ n < 2 ^ 31 ↔ ¬req.Overfills maxmem ∧ ¬req.TooLong := by
  constructor
  · rintro ⟨hfit, hlt⟩
    constructor
    · rintro ⟨m, hm, hover, -⟩
      obtain rfl := h.unique hm
      omega
    · rintro ⟨m, hm, hlong⟩
      obtain rfl := h.unique hm
      omega
  · rintro ⟨hover, hlong⟩
    have hlt : n < 2 ^ 31 := not_le.1 fun hle => hlong ⟨n, h, hle⟩
    refine ⟨not_lt.1 fun hbig => hover ⟨n, h, hbig, ?_⟩, hlt⟩
    omega

/-- `substr(1)` throws on the empty string only. -/
theorem substr1_eq_error_iff {target : String} {e : Thrown} :
    substr1 target = .error e ↔ target = "" := by
  constructor
  · intro h
    unfold substr1 at h
    cases htarget : target.toList with
    | nil => simpa using htarget
    | cons b rest =>
      rw [htarget] at h
      cases h
  · rintro rfl
    cases e
    rfl

section
variable {B : Boost} {c d : Cache FifoEvictor} {req : Request}

/-- **Exactly the empty targets throw.** -/
theorem Handles.throws_iff {ε : Type} [Evictor ε] {c : Cache ε} {req : Request} :
    (∃ e d, Handles B c req (.error e) d) ↔ req.Throws := by
  constructor
  · rintro ⟨e, d, h⟩
    generalize hout : Except.error e = out at h
    cases h.served with
    | throws hmethod he => exact ⟨hmethod, substr1_eq_error_iff.1 he⟩
    | _ => cases hout
  · rintro ⟨hmethod, htarget⟩
    exact ⟨.outOfRange, c, (Served.throws hmethod (substr1_eq_error_iff.2 htarget)).handles⟩

/-- **A string that exceeds the memory makes the loop run for ever:** with everything evicted
the test still fails. -/
theorem Cache.Kept.setLoops (h : c.Kept) {n : ℕ} (hover : c.maxmem.toNat < n + 1)
    (hwrap : c.maxmem.toNat + (n + 1) < 2 ^ 32) (key : String) :
    c.SetLoops key (UInt32.ofNat (n + 1)) := by
  have hsize : (UInt32.ofNat (n + 1)).toNat = n + 1 :=
    UInt32.toNat_ofNat_of_lt' (show n + 1 < 2 ^ 32 by omega)
  have hqueue : (c.del key).2.queue = c.queue := queue_congr (del_snd_evictor c key)
  refine setLoops_iff.2 ⟨h.queued.isSome, fun m hm => ?_⟩
  have hle : m ≤ c.queue.length := hqueue ▸ (h.queued.del key).exits_le hm
  have hfree := (exits_iff_freesRoom h.queued.isSome hle).1 hm
  obtain ⟨-, henough, -⟩ := ((h.exact (by omega)).freesRoom_iff (by omega)).1 hfree
  omega

/-- A string within the memory lets it end. -/
theorem Cache.Kept.not_setLoops (h : c.Kept) {n : ℕ} (hfit : n + 1 ≤ c.maxmem.toNat)
    (key : String) : ¬c.SetLoops key (UInt32.ofNat (n + 1)) := by
  have hsize := toNat_put_size hfit
  have hle : UInt32.ofNat (n + 1) ≤ (c.del key).2.maxmem := by
    rwa [UInt32.le_iff_toNat_le, hsize, del_snd_maxmem]
  intro hloops
  obtain ⟨m, -, hm⟩ := (h.queued.del key).exists_exits (h.tallied.del key) hle
  exact (setLoops_iff.1 hloops).2 m hm

/-- **A set of a string comes back exactly when the string fits,** by itself. -/
theorem Cache.Kept.exists_set_iff (h : c.Kept) {s : String} (hs : IsCString s) (key : String) :
    (∃ r d, c.SetReturns key (cString s) (UInt32.ofNat (s.length + 1)) r d) ↔
      s.length + 1 ≤ c.maxmem.toNat ∧ s.length < 2 ^ 31 := by
  constructor
  · rintro ⟨r, d, hset⟩
    have hlt := h.queued.length_lt hs hset
    refine ⟨not_lt.1 fun hover => ?_, hlt⟩
    exact (h.setLoops hover (by omega) key).not_setReturns hset
  · rintro ⟨hfit, hlt⟩
    have hsize := toNat_copied_size hlt
    obtain ⟨n, -, hset⟩ := h.queued.exists_set h.tallied hs hsize
      (by rw [UInt32.le_iff_toNat_le, hsize]; exact hfit) hlt key
    exact ⟨_, _, hset⟩

/-- A request that puts a value does not throw. -/
theorem Request.Puts.not_throws {n : ℕ} (h : req.Puts n) : ¬req.Throws := by
  rintro ⟨-, hempty⟩
  obtain ⟨-, line, hline, -⟩ := h
  have herror : substr1 req.target = .error .outOfRange := substr1_eq_error_iff.2 hempty
  rw [herror] at hline
  cases hline

/-- **Every request is answered** but those that throw, those that overfill and those that are
too long. -/
theorem Cache.Kept.exists_reply_iff (h : c.Kept) (hnul : IsCString req.target) :
    (∃ res d, Handles B c req (.ok res) d) ↔
      ¬req.Throws ∧ ¬req.Overfills c.maxmem ∧ ¬req.TooLong := by
  have hset : ∀ {line}, req.method = .put → substr1 req.target = .ok line → ((∃ r d,
      (c.get (putPair line).1).2.SetReturns (putPair line).1 (cString (putPair line).2)
        (UInt32.ofNat ((putPair line).2.length + 1)) r d) ↔
      ¬req.Overfills c.maxmem ∧ ¬req.TooLong) := by
    intro line hput hline
    have hputs : req.Puts (putPair line).2.length := ⟨hput, line, hline, rfl⟩
    rw [← hputs.fits_iff c.maxmem]
    refine (h.get (putPair line).1).exists_set_iff (fun hmem => ?_) (putPair line).1
    exact hnul (substr1_subset hline nul ((putPair_subset line).2 nul hmem))
  constructor
  · rintro ⟨res, d, hreq⟩
    refine ⟨fun hthrows => ?_, ?_⟩
    · obtain ⟨e, d', herror⟩ := (Handles.throws_iff (B := B) (c := c)).2 hthrows
      cases (hreq.deterministic herror).1
    · by_cases hput : req.method = .put
      · generalize hout : Except.ok res = out at hreq
        cases hreq.served with
        | throws => cases hout
        | put _ hline' hset' => exact (hset hput hline').1 ⟨_, _, hset'⟩
        | getMissing hm | getFound hm | deleteMissing hm | deleteFound hm | head hm
        | postOther hm | postReset hm | unknown hm => cases hm.symm.trans hput
      · exact ⟨fun ⟨_, hputs, _⟩ => hput hputs.1, fun ⟨_, hputs, _⟩ => hput hputs.1⟩
  · rintro ⟨hthrows, hfit⟩
    have hok : req.method = .get ∨ req.method = .put ∨ req.method = .delete →
        ∃ line, substr1 req.target = .ok line := by
      intro hmethod
      cases hline : substr1 req.target with
      | error e => exact absurd ⟨hmethod, substr1_eq_error_iff.1 hline⟩ hthrows
      | ok line => exact ⟨line, rfl⟩
    cases hmethod : req.method with
    | get =>
      obtain ⟨key, hkey⟩ := hok (Or.inl hmethod)
      rcases h.entry_cases key with ⟨s, n, hentry, -, hcontents⟩ | ⟨hentry, -⟩
      · rw [contents, hentry] at hcontents
        have hp : (c.entry key).1 = some (stored s) := by rw [hentry]
        have hheld : heldValue (stored s) (c.entry key).2 = some s := by
          rw [hentry]
          exact hcontents
        exact ⟨_, _, (Served.getFound hmethod hkey hp hheld).handles⟩
      · exact ⟨_, _, (Served.getMissing hmethod hkey (by rw [hentry])).handles⟩
    | put =>
      obtain ⟨line, hline⟩ := hok (Or.inr (Or.inl hmethod))
      obtain ⟨r, d, hset⟩ := (hset hmethod hline).2 hfit
      exact ⟨_, _, (Served.put hmethod hline hset).handles⟩
    | delete =>
      obtain ⟨key, hkey⟩ := hok (Or.inr (Or.inr hmethod))
      by_cases hlookup : c.dict.lookup key = none
      · exact ⟨_, _, (Served.deleteMissing hmethod hkey hlookup).handles⟩
      · exact ⟨_, _, (Served.deleteFound hmethod hkey hlookup).handles⟩
    | head => exact ⟨_, _, (Served.head hmethod rfl).handles⟩
    | post =>
      by_cases htarget : req.target = "/reset"
      · exact ⟨_, _, (Served.postReset hmethod htarget).handles⟩
      · exact ⟨_, _, (Served.postOther hmethod htarget).handles⟩
    | other => exact ⟨_, _, (Served.unknown hmethod).handles⟩

/-- **A PUT that overfills never ends.** -/
theorem Cache.Kept.hangs_of_overfills (h : c.Kept) (hover : req.Overfills c.maxmem) :
    Hangs c req := by
  obtain ⟨n, ⟨hput, line, hline, rfl⟩, hbig, hwrap⟩ := hover
  exact ⟨hput, line, hline, (h.get (putPair line).1).setLoops hbig hwrap (putPair line).1⟩

/-- A PUT that fits does not go on for ever. -/
theorem Cache.Kept.not_hangs_of_fits (h : c.Kept) (hfit : req.Fits c.maxmem) : ¬Hangs c req := by
  obtain ⟨n, ⟨-, line, hline, rfl⟩, hle⟩ := hfit
  rintro ⟨-, line', hline', hloops⟩
  obtain rfl := Except.ok.inj (hline.symm.trans hline')
  exact (h.get (putPair line).1).not_setLoops hle (putPair line).1 hloops

/-- **Exactly the PUTs that overfill never end,** where none is too long. -/
theorem Cache.Kept.hangs_iff (h : c.Kept) (hlong : ¬req.TooLong) :
    Hangs c req ↔ req.Overfills c.maxmem := by
  refine ⟨fun hhangs => ?_, h.hangs_of_overfills⟩
  by_contra hover
  obtain ⟨hput, line, hline, hloops⟩ := hhangs
  have hputs : req.Puts (putPair line).2.length := ⟨hput, line, hline, rfl⟩
  exact h.not_hangs_of_fits ⟨_, hputs, ((hputs.fits_iff c.maxmem).2 ⟨hover, hlong⟩).1⟩
    ⟨hput, line, hline, hloops⟩

/-- **A request has no outcome** exactly when it is a PUT that overfills or is too long. -/
theorem Cache.Kept.no_outcome_iff (h : c.Kept) (hnul : IsCString req.target) :
    (∀ out d, ¬Handles B c req out d) ↔ req.Overfills c.maxmem ∨ req.TooLong := by
  constructor
  · intro hnone
    by_contra hnot
    rw [not_or] at hnot
    have hthrows : ¬req.Throws := by
      intro hthrows
      obtain ⟨e, d, herror⟩ := (Handles.throws_iff (B := B) (c := c)).2 hthrows
      exact hnone _ _ herror
    obtain ⟨res, d, hreq⟩ := (h.exists_reply_iff hnul).2 ⟨hthrows, hnot⟩
    exact hnone _ _ hreq
  · rintro (hover | hlong) out d hreq
    · exact (h.hangs_of_overfills hover).not_handles hreq
    · cases out with
      | error e =>
        obtain ⟨n, hputs, -⟩ := hlong
        exact hputs.not_throws (Handles.throws_iff.1 ⟨e, d, hreq⟩)
      | ok res => exact ((h.exists_reply_iff hnul).1 ⟨res, d, hreq⟩).2.2 hlong

/-- **What is not defined** is a PUT that is too long and whose loop ends. -/
theorem Cache.Kept.undefined_iff (h : c.Kept) (hnul : IsCString req.target) :
    Fails B c req .undefined ↔ req.TooLong ∧ ¬Hangs c req := by
  constructor
  · rintro ⟨hnone, hhangs⟩
    refine ⟨((h.no_outcome_iff hnul).1 hnone).resolve_left fun hover => ?_, hhangs⟩
    exact hhangs (h.hangs_of_overfills hover)
  · rintro ⟨hlong, hhangs⟩
    exact ⟨(h.no_outcome_iff hnul).2 (Or.inr hlong), hhangs⟩

end

namespace Service

variable {B : Boost} {parse : List ByteType → Request} {maxmem : SizeType}
variable {y y' : Service FifoEvictor} {l : Happening} {ls : List Happening}

/-- The cache of the server is always one that strings are kept in. -/
theorem kept {buffer : RecvBuffer} {endpoint : Endpoint}
    (h : Run B parse (start buffer endpoint (serverCache maxmem)) ls y)
    (hnul : ∀ l ∈ order ls, IsCString l.2.1.target) : y.cache.Kept ∧ y.cache.maxmem = maxmem := by
  refine kept_of_replies (run_order h) fun l hl => ?_
  obtain ⟨l', hl', rfl⟩ := List.mem_map.1 hl
  exact hnul l' hl'

/-- The next request on a connection can fail so exactly when `handle_request` fails so on
it. -/
theorem exists_failed_iff {ε : Type} [Evictor ε] {y : Service ε} {c : ℕ} {x : Connection}
    {req : Request} (f : Failure) (hio : y.io = .running) (hx : y.connections[c]? = some x)
    (hnext : x.head? = some req) :
    (∃ y', Step B parse y (.failed f (.session c) req) y') ↔ Fails B y.cache req f := by
  constructor
  · rintro ⟨y', hstep⟩
    cases hstep with
    | failed _ _ hfails => exact hfails
  · intro hfails
    unfold Connection.head? at hnext
    split_ifs at hnext with hread
    obtain ⟨rest, hin⟩ := List.head?_eq_some_iff.1 hnext
    exact ⟨_, .failed hio (.session hx hread hin) hfails⟩

/-- And be answered exactly when it has an answer. -/
theorem exists_handled_iff {ε : Type} [Evictor ε] {y : Service ε} {c : ℕ} {x : Connection}
    {req : Request} (hio : y.io = .running) (hx : y.connections[c]? = some x)
    (hnext : x.head? = some req) :
    (∃ k res y', Step B parse y (.tcp c (.handled k req res)) y') ↔
      ∃ res d, Handles B y.cache req (.ok res) d := by
  constructor
  · rintro ⟨k, res, y', hstep⟩
    cases hstep with
    | tcp _ _ hmove =>
      rcases hmove.wire_cases with ⟨_, heq, -⟩ | ⟨_, _, _, heq, -, hhandles, -⟩ |
        ⟨_, _, heq, -⟩ | ⟨⟨-, hnone, -⟩, -⟩
      · cases heq
      · obtain ⟨-, rfl, rfl⟩ := Move.handled.inj heq
        exact ⟨_, _, hhandles⟩
      · cases heq
      · cases hnone
  · rintro ⟨res, d, hhandles⟩
    unfold Connection.head? at hnext
    split_ifs at hnext with hread
    obtain ⟨rest, hin⟩ := List.head?_eq_some_iff.1 hnext
    exact ⟨_, res, _, .tcp (Or.inr hio) hx (.of_handles hread hin hhandles)⟩

/-- **What becomes of the next request.**  Wherever a run of the server has come to, while it
runs: a request that is the next on some connection whose session reads is answered, unless it
looks into an empty target or is a PUT that overfills or is too long.  In the first case the
exception leaves the server, in the second the callback does not return.  In the third it does
not return or what it does is not defined, and which of these depends on what the cache holds
only where the value and `maxmem` together wrap. -/
theorem fate {buffer : RecvBuffer} {endpoint : Endpoint} {c : ℕ} {x : Connection} {req : Request}
    (h : Run B parse (start buffer endpoint (serverCache maxmem)) ls y)
    (hnul : ∀ l ∈ order ls, IsCString l.2.1.target) (hio : y.io = .running)
    (hx : y.connections[c]? = some x) (hnext : x.head? = some req) (hreq : IsCString req.target) :
    let Failing f := ∃ y', Step B parse y (.failed f (.session c) req) y'
    ((∃ k res y', Step B parse y (.tcp c (.handled k req res)) y') ↔
        ¬req.Throws ∧ ¬req.Overfills maxmem ∧ ¬req.TooLong) ∧
      (Failing .threw ↔ req.Throws) ∧
      (¬req.TooLong → (Failing .hung ↔ req.Overfills maxmem) ∧ ¬Failing .undefined) ∧
      (req.TooLong → (Failing .undefined ↔ ¬Failing .hung) ∧
        (req.Overfills maxmem → Failing .hung) ∧ (req.Fits maxmem → Failing .undefined)) := by
  obtain ⟨hkept, rfl⟩ := kept h hnul
  have hundefined := hkept.undefined_iff (B := B) hreq
  have hfailed : ∀ f, (∃ y', Step B parse y (.failed f (.session c) req) y') ↔
      Fails B y.cache req f := fun f => exists_failed_iff f hio hx hnext
  intro Failing
  have hhung : Failing .hung ↔ Hangs y.cache req := hfailed .hung
  refine ⟨?_, ?_, fun hlong => ⟨?_, fun hfail => ?_⟩, fun hlong => ⟨?_, fun hover => ?_,
    fun hfit => ?_⟩⟩
  · rw [exists_handled_iff hio hx hnext, hkept.exists_reply_iff hreq]
  · exact (hfailed .threw).trans Handles.throws_iff
  · rw [hhung, hkept.hangs_iff hlong]
  · exact hlong (hundefined.1 ((hfailed .undefined).1 hfail)).1
  · rw [hhung]
    exact ((hfailed .undefined).trans hundefined).trans (and_iff_right hlong)
  · exact hhung.2 (hkept.hangs_of_overfills hover)
  · exact (hfailed .undefined).2 (hundefined.2 ⟨hlong, hkept.not_hangs_of_fits hfit⟩)

/-- The next request after a PUT and a GET is another GET, which is answered. -/
theorem fate_putThenGet : ∃ ls y y' k res,
    Run plainBoost (fun _ => ⟨.head, "/", 11, true⟩) (start (.replicate nul) "" (serverCache 30))
      ls y ∧ Step plainBoost (fun _ => ⟨.head, "/", 11, true⟩) y
        (.tcp 0 (.handled k ⟨.get, "/a", 11, true⟩ res)) y' := by
  obtain ⟨put, get, y, x, -, -, hrun, hio, hx, hrest⟩ := run_putThenGet
  have hget : y.connections[0]? = some x := by rw [hx]; rfl
  have hsent := run_of_connection (fun _ => ⟨.head, "/", 11, true⟩) (Trace.run_singleton_iff.2
    (.sent (B := plainBoost) (c := y.cache) (x := x) ⟨.get, "/a", 11, true⟩)) hio hget
  have hrun' := Trace.run_append_iff.2 ⟨y, hrun, hsent⟩
  have hlt := (List.getElem?_eq_some_iff.1 hget).1
  have hthrows : ¬Request.Throws ⟨.get, "/a", 11, true⟩ := fun h => absurd h.2 (by decide)
  have hputs : ∀ n, ¬Request.Puts ⟨.get, "/a", 11, true⟩ n := fun n h => absurd h.1 (by decide)
  obtain ⟨k, res, y', hstep⟩ := (fate hrun' (isCString_putThenGet put get) hio
    (List.getElem?_set_self hlt) (by simp [Connection.head?, hrest.pending, hrest.inbound])
    (by decide)).1.2 ⟨hthrows, fun ⟨n, hn, _⟩ => hputs n hn, fun ⟨n, hn, _⟩ => hputs n hn⟩
  exact ⟨_, _, y', k, res, hrun', hstep⟩

end Service
end CacheBench
