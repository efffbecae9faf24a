/-
# The server is linearizable

Clients on any number of connections, each with any number of requests on the way, and the
senders of datagrams use one cache.  To all of them together it is an atomic object: a request
on a connection is called when the client writes it, takes effect when `handle_request` runs,
and returns when the client reads the response; a datagram is called, takes effect and returns
in one step.  The atomic object simulates the server (`Service.Tracks.step`), so every run is
linearizable (`Service.linearizable`), and the requests in the order in which they took effect
lead to the cache that the server has then (`Service.run_order`).
-/

import CacheBench.Lib.Linearize
import CacheBench.Server.Pipeline

namespace CacheBench

open Linearize (Atomic Event Label Linearizes)

/-- Which request: the `k`-th on a connection, or the `n`-th datagram. -/
inductive OpId
  | tcp (c k : ℕ)
  | udp (n : ℕ)
deriving DecidableEq, Repr

/-- Requests of one connection differ in their numbers. -/
theorem OpId.tcp_injective (c : ℕ) : Function.Injective (OpId.tcp c) :=
  fun _ _ h => (OpId.tcp.inj h).2

/-- What a move is of a request. -/
def Move.labels (c : ℕ) : Move → List (Label OpId Request Response)
  | .sent k req => [.inl (.call (.tcp c k) req)]
  | .handled k req res => [.inr (.tcp c k, req, res)]
  | .received k res => [.inl (.ret (.tcp c k) res)]
  | _ => []

/-- What a step of the server is of a request. -/
def Happening.labels : Happening → List (Label OpId Request Response)
  | .tcp c m => m.labels c
  | .datagram n _ _ req res =>
    [.inl (.call (.udp n) req), .inr (.udp n, req, res), .inl (.ret (.udp n) res)]
  | _ => []

/-- What the clients see of a run. -/
def history (ls : List Happening) : List (Event OpId Request Response) :=
  Linearize.seen (ls.flatMap Happening.labels)

/-- The requests that `handle_request` has answered, in that order. -/
def order (ls : List Happening) : List (OpId × Request × Response) :=
  Linearize.effects (ls.flatMap Happening.labels)

/-! ### One connection -/

/-- The phase of each request of a connection, by number: those in the one stream are called,
those in the other are done, and those that are not written yet are fresh. -/
structure Wire.Tracks (w : Wire) (phase : ℕ → Linearize.Phase Request Response) : Prop where
  sent_eq : w.received + w.outbound.length + w.inbound.length = w.sent
  fresh : ∀ k, w.sent ≤ k → phase k = .fresh
  called : ∀ j req, w.inbound[j]? = some req →
    phase (w.received + w.outbound.length + j) = .called req
  done : ∀ j res, w.outbound[j]? = some res → ∃ req, phase (w.received + j) = .done req res

/-- The same with these requests before those in the stream. -/
def Wire.behind (w : Wire) (held : List Request) : Wire :=
  { w with inbound := held ++ w.inbound }

/-- Nothing before the stream is the stream. -/
@[simp] theorem Wire.behind_nil (w : Wire) : w.behind [] = w := rfl

section
variable {w : Wire} {phase : ℕ → Linearize.Phase Request Response}

/-- Nothing is on the way, and nothing has been. -/
theorem Wire.tracks_new (h : ∀ k, phase k = .fresh) : Wire.Tracks ⟨[], [], 0, 0⟩ phase :=
  ⟨rfl, fun k _ => h k, fun j req hj => by simp at hj, fun j res hj => by simp at hj⟩

/-- A request is written. -/
theorem Wire.Tracks.sent (h : w.Tracks phase) (req : Request) :
    ({ w with inbound := w.inbound ++ [req], sent := w.sent + 1 } : Wire).Tracks
      (Function.update phase w.sent (.called req)) := by
  have hsent := h.sent_eq
  refine ⟨?_, fun k hk => ?_, fun j req' hj => ?_, fun j res hj => ?_⟩
  · simp only [List.length_append, List.length_singleton]
    omega
  · rw [Function.update_of_ne (Nat.ne_of_gt hk)]
    exact h.fresh k (Nat.le_of_succ_le hk)
  · dsimp only at hj ⊢
    rw [List.getElem?_append] at hj
    split_ifs at hj with hlt
    · rw [Function.update_of_ne (by omega)]
      exact h.called j req' hj
    · obtain ⟨hone, heq⟩ := List.getElem?_eq_some_iff.1 hj
      rw [List.length_singleton] at hone
      obtain rfl : req = req' := by simpa using heq
      rw [show w.received + w.outbound.length + j = w.sent by omega, Function.update_self]
  · have hlt := (List.getElem?_eq_some_iff.1 hj).1
    dsimp only at hlt ⊢
    rw [Function.update_of_ne (by omega)]
    exact h.done j res hj

/-- The first request is answered. -/
theorem Wire.Tracks.handled (h : w.Tracks phase) {req : Request} {rest : List Request}
    (hin : w.inbound = req :: rest) (res : Response) :
    ({ w with inbound := rest, outbound := w.outbound ++ [res] } : Wire).Tracks
      (Function.update phase (w.sent - w.inbound.length) (.done req res)) := by
  have hsent := h.sent_eq
  have hlen : w.inbound.length = rest.length + 1 := by rw [hin, List.length_cons]
  have hfirst : w.sent - w.inbound.length = w.received + w.outbound.length := by omega
  rw [hfirst]
  refine ⟨?_, fun k hk => ?_, fun j req' hj => ?_, fun j res' hj => ?_⟩
  · simp only [List.length_append, List.length_singleton]
    omega
  · dsimp only at hk
    rw [Function.update_of_ne (by omega)]
    exact h.fresh k hk
  · dsimp only at hj ⊢
    rw [List.length_append, List.length_singleton, Function.update_of_ne (by omega),
      show w.received + (w.outbound.length + 1) + j = w.received + w.outbound.length + (j + 1) by
        omega]
    exact h.called (j + 1) req' (by rwa [hin, List.getElem?_cons_succ])
  · dsimp only at hj ⊢
    rw [List.getElem?_append] at hj
    split_ifs at hj with hlt
    · rw [Function.update_of_ne (by omega)]
      exact h.done j res' hj
    · obtain ⟨hone, heq⟩ := List.getElem?_eq_some_iff.1 hj
      rw [List.length_singleton] at hone
      obtain rfl : res = res' := by simpa using heq
      rw [show w.received + j = w.received + w.outbound.length by omega, Function.update_self]
      exact ⟨req, rfl⟩

/-- The first response is read. -/
theorem Wire.Tracks.received (h : w.Tracks phase) {res : Response} {rest : List Response}
    (hout : w.outbound = res :: rest) :
    ({ w with outbound := rest, received := w.received + 1 } : Wire).Tracks
      (Function.update phase w.received .returned) := by
  have hsent := h.sent_eq
  have hlen : w.outbound.length = rest.length + 1 := by rw [hout, List.length_cons]
  refine ⟨?_, fun k hk => ?_, fun j req hj => ?_, fun j res' hj => ?_⟩
  · dsimp only
    omega
  · dsimp only at hk
    rw [Function.update_of_ne (by omega)]
    exact h.fresh k hk
  · dsimp only at hj ⊢
    rw [Function.update_of_ne (by omega),
      show w.received + 1 + rest.length + j = w.received + w.outbound.length + j by omega]
    exact h.called j req hj
  · dsimp only at hj ⊢
    rw [Function.update_of_ne (by omega),
      show w.received + 1 + j = w.received + (j + 1) by omega]
    exact h.done (j + 1) res' (by rwa [hout, List.getElem?_cons_succ])

end

/-! ### The server -/

/-- A datagram that was received: its request has an answer, which is the reply that is
sent. -/
theorem UdpHandler.Step.received_cases {ε : Type} [Evictor ε] {B : Boost}
    {parse : List ByteType → Request} {h h' : UdpHandler ε} {sender : Endpoint}
    {bytes : List ByteType} {res : Response}
    (hstep : Step B parse h (.received sender bytes) h')
    (hsend : h'.pending.getLast? = some (.send res sender)) :
    Handles B h.cache (parse (h.recvBuffer.fill bytes).bytes) (.ok res) h'.cache := by
  cases hstep with
  | received _ hrec =>
    obtain ⟨res', c', hreq, rfl⟩ := handleReceive_ok hrec
    have hlast : res' = res := by
      simpa [asyncSendTo, arrive] using hsend
    exact ⟨_, hlast ▸ hreq⟩

namespace Service

variable {ε : Type} [Evictor ε] {B : Boost} {parse : List ByteType → Request}
variable {y y' : Service ε} {l : Happening} {ls : List Happening}
variable {a : Atomic OpId Request Response (Cache ε)}

/-- The atomic object that the server is to its clients.  A request on which `handle_request`
has failed is still called, though it has left its stream. -/
structure Tracks (y : Service ε) (a : Atomic OpId Request Response (Cache ε)) : Prop where
  object : a.object = y.cache
  wires : ∀ c (x : Connection), y.connections[c]? = some x →
    ∃ held, (y.io = .running → held = []) ∧
      (x.wire.behind held).Tracks fun k => a.phase (.tcp c k)
  absent : ∀ c, y.connections.length ≤ c → ∀ k, a.phase (.tcp c k) = .fresh
  datagrams : ∀ n, y.datagrams ≤ n → a.phase (.udp n) = .fresh

omit [Evictor ε] in
/-- A step that moves neither the cache nor a connection is no step of the object. -/
theorem Tracks.congr (h : Tracks y a) (hcache : y'.cache = y.cache)
    (hconnections : y'.connections = y.connections) (hdatagrams : y'.datagrams ≥ y.datagrams)
    (hio : y'.io = .running → y.io = .running) : Tracks y' a := by
  refine ⟨h.object.trans hcache.symm, fun c x hx => ?_, hconnections ▸ h.absent,
    fun n hn => h.datagrams n (hdatagrams.trans hn)⟩
  obtain ⟨held, hheld, hwire⟩ := h.wires c x (hconnections ▸ hx)
  exact ⟨held, fun hrun => hheld (hio hrun), hwire⟩

omit [Evictor ε] in
/-- Only the requests of the connection that moved have to be looked at. -/
theorem Tracks.set (h : Tracks y a) {b : Atomic OpId Request Response (Cache ε)} {c : ℕ}
    {x x' : Connection} {held : List Request} (hx : y.connections[c]? = some x)
    (hother : ∀ i, (∀ k, i ≠ .tcp c k) → b.phase i = a.phase i)
    (hheld : y.io = .running → held = [])
    (hwire : (x'.wire.behind held).Tracks fun k => b.phase (.tcp c k)) :
    Tracks
      { y with
        udp := { y.udp with cache := b.object }, connections := y.connections.set c x' } b := by
  have hlt := (List.getElem?_eq_some_iff.1 hx).1
  refine ⟨rfl, fun c' x'' hx'' => ?_, fun c' hc' j => ?_, fun n hn => ?_⟩
  · dsimp only at hx''
    rw [List.getElem?_set] at hx''
    split_ifs at hx'' with hc
    · obtain rfl := Option.some.inj hx''
      exact ⟨held, hheld, hc ▸ hwire⟩
    · have hsame : (fun j => b.phase (.tcp c' j)) = fun j => a.phase (.tcp c' j) := by
        funext j
        exact hother _ fun k heq => hc (OpId.tcp.inj heq).1.symm
      rw [hsame]
      exact h.wires c' x'' hx''
  · dsimp only at hc'
    rw [List.length_set] at hc'
    rw [hother _ fun k heq => (Nat.lt_of_lt_of_le hlt hc').ne' (OpId.tcp.inj heq).1]
    exact h.absent c' hc' j
  · rw [hother _ fun k => OpId.noConfusion]
    exact h.datagrams n hn

omit [Evictor ε] in
/-- Of the requests of a connection one gets further. -/
theorem Tracks.advance (h : Tracks y a) {c k : ℕ} {x x' : Connection} {d : Cache ε}
    {p : Linearize.Phase Request Response} {held : List Request}
    (hx : y.connections[c]? = some x) (hheld : y.io = .running → held = [])
    (hwire : (x'.wire.behind held).Tracks
      (Function.update (fun j => a.phase (.tcp c j)) k p)) :
    Tracks { y with udp := { y.udp with cache := d }, connections := y.connections.set c x' }
      ({ a with object := d }.advance (.tcp c k) p) := by
  refine h.set (b := { a with object := d }.advance (.tcp c k) p) hx
    (fun i hi => Atomic.advance_phase_of_ne (hi k) p) hheld ?_
  have hself : (fun j => ({ a with object := d }.advance (.tcp c k) p).phase (.tcp c j)) =
      Function.update (fun j => a.phase (.tcp c j)) k p :=
    Function.update_comp_eq_of_injective a.phase (OpId.tcp_injective c) k p
  rw [hself]
  exact hwire

/-- A move on a connection. -/
theorem Tracks.tcp (h : Tracks y a) {c : ℕ} {m : Move} {x x' : Connection} {d : Cache ε}
    (hable : m.ByClient ∨ y.io = .running) (hx : y.connections[c]? = some x)
    (hmove : Connection.Step B (x, y.cache) m (x', d)) :
    ∃ b, Trace.Run (Atomic.Step (Cache.Replies B)) a (m.labels c) b ∧
      Tracks { y with udp := { y.udp with cache := d }, connections := y.connections.set c x' }
        b := by
  obtain ⟨held, hheld, hw⟩ := h.wires c x hx
  rcases hmove.wire_cases with ⟨req, rfl, rfl, hwire⟩ | ⟨req, rest, res, rfl, hin, hreq, hwire⟩ |
    ⟨res, rest, rfl, hout, rfl, hwire⟩ | ⟨hnone, hwire, rfl⟩
  · have hfresh : a.phase (.tcp c x.sent) = .fresh := hw.fresh x.sent le_rfl
    refine ⟨_, Trace.run_singleton_iff.2 (.call hfresh), ?_⟩
    rw [← h.object]
    refine h.advance hx hheld ?_
    have hbehind : x'.wire.behind held = { x.wire.behind held with
        inbound := (x.wire.behind held).inbound ++ [req], sent := x.sent + 1 } := by
      rw [hwire]
      simp [Wire.behind]
    exact hbehind ▸ hw.sent req
  · -- a callback runs, so none has failed
    obtain rfl := hheld (hable.resolve_left id)
    rw [Wire.behind_nil] at hw
    have hcalled : a.phase (.tcp c (x.sent - x.wire.inbound.length)) = .called req := by
      have hfirst := hw.called 0 req (by rw [hin]; rfl)
      have hsent := hw.sent_eq
      rwa [show x.wire.received + x.wire.outbound.length + 0 = x.sent - x.wire.inbound.length from
        by show _ = x.wire.sent - _; omega] at hfirst
    exact ⟨_, Trace.run_singleton_iff.2 (.effect hcalled (h.object ▸ hreq)),
      h.advance hx hheld (hwire ▸ hw.handled hin res)⟩
  · obtain ⟨req, hdone⟩ := hw.done 0 res (by
      show x.wire.outbound[0]? = _
      rw [hout]
      rfl)
    refine ⟨_, Trace.run_singleton_iff.2 (.ret hdone), ?_⟩
    rw [← h.object]
    exact h.advance hx hheld (hwire ▸ hw.received hout)
  · have hlabels : m.labels c = [] := by
      cases m with
      | sent => cases hnone.1
      | handled => cases hnone.2.1
      | received => cases hnone.2.2
      | _ => rfl
    rw [hlabels, ← h.object]
    exact ⟨a, .nil, h.set hx (fun _ _ => rfl) hheld (hwire ▸ hw)⟩

/-- A datagram. -/
theorem Tracks.datagram (h : Tracks y a) {sender : Endpoint} {bytes : List ByteType}
    {res : Response} {u : UdpHandler ε}
    (hudp : UdpHandler.Step B parse y.udp (.received sender bytes) u)
    (hsend : u.pending.getLast? = some (.send res sender)) :
    ∃ b, Trace.Run (Atomic.Step (Cache.Replies B)) a
        (Happening.datagram y.datagrams sender bytes (y.parsed parse bytes) res).labels b ∧
      Tracks { y with udp := u, datagrams := y.datagrams + 1 } b := by
  have hreq : Cache.Replies B a.object (y.parsed parse bytes, res) u.cache := by
    rw [h.object]
    exact hudp.received_cases hsend
  obtain ⟨b, hrun, hobject, hother⟩ := Atomic.run_at_once (h.datagrams _ le_rfl) hreq
  have htcp : ∀ c k, b.phase (.tcp c k) = a.phase (.tcp c k) := fun _ _ => hother _ nofun
  refine ⟨b, hrun, hobject, fun c x hx => ?_, fun c hc k => ?_, fun n hn => ?_⟩
  · simp only [htcp]
    exact h.wires c x hx
  · rw [htcp]
    exact h.absent c hc k
  · rw [hother _ fun heq => (Nat.lt_of_succ_le hn).ne' (OpId.udp.inj heq)]
    exact h.datagrams n (Nat.le_of_succ_le hn)

omit [Evictor ε] in
/-- A request that `handle_request` fails on is called and not done. -/
theorem Tracks.taken (h : Tracks y a) {c : ℕ} {x : Connection} {req : Request}
    {rest : List Request} {io : IoContext} (hio : y.io = .running)
    (hx : y.connections[c]? = some x) (hin : x.session.stream.inbound = req :: rest)
    (hstopped : io ≠ .running) :
    Tracks { y with connections := y.connections.set c (x.taken req rest), io := io } a := by
  obtain ⟨held, hheld, hw⟩ := h.wires c x hx
  obtain rfl := hheld hio
  have hsame : (x.taken req rest).wire.behind [req] = x.wire := by
    show (⟨req :: rest, _, _, _⟩ : Wire) = ⟨x.session.stream.inbound, _, _, _⟩
    rw [hin]
    rfl
  have hlt := (List.getElem?_eq_some_iff.1 hx).1
  refine ⟨h.object, fun c' x' hx' => ?_, fun c' hc' => ?_, h.datagrams⟩
  · dsimp only at hx'
    rw [List.getElem?_set] at hx'
    split_ifs at hx' with hc
    · obtain rfl := Option.some.inj hx'
      exact ⟨[req], fun hrun => absurd hrun hstopped, hsame ▸ hc ▸ hw⟩
    · obtain ⟨held', -, hw'⟩ := h.wires c' x' hx'
      exact ⟨held', fun hrun => absurd hrun hstopped, hw'⟩
  · rw [List.length_set] at hc'
    exact h.absent c' hc'

/-- **One step of the server is some steps of the atomic object.** -/
theorem Tracks.step (h : Tracks y a) (hstep : Step B parse y l y') :
    ∃ b, Trace.Run (Atomic.Step (Cache.Replies B)) a l.labels b ∧ Tracks y' b := by
  cases hstep with
  | accepted =>
    refine ⟨a, .nil, h.object, fun c x hx => ?_, fun c hc => ?_, h.datagrams⟩
    · dsimp only [onAccept, doAccept] at hx
      rw [if_neg Bool.false_ne_true, List.getElem?_append] at hx
      split_ifs at hx with hlt
      · exact h.wires c x hx
      · obtain rfl := List.mem_singleton.1 (List.mem_of_getElem? hx)
        exact ⟨[], fun _ => rfl, Wire.tracks_new (h.absent c (not_lt.1 hlt))⟩
    · simp only [onAccept, doAccept] at hc
      rw [if_neg Bool.false_ne_true, List.length_append] at hc
      exact h.absent c (Nat.le_of_succ_le hc)
  | tcp hable hx hmove => exact h.tcp hable hx hmove
  | datagram _ hudp hsend => exact h.datagram hudp hsend
  | replied _ hudp => exact ⟨a, .nil, h.congr (by cases hudp; rfl) rfl le_rfl id⟩
  | replyError _ hudp => exact ⟨a, .nil, h.congr (by cases hudp; rfl) rfl le_rfl id⟩
  | receiveError _ hudp =>
    refine ⟨a, .nil, h.congr ?_ rfl le_rfl id⟩
    cases hudp with
    | receiveError _ hrec =>
      obtain rfl := Except.ok.inj (Option.some.inj hrec)
      rfl
  | acceptError => exact ⟨a, .nil, h.congr rfl rfl le_rfl id⟩
  | failed hio hhands =>
    refine ⟨a, .nil, ?_⟩
    cases hhands with
    | session hx _ hin => exact h.taken hio hx hin (Failure.io_ne_running _)
    | datagram =>
      exact h.congr rfl rfl (Nat.le_succ _) fun hrun => absurd hrun (Failure.io_ne_running _)

omit [Evictor ε] in
/-- When the server starts nothing has been called. -/
theorem tracks_start (buffer : RecvBuffer) (endpoint : Endpoint) (d : Cache ε) :
    Tracks (start buffer endpoint d) (Atomic.init d) :=
  ⟨rfl, fun _ _ hx => by simp [start, doAccept] at hx, fun _ _ _ => rfl, fun _ _ => rfl⟩

/-- **The requests that were answered,** in that order, are a run of requests that leads to
the cache of the server. -/
theorem run_order {buffer : RecvBuffer} {endpoint : Endpoint} {d : Cache ε}
    (h : Run B parse (start buffer endpoint d) ls y) :
    Trace.Run (Cache.Replies B) d ((order ls).map Prod.snd) y.cache := by
  obtain ⟨a, hrun, ha⟩ := Atomic.run_of_simulation (R := Tracks)
    (fun _ _ _ _ ha hstep => ha.step hstep) (tracks_start buffer endpoint d) h
  exact ha.object ▸ (Atomic.sound_of_run hrun).run

/-- **What the requests and responses make of a state,** in the order of the answers, they
make of it in a history that clients see. -/
theorem linearizes_of_order {σ : Type} {R : σ → Request × Response → σ → Prop} {s t : σ}
    {buffer : RecvBuffer} {endpoint : Endpoint} {d : Cache ε}
    (h : Run B parse (start buffer endpoint d) ls y)
    (hlegal : Trace.Run R s ((order ls).map Prod.snd) t) :
    Linearizes R s (history ls) (order ls) := by
  obtain ⟨a, hrun, -⟩ := Atomic.run_of_simulation (R := Tracks)
    (fun _ _ _ _ ha hstep => ha.step hstep) (tracks_start buffer endpoint d) h
  exact { Atomic.linearizes hrun with legal := ⟨t, hlegal⟩ }

/-- **The server is linearizable.**  Of any run of the server, with any number of connections,
requests written before earlier ones are answered, datagrams, errors and the rest, the history
of the requests and responses as the clients see them is linearized by the order in which
`handle_request` has answered: every client could be talking to a cache that serves one request
at a time, each at a moment between its call and its return. -/
theorem linearizable {buffer : RecvBuffer} {endpoint : Endpoint} {d : Cache ε}
    (h : Run B parse (start buffer endpoint d) ls y) :
    Linearizes (Cache.Replies B) d (history ls) (order ls) :=
  linearizes_of_order h (run_order h)

/-- A PUT and a GET are called and return. -/
theorem linearizable_putThenGet : ∃ ls y,
    Run plainBoost (fun _ => ⟨.head, "/", 11, true⟩) (start (.replicate nul) "" (serverCache 30))
      ls y ∧ (history ls).length = 4 ∧
      Linearizes (Cache.Replies plainBoost) (serverCache 30) (history ls) (order ls) := by
  obtain ⟨put, get, y, x, -, -, hrun, -⟩ := run_putThenGet
  exact ⟨_, y, hrun, rfl, linearizable hrun⟩

end Service
end CacheBench
