/-
# The running server

What `main` of `cache/cache_server.cc` starts: a `tcp_listener`, a session for each
connection that it accepts, and the `udp_handler`, all with one cache and on one
`io_context`.  By default one thread runs it, and this is the case modelled here: one
completion after the other, each with its callback, in any order, and between them the
clients' writes and reads.

A callback may also be the last: an exception that `handle_request` throws leaves
`io_context::run`, and `main` returns; a `handle_request` that does not return holds the only
thread; and when what it does is not defined, nothing is said of what the server does from
then on.  The operation that led to the callback has completed all the same.

As long as the server runs, whatever is accepted, read and written, and whatever fails, it has
one accept outstanding, and each session one operation until a failed read, a failed write or
a close has ended it, after which it has none (`Service.never_deaf`).
-/

import CacheBench.Server.Session
import CacheBench.Server.Udp
import CacheBench.Server.Serve

namespace CacheBench

/-- The `io_context`: it runs, an exception has left it, a callback does not return, or what
a callback does is not defined. -/
inductive IoContext
  | running
  | stopped
  | stuck
  | undefined
deriving DecidableEq, Repr

/-- What becomes of the `io_context` whose callback fails so. -/
def Failure.io : Failure → IoContext
  | .threw => .stopped
  | .hung => .stuck
  | .undefined => .undefined

/-- A callback that fails is the last. -/
theorem Failure.io_ne_running (f : Failure) : f.io ≠ .running := by
  cases f <;> decide

/-- The completion that hands a request to `handle_request`: a read of the session of a
connection, or a receive of a datagram. -/
inductive Origin
  | session (c : ℕ)
  | datagram (sender : Endpoint) (bytes : List ByteType)
deriving DecidableEq

/-- The server: the `udp_handler` with the shared cache, how many datagrams it has received,
how many `async_accept` are outstanding, and the connections in the order they came. -/
structure Service (ε : Type) where
  udp : UdpHandler ε
  datagrams : ℕ
  accepts : ℕ
  connections : List Connection
  io : IoContext

/-- What happens in one step; connections and datagrams are numbered. -/
inductive Happening
  | accepted
  | acceptError
  | tcp (c : ℕ) (m : Move)
  | datagram (n : ℕ) (sender : Endpoint) (bytes : List ByteType) (req : Request) (res : Response)
  | replied
  | replyError
  | receiveError
  | failed (f : Failure) (o : Origin) (req : Request)
deriving DecidableEq

/-- A session has read the first request of its stream. -/
def Connection.taken (x : Connection) (req : Request) (rest : List Request) : Connection :=
  { x with session := (x.session.complete .read).take req rest }

namespace Service

variable {ε : Type}

/-- `do_accept`. -/
def doAccept (y : Service ε) : Service ε := { y with accepts := y.accepts + 1 }

/-- `tcp_listener::on_accept`, whose operation is no longer outstanding. -/
def onAccept (y : Service ε) (ec : Bool) : Service ε :=
  if ec then y.doAccept
  else { y with connections := y.connections ++ [Connection.accepted] }.doAccept

/-- What `main` starts, with whatever is in the buffer and the endpoint of the handler. -/
def start (recvBuffer : RecvBuffer) (remoteEndpoint : Endpoint) (cache : Cache ε) : Service ε :=
  doAccept ⟨(UdpHandler.new recvBuffer remoteEndpoint cache).run, 0, 0, [], .running⟩

/-- The cache of the server. -/
def cache (y : Service ε) : Cache ε := y.udp.cache

/-- What `parse` makes of a datagram that arrives now. -/
def parsed (parse : List ByteType → Request) (y : Service ε) (bytes : List ByteType) : Request :=
  parse (y.udp.recvBuffer.fill bytes).bytes

/-- A read or a receive completes and hands `req` to `handle_request`: what the server is
then, before the callback has done anything. -/
inductive Hands (parse : List ByteType → Request) : Service ε → Origin → Request → Service ε → Prop
  | session {y : Service ε} {c : ℕ} {x : Connection} {req : Request} {rest : List Request} :
      y.connections[c]? = some x → .read ∈ x.session.pending →
      x.session.stream.inbound = req :: rest →
      Hands parse y (.session c) req
        { y with connections := y.connections.set c (x.taken req rest) }
  | datagram {y : Service ε} {sender : Endpoint} {bytes : List ByteType} :
      .receive ∈ y.udp.pending →
      Hands parse y (.datagram sender bytes) (y.parsed parse bytes)
        { y with
          udp := (y.udp.complete .receive).arrive sender bytes
          datagrams := y.datagrams + 1 }

variable [Evictor ε] (B : Boost) (parse : List ByteType → Request)

/-- One step. -/
inductive Step : Service ε → Happening → Service ε → Prop
  | accepted {y : Service ε} : y.io = .running → 0 < y.accepts →
      Step y .accepted ({ y with accepts := y.accepts - 1 }.onAccept false)
  | acceptError {y : Service ε} : y.io = .running → 0 < y.accepts →
      Step y .acceptError ({ y with accepts := y.accepts - 1 }.onAccept true)
  | tcp {y : Service ε} {c : ℕ} {m : Move} {x x' : Connection} {d : Cache ε} :
      (m.ByClient ∨ y.io = .running) → y.connections[c]? = some x →
      Connection.Step B (x, y.cache) m (x', d) →
      Step y (.tcp c m)
        { y with udp := { y.udp with cache := d }, connections := y.connections.set c x' }
  | datagram {y : Service ε} {sender : Endpoint} {bytes : List ByteType} {res : Response}
      {h : UdpHandler ε} :
      y.io = .running → UdpHandler.Step B parse y.udp (.received sender bytes) h →
      h.pending.getLast? = some (.send res sender) →
      Step y (.datagram y.datagrams sender bytes (y.parsed parse bytes) res)
        { y with udp := h, datagrams := y.datagrams + 1 }
  | replied {y : Service ε} {h : UdpHandler ε} :
      y.io = .running → UdpHandler.Step B parse y.udp .sent h →
      Step y .replied { y with udp := h }
  | replyError {y : Service ε} {h : UdpHandler ε} :
      y.io = .running → UdpHandler.Step B parse y.udp .sendError h →
      Step y .replyError { y with udp := h }
  | receiveError {y : Service ε} {h : UdpHandler ε} :
      y.io = .running → UdpHandler.Step B parse y.udp .receiveError h →
      Step y .receiveError { y with udp := h }
  | failed {y y₁ : Service ε} {f : Failure} {o : Origin} {req : Request} :
      y.io = .running → Hands parse y o req y₁ → Fails B y.cache req f →
      Step y (.failed f o req) { y₁ with io := f.io }

/-- A finite run. -/
abbrev Run : Service ε → List Happening → Service ε → Prop := Trace.Run (Step B parse)

variable {B parse} {y y' : Service ε} {l : Happening} {ls : List Happening}

/-! ### Runs of one connection -/

/-- **What a connection can do by itself it can do in the server.** -/
theorem run_of_connection (parse : List ByteType → Request) {c : ℕ} {x : Connection}
    {ms : List Move} {p : Connection × Cache ε}
    (h : Trace.Run (Connection.Step B) (x, y.cache) ms p) (hio : y.io = .running)
    (hx : y.connections[c]? = some x) :
    Run B parse y (ms.map (.tcp c))
      { y with udp := { y.udp with cache := p.2 }, connections := y.connections.set c p.1 } := by
  have hlt : c < y.connections.length := (List.getElem?_eq_some_iff.1 hx).1
  induction h with
  | nil =>
    have hself : y.connections.set c x = y.connections := by
      rw [← (List.getElem?_eq_some_iff.1 hx).2, List.set_getElem_self hlt]
    rw [hself]
    exact .nil
  | @snoc ms m p p' _ hmove ih =>
    have hp : (y.connections.set c p.1)[c]? = some p.1 := List.getElem?_set_self hlt
    have hset : y.connections.set c p'.1 = (y.connections.set c p.1).set c p'.1 :=
      (List.set_set ..).symm
    rw [List.map_append, hset]
    exact ih.snoc (.tcp (Or.inr hio) hp hmove)

/-- **Any run of requests that keep their connection open** is what some run of the server
answers, over one connection. -/
theorem run_of_replies {buffer : RecvBuffer} {endpoint : Endpoint} {d d' : Cache ε}
    {log : List (Request × Response)} (h : Trace.Run (Cache.Replies B) d log d')
    (hopen : ∀ l ∈ log, l.1.KeepsOpen) :
    ∃ y x, Run B parse (start buffer endpoint d)
        (.accepted :: (Connection.exchange 0 log).map (.tcp 0)) y ∧
      y.cache = d' ∧ y.io = .running ∧ y.connections = [x] ∧ x.AtRest := by
  obtain ⟨x, hrest, hrun⟩ := Connection.atRest_accepted.run_exchange h hopen
  have haccepted : Run B parse (start buffer endpoint d) [.accepted] _ :=
    Trace.run_singleton_iff.2 (.accepted rfl Nat.one_pos)
  exact ⟨_, x, Trace.run_append_iff.2 ⟨_, haccepted, run_of_connection parse hrun rfl rfl⟩,
    rfl, rfl, rfl, hrest⟩

/-- A connection with a PUT and a GET. -/
def putThenGet (put get : Response) : List Happening :=
  .accepted :: (Connection.exchange 0 [(⟨.put, "/a/one", 11, true⟩, put),
    (⟨.get, "/a", 11, true⟩, get)]).map (.tcp 0)

/-- On a server with 30 bytes. -/
theorem run_putThenGet : ∃ put get y x, put.status = 201 ∧ get.status = 200 ∧
    Run plainBoost (fun _ => ⟨.head, "/", 11, true⟩) (start (.replicate nul) "" (serverCache 30))
      (putThenGet put get) y ∧ y.io = .running ∧ y.connections = [x] ∧ x.AtRest := by
  obtain ⟨put, get, d, e, hput, hget, hcreated, hfound⟩ : ∃ put get d e,
      handleRequest plainBoost 1 (serverCache 30) ⟨.put, "/a/one", 11, true⟩ = some (.ok put, d) ∧
      handleRequest plainBoost 0 d ⟨.get, "/a", 11, true⟩ = some (.ok get, e) ∧
      put.status = 201 ∧ get.status = 200 := ⟨_, _, _, _, rfl, rfl, rfl, rfl⟩
  have hlog : Trace.Run (Cache.Replies plainBoost) (serverCache 30)
      [(⟨.put, "/a/one", 11, true⟩, put), (⟨.get, "/a", 11, true⟩, get)] e :=
    .snoc (.snoc .nil ⟨1, hput⟩) ⟨0, hget⟩
  obtain ⟨y, x, hrun, -, hio, hx, hrest⟩ := run_of_replies hlog (by simp [Request.KeepsOpen])
  exact ⟨put, get, y, x, hcreated, hfound, hrun, hio, hx, hrest⟩

/-! ### What is outstanding -/

/-- The step ends the session of the connection `c`. -/
def EndsSession (c : ℕ) : Happening → Prop
  | .tcp c' m => c' = c ∧ m.Ends
  | _ => False

instance (c : ℕ) (l : Happening) : Decidable (EndsSession c l) := by
  cases l <;> first | exact inferInstanceAs (Decidable (_ ∧ _)) | exact isFalse id

/-- The operations outstanding after `ls`: one accept, one of the `udp_handler` unless a
receive has failed, and one of each session that has not ended. -/
structure Outstanding (ls : List Happening) (y : Service ε) : Prop where
  accepts : y.accepts = 1
  connections : y.connections.length = ls.count .accepted
  udp : y.udp.pending.length + ls.count .receiveError = 1
  sessions : ∀ c x, y.connections[c]? = some x →
    x.session.pending.length + ls.countP (fun l => EndsSession c l) = 1
  future : ∀ c, y.connections.length ≤ c → ls.countP (fun l => EndsSession c l) = 0

/-- The request of the connection `c` that `handle_request` failed on. -/
def failedOn (c : ℕ) : Happening → Option Request
  | .failed _ (.session c') req => if c' = c then some req else none
  | _ => none

/-- What one step does to the connections. -/
theorem Step.connections_cases (h : Step B parse y l y') :
    l = .accepted ∧ y'.connections = y.connections ++ [Connection.accepted] ∨
      (∃ c m x x', l = .tcp c m ∧ y.connections[c]? = some x ∧
        Connection.Step B (x, y.cache) m (x', y'.cache) ∧
        y'.connections = y.connections.set c x') ∨
      (∃ f c req x rest, l = .failed f (.session c) req ∧ y.connections[c]? = some x ∧
        x.session.stream.inbound = req :: rest ∧
        y'.connections = y.connections.set c (x.taken req rest)) ∨
      l ≠ .accepted ∧ (∀ c m, l ≠ .tcp c m) ∧ (∀ c, failedOn c l = none) ∧
        y'.connections = y.connections := by
  cases h with
  | accepted => exact Or.inl ⟨rfl, rfl⟩
  | tcp _ hx hmove => exact Or.inr (Or.inl ⟨_, _, _, _, rfl, hx, hmove, rfl⟩)
  | failed _ hhands =>
    cases hhands with
    | session hx _ hin => exact Or.inr (Or.inr (Or.inl ⟨_, _, _, _, _, rfl, hx, hin, rfl⟩))
    | datagram => exact Or.inr (Or.inr (Or.inr ⟨by simp, by simp, fun _ => rfl, rfl⟩))
  | _ => exact Or.inr (Or.inr (Or.inr ⟨by simp, by simp, fun _ => rfl, rfl⟩))

/-- **Where a connection comes from:** it was there and nothing happened on it, or it was
just accepted, or it has made a move, or `handle_request` has failed on its first request. -/
theorem Step.connection (h : Step B parse y l y') {c : ℕ} {x' : Connection}
    (hx' : y'.connections[c]? = some x') :
    y.connections[c]? = some x' ∧ (∀ m, l ≠ .tcp c m) ∧ failedOn c l = none ∨
      l = .accepted ∧ c = y.connections.length ∧ x' = Connection.accepted ∨
      (∃ m x, l = .tcp c m ∧ y.connections[c]? = some x ∧
        Connection.Step B (x, y.cache) m (x', y'.cache)) ∨
      ∃ f req x rest, l = .failed f (.session c) req ∧ y.connections[c]? = some x ∧
        x.session.stream.inbound = req :: rest ∧ x' = x.taken req rest := by
  rcases h.connections_cases with ⟨rfl, heq⟩ | ⟨c', m, x₀, x₁, rfl, hx₀, hmove, heq⟩ |
    ⟨f, c', req, x₀, rest, rfl, hx₀, hin, heq⟩ | ⟨-, htcp, hfailed, heq⟩
  · rw [heq, List.getElem?_append] at hx'
    split_ifs at hx' with hc
    · exact Or.inl ⟨hx', by simp, rfl⟩
    · obtain ⟨hlt, hget⟩ := List.getElem?_eq_some_iff.1 hx'
      rw [List.length_singleton] at hlt
      exact Or.inr (Or.inl ⟨rfl, by omega, by simpa using hget.symm⟩)
  · rw [heq, List.getElem?_set] at hx'
    split_ifs at hx' with hc hlt
    · obtain rfl := Option.some.inj hx'
      exact Or.inr (Or.inr (Or.inl ⟨m, x₀, by rw [hc], hc ▸ hx₀, hmove⟩))
    · exact Or.inl ⟨hx', by simp [hc], rfl⟩
  · rw [heq, List.getElem?_set] at hx'
    split_ifs at hx' with hc hlt
    · obtain rfl := Option.some.inj hx'
      exact Or.inr (Or.inr (Or.inr ⟨f, req, x₀, rest, by rw [hc], hc ▸ hx₀, hin, rfl⟩))
    · exact Or.inl ⟨hx', by simp, if_neg hc⟩
  · exact Or.inl ⟨heq ▸ hx', htcp c, hfailed c⟩

/-- An accept makes one connection, and nothing else does. -/
theorem Step.length_connections (h : Step B parse y l y') :
    y'.connections.length = y.connections.length + [l].count .accepted := by
  rcases h.connections_cases with ⟨rfl, heq⟩ | ⟨c, m, x, x', rfl, -, -, heq⟩ |
    ⟨f, c, req, x, rest, rfl, -, -, heq⟩ | ⟨hl, -, -, heq⟩
  · rw [heq, List.length_append]
    rfl
  · rw [heq, List.length_set]
    rfl
  · rw [heq, List.length_set]
    rfl
  · rw [heq, List.count_eq_zero.2 fun hmem => hl (List.mem_singleton.1 hmem).symm]
    rfl

/-- An accept that completes is replaced. -/
theorem Step.accepts (h : Step B parse y l y') : y'.accepts = y.accepts := by
  cases h with
  | accepted _ hpos => exact Nat.sub_add_cancel hpos
  | acceptError _ hpos => exact Nat.sub_add_cancel hpos
  | failed _ hhands => cases hhands <;> rfl
  | _ => rfl

/-- **A server that runs has run all the time,** and no callback has failed. -/
theorem Step.running (h : Step B parse y l y') (hio : y'.io = .running) :
    y.io = .running ∧ ∀ f o req, l ≠ .failed f o req := by
  cases h with
  | failed => exact absurd hio (Failure.io_ne_running _)
  | _ => exact ⟨hio, nofun⟩

/-- What happens on a connection when the server does not run is up to the client. -/
theorem Step.byClient {c : ℕ} {m : Move} (h : Step B parse y (.tcp c m) y')
    (hio : y.io ≠ .running) : m.ByClient := by
  cases h with
  | tcp hable => exact hable.resolve_right hio

/-- The `udp_handler` takes one of its own steps, or a session uses its cache, or nothing. -/
theorem Step.udp_length (h : Step B parse y l y') (hio : y'.io = .running) :
    y'.udp.pending.length + [l].count .receiveError = y.udp.pending.length := by
  cases h with
  | failed => exact absurd hio (Failure.io_ne_running _)
  | datagram _ hudp => simpa using hudp.length_pending
  | replied _ hudp => simpa using hudp.length_pending
  | replyError _ hudp => simpa using hudp.length_pending
  | receiveError _ hudp => simpa using hudp.length_pending
  | accepted | acceptError | tcp => simp [onAccept, doAccept]

/-- Nothing happens on a connection that is not there. -/
theorem Step.lt_length (h : Step B parse y l y') {c : ℕ} {m : Move} (hl : l = .tcp c m) :
    c < y.connections.length := by
  subst hl
  cases h with
  | tcp _ hx => exact (List.getElem?_eq_some_iff.1 hx).1

/-- Nothing fails on a connection that is not there. -/
theorem Step.failedOn_of_length_le (h : Step B parse y l y') {c : ℕ}
    (hc : y.connections.length ≤ c) : failedOn c l = none := by
  rcases h.connections_cases with ⟨rfl, -⟩ | ⟨_, _, _, _, rfl, -⟩ |
    ⟨f, c', req, x, rest, rfl, hx, -⟩ | ⟨-, -, hnone, -⟩
  · rfl
  · rfl
  · have := (List.getElem?_eq_some_iff.1 hx).1
    exact if_neg (by omega)
  · exact hnone c

/-- What is no move on a connection does not end its session. -/
theorem countP_endsSession {c : ℕ} (h : ∀ m, l ≠ .tcp c m) :
    [l].countP (fun l => EndsSession c l) = 0 := by
  rw [List.countP_eq_zero]
  intro l' hl' hends
  obtain rfl := List.mem_singleton.1 hl'
  cases l' with
  | tcp c' m =>
    obtain ⟨rfl, -⟩ := of_decide_eq_true hends
    exact h m rfl
  | _ => exact of_decide_eq_true hends

/-- **Every completion replaces its operation,** unless it ends a session or fails to
receive a datagram. -/
theorem Outstanding.step (h : Outstanding ls y) (hstep : Step B parse y l y')
    (hio : y'.io = .running) : Outstanding (ls ++ [l]) y' := by
  refine ⟨hstep.accepts.trans h.accepts, ?_, ?_, fun c x hx => ?_, fun c hc => ?_⟩
  · rw [List.count_append, ← h.connections, hstep.length_connections]
  · have hudp := hstep.udp_length hio
    have hwas := h.udp
    rw [List.count_append]
    omega
  · rw [List.countP_append]
    rcases hstep.connection hx with ⟨hx, hother, -⟩ | ⟨rfl, rfl, rfl⟩ |
      ⟨m, x₀, rfl, hx₀, hmove⟩ | ⟨f, req, x₀, rest, rfl, -⟩
    · have hnone := countP_endsSession hother
      have := h.sessions c x hx
      omega
    · have hone : Connection.accepted.session.pending.length = 1 := rfl
      have hnone : [Happening.accepted].countP
        (fun l => EndsSession y.connections.length l) = 0 := rfl
      have := h.future _ le_rfl
      omega
    · have hmoved := hmove.length_pending
      have hone : [Happening.tcp c m].countP (fun l => EndsSession c l) =
          if m.Ends then 1 else 0 := by
        simp [EndsSession]
      have := h.sessions c x₀ hx₀
      omega
    · exact absurd rfl ((hstep.running hio).2 f _ req)
  · rw [hstep.length_connections] at hc
    have hnone : [l].countP (fun l => EndsSession c l) = 0 := by
      refine countP_endsSession fun m hl => ?_
      have := hstep.lt_length hl
      omega
    rw [List.countP_append, h.future c (by omega), hnone]

/-- As long as the server runs. -/
theorem Run.outstanding {buffer : RecvBuffer} {endpoint : Endpoint} {c : Cache ε}
    (h : Run B parse (start buffer endpoint c) ls y) (hio : y.io = .running) :
    Outstanding ls y := by
  induction h with
  | nil =>
    refine ⟨rfl, rfl, rfl, fun c x hx => ?_, fun _ _ => rfl⟩
    simp [start, doAccept] at hx
  | snoc _ hstep ih => exact (ih (hstep.running hio).1).step hstep hio

/-- **The server never goes deaf on TCP.**  In every state that a run of the server reaches
and in which it still runs, however the connections and the datagrams are interleaved and
whatever has failed: one accept is outstanding; one operation of the `udp_handler`, and none
once a receive has failed; and one operation of each session, and none once a failed read, a
failed write or a close has ended it. -/
theorem never_deaf {buffer : RecvBuffer} {endpoint : Endpoint} {d : Cache ε}
    (h : Run B parse (start buffer endpoint d) ls y) (hio : y.io = .running) :
    y.accepts = 1 ∧ (y.udp.pending.length = if .receiveError ∈ ls then 0 else 1) ∧
      ∀ c x, y.connections[c]? = some x →
        x.session.pending.length = if ∃ l ∈ ls, EndsSession c l then 0 else 1 := by
  have hout := h.outstanding hio
  refine ⟨hout.accepts, ?_, fun c x hx => ?_⟩
  · have hone := hout.udp
    split_ifs with hfailed
    · have hpos := List.count_pos_iff.2 hfailed
      omega
    · have hnone := List.count_eq_zero.2 hfailed
      omega
  · have hone := hout.sessions c x hx
    split_ifs with hended
    · obtain ⟨l, hl, hends⟩ := hended
      have hpos : 0 < ls.countP fun l => EndsSession c l :=
        List.countP_pos_iff.2 ⟨l, hl, decide_eq_true hends⟩
      omega
    · have hnone : ls.countP (fun l => EndsSession c l) = 0 :=
        List.countP_eq_zero.2 fun l hl hends => hended ⟨l, hl, of_decide_eq_true hends⟩
      omega

/-- After a PUT and a GET the session reads, and no session has ended. -/
theorem never_deaf_putThenGet : ∃ ls y x,
    Run plainBoost (fun _ => ⟨.head, "/", 11, true⟩) (start (.replicate nul) "" (serverCache 30))
      ls y ∧ y.connections[0]? = some x ∧ y.accepts = 1 ∧
      x.session.pending.length = if ∃ l ∈ ls, EndsSession 0 l then 0 else 1 := by
  obtain ⟨put, get, y, x, -, -, hrun, hio, hx, -⟩ := run_putThenGet
  obtain ⟨haccepts, -, hsessions⟩ := never_deaf hrun hio
  have hget : y.connections[0]? = some x := by
    rw [hx]
    rfl
  exact ⟨_, y, x, hrun, hget, haccepts, hsessions 0 x hget⟩

end Service
end CacheBench
