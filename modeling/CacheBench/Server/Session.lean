/-
# A TCP session

`class session` of `cache/session.hh`: the callbacks of one connection, each of which may
start the next asynchronous operation on its stream.  A stream carries whole messages.  What
Beast cannot make a request of ends a read in an error, like a timeout or a connection that
is gone.

A session reads a request, writes the reply, and reads again, unless the reply says that the
connection ends with it (`Response.needEof`).  Every reply of `handle_request` has a
`Content-Length`, so that is a matter of `keep_alive` alone; and the reply to a PUT, and the
one to a reset, are kept alive whatever the request says (`Handles.needEof_iff`).
-/

import CacheBench.Server.Outcome

namespace CacheBench

/-! ### When a connection ends with a reply -/

/-- `message::need_eof` of a response: with a length of its own it needs no end of file but
to close. -/
def Response.needEof (res : Response) : Bool :=
  if res.status = 204 ∨ res.status = 304 ∨ res.status / 100 = 1 ∨
      res.fields.any (fun f => f.1 = .contentLength) then
    !res.keepAlive
  else true

/-- The connection stays open after an answer to the request. -/
def Request.KeepsOpen (req : Request) : Prop :=
  req.keepAlive = true ∨ req.method = .put ∨ req.method = .post ∧ req.target = "/reset"

instance (req : Request) : Decidable req.KeepsOpen := inferInstanceAs (Decidable (_ ∨ _))

/-- A reply with a length ends the connection if it is not kept alive. -/
theorem Response.needEof_preparePayload (res : Response) :
    res.preparePayload.needEof = !res.keepAlive := by
  have hlength : res.preparePayload.fields.any (fun f => f.1 = .contentLength) = true := by
    simp [preparePayload, setContentLength, set]
  unfold needEof
  rw [if_pos (Or.inr (Or.inr (Or.inr hlength)))]
  rfl

/-- **The connection ends with a reply exactly when the request asked for it,** and was no
PUT and no reset. -/
theorem Handles.needEof_iff {ε : Type} [Evictor ε] {B : Boost} {c c' : Cache ε} {req : Request}
    {res : Response} (h : Handles B c req (.ok res) c') :
    res.needEof = true ↔ ¬req.KeepsOpen := by
  have hprepared : ∀ {msg : Response}, (res = msg.preparePayload ∧
      msg.keepAlive = req.keepAlive ∧ req.method ≠ .put ∧
        ¬(req.method = .post ∧ req.target = "/reset")) →
      (res.needEof = true ↔ ¬req.KeepsOpen) := by
    rintro msg ⟨rfl, hkeep, hput, hreset⟩
    rw [Response.needEof_preparePayload, hkeep]
    simp [Request.KeepsOpen, hput, hreset]
  cases h.served with
  | getMissing hmethod => exact hprepared ⟨rfl, rfl, by simp [hmethod], by simp [hmethod]⟩
  | getFound hmethod => exact hprepared ⟨rfl, rfl, by simp [hmethod], by simp [hmethod]⟩
  | put hmethod =>
    have hclose := Response.needEof_preparePayload
    simp [putReply, hclose, Request.KeepsOpen, hmethod]
  | deleteMissing hmethod => exact hprepared ⟨rfl, rfl, by simp [hmethod], by simp [hmethod]⟩
  | deleteFound hmethod => exact hprepared ⟨rfl, rfl, by simp [hmethod], by simp [hmethod]⟩
  | head hmethod hreply =>
    obtain rfl := Except.ok.inj (Prod.mk.inj (Option.some.inj hreply)).1
    exact hprepared ⟨rfl, rfl, by simp [hmethod], by simp [hmethod]⟩
  | postOther hmethod htarget =>
    exact hprepared ⟨rfl, rfl, by simp [hmethod], by simp [htarget]⟩
  | postReset hmethod htarget =>
    have hclose := Response.needEof_preparePayload
    simp [resetReply, hclose, Request.KeepsOpen, hmethod, htarget, Response.set, Response.new]
  | unknown hmethod => exact hprepared ⟨rfl, rfl, by simp [hmethod], by simp [hmethod]⟩

/-- The cache answers the request. -/
def Cache.Replies {ε : Type} [Evictor ε] (B : Boost) (c : Cache ε) (l : Request × Response)
    (c' : Cache ε) : Prop :=
  Handles B c l.1 (.ok l.2) c'

/-! ### The session -/

/-- What an `async_read` can end with instead of a request. -/
inductive ReadError
  | endOfStream
  | other
deriving DecidableEq, Repr

/-- `beast::tcp_stream`, with what the client has written and the session has not read, and
what the session has written and the client has not read. -/
structure TcpStream where
  inbound : List Request
  outbound : List Response
  shutdown : Bool
deriving DecidableEq

/-- An operation on the stream that has not completed; a write knows what `on_write` will be
told. -/
inductive SessionOp
  | read
  | write (close : Bool)
deriving DecidableEq

/-- `class session`, with the operations outstanding on its stream. -/
structure Session where
  stream : TcpStream
  req : Request
  res : Option Response
  pending : List SessionOp

namespace Session

variable {ε : Type}

/-- A session that has taken over the socket of a new connection. -/
def new : Session := ⟨⟨[], [], false⟩, ⟨.other, "", 11, true⟩, none, []⟩

/-- `do_read`, which makes the request empty before it reads. -/
def doRead (s : Session) : Session :=
  { s with req := ⟨.other, "", 11, true⟩, pending := s.pending ++ [.read] }

/-- `run`. -/
def run (s : Session) : Session := s.doRead

/-- `helper::send`. -/
def send (s : Session) (msg : Response) : Session :=
  { s with
    res := some msg
    stream := { s.stream with outbound := s.stream.outbound ++ [msg] }
    pending := s.pending ++ [.write msg.needEof] }

/-- `processor_.fail`, which only logs. -/
def fail (s : Session) : Session := s

/-- `do_close`. -/
def doClose (s : Session) : Session := { s with stream := { s.stream with shutdown := true } }

/-- `on_read`, with what `async_read` left in `req_`; an exception leaves it. -/
def onRead [Evictor ε] (B : Boost) (fuel : ℕ) (s : Session) (c : Cache ε)
    (ec : Option ReadError) : Option (Except Thrown (Session × Cache ε)) :=
  match ec with
  | some .endOfStream => some (.ok (s.doClose, c))
  | some .other => some (.ok (s.fail, c))
  | none =>
    (handleRequest B fuel c s.req).map fun
      | (.ok res, c) => .ok (s.send res, c)
      | (.error e, _) => .error e

/-- `on_write`. -/
def onWrite (s : Session) (close ec : Bool) : Session :=
  if ec then s.fail
  else if close then s.doClose
  else { s with res := none }.doRead

/-- An outstanding operation completes. -/
def complete (s : Session) (op : SessionOp) : Session := { s with pending := s.pending.erase op }

/-- A request has been read, and these are left in the stream. -/
def take (s : Session) (req : Request) (rest : List Request) : Session :=
  { s with req := req, stream := { s.stream with inbound := rest } }

/-- A request that is read and answered. -/
theorem onRead_ok [Evictor ε] {B : Boost} {fuel : ℕ} {s s' : Session} {c d : Cache ε}
    (h : s.onRead B fuel c none = some (.ok (s', d))) :
    ∃ res, handleRequest B fuel c s.req = some (.ok res, d) ∧ s' = s.send res := by
  obtain ⟨⟨out, d'⟩, hreq, heq⟩ := Option.map_eq_some_iff.1 h
  cases out with
  | error e => cases heq
  | ok res =>
    obtain ⟨rfl, rfl⟩ := Prod.mk.inj (Except.ok.inj heq)
    exact ⟨res, hreq, rfl⟩

end Session

/-! ### The two ends of a connection -/

/-- A connection: its session, and how many requests the client has written to it and how
many responses it has read. -/
structure Connection where
  session : Session
  sent : ℕ
  received : ℕ

/-- What is on the way between the two ends, and how much the client has written and read. -/
structure Wire where
  inbound : List Request
  outbound : List Response
  sent : ℕ
  received : ℕ

/-- What happens on a connection: the client writes a request or reads a response, or an
operation of the session completes.  Requests and responses are numbered. -/
inductive Move
  | sent (k : ℕ) (req : Request)
  | handled (k : ℕ) (req : Request) (res : Response)
  | readError (e : ReadError)
  | written
  | closed
  | writeError
  | received (k : ℕ) (res : Response)
deriving DecidableEq

/-- The client moves, which needs no server that runs. -/
def Move.ByClient : Move → Prop
  | .sent _ _ | .received _ _ => True
  | _ => False

/-- The request that was written. -/
def Move.request? : Move → Option Request
  | .sent _ req => some req
  | _ => none

/-- The request that was answered, with the reply. -/
def Move.answer? : Move → Option (Request × Response)
  | .handled _ req res => some (req, res)
  | _ => none

/-- The response that was read. -/
def Move.response? : Move → Option Response
  | .received _ res => some res
  | _ => none

/-- The move ends the session. -/
def Move.Ends : Move → Prop
  | .readError _ | .closed | .writeError => True
  | _ => False

instance (m : Move) : Decidable m.Ends := by
  cases m <;> first | exact isTrue trivial | exact isFalse id

namespace Connection

variable {ε : Type}

/-- A connection that was just accepted. -/
def accepted : Connection := ⟨Session.new.run, 0, 0⟩

/-- What is on the way. -/
def wire (x : Connection) : Wire :=
  ⟨x.session.stream.inbound, x.session.stream.outbound, x.sent, x.received⟩

/-- The request that the next completion of a read hands to `on_read`. -/
def head? (x : Connection) : Option Request :=
  if .read ∈ x.session.pending then x.session.stream.inbound.head? else none

/-- One move, on the connection and the cache. -/
inductive Step [Evictor ε] (B : Boost) :
    Connection × Cache ε → Move → Connection × Cache ε → Prop
  | sent {x : Connection} {c : Cache ε} (req : Request) :
      Step B (x, c) (.sent x.sent req)
        ({ x with
          session := { x.session with
            stream := { x.session.stream with
              inbound := x.session.stream.inbound ++ [req] } }
          sent := x.sent + 1 }, c)
  | handled {x : Connection} {c d : Cache ε} {req : Request} {rest : List Request} {fuel : ℕ}
      {s : Session} {res : Response} :
      .read ∈ x.session.pending → x.session.stream.inbound = req :: rest →
      ((x.session.complete .read).take req rest).onRead B fuel c none = some (.ok (s, d)) →
      s.res = some res →
      Step B (x, c) (.handled (x.sent - x.session.stream.inbound.length) req res)
        ({ x with session := s }, d)
  | readError {x : Connection} {c d : Cache ε} {e : ReadError} {fuel : ℕ} {s : Session} :
      .read ∈ x.session.pending →
      (x.session.complete .read).onRead B fuel c (some e) = some (.ok (s, d)) →
      Step B (x, c) (.readError e) ({ x with session := s }, d)
  | written {x : Connection} {c : Cache ε} : .write false ∈ x.session.pending →
      Step B (x, c) .written
        ({ x with session := (x.session.complete (.write false)).onWrite false false }, c)
  | closed {x : Connection} {c : Cache ε} : .write true ∈ x.session.pending →
      Step B (x, c) .closed
        ({ x with session := (x.session.complete (.write true)).onWrite true false }, c)
  | writeError {x : Connection} {c : Cache ε} {close : Bool} :
      .write close ∈ x.session.pending →
      Step B (x, c) .writeError
        ({ x with session := (x.session.complete (.write close)).onWrite close true }, c)
  | received {x : Connection} {c : Cache ε} {res : Response} {rest : List Response} :
      x.session.stream.outbound = res :: rest →
      Step B (x, c) (.received x.received res)
        ({ x with
          session := { x.session with stream := { x.session.stream with outbound := rest } }
          received := x.received + 1 }, c)

variable [Evictor ε] {B : Boost} {x x' : Connection} {c d : Cache ε} {m : Move}

/-- An operation that completes is one less. -/
theorem length_pending_complete {s : Session} {op : SessionOp} (hop : op ∈ s.pending) :
    (s.complete op).pending.length + 1 = s.pending.length := by
  have hpos := List.length_pos_of_mem hop
  rw [Session.complete, List.length_erase_of_mem hop]
  omega

/-- **What one move does to the number of operations:** one that ends the session takes its
operation away, every other completion replaces its own. -/
theorem Step.length_pending (h : Step B (x, c) m (x', d)) :
    x'.session.pending.length + (if m.Ends then 1 else 0) = x.session.pending.length := by
  cases h with
  | sent | received => rfl
  | handled hread _ hok =>
    obtain ⟨res, -, rfl⟩ := Session.onRead_ok hok
    have hlen := length_pending_complete hread
    simpa [Session.send, Session.take, Move.Ends] using hlen
  | @readError _ _ _ e _ _ hread hfail =>
    have hlen := length_pending_complete hread
    cases e with
    | endOfStream =>
      obtain ⟨rfl, -⟩ := Prod.mk.inj (Except.ok.inj (Option.some.inj hfail))
      exact hlen
    | other =>
      obtain ⟨rfl, -⟩ := Prod.mk.inj (Except.ok.inj (Option.some.inj hfail))
      exact hlen
  | written hwrite =>
    have hlen := length_pending_complete hwrite
    simpa [Session.onWrite, Session.doRead, Move.Ends] using hlen
  | closed hwrite => exact length_pending_complete hwrite
  | writeError hwrite => exact length_pending_complete hwrite

/-- **What one move does to what is on the way, and to the cache.** -/
theorem Step.wire_cases (h : Step B (x, c) m (x', d)) :
    (∃ req, m = .sent x.sent req ∧ d = c ∧
      x'.wire = { x.wire with inbound := x.wire.inbound ++ [req], sent := x.sent + 1 }) ∨
    (∃ req rest res, m = .handled (x.sent - x.wire.inbound.length) req res ∧
      x.wire.inbound = req :: rest ∧ Handles B c req (.ok res) d ∧
      x'.wire = { x.wire with inbound := rest, outbound := x.wire.outbound ++ [res] }) ∨
    (∃ res rest, m = .received x.received res ∧ x.wire.outbound = res :: rest ∧ d = c ∧
      x'.wire = { x.wire with outbound := rest, received := x.received + 1 }) ∨
    (m.request? = none ∧ m.answer? = none ∧ m.response? = none) ∧ x'.wire = x.wire ∧ d = c := by
  cases h with
  | sent req => exact Or.inl ⟨req, rfl, rfl, rfl⟩
  | @handled _ _ _ req rest fuel s res _ hin hok hres =>
    obtain ⟨res', hreq, rfl⟩ := Session.onRead_ok hok
    obtain rfl : res' = res := Option.some.inj hres
    exact Or.inr (Or.inl ⟨req, rest, res', rfl, hin, ⟨fuel, hreq⟩, rfl⟩)
  | @readError _ _ _ e _ _ _ hfail =>
    refine Or.inr (Or.inr (Or.inr ⟨⟨rfl, rfl, rfl⟩, ?_⟩))
    cases e with
    | endOfStream =>
      obtain ⟨rfl, rfl⟩ := Prod.mk.inj (Except.ok.inj (Option.some.inj hfail))
      exact ⟨rfl, rfl⟩
    | other =>
      obtain ⟨rfl, rfl⟩ := Prod.mk.inj (Except.ok.inj (Option.some.inj hfail))
      exact ⟨rfl, rfl⟩
  | written | closed | writeError =>
    exact Or.inr (Or.inr (Or.inr ⟨⟨rfl, rfl, rfl⟩, rfl, rfl⟩))
  | @received _ _ res rest hout => exact Or.inr (Or.inr (Or.inl ⟨res, rest, rfl, hout, rfl, rfl⟩))

/-- A request that has an answer is answered. -/
theorem Step.of_handles {req : Request} {rest : List Request} {res : Response}
    (hread : .read ∈ x.session.pending) (hin : x.session.stream.inbound = req :: rest)
    (hreq : Handles B c req (.ok res) d) :
    Step B (x, c) (.handled (x.sent - x.session.stream.inbound.length) req res)
      ({ x with session := ((x.session.complete .read).take req rest).send res }, d) := by
  obtain ⟨fuel, hreq⟩ := hreq
  have hok : ((x.session.complete .read).take req rest).onRead B fuel c none =
      some (.ok (((x.session.complete .read).take req rest).send res, d)) := by
    have htaken : ((x.session.complete .read).take req rest).req = req := rfl
    rw [Session.onRead, htaken, hreq]
    rfl
  exact .handled hread hin hok rfl

/-! ### Whole exchanges -/

/-- The session waits for a request, and nothing is on the way. -/
structure AtRest (x : Connection) : Prop where
  pending : x.session.pending = [.read]
  inbound : x.session.stream.inbound = []
  outbound : x.session.stream.outbound = []
  received : x.received = x.sent

/-- A connection that was just accepted is at rest. -/
theorem atRest_accepted : accepted.AtRest := ⟨rfl, rfl, rfl, rfl⟩

/-- One request after the other, from the `k`-th on, each when the one before has its
response. -/
def exchange : ℕ → List (Request × Response) → List Move
  | _, [] => []
  | k, (req, res) :: log =>
    .sent k req :: .handled k req res :: .written :: .received k res :: exchange (k + 1) log

/-- One request that keeps its connection open. -/
theorem AtRest.run_request (hx : x.AtRest) {req : Request} {res : Response}
    (hreq : Handles B c req (.ok res) d) (hopen : req.KeepsOpen) :
    ∃ x', x'.AtRest ∧ x'.sent = x.sent + 1 ∧ Trace.Run (Step B) (x, c)
      [.sent x.sent req, .handled x.sent req res, .written, .received x.sent res] (x', d) := by
  obtain ⟨⟨⟨inbound, outbound, shutdown⟩, req₀, res₀, pending⟩, sent, received⟩ := x
  obtain ⟨rfl, rfl, rfl, rfl⟩ : pending = [.read] ∧ inbound = [] ∧ outbound = [] ∧
      received = sent := ⟨hx.pending, hx.inbound, hx.outbound, hx.received⟩
  have hclose : res.needEof = false := by
    rw [← Bool.not_eq_true, hreq.needEof_iff, not_not]
    exact hopen
  have hwrite : ∀ s : Session, .write false ∈ (s.send res).pending := by
    intro s
    rw [Session.send, hclose]
    exact List.mem_append_right _ List.mem_cons_self
  have hsent := Trace.Run.nil.snoc (Step.sent (B := B) (c := c)
    (x := ⟨⟨⟨[], [], shutdown⟩, req₀, res₀, [.read]⟩, received, received⟩) req)
  have hhandled := hsent.snoc (.of_handles List.mem_cons_self rfl hreq)
  have hwritten := hhandled.snoc (.written (hwrite _))
  refine ⟨_, ⟨?_, rfl, rfl, rfl⟩, rfl, hwritten.snoc (.received rfl)⟩
  simp [Session.onWrite, Session.doRead, Session.complete, Session.send, Session.take, hclose]

/-- **Any run of requests** that keep the connection open can be had on one connection. -/
theorem AtRest.run_exchange {log : List (Request × Response)} (hx : x.AtRest)
    (h : Trace.Run (Cache.Replies B) c log d) (hopen : ∀ l ∈ log, l.1.KeepsOpen) :
    ∃ x', x'.AtRest ∧ Trace.Run (Step B) (x, c) (exchange x.sent log) (x', d) := by
  induction log generalizing x c with
  | nil =>
    obtain rfl := Trace.run_nil_iff.1 h
    exact ⟨x, hx, .nil⟩
  | cons l log ih =>
    obtain ⟨e, hreq, hrest⟩ := Trace.run_cons_iff.1 h
    obtain ⟨x₁, hx₁, hsent, hone⟩ := hx.run_request hreq (hopen l List.mem_cons_self)
    obtain ⟨x', hx', hrun⟩ := ih hx₁ hrest fun l' hl' => hopen l' (List.mem_cons_of_mem l hl')
    rw [hsent] at hrun
    exact ⟨x', hx', Trace.run_append_iff.2 ⟨_, hone, hrun⟩⟩

end Connection
end CacheBench
