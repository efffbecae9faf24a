/-
# Every request is handled in the end

The one thread of the server takes completions in any order.  If it is fair to each session
that has something to do (`Service.Fair`), a request that a client has written is handled in
the end, whatever else goes on, unless the server stops or the session ends before
(`Service.eventually_handled`): a request never waits for ever behind those of other
connections, nor behind those before it on its own.
-/

import CacheBench.Lib.Fair
import CacheBench.Server.Pipeline
import CacheBench.Server.Linearizable

namespace CacheBench

/-- An operation of the session can complete without the client: there is a request to read,
or a reply is being written. -/
def Connection.Ready (x : Connection) : Prop :=
  x.session.pending = [.read] ∧ x.session.stream.inbound ≠ [] ∨
    ∃ close, x.session.pending = [.write close]

/-- `req` waits as the `k`-th request of the connection, behind `j` others; and what the rank
is, for each of those has to be handled and to have its reply written. -/
structure Connection.Waits (k : ℕ) (req : Request) (x : Connection) (r : ℕ) : Prop where
  queued : ∃ j, x.session.stream.inbound[j]? = some req ∧
    k + x.session.stream.inbound.length = x.sent + j ∧
    (x.session.pending = [.read] ∧ r = 2 * j ∨
      ∃ close, x.session.pending = [.write close] ∧ r = 2 * j + 1)

variable {ε : Type} [Evictor ε] {B : Boost} {x x' : Connection} {d d' : Cache ε} {m : Move}
  {k r : ℕ} {req : Request}

/-- Where a request waits the session has something to do. -/
theorem Connection.Waits.ready (h : x.Waits k req r) : x.Ready := by
  obtain ⟨j, hj, -, ⟨hread, -⟩ | ⟨close, hwrite, -⟩⟩ := h.queued
  · refine Or.inl ⟨hread, fun hnil => ?_⟩
    rw [hnil] at hj
    cases hj
  · exact Or.inr ⟨close, hwrite⟩

/-- The client does not change that. -/
theorem Connection.Waits.client (h : x.Waits k req r) (hclient : m.ByClient)
    (hmove : Connection.Step B (x, d) m (x', d')) : x'.Waits k req r := by
  obtain ⟨j, hj, hk, hrank⟩ := h.queued
  cases hmove with
  | sent req' =>
    refine ⟨j, ?_, ?_, hrank⟩
    · exact (List.getElem?_append_left (List.getElem?_eq_some_iff.1 hj).1).trans hj
    · simp only [List.length_append, List.length_singleton]
      omega
  | received => exact ⟨j, hj, hk, hrank⟩
  | _ => cases hclient

/-- **Every move of the session does,** unless it is the one that was waited for, or ends it. -/
theorem Connection.Waits.server (h : x.Waits k req r) (hserver : ¬m.ByClient)
    (hmove : Connection.Step B (x, d) m (x', d')) :
    (∃ res, m = .handled k req res) ∨ m.Ends ∨ ∃ r' < r, x'.Waits k req r' := by
  obtain ⟨j, hj, hk, hrank⟩ := h.queued
  cases hmove with
  | sent | received => exact absurd trivial hserver
  | readError | closed | writeError => exact Or.inr (Or.inl trivial)
  | @handled _ _ _ req' rest _ s res hread hin hok hres =>
    obtain ⟨res', -, rfl⟩ := Session.onRead_ok hok
    obtain ⟨hpending, rfl⟩ : x.session.pending = [.read] ∧ r = 2 * j := by
      rcases hrank with hrank | ⟨close, hwrite, -⟩
      · exact hrank
      · rw [hwrite] at hread
        simp at hread
    rw [hin] at hj hk
    cases j with
    | zero =>
      obtain rfl : req' = req := Option.some.inj hj
      refine Or.inl ⟨res, ?_⟩
      rw [hin, show k = x.sent - (req' :: rest).length by omega]
    | succ j =>
      refine Or.inr (Or.inr ⟨2 * j + 1, by omega, j, hj, ?_, Or.inr ⟨res'.needEof, ?_, rfl⟩⟩)
      · rw [List.length_cons] at hk
        show k + rest.length = x.sent + j
        omega
      · simp [Session.send, Session.take, Session.complete, hpending]
  | written hwrite =>
    obtain ⟨hpending, rfl⟩ : x.session.pending = [.write false] ∧ r = 2 * j + 1 := by
      rcases hrank with ⟨hread, -⟩ | ⟨close, hpending, hr⟩
      · rw [hread] at hwrite
        simp at hwrite
      · rw [hpending, List.mem_singleton, SessionOp.write.injEq] at hwrite
        exact ⟨hwrite ▸ hpending, hr⟩
    refine Or.inr (Or.inr ⟨2 * j, by omega, j, hj, hk, Or.inl ⟨?_, rfl⟩⟩)
    simp [Session.onWrite, Session.doRead, Session.complete, hpending]

namespace Service

variable {parse : List ByteType → Request} {y y' : Service ε} {l : Happening}
variable {states : ℕ → Service ε} {labels : ℕ → Happening} {c n : ℕ}

/-- A step goes on running the server or stops it. -/
theorem Step.io (h : Step B parse y l y') : y'.io = y.io ∨ y'.io ≠ .running := by
  cases h with
  | failed => exact Or.inr (Failure.io_ne_running _)
  | _ => exact Or.inl rfl

/-- The server runs, and `req` waits on the connection `c`. -/
def WaitsOn (c k : ℕ) (req : Request) (y : Service ε) (r : ℕ) : Prop :=
  y.io = .running ∧ ∃ x, y.connections[c]? = some x ∧ x.Waits k req r

/-- What there is to wait for: that the request is handled, that the server stops, or that the
session ends. -/
def Resolved (c k : ℕ) (req : Request) (l : Happening) (y' : Service ε) : Prop :=
  (∃ res, l = .tcp c (.handled k req res)) ∨ y'.io ≠ .running ∨ EndsSession c l

/-- The session of the connection `c` makes a move. -/
def Serves (c : ℕ) (l : Happening) : Prop := ∃ m : Move, l = .tcp c m ∧ ¬m.ByClient

/-- **What one step does to a request that waits.** -/
theorem WaitsOn.step (h : WaitsOn c k req y r) (hstep : Step B parse y l y') :
    Resolved c k req l y' ∨ (¬Serves c l ∧ WaitsOn c k req y' r) ∨
      ∃ r' < r, WaitsOn c k req y' r' := by
  obtain ⟨hio, x, hx, hwaits⟩ := h
  rcases hstep.io with hio' | hstopped
  swap
  · exact Or.inl (Or.inr (Or.inl hstopped))
  have hlt : c < y'.connections.length := by
    have hlen := hstep.length_connections
    have := (List.getElem?_eq_some_iff.1 hx).1
    omega
  obtain ⟨x', hx'⟩ : ∃ x', y'.connections[c]? = some x' := ⟨_, List.getElem?_eq_getElem hlt⟩
  rcases hstep.connection hx' with ⟨hsame, hother, -⟩ | ⟨-, rfl, -⟩ |
    ⟨m, x₀, rfl, hx₀, hmove⟩ | ⟨f, req', x₀, rest, rfl, -⟩
  · obtain rfl := Option.some.inj (hx.symm.trans hsame)
    refine Or.inr (Or.inl ⟨?_, hio'.trans hio, x, hx', hwaits⟩)
    rintro ⟨m, hl, -⟩
    exact hother m hl
  · exact absurd (List.getElem?_eq_some_iff.1 hx).1 (lt_irrefl _)
  · obtain rfl := Option.some.inj (hx.symm.trans hx₀)
    by_cases hclient : m.ByClient
    · refine Or.inr (Or.inl ⟨?_, hio'.trans hio, x', hx', hwaits.client hclient hmove⟩)
      rintro ⟨m', hm', hserver⟩
      obtain ⟨-, rfl⟩ := Happening.tcp.inj hm'
      exact hserver hclient
    · rcases hwaits.server hclient hmove with ⟨res, rfl⟩ | hends | ⟨r', hr', hwaits'⟩
      · exact Or.inl (Or.inl ⟨res, rfl⟩)
      · exact Or.inl (Or.inr (Or.inr ⟨rfl, hends⟩))
      · exact Or.inr (Or.inr ⟨r', hr', hio'.trans hio, x', hx', hwaits'⟩)
  · exact absurd rfl ((hstep.running (hio'.trans hio)).2 f _ req')

/-- A session that can go on for ever from some time on, with the server running, does so at
some time. -/
def Fair (states : ℕ → Service ε) (labels : ℕ → Happening) : Prop :=
  ∀ c n, (∀ m, n ≤ m → (states m).io = .running ∧
      ∃ x, (states m).connections[c]? = some x ∧ x.Ready) →
    ∃ m, n ≤ m ∧ Serves c (labels m)

/-- What waits is resolved in the end. -/
theorem WaitsOn.eventually (hrun : Trace.Forever (Step B parse) states labels)
    (hfair : Fair states labels) (h : WaitsOn c k req (states n) r) :
    ∃ m, n ≤ m ∧ Resolved c k req (labels m) (states (m + 1)) := by
  refine Trace.eventually_of_rank (P := fun m r => WaitsOn c k req (states m) r)
    (Q := fun m => Resolved c k req (labels m) (states (m + 1))) (fun m r hm => ?_)
    (fun m r hm => ?_) h
  · rcases hm.step (hrun m) with hdone | ⟨-, hsame⟩ | hlower
    · exact Or.inl hdone
    · exact Or.inr (Or.inl hsame)
    · exact Or.inr (Or.inr hlower)
  · obtain ⟨m', hm', hserves⟩ := hfair c m fun m' hm' => by
      obtain ⟨hio, x, hx, hwaits⟩ := hm m' hm'
      exact ⟨hio, x, hx, hwaits.ready⟩
    rcases (hm m' hm').step (hrun m') with hdone | ⟨hidle, -⟩ | hlower
    · exact ⟨m', hm', Or.inl hdone⟩
    · exact absurd hserves hidle
    · exact ⟨m', hm', Or.inr hlower⟩

/-- A request that was just written waits behind those that are there, unless the session of
its connection has ended. -/
theorem waitsOn_of_sent {buffer : RecvBuffer} {endpoint : Endpoint} {d : Cache ε}
    {ls : List Happening} (h : Run B parse (start buffer endpoint d) ls y) (hio : y.io = .running)
    (hstep : Step B parse y (.tcp c (.sent k req)) y') :
    (∃ l ∈ ls, EndsSession c l) ∨ ∃ r, WaitsOn c k req y' r := by
  cases hstep with
  | @tcp _ _ x x' d' _ hx hmove =>
    cases hmove with
    | sent =>
      have hone := (h.outstanding hio).sessions c x hx
      rcases hpending : x.session.pending with _ | ⟨op, _ | ⟨op', ops⟩⟩
      · rw [hpending, List.length_nil, Nat.zero_add] at hone
        obtain ⟨l, hl, hends⟩ := List.countP_pos_iff.1 (hone ▸ Nat.one_pos)
        exact Or.inl ⟨l, hl, of_decide_eq_true hends⟩
      · refine Or.inr ⟨2 * x.session.stream.inbound.length + if op = .read then 0 else 1, hio, _,
          List.getElem?_set_self (List.getElem?_eq_some_iff.1 hx).1,
          x.session.stream.inbound.length, ?_, ?_, ?_⟩
        · simp
        · simp only [List.length_append, List.length_singleton]
          omega
        · cases op with
          | read => exact Or.inl ⟨hpending, rfl⟩
          | write close => exact Or.inr ⟨close, hpending, rfl⟩
      · rw [hpending] at hone
        simp only [List.length_cons] at hone
        omega

/-- **Every request is handled in the end.**  In any infinite run of the server that is fair to
its sessions, whatever the clients do: a request that is written on some connection is handled
later, unless the server stops or the session of the connection ends. -/
theorem eventually_handled {buffer : RecvBuffer} {endpoint : Endpoint} {d : Cache ε}
    (hrun : Trace.Forever (Step B parse) states labels)
    (hstart : states 0 = start buffer endpoint d) (hfair : Fair states labels)
    (hsent : labels n = .tcp c (.sent k req)) :
    (∃ m, n < m ∧ ∃ res, labels m = .tcp c (.handled k req res)) ∨
      (∃ m, (states m).io ≠ .running) ∨ ∃ m, EndsSession c (labels m) := by
  by_cases hio : (states n).io = .running
  swap
  · exact Or.inr (Or.inl ⟨n, hio⟩)
  have hstep := hrun n
  rw [hsent] at hstep
  have hbefore := hrun.run n
  rw [hstart] at hbefore
  rcases waitsOn_of_sent hbefore hio hstep with ⟨l, hl, hends⟩ | ⟨r, hwaits⟩
  · obtain ⟨m, -, rfl⟩ := List.mem_map.1 hl
    exact Or.inr (Or.inr ⟨m, hends⟩)
  · obtain ⟨m, hm, hhandled | hstopped | hends⟩ := hwaits.eventually hrun hfair
    · exact Or.inl ⟨m, hm, hhandled⟩
    · exact Or.inr (Or.inl ⟨m + 1, hstopped⟩)
    · exact Or.inr (Or.inr ⟨m, hends⟩)

/-- A PUT and a GET, and then accepts that fail for ever: the PUT is handled. -/
theorem eventually_handled_putThenGet : ∃ (states : ℕ → Service FifoEvictor)
    (labels : ℕ → Happening),
    Trace.Forever (Step plainBoost fun _ => ⟨.head, "/", 11, true⟩) states labels ∧
    Fair states labels ∧ labels 1 = .tcp 0 (.sent 0 ⟨.put, "/a/one", 11, true⟩) ∧
    ((∃ m, 1 < m ∧ ∃ res, labels m = .tcp 0 (.handled 0 ⟨.put, "/a/one", 11, true⟩ res)) ∨
      (∃ m, (states m).io ≠ .running) ∨ ∃ m, EndsSession 0 (labels m)) := by
  obtain ⟨put, get, y, x, -, -, hrun, hio, hx, hrest⟩ := run_putThenGet
  have hloop : Step plainBoost (fun _ => ⟨.head, "/", 11, true⟩) y .acceptError y := by
    have hone := (hrun.outstanding hio).accepts
    have hsame : ({ y with accepts := y.accepts - 1 }.onAccept true) = y := by
      obtain ⟨udp, datagrams, accepts, connections, io⟩ := y
      obtain rfl : accepts = 1 := hone
      rfl
    have hfail : Step plainBoost (fun _ => ⟨.head, "/", 11, true⟩) y .acceptError
      ({ y with accepts := y.accepts - 1 }.onAccept true) := .acceptError hio (hone ▸ Nat.one_pos)
    rwa [hsame] at hfail
  obtain ⟨states, hforever, hstart, hend⟩ := Trace.exists_forever hrun hloop
  have hfair : Fair states (fun n => (putThenGet put get)[n]?.getD .acceptError) := by
    intro c n hready
    obtain ⟨-, x', hx', hready'⟩ := hready (n + 9) (Nat.le_add_right n 9)
    rw [hend _ (Nat.le_add_left 9 n), hx] at hx'
    obtain rfl := List.mem_singleton.1 (List.mem_of_getElem? hx')
    rcases hready' with ⟨-, hin⟩ | ⟨close, hwrite⟩
    · exact absurd hrest.inbound hin
    · rw [hrest.pending] at hwrite
      cases hwrite
  exact ⟨states, _, hforever, hfair, rfl, eventually_handled hforever hstart hfair rfl⟩

end Service
end CacheBench
