/-
# What a connection carries

A client need not wait for a response before it writes its next request.  Over any run of
the server the requests of a connection are answered one after the other in the order they
were written, and the responses are read in the order of the requests: none is lost, none
comes twice, none goes to another connection (`Service.pipelined`).  A request on which
`handle_request` fails has left its stream without an answer; there is one at most, for it is
the last that the server takes.

What the server does on a connection follows a conversation of its own, without streams and
callbacks (`Turn.Step`): it listens; a request is answered or the conversation is over; and
after an answer it listens again or closes, as the request says, only that after a PUT and
after a reset it listens in any case (`Service.conversation`).
-/

import CacheBench.Server.Service

namespace CacheBench

/-- **What one move does to the two streams:** what it answers comes off the front of the one
and what it reads off the front of the other; what it writes, and what it answers with, goes
to their ends. -/
theorem Connection.Step.streams {ε : Type} [Evictor ε] {B : Boost} {x x' : Connection}
    {d d' : Cache ε} {m : Move} (h : Connection.Step B (x, d) m (x', d')) :
    (m.answer?.map Prod.fst).toList ++ x'.wire.inbound = x.wire.inbound ++ m.request?.toList ∧
      m.response?.toList ++ x'.wire.outbound =
        x.wire.outbound ++ (m.answer?.map Prod.snd).toList := by
  rcases h.wire_cases with ⟨req, rfl, -, hw⟩ | ⟨req, rest, res, rfl, hin, -, hw⟩ |
    ⟨res, rest, rfl, hout, -, hw⟩ | ⟨⟨hreq, hans, hres⟩, hw, -⟩
  · simp [hw, Move.request?, Move.answer?, Move.response?]
  · simp [hw, hin, Move.request?, Move.answer?, Move.response?]
  · simp [hw, hout, Move.request?, Move.answer?, Move.response?]
  · simp [hw, hreq, hans, hres]

/-! ### The conversation -/

/-- Where a conversation is. -/
inductive Turn
  | listening
  | answered (req : Request)
  | over
deriving DecidableEq, Repr

/-- How a conversation goes on; the client may write and read at any time. -/
inductive Turn.Step : Turn → Move → Turn → Prop
  | client {t : Turn} {m : Move} : m.ByClient → Step t m t
  | handled {k : ℕ} {req : Request} {res : Response} :
      Step .listening (.handled k req res) (.answered req)
  | readError {e : ReadError} : Step .listening (.readError e) .over
  | written {req : Request} : req.KeepsOpen → Step (.answered req) .written .listening
  | closed {req : Request} : ¬req.KeepsOpen → Step (.answered req) .closed .over
  | writeError {req : Request} : Step (.answered req) .writeError .over

/-- What is outstanding there. -/
def Turn.pending : Turn → List SessionOp
  | .listening => [.read]
  | .answered req => [.write (decide ¬req.KeepsOpen)]
  | .over => []

/-- A session that reads is one that listens. -/
theorem Turn.eq_listening {t : Turn} (h : .read ∈ t.pending) : t = .listening := by
  cases t <;> simp_all [Turn.pending]

/-- A session that writes has answered a request. -/
theorem Turn.eq_answered {t : Turn} {close : Bool} (h : .write close ∈ t.pending) :
    ∃ req, t = .answered req ∧ close = decide ¬req.KeepsOpen := by
  cases t <;> simp_all [Turn.pending]

/-- **One move of a connection is a move of the conversation.** -/
theorem Turn.simulates {ε : Type} [Evictor ε] {B : Boost} {x x' : Connection} {d d' : Cache ε}
    {m : Move} {t : Turn} (ht : x.session.pending = t.pending)
    (h : Connection.Step B (x, d) m (x', d')) :
    ∃ t', Turn.Step t m t' ∧ x'.session.pending = t'.pending := by
  cases h with
  | sent | received => exact ⟨t, .client trivial, ht⟩
  | @handled _ _ _ req rest _ s res hread _ hok =>
    obtain rfl := Turn.eq_listening (ht ▸ hread)
    obtain ⟨res', hreq, rfl⟩ := Session.onRead_ok hok
    have hclose : res'.needEof = decide ¬req.KeepsOpen := by
      have hiff := Handles.needEof_iff ⟨_, hreq⟩
      exact Bool.eq_iff_iff.2 (hiff.trans decide_eq_true_iff.symm)
    refine ⟨.answered req, .handled, ?_⟩
    simp [Session.send, Session.take, Session.complete, ht, Turn.pending, hclose]
  | @readError _ _ _ e _ _ hread hfail =>
    obtain rfl := Turn.eq_listening (ht ▸ hread)
    have hnone : (x.session.complete .read).pending = [] := by
      simp [Session.complete, ht, Turn.pending]
    refine ⟨.over, .readError, ?_⟩
    cases e with
    | endOfStream =>
      obtain ⟨rfl, -⟩ := Prod.mk.inj (Except.ok.inj (Option.some.inj hfail))
      exact hnone
    | other =>
      obtain ⟨rfl, -⟩ := Prod.mk.inj (Except.ok.inj (Option.some.inj hfail))
      exact hnone
  | written hwrite =>
    obtain ⟨req, rfl, hclose⟩ := Turn.eq_answered (ht ▸ hwrite)
    have hopen : req.KeepsOpen := not_not.1 (of_decide_eq_false hclose.symm)
    refine ⟨.listening, .written hopen, ?_⟩
    simp [Session.onWrite, Session.doRead, Session.complete, ht, Turn.pending, hopen]
  | closed hwrite =>
    obtain ⟨req, rfl, hclose⟩ := Turn.eq_answered (ht ▸ hwrite)
    have hends : ¬req.KeepsOpen := of_decide_eq_true hclose.symm
    refine ⟨.over, .closed hends, ?_⟩
    simp [Session.onWrite, Session.doClose, Session.complete, ht, Turn.pending, hends]
  | @writeError _ _ close hwrite =>
    obtain ⟨req, rfl, hclose⟩ := Turn.eq_answered (ht ▸ hwrite)
    refine ⟨.over, .writeError, ?_⟩
    simp [Session.onWrite, Session.fail, Session.complete, ht, Turn.pending, hclose]

namespace Service

variable {ε : Type} [Evictor ε] {B : Boost} {parse : List ByteType → Request}
variable {y y' : Service ε} {l : Happening} {ls : List Happening} {c : ℕ}

/-- The move on the connection `c`, if it is one. -/
def moveOf (c : ℕ) : Happening → Option Move
  | .tcp c' m => if c' = c then some m else none
  | _ => none

/-- What happened on the connection `c`. -/
def moves (c : ℕ) (ls : List Happening) : List Move := ls.filterMap (moveOf c)

/-- What happens elsewhere is no move on the connection. -/
theorem moves_snoc_of_ne (h : ∀ m, l ≠ .tcp c m) : moves c (ls ++ [l]) = moves c ls := by
  have hnone : moveOf c l = none := by
    cases l with
    | tcp c' m => exact if_neg fun heq => h m (by rw [heq])
    | _ => rfl
  simp [moves, hnone]

/-- A move comes at the end of the moves. -/
theorem moves_snoc_tcp (m : Move) : moves c (ls ++ [.tcp c m]) = moves c ls ++ [m] := by
  simp [moves, moveOf]

/-- The requests of the connection `c` that `handle_request` failed on. -/
def failures (c : ℕ) (ls : List Happening) : List Request := ls.filterMap (failedOn c)

/-- A request that fails comes at the end of the failures. -/
theorem failures_snoc : failures c (ls ++ [l]) = failures c ls ++ (failedOn c l).toList := by
  cases hl : failedOn c l <;> simp [failures, hl]

/-- Where nothing fails no request has. -/
theorem failedOn_eq_none (h : ∀ f o req, l ≠ .failed f o req) : failedOn c l = none := by
  cases l with
  | failed f o req => exact absurd rfl (h f o req)
  | _ => rfl

/-- There is one at most, and then the server does not run any more. -/
theorem failures_cases {buffer : RecvBuffer} {endpoint : Endpoint} {d : Cache ε}
    (h : Run B parse (start buffer endpoint d) ls y) :
    failures c ls = [] ∨ y.io ≠ .running ∧ ∃ req, failures c ls = [req] := by
  induction h with
  | nil => exact Or.inl rfl
  | @snoc ls l y y' _ hstep ih =>
    by_cases hio : y'.io = .running
    · obtain ⟨hrun, hnot⟩ := hstep.running hio
      have hnil := ih.resolve_right fun hstopped => hstopped.1 hrun
      exact Or.inl (by rw [failures_snoc, hnil, failedOn_eq_none hnot]; rfl)
    · rw [failures_snoc]
      cases hl : failedOn c l with
      | none =>
        rw [Option.toList_none, List.append_nil]
        exact ih.imp_right fun hstopped => ⟨hio, hstopped.2⟩
      | some req =>
        -- a callback that fails is one of a server that ran
        have hrun : y.io = .running := by
          cases hstep with
          | failed hrun => exact hrun
          | _ => cases hl
        have hnil := ih.resolve_right fun hstopped => hstopped.1 hrun
        exact Or.inr ⟨hio, req, by rw [hnil]; rfl⟩

/-- The streams of a connection hold what was written and neither answered nor lost in a
callback that failed, and what was answered and not yet read. -/
structure Pipelined (ms : List Move) (failed : List Request) (x : Connection) : Prop where
  requests : (ms.filterMap Move.answer?).map Prod.fst ++ failed ++ x.wire.inbound =
    ms.filterMap Move.request?
  responses : ms.filterMap Move.response? ++ x.wire.outbound =
    (ms.filterMap Move.answer?).map Prod.snd

/-- **One move keeps it so,** where none has failed or the client moves. -/
theorem Pipelined.step {ms : List Move} {failed : List Request} {x x' : Connection}
    {d d' : Cache ε} {m : Move} (h : Pipelined ms failed x)
    (hmove : Connection.Step B (x, d) m (x', d')) (hfailed : failed = [] ∨ m.ByClient) :
    Pipelined (ms ++ [m]) failed x' := by
  obtain ⟨hin, hout⟩ := hmove.streams
  have hone : ∀ {α : Type} (f : Move → Option α), [m].filterMap f = (f m).toList := by
    intro α f
    cases hf : f m <;> simp [hf]
  -- nothing is answered behind a request that has failed
  have hswap : (m.answer?.map Prod.fst).toList ++ failed =
      failed ++ (m.answer?.map Prod.fst).toList := by
    rcases hfailed with rfl | hclient
    · exact (List.append_nil _)
    · cases m with
      | sent | received => exact (List.append_nil failed).symm
      | _ => cases hclient
  constructor
  · calc ((ms ++ [m]).filterMap Move.answer?).map Prod.fst ++ failed ++ x'.wire.inbound
        = (ms.filterMap Move.answer?).map Prod.fst ++
            ((m.answer?.map Prod.fst).toList ++ failed) ++ x'.wire.inbound := by
          rw [List.filterMap_append, hone, List.map_append, ← Option.toList_map]
          simp only [List.append_assoc]
      _ = (ms.filterMap Move.answer?).map Prod.fst ++ failed ++
            ((m.answer?.map Prod.fst).toList ++ x'.wire.inbound) := by
          rw [hswap]
          simp only [List.append_assoc]
      _ = (ms ++ [m]).filterMap Move.request? := by
          rw [hin, ← List.append_assoc, h.requests, List.filterMap_append, hone]
  · rw [List.filterMap_append, List.filterMap_append, hone, hone, List.map_append,
      ← Option.toList_map, List.append_assoc, hout, ← List.append_assoc, h.responses]

/-- `handle_request` fails on the first request of the stream. -/
theorem Pipelined.taken {ms : List Move} {x : Connection} {req : Request} {rest : List Request}
    (h : Pipelined ms [] x) (hin : x.session.stream.inbound = req :: rest) :
    Pipelined ms [req] (x.taken req rest) := by
  refine ⟨?_, h.responses⟩
  rw [← h.requests, List.append_nil, List.append_assoc]
  exact congrArg _ hin.symm

/-- Nothing has happened on a connection that has not been accepted. -/
theorem moves_of_length_le {buffer : RecvBuffer} {endpoint : Endpoint} {d : Cache ε}
    (h : Run B parse (start buffer endpoint d) ls y) (hc : y.connections.length ≤ c) :
    moves c ls = [] := by
  induction h with
  | nil => rfl
  | @snoc ls l _ _ _ hstep ih =>
    have hlen := hstep.length_connections
    have hother : ∀ m, l ≠ .tcp c m := by
      intro m hl
      have := hstep.lt_length hl
      omega
    rw [moves_snoc_of_ne hother]
    exact ih (by omega)

/-- Nothing has failed on a connection that has not been accepted. -/
theorem failures_of_length_le {buffer : RecvBuffer} {endpoint : Endpoint} {d : Cache ε}
    (h : Run B parse (start buffer endpoint d) ls y) (hc : y.connections.length ≤ c) :
    failures c ls = [] := by
  induction h with
  | nil => rfl
  | @snoc ls l _ _ _ hstep ih =>
    have hlen := hstep.length_connections
    rw [failures_snoc, ih (by omega), hstep.failedOn_of_length_le (by omega)]
    rfl

/-- **A connection is a pipeline.**  After any run of the server, on every connection: the
requests that were answered are the first of those that were written, in that order; the
responses that were read are the first of those answers, in that order; and the rest of both
is in the streams, save the one request on which `handle_request` may have failed, after which
the server does not run any more. -/
theorem pipelined {buffer : RecvBuffer} {endpoint : Endpoint} {d : Cache ε} {x : Connection}
    (h : Run B parse (start buffer endpoint d) ls y) (hx : y.connections[c]? = some x) :
    Pipelined (moves c ls) (failures c ls) x ∧
      (failures c ls = [] ∨ y.io ≠ .running ∧ ∃ req, failures c ls = [req]) := by
  refine ⟨?_, failures_cases h⟩
  induction h generalizing x with
  | nil => simp [start, doAccept] at hx
  | @snoc ls l y y' hrun hstep ih =>
    have hwas := failures_cases (c := c) hrun
    rcases hstep.connection hx with ⟨hx, hother, hnone⟩ | ⟨rfl, rfl, rfl⟩ |
      ⟨m, x₀, rfl, hx₀, hmove⟩ | ⟨f, req, x₀, rest, rfl, hx₀, hin, rfl⟩
    · rw [moves_snoc_of_ne hother, failures_snoc, hnone, Option.toList_none, List.append_nil]
      exact ih hx
    · rw [moves_snoc_of_ne (by simp), failures_snoc, moves_of_length_le hrun le_rfl,
        failures_of_length_le hrun le_rfl]
      exact ⟨rfl, rfl⟩
    · rw [moves_snoc_tcp, failures_snoc]
      refine (List.append_nil (failures c ls)).symm ▸ (ih hx₀).step hmove ?_
      exact hwas.imp_right fun hstopped => hstep.byClient hstopped.1
    · have hio : y.io = .running := by
        cases hstep with
        | failed hio => exact hio
      have hnil := hwas.resolve_right fun hstopped => hstopped.1 hio
      rw [moves_snoc_of_ne (by simp), failures_snoc, hnil]
      have hone : (failedOn c (.failed f (.session c) req)).toList = [req] := by
        simp [failedOn]
      rw [hone]
      exact (hnil ▸ ih hx₀).taken hin

/-- After a PUT and a GET nothing is left in the streams. -/
theorem pipelined_putThenGet : ∃ ls y x,
    Run plainBoost (fun _ => ⟨.head, "/", 11, true⟩) (start (.replicate nul) "" (serverCache 30))
      ls y ∧ y.connections[0]? = some x ∧ (moves 0 ls).length = 8 ∧
      Pipelined (moves 0 ls) [] x := by
  obtain ⟨put, get, y, x, -, -, hrun, -, hx, -⟩ := run_putThenGet
  have hget : y.connections[0]? = some x := by rw [hx]; rfl
  exact ⟨_, y, x, hrun, hget, rfl, (pipelined hrun hget).1⟩

/-- **Every connection is a conversation.**  In any run of the server, what happens on a
connection is a run of the conversation that starts with listening, and as long as the server
runs, what is outstanding on the connection is what the place it has come to says. -/
theorem conversation {buffer : RecvBuffer} {endpoint : Endpoint} {d : Cache ε} {x : Connection}
    (h : Run B parse (start buffer endpoint d) ls y) (hx : y.connections[c]? = some x) :
    ∃ t, Trace.Run Turn.Step .listening (moves c ls) t ∧
      (y.io = .running → x.session.pending = t.pending) := by
  induction h generalizing x with
  | nil => simp [start, doAccept] at hx
  | @snoc ls l y y' hrun hstep ih =>
    rcases hstep.connection hx with ⟨hx, hother, -⟩ | ⟨rfl, rfl, rfl⟩ |
      ⟨m, x₀, rfl, hx₀, hmove⟩ | ⟨f, req, x₀, rest, rfl, hx₀, -, rfl⟩
    · rw [moves_snoc_of_ne hother]
      obtain ⟨t, hturns, ht⟩ := ih hx
      exact ⟨t, hturns, fun hio => ht (hstep.running hio).1⟩
    · rw [moves_snoc_of_ne (by simp), moves_of_length_le hrun le_rfl]
      exact ⟨.listening, .nil, fun _ => rfl⟩
    · obtain ⟨t, hturns, ht⟩ := ih hx₀
      rw [moves_snoc_tcp]
      by_cases hio : y.io = .running
      · obtain ⟨t', hturn, ht'⟩ := Turn.simulates (ht hio) hmove
        exact ⟨t', .snoc hturns hturn, fun _ => ht'⟩
      · exact ⟨t, .snoc hturns (.client (hstep.byClient hio)),
          fun hio' => absurd (hstep.running hio').1 hio⟩
    · obtain ⟨t, hturns, -⟩ := ih hx₀
      rw [moves_snoc_of_ne (by simp)]
      exact ⟨t, hturns, fun hio => absurd rfl ((hstep.running hio).2 f _ req)⟩

/-- After a PUT and a GET the conversation goes on. -/
theorem conversation_putThenGet : ∃ ls y x,
    Run plainBoost (fun _ => ⟨.head, "/", 11, true⟩) (start (.replicate nul) "" (serverCache 30))
      ls y ∧ y.connections[0]? = some x ∧ (moves 0 ls).length = 8 ∧
      ∃ t, Trace.Run Turn.Step .listening (moves 0 ls) t ∧ x.session.pending = t.pending := by
  obtain ⟨put, get, y, x, -, -, hrun, hio, hx, -⟩ := run_putThenGet
  have hget : y.connections[0]? = some x := by rw [hx]; rfl
  obtain ⟨t, hturns, ht⟩ := conversation hrun hget
  exact ⟨_, y, x, hrun, hget, rfl, t, hturns, ht hio⟩

end Service
end CacheBench
