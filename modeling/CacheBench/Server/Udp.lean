/-
# The UDP service

`class udp_handler` of `cache/udp_handler.hh` and `cache/udp_handler.cc`, as a machine
that takes one completion after the other: each ends an asynchronous operation that was
outstanding and calls back `handle_receive` or `handle_send`, which may start the next.
The cache is shared with the TCP sessions, so a request served there is a step as well.

Beast's `request_parser` is a parameter, the request that `parser.get()` holds once it was
given some bytes.  A datagram goes to the front of `recv_buffer_`, which nothing
initialises, and leaves the rest of it as it was.

`handle_send` starts a receive whether it is called with an error or not, and so does
`handle_receive` start a send, but not when it is called with an error.  So one operation is
outstanding in every state of a run exactly when no receive of it ended in an error
(`UdpHandler.one_pending_iff`).
-/

import CacheBench.Server.Handle
import CacheBench.Server.Message

namespace CacheBench

/-- `udp::endpoint`. -/
abbrev Endpoint := String

/-- `boost::array<char, 1000>`. -/
structure RecvBuffer where
  bytes : List ByteType
  length_eq : bytes.length = 1000

/-- The buffer that holds one byte throughout. -/
def RecvBuffer.replicate (b : ByteType) : RecvBuffer :=
  ⟨List.replicate 1000 b, List.length_replicate⟩

/-- A datagram is received into the buffer; what exceeds it is dropped. -/
def RecvBuffer.fill (b : RecvBuffer) (datagram : List ByteType) : RecvBuffer where
  bytes := datagram.take 1000 ++ b.bytes.drop datagram.length
  length_eq := by
    rw [List.length_append, List.length_take, List.length_drop, b.length_eq]
    omega

/-- A datagram that fits is at the front of the buffer, before what was there. -/
theorem RecvBuffer.fill_bytes (b : RecvBuffer) {datagram : List ByteType}
    (hlen : datagram.length ≤ 1000) :
    (b.fill datagram).bytes = datagram ++ b.bytes.drop datagram.length := by
  show datagram.take 1000 ++ b.bytes.drop datagram.length = _
  rw [List.take_of_length_le hlen]

/-- An asynchronous operation that has not completed. -/
inductive Pending
  | receive
  | send (message : Response) (destination : Endpoint)
deriving DecidableEq

/-- What can happen next: a completion of one of the four kinds, or a request that a TCP
session has handled. -/
inductive Completion
  | received (sender : Endpoint) (datagram : List ByteType)
  | receiveError
  | sent
  | sendError
  | served (req : Request)
deriving DecidableEq

/-- `class udp_handler`, with the cache behind its pointer and the operations outstanding on
its socket. -/
structure UdpHandler (ε : Type) where
  recvBuffer : RecvBuffer
  remoteEndpoint : Endpoint
  cache : Cache ε
  pending : List Pending

namespace UdpHandler

variable {ε : Type}

/-- A handler that was just made, with whatever is in its buffer and endpoint. -/
def new (recvBuffer : RecvBuffer) (remoteEndpoint : Endpoint) (cache : Cache ε) : UdpHandler ε :=
  ⟨recvBuffer, remoteEndpoint, cache, []⟩

/-- `start_recieve`. -/
def startReceive (h : UdpHandler ε) : UdpHandler ε := { h with pending := h.pending ++ [.receive] }

/-- `run`. -/
def run (h : UdpHandler ε) : UdpHandler ε := h.startReceive

/-- `socket_.async_send_to(…, remote_endpoint_, …)`. -/
def asyncSendTo (h : UdpHandler ε) (message : Response) : UdpHandler ε :=
  { h with pending := h.pending ++ [.send message h.remoteEndpoint] }

/-- An outstanding operation completes. -/
def complete (h : UdpHandler ε) (p : Pending) : UdpHandler ε :=
  { h with pending := h.pending.erase p }

/-- A datagram arrives in `recv_buffer_`, and its sender in `remote_endpoint_`. -/
def arrive (h : UdpHandler ε) (sender : Endpoint) (datagram : List ByteType) : UdpHandler ε :=
  { h with recvBuffer := h.recvBuffer.fill datagram, remoteEndpoint := sender }

/-- `handle_send`, which logs the error or the message and goes on. -/
def handleSend (h : UdpHandler ε) (_error : Bool) : UdpHandler ε := h.startReceive

variable [Evictor ε]

/-- `handle_receive`; `parse` is given the whole of `recv_buffer_`. -/
def handleReceive (B : Boost) (parse : List ByteType → Request) (fuel : ℕ) (h : UdpHandler ε)
    (error : Bool) : Option (Except Thrown (UdpHandler ε)) :=
  if error then some (.ok h)
  else
    (handleRequest B fuel h.cache (parse h.recvBuffer.bytes)).map fun
      | (.ok res, c) => .ok ({ h with cache := c }.asyncSendTo res)
      | (.error e, _) => .error e

variable (B : Boost) (parse : List ByteType → Request)

/-- One completion, with the callback it leads to; `handle_request` returns. -/
inductive Step : UdpHandler ε → Completion → UdpHandler ε → Prop
  | received {h h' : UdpHandler ε} {sender : Endpoint} {datagram : List ByteType} {fuel : ℕ} :
      .receive ∈ h.pending →
      ((h.complete .receive).arrive sender datagram).handleReceive B parse fuel false =
        some (.ok h') →
      Step h (.received sender datagram) h'
  | receiveError {h h' : UdpHandler ε} {fuel : ℕ} :
      .receive ∈ h.pending →
      (h.complete .receive).handleReceive B parse fuel true = some (.ok h') →
      Step h .receiveError h'
  | sent {h : UdpHandler ε} {message : Response} {destination : Endpoint} :
      .send message destination ∈ h.pending →
      Step h .sent ((h.complete (.send message destination)).handleSend false)
  | sendError {h : UdpHandler ε} {message : Response} {destination : Endpoint} :
      .send message destination ∈ h.pending →
      Step h .sendError ((h.complete (.send message destination)).handleSend true)
  | served {h : UdpHandler ε} {req : Request} {out : Except Thrown Response} {c' : Cache ε} :
      Handles B h.cache req out c' → Step h (.served req) { h with cache := c' }

/-- A finite run of completions. -/
abbrev Run : UdpHandler ε → List Completion → UdpHandler ε → Prop := Trace.Run (Step B parse)

variable {B parse} {h h' : UdpHandler ε} {completions : List Completion}

/-! ### How many operations are outstanding -/

omit [Evictor ε] in
/-- An operation that completes is one less. -/
theorem length_pending_complete {p : Pending} (hp : p ∈ h.pending) :
    (h.complete p).pending.length + 1 = h.pending.length := by
  have hpos := List.length_pos_of_mem hp
  rw [complete, List.length_erase_of_mem hp]
  omega

omit [Evictor ε] in
/-- `handle_send` starts one operation. -/
theorem length_pending_handleSend (error : Bool) :
    (h.handleSend error).pending.length = h.pending.length + 1 := by
  rw [handleSend, startReceive, List.length_append, List.length_singleton]

/-- A receive that succeeds starts a send. -/
theorem handleReceive_ok {fuel : ℕ} (hrec : h.handleReceive B parse fuel false = some (.ok h')) :
    ∃ res c', handleRequest B fuel h.cache (parse h.recvBuffer.bytes) = some (.ok res, c') ∧
      h' = { h with cache := c' }.asyncSendTo res := by
  unfold handleReceive at hrec
  rw [if_neg Bool.false_ne_true] at hrec
  obtain ⟨⟨out, c'⟩, hreq, heq⟩ := Option.map_eq_some_iff.1 hrec
  cases out with
  | error e => cases heq
  | ok res => exact ⟨res, c', hreq, (Except.ok.inj heq).symm⟩

/-- **What one completion does to the number of operations:** a receive error takes its
operation away, every other completion replaces its own. -/
theorem Step.length_pending {l : Completion} (hstep : Step B parse h l h') :
    h'.pending.length + [l].count .receiveError = h.pending.length := by
  cases hstep with
  | received hmem hrec =>
    obtain ⟨res, c', -, rfl⟩ := handleReceive_ok hrec
    have hlen := length_pending_complete hmem
    simp only [asyncSendTo, arrive, List.length_append, List.length_singleton]
    simpa using hlen
  | receiveError hmem hrec =>
    have hlen := length_pending_complete hmem
    obtain rfl := Except.ok.inj (Option.some.inj hrec)
    simpa using hlen
  | sent hmem =>
    have hlen := length_pending_complete hmem
    rw [length_pending_handleSend]
    simpa using hlen
  | sendError hmem =>
    have hlen := length_pending_complete hmem
    rw [length_pending_handleSend]
    simpa using hlen
  | served hreq => simp

/-- **Over a run** every receive error costs one operation, and nothing else does. -/
theorem Run.length_pending (hrun : Run B parse h completions h') :
    h'.pending.length + completions.count .receiveError = h.pending.length := by
  induction hrun with
  | nil => rfl
  | snoc _ hstep ih =>
    have hone := hstep.length_pending
    rw [List.count_append]
    omega

/-- A HEAD is received and answered, and leaves its bytes in the buffer. -/
theorem run_head {f : List ByteType → Request} (hp : h.pending = [.receive]) (sender : Endpoint)
    (datagram : List ByteType) (hf : (f (h.recvBuffer.fill datagram).bytes).method = .head) :
    Run B f h [.received sender datagram, .sent] (h.arrive sender datagram) := by
  have hhead : ∃ res, handleRequest B 0 h.cache (f (h.recvBuffer.fill datagram).bytes) =
      some (.ok res, h.cache) := by
    unfold handleRequest
    rw [hf]
    exact ⟨_, rfl⟩
  obtain ⟨res, hres⟩ := hhead
  have hcomplete : h.complete .receive = { h with pending := [] } := by
    rw [complete, hp]
    rfl
  have hreceived : Step B f h (.received sender datagram)
      { h.arrive sender datagram with pending := [.send res sender] } := by
    have hrec : ((h.complete .receive).arrive sender datagram).handleReceive B f 0 false =
        some (.ok { h.arrive sender datagram with pending := [.send res sender] }) := by
      rw [hcomplete]
      simp only [handleReceive, arrive, asyncSendTo, hres]
      rfl
    exact .received (by rw [hp]; exact List.mem_cons_self) hrec
  have hsent : Step B f { h.arrive sender datagram with pending := [.send res sender] } .sent
      (h.arrive sender datagram) := by
    have hback : h.arrive sender datagram =
        (({ h.arrive sender datagram with pending := [.send res sender] } : UdpHandler ε).complete
          (.send res sender)).handleSend false := by
      simp [complete, handleSend, startReceive, arrive, hp]
    rw [hback]
    exact .sent List.mem_cons_self
  exact .snoc (.snoc .nil hreceived) hsent

/-- **The service goes deaf exactly when a receive fails.**  In every run of a handler that
was just started, whatever its buffer, its cache and the parser: after every prefix of the run
exactly one operation is outstanding if and only if no completion of the run is a receive
error. -/
theorem one_pending_iff {buffer : RecvBuffer} {endpoint : Endpoint} {c : Cache ε}
    (hrun : Run B parse (new buffer endpoint c).run completions h) :
    (∀ pre post d, completions = pre ++ post →
        Run B parse (new buffer endpoint c).run pre d → d.pending.length = 1) ↔
      .receiveError ∉ completions := by
  have hstart : (new buffer endpoint c).run.pending.length = 1 := rfl
  constructor
  · intro hone herror
    have hlen := Run.length_pending hrun
    rw [hone completions [] h (List.append_nil _).symm hrun, hstart] at hlen
    have hcount := List.count_pos_iff.2 herror
    omega
  · rintro hno pre post d rfl hd
    have hlen := Run.length_pending hd
    rw [hstart, List.count_eq_zero.2 fun hmem => hno (List.mem_append_left _ hmem)] at hlen
    exact hlen

/-- The request of a HEAD without fields. -/
def headMessage (target : String) : Message := ⟨"HEAD", target, 11, [], ""⟩

/-- A HEAD of a target is well formed. -/
theorem wellFormed_headMessage {target : String} (h : IsTarget target) (hne : target ≠ "") :
    (headMessage target).WellFormed where
  method := (by decide : IsToken "HEAD")
  target := h
  target_ne := hne
  version := .inr rfl
  fields := by simp [headMessage]
  connection := by simp [headMessage]
  body := rfl

/-- A HEAD that is received is read. -/
theorem frontParse_fill_head (b : RecvBuffer) {target : String} (h : IsTarget target)
    (hne : target ≠ "") (hlen : (headMessage target).text.length ≤ 1000) :
    frontParse (b.fill (headMessage target).text).bytes = headMessage target := by
  rw [b.fill_bytes hlen]
  exact frontParse_append (wellFormed_headMessage h hne) (headMessage target).written_text _

/-- A HEAD as it is sent, and the reply to it. -/
theorem one_pending_iff_head : ∃ h,
    Run plainBoost (fun bytes => (frontParse bytes).request)
      (new (.replicate nul) "" (Cache.new 30 (some FifoEvictor.new))).run
      [.received "client" "HEAD / HTTP/1.1\r\n\r\n".toList, .sent] h ∧
    ∀ pre post d,
      [.received "client" "HEAD / HTTP/1.1\r\n\r\n".toList, .sent] = pre ++ post →
      Run plainBoost (fun bytes => (frontParse bytes).request)
        (new (.replicate nul) "" (Cache.new 30 (some FifoEvictor.new))).run pre d →
      d.pending.length = 1 := by
  have hread := frontParse_fill_head (.replicate nul) (by decide : IsTarget "/") (by decide)
    (by decide)
  have hrun := run_head (B := plainBoost) (h := (new (.replicate nul) ""
    (Cache.new 30 (some FifoEvictor.new))).run) (f := fun bytes => (frontParse bytes).request) rfl
    "client" (headMessage "/").text (congrArg (fun msg => msg.request.method) hread)
  exact ⟨_, hrun, (one_pending_iff hrun).2 (by decide)⟩

/-- **Deaf after one error:** the first receive ends in an error, and nothing is
outstanding any more. -/
theorem none_pending_of_receiveError : ∃ h,
    Run plainBoost (fun bytes => (frontParse bytes).request)
      (new (.replicate nul) "" (Cache.new 30 (some FifoEvictor.new))).run [.receiveError] h ∧
    h.pending = [] :=
  ⟨_, Trace.run_singleton_iff.2 (@Step.receiveError _ _ _ _ _ _ 0 List.mem_cons_self rfl), rfl⟩

end UdpHandler
end CacheBench
