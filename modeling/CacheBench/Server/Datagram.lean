/-
# What a reply to a datagram depends on

`handle_receive` makes its string of the whole of `recv_buffer_`, whatever
`bytes_transferred` says, so the parser is given the datagram and after it what earlier
datagrams, or nobody, left in the buffer.  Two histories that end in the same state of the
cache hand on the same request for a datagram, and send the same reply, exactly when
what follows the datagram makes no difference to the parser (`settled_of_independent`,
`independent_of_settled`).

All that is assumed of the parser is that it reads a request which its bytes begin with, if
that is no longer than a datagram.
So it is settled for a datagram that contains a whole request (`Whole`) or fills the
buffer, for no parser is it settled when the datagram is the beginning of two requests
(`Cut`), and in between it is the parser's own affair (`UdpHandler.independent_iff`).  A
datagram that ends in its head or in its body is cut, unless the buffer ends there too
(`EndsEarly.cut`).
-/

import CacheBench.Server.Udp
import CacheBench.Server.Serve

namespace CacheBench

/-- The datagram contains a whole request: start line, fields, empty line, and a body of the
length that the fields announce. -/
def Whole (datagram : List ByteType) : Prop :=
  ∃ msg bytes rest, Message.WellFormed msg ∧ msg.Written bytes ∧ datagram = bytes ++ rest

/-- Two different requests that the buffer has room for begin with the datagram. -/
def Cut (datagram : List ByteType) : Prop :=
  ∃ msg msg' : Message, ∃ more more' : List ByteType, msg ≠ msg' ∧
    msg.WellFormed ∧ msg.Written (datagram ++ more) ∧ (datagram ++ more).length ≤ 1000 ∧
    msg'.WellFormed ∧ msg'.Written (datagram ++ more') ∧ (datagram ++ more').length ≤ 1000

/-- The datagram ends before its request does: in the start line or the fields, with room for
one field more, or in the body, with room for all of it. -/
inductive EndsEarly (datagram : List ByteType) : Prop
  | head {msg : Message} {lines : List ByteType} : msg.WellFormed → FieldLines msg.fields lines →
      datagram <+: msg.startLine ++ lines →
      (msg.startLine ++ lines).length + 7 + msg.body.length ≤ 1000 → EndsEarly datagram
  | body {msg : Message} {lines part : List ByteType} : msg.WellFormed →
      FieldLines msg.fields lines → datagram = msg.startLine ++ lines ++ crlf ++ part →
      part.length < msg.body.length →
      (msg.startLine ++ lines ++ crlf).length + msg.body.length ≤ 1000 → EndsEarly datagram

/-- What the parser makes of the datagram in a buffer of 1000 bytes does not depend on the
bytes after it. -/
def Settled (parse : List ByteType → Message) (datagram : List ByteType) : Prop :=
  ∀ tail tail' : List ByteType, tail.length = 1000 - datagram.length →
    tail'.length = 1000 - datagram.length → parse (datagram ++ tail) = parse (datagram ++ tail')

variable {parse : List ByteType → Message} {datagram : List ByteType}

/-! ### Datagrams that end early -/

/-- Lines of fields may follow one another. -/
theorem FieldLines.append {fields fields' : List (String × String)} {lines lines' : List ByteType}
    (h : FieldLines fields lines) (h' : FieldLines fields' lines') :
    FieldLines (fields ++ fields') (lines ++ lines') := by
  induction h with
  | nil => exact h'
  | @cons name value _ _ _ _ hbefore hafter _ ih =>
    have hcons := @FieldLines.cons name value _ _ _ _ hbefore hafter ih
    simpa using hcons

/-- A field that says nothing of the connection or the body may be added. -/
theorem Message.WellFormed.addField {msg : Message} (h : msg.WellFormed) {value : String}
    (hvalue : IsFieldValue value) :
    ({ msg with fields := msg.fields ++ [("a", value)] } : Message).WellFormed where
  method := h.method
  target := h.target
  target_ne := h.target_ne
  version := h.version
  fields := by
    intro f hf
    rcases List.mem_append.1 hf with hf | hf
    · exact h.fields f hf
    · rw [List.mem_singleton.1 hf]
      exact ⟨(by decide : IsToken "a"), hvalue⟩
  connection := by
    intro f hf hname
    rcases List.mem_append.1 hf with hf | hf
    · exact h.connection f hf hname
    · rw [List.mem_singleton.1 hf] at hname
      exact absurd hname (by decide : ¬isNamed "connection" "a")
  body := by
    have hfilter : [("a", value)].filter (fun f : String × String =>
        isNamed "content-length" f.1 || isNamed "transfer-encoding" f.1) = [] := by
      have hname : (isNamed "content-length" "a" || isNamed "transfer-encoding" "a") = false := by
        decide
      simp only [List.filter_cons, hname, Bool.false_eq_true, if_false, List.filter_nil]
    have hbody := h.body
    unfold announced at hbody ⊢
    rwa [List.filter_append, hfilter, List.append_nil]

/-- A body of the same length may be put in. -/
theorem Message.WellFormed.withBody {msg : Message} (h : msg.WellFormed) {body : String}
    (hbody : body.length = msg.body.length) : ({ msg with body := body } : Message).WellFormed :=
  { h with body := h.body.trans (congrArg some hbody.symm) }

/-- **A datagram that ends early is cut:** its request may go on in two ways. -/
theorem EndsEarly.cut (h : EndsEarly datagram) : Cut datagram := by
  cases h with
  | @head msg lines hmsg hlines hprefix hlen =>
    obtain ⟨more, hmore⟩ := hprefix
    -- one more field, of either value
    have hwritten : ∀ value : String, ({ msg with fields := msg.fields ++ [("a", value)] } :
        Message).Written (datagram ++ (more ++ ('a' :: ':' :: (value.toList ++ crlf)) ++ crlf ++
          msg.body.toList)) := by
      intro value
      have hline : FieldLines [("a", value)] ('a' :: ':' :: (value.toList ++ crlf)) := by
        have h := @FieldLines.cons "a" value [] [] [] [] (List.forall_mem_nil _)
          (List.forall_mem_nil _) .nil
        simpa using h
      refine ⟨lines ++ ('a' :: ':' :: (value.toList ++ crlf)), hlines.append hline, ?_⟩
      have hstart : ({ msg with fields := msg.fields ++ [("a", value)] } : Message).startLine =
        msg.startLine := rfl
      rw [hstart, ← List.append_assoc msg.startLine, ← hmore]
      simp only [List.append_assoc]
    have hroom : ∀ value : String, value.length = 1 →
        (datagram ++ (more ++ ('a' :: ':' :: (value.toList ++ crlf)) ++ crlf ++
          msg.body.toList)).length ≤ 1000 := by
      intro value hvalue
      rw [← hmore] at hlen
      simp only [List.length_append, List.length_cons, crlf, List.length_nil,
        String.length_toList] at hlen ⊢
      omega
    refine ⟨_, _, _, _, ?_, hmsg.addField (by decide : IsFieldValue "1"), hwritten "1",
      hroom "1" rfl, hmsg.addField (by decide : IsFieldValue "2"), hwritten "2", hroom "2" rfl⟩
    intro heq
    have hfields := List.append_cancel_left (congrArg Message.fields heq)
    exact absurd hfields (by decide)
  | @body msg lines part hmsg hlines hdatagram hpart hlen =>
    -- the rest of the body, in either letter
    let body (b : ByteType) : String :=
      String.ofList (part ++ List.replicate (msg.body.length - part.length) b)
    have hlength : ∀ b, (body b).length = msg.body.length := by
      intro b
      simp only [body, String.length_ofList, List.length_append, List.length_replicate]
      omega
    have hwritten : ∀ b, ({ msg with body := body b } : Message).Written
        (datagram ++ List.replicate (msg.body.length - part.length) b) := by
      intro b
      refine ⟨lines, hlines, ?_⟩
      have hstart : ({ msg with body := body b } : Message).startLine = msg.startLine := rfl
      simp only [hstart, hdatagram, body, String.toList_ofList, List.append_assoc]
    have hroom : ∀ b, (datagram ++
        List.replicate (msg.body.length - part.length) b).length ≤ 1000 := by
      intro b
      rw [hdatagram]
      simp only [List.length_append, List.length_replicate] at hlen ⊢
      omega
    refine ⟨_, _, _, _, ?_, hmsg.withBody (hlength 'a'), hwritten 'a', hroom 'a',
      hmsg.withBody (hlength 'b'), hwritten 'b', hroom 'b'⟩
    intro heq
    have hbody := congrArg (fun msg : Message => msg.body.toList) heq
    simp only [body, String.toList_ofList] at hbody
    have htail := List.append_cancel_left hbody
    obtain ⟨n, hn⟩ := Nat.exists_eq_succ_of_ne_zero (Nat.sub_ne_zero_of_lt hpart)
    rw [hn, List.replicate_succ, List.replicate_succ] at htail
    exact absurd (List.cons.inj htail).1 (by decide)

/-! ### Which datagrams are settled -/

/-- A datagram that contains a whole request. -/
theorem ParsesFront.settled_of_whole (hparse : ParsesFront parse) (h : Whole datagram)
    (hlen : datagram.length ≤ 1000) : Settled parse datagram := by
  obtain ⟨msg, bytes, rest, hmsg, hbytes, rfl⟩ := h
  have hle : bytes.length ≤ 1000 := by
    rw [List.length_append] at hlen
    omega
  intro tail tail' _ _
  rw [List.append_assoc, List.append_assoc, hparse msg bytes _ hmsg hbytes hle,
    hparse msg bytes _ hmsg hbytes hle]

/-- A datagram that fills the buffer. -/
theorem settled_of_length_eq (h : datagram.length = 1000) : Settled parse datagram := by
  intro tail tail' ht ht'
  rw [h, Nat.sub_self, List.length_eq_zero_iff] at ht ht'
  rw [ht, ht']

/-- A beginning of a request that fits may be filled up to 1000 bytes. -/
theorem ParsesFront.exists_tail (hparse : ParsesFront parse) {msg : Message}
    {more : List ByteType} (hmsg : msg.WellFormed) (hwritten : msg.Written (datagram ++ more))
    (hlen : (datagram ++ more).length ≤ 1000) :
    ∃ tail, tail.length = 1000 - datagram.length ∧ parse (datagram ++ tail) = msg := by
  refine ⟨more ++ List.replicate (1000 - (datagram ++ more).length) nul, ?_, ?_⟩
  · simp only [List.length_append, List.length_replicate] at hlen ⊢
    omega
  · rw [← List.append_assoc]
    exact hparse msg _ _ hmsg hwritten hlen

/-- **A datagram that is cut is not settled,** whatever the parser. -/
theorem ParsesFront.not_settled_of_cut (hparse : ParsesFront parse) (h : Cut datagram) :
    ¬Settled parse datagram := by
  obtain ⟨msg, msg', more, more', hne, hmsg, hwritten, hlen, hmsg', hwritten', hlen'⟩ := h
  obtain ⟨tail, htail, hread⟩ := hparse.exists_tail hmsg hwritten hlen
  obtain ⟨tail', htail', hread'⟩ := hparse.exists_tail hmsg' hwritten' hlen'
  intro hsettled
  exact hne (hread.symm.trans ((hsettled tail tail' htail htail').trans hread'))

/-- What a parser is left with that could not read the bytes. -/
def unread (bytes : List ByteType) : Message := ⟨"", String.ofList bytes, 0, [], ""⟩

open Classical in
/-- A parser that reads whole requests, and hands on the bytes where there is none. -/
noncomputable def cautiousParse (bytes : List ByteType) : Message :=
  if Whole bytes then frontParse bytes else unread bytes

open Classical in
/-- A parser that reads whole requests, and what begins with the datagram as the one request
that it can become, if any. -/
noncomputable def guessingParse (datagram bytes : List ByteType) : Message :=
  if Whole bytes then frontParse bytes
  else if h : datagram <+: bytes ∧
      ∃ tail, tail.length = 1000 - datagram.length ∧ Whole (datagram ++ tail) then
    frontParse (datagram ++ h.2.choose)
  else unread []

/-- A parser that reads whole requests reads them wherever they are in front. -/
theorem parsesFront_of_whole (h : ∀ bytes, Whole bytes → parse bytes = frontParse bytes) :
    ParsesFront parse := by
  intro msg bytes rest hmsg hbytes _
  rw [h _ ⟨msg, bytes, rest, hmsg, hbytes, rfl⟩]
  exact frontParse_append hmsg hbytes rest

/-- Bytes that contain a request which the datagram does not contain go on with it. -/
theorem Whole.exists_more {tail : List ByteType} (h : Whole (datagram ++ tail))
    (hwhole : ¬Whole datagram) :
    ∃ msg b more rest, Message.WellFormed msg ∧ msg.Written (datagram ++ b :: more) ∧
      tail = b :: more ++ rest ∧ frontParse (datagram ++ tail) = msg := by
  obtain ⟨msg, bytes, rest, hmsg, hbytes, heq⟩ := h
  have hread : frontParse (datagram ++ tail) = msg :=
    heq ▸ frontParse_append hmsg hbytes rest
  rcases List.append_eq_append_iff.1 heq with ⟨more, rfl, htail⟩ | ⟨more, hdatagram, hrest⟩
  · cases more with
    | nil => exact absurd ⟨msg, datagram, [], hmsg, by simpa using hbytes, by simp⟩ hwhole
    | cons b more => exact ⟨msg, b, more, rest, hmsg, hbytes, htail, hread⟩
  · exact absurd ⟨msg, bytes, more, hmsg, hbytes, hdatagram⟩ hwhole

/-- The last byte that is written is the last of the body, or ends the empty line. -/
theorem Message.Written.getLast?_eq {msg : Message} {bytes : List ByteType}
    (h : msg.Written bytes) : bytes.getLast? = (crlf ++ msg.body.toList).getLast? := by
  obtain ⟨lines, -, rfl⟩ := h
  rw [List.append_assoc]
  exact List.getLast?_append_of_ne_nil _ (by simp [crlf])

/-- What a request ends with that goes on with one byte only. -/
theorem getLast?_append_replicate {b c : ByteType} {n : ℕ} {more rest : List ByteType}
    (h : List.replicate n b = c :: more ++ rest) :
    (datagram ++ c :: more).getLast? = some b := by
  rw [List.getLast?_append_of_ne_nil _ (List.cons_ne_nil c more),
    List.getLast?_eq_some_getLast (List.cons_ne_nil c more)]
  refine congrArg some (List.eq_of_mem_replicate (n := n) ?_)
  rw [h]
  exact List.mem_append_left _ (List.getLast_mem _)

/-- **Where there is no whole request** and the buffer goes on, a cautious parser is not
settled. -/
theorem not_settled_cautiousParse (hwhole : ¬Whole datagram) (hlen : datagram.length < 1000) :
    ¬Settled cautiousParse datagram := by
  obtain ⟨n, hn⟩ := Nat.exists_eq_succ_of_ne_zero (Nat.sub_ne_zero_of_lt hlen)
  intro hsettled
  have heq := hsettled (List.replicate (n + 1) 'a') (List.replicate (n + 1) 'b')
    (by simp [hn]) (by simp [hn])
  have hversion : ∀ {tail}, Whole (datagram ++ tail) →
      (frontParse (datagram ++ tail)).version ≠ 0 := by
    intro tail h
    obtain ⟨msg, b, more, rest, hmsg, -, -, hread⟩ := h.exists_more hwhole
    rw [hread]
    rcases hmsg.version with h | h <;> omega
  unfold cautiousParse at heq
  split_ifs at heq with ha hb hb
  · -- the request that both contain would end with an `a` and with a `b`
    obtain ⟨msg, c, more, rest, -, hwritten, htail, hread⟩ := ha.exists_more hwhole
    obtain ⟨msg', c', more', rest', -, hwritten', htail', hread'⟩ := hb.exists_more hwhole
    obtain rfl : msg = msg' := hread.symm.trans (heq.trans hread')
    have hlast := hwritten.getLast?_eq.trans hwritten'.getLast?_eq.symm
    rw [getLast?_append_replicate htail, getLast?_append_replicate htail'] at hlast
    exact absurd (Option.some.inj hlast) (by decide)
  · exact hversion ha (congrArg Message.version heq)
  · exact hversion hb (congrArg Message.version heq).symm
  · have htarget := congrArg (fun msg : Message => msg.target.toList) heq
    simp only [unread, String.toList_ofList] at htarget
    exact absurd (List.cons.inj (List.append_cancel_left htarget)).1 (by decide)

/-- **Where the datagram is not cut,** a guessing parser is settled. -/
theorem settled_guessingParse (hcut : ¬Cut datagram) (hlen : datagram.length ≤ 1000) :
    Settled (guessingParse datagram) datagram := by
  by_cases hwhole : Whole datagram
  · exact (parsesFront_of_whole fun bytes h => if_pos h).settled_of_whole hwhole hlen
  -- all that the datagram can become is one request
  have hone : ∀ {tail tail' : List ByteType}, tail.length = 1000 - datagram.length →
      tail'.length = 1000 - datagram.length → Whole (datagram ++ tail) →
      Whole (datagram ++ tail') → frontParse (datagram ++ tail) =
        frontParse (datagram ++ tail') := by
    intro tail tail' ht ht' h h'
    obtain ⟨msg, c, more, rest, hmsg, hwritten, htail, hread⟩ := h.exists_more hwhole
    obtain ⟨msg', c', more', rest', hmsg', hwritten', htail', hread'⟩ := h'.exists_more hwhole
    rw [hread, hread']
    by_contra hne
    refine hcut ⟨msg, msg', _, _, hne, hmsg, hwritten, ?_, hmsg', hwritten', ?_⟩
    · rw [htail, List.length_append] at ht
      rw [List.length_append]
      omega
    · rw [htail', List.length_append] at ht'
      rw [List.length_append]
      omega
  by_cases hsome : ∃ tail, tail.length = 1000 - datagram.length ∧ Whole (datagram ++ tail)
  · have hread : ∀ tail, tail.length = 1000 - datagram.length →
        guessingParse datagram (datagram ++ tail) = frontParse (datagram ++ hsome.choose) := by
      intro tail ht
      unfold guessingParse
      split_ifs with h hguess
      · exact hone ht hsome.choose_spec.1 h hsome.choose_spec.2
      · rfl
      · exact absurd ⟨List.prefix_append _ _, hsome⟩ hguess
    intro tail tail' ht ht'
    rw [hread tail ht, hread tail' ht']
  · have hread : ∀ tail, tail.length = 1000 - datagram.length →
        guessingParse datagram (datagram ++ tail) = unread [] := by
      intro tail ht
      unfold guessingParse
      rw [if_neg fun h => hsome ⟨tail, ht, h⟩, dif_neg fun h => hsome h.2]
    intro tail tail' ht ht'
    rw [hread tail ht, hread tail' ht']

/-! ### Two histories -/

namespace UdpHandler

variable {ε : Type}

/-- What `handle_request` reads of what the parser is left with. -/
def requestOf (parse : List ByteType → Message) (bytes : List ByteType) : Request :=
  (parse bytes).request

/-- The request that is handed to `handle_request` for a datagram. -/
def request (parse : List ByteType → Message) (h : UdpHandler ε) (datagram : List ByteType) :
    Message :=
  parse (h.recvBuffer.fill datagram).bytes

variable [Evictor ε]

/-- Two states hand on the same request for a datagram, and where the first then sends a
reply so does the second, the same one, and leaves the same cache. -/
structure SameAnswer (B : Boost) (parse : List ByteType → Message) (h₁ h₂ : UdpHandler ε)
    (datagram : List ByteType) : Prop where
  request : h₁.request parse datagram = h₂.request parse datagram
  reply : ∀ sender h₁', Step B (requestOf parse) h₁ (.received sender datagram) h₁' →
    ∃ h₂', Step B (requestOf parse) h₂ (.received sender datagram) h₂' ∧
      h₂'.pending = h₁'.pending ∧ h₂'.cache = h₁'.cache

/-- Any two histories that end in the same state of the cache answer the datagram alike. -/
def Independent (B : Boost) (parse : List ByteType → Message) (datagram : List ByteType) : Prop :=
  ∀ (maxmem : SizeType) (b₁ b₂ : RecvBuffer) (e₁ e₂ : Endpoint)
    (history₁ history₂ : List Completion) (h₁ h₂ : UdpHandler FifoEvictor),
    Run B (requestOf parse) (new b₁ e₁ (serverCache maxmem)).run history₁ h₁ →
    Run B (requestOf parse) (new b₂ e₂ (serverCache maxmem)).run history₂ h₂ →
    h₁.cache = h₂.cache → .receive ∈ h₁.pending → .receive ∈ h₂.pending →
    SameAnswer B parse h₁ h₂ datagram

variable {B : Boost} {h : UdpHandler ε}

/-- A handler that waits for a datagram waits for nothing else. -/
theorem Run.pending_eq {f : List ByteType → Request} {buffer : RecvBuffer} {endpoint : Endpoint}
    {c : Cache ε} {history : List Completion}
    (hrun : Run B f (new buffer endpoint c).run history h) (hmem : .receive ∈ h.pending) :
    h.pending = [.receive] := by
  have hlen := Run.length_pending hrun
  have hstart : (new buffer endpoint c).run.pending.length = 1 := rfl
  rw [hstart] at hlen
  have hpos := List.length_pos_of_mem hmem
  obtain ⟨p, hp⟩ := List.length_eq_one_iff.1 (show h.pending.length = 1 by omega)
  rw [hp, List.mem_singleton] at hmem
  rw [hp, ← hmem]

/-- What a waiting handler does with a datagram depends on its cache and on the request. -/
theorem sameAnswer_of_request_eq {h₁ h₂ : UdpHandler ε} (hp₁ : h₁.pending = [.receive])
    (hp₂ : h₂.pending = [.receive]) (hcache : h₁.cache = h₂.cache)
    (hreq : h₁.request parse datagram = h₂.request parse datagram) :
    SameAnswer B parse h₁ h₂ datagram := by
  refine ⟨hreq, fun sender h₁' hstep => ?_⟩
  cases hstep with
  | @received _ _ _ fuel hmem hrec =>
    obtain ⟨res, c', hres, rfl⟩ := handleReceive_ok hrec
    have hres₂ : handleRequest B fuel h₂.cache (h₂.request parse datagram).request =
        some (.ok res, c') := by
      rw [← hcache, ← hreq]
      exact hres
    have hrec₂ : ((h₂.complete .receive).arrive sender datagram).handleReceive B
        (requestOf parse) fuel false =
        some (.ok ({ (h₂.complete .receive).arrive sender datagram with cache := c' }.asyncSendTo
          res)) :=
      congrArg (Option.map _) hres₂
    refine ⟨_, .received (by rw [hp₂]; exact List.mem_cons_self) hrec₂, ?_, rfl⟩
    simp [asyncSendTo, arrive, complete, hp₁, hp₂]

/-- Two handlers that were just made differ in the whole of their buffers. -/
theorem settled_of_independent (hind : Independent B parse datagram)
    (hlen : datagram.length ≤ 1000) : Settled parse datagram := by
  intro tail tail' ht ht'
  have hbuffer : ∀ t : List ByteType, t.length = 1000 - datagram.length →
      ∃ b : RecvBuffer, (b.fill datagram).bytes = datagram ++ t := by
    intro t htl
    refine ⟨⟨datagram ++ t, by rw [List.length_append]; omega⟩, ?_⟩
    rw [RecvBuffer.fill_bytes _ hlen, List.drop_left]
  obtain ⟨b, hb⟩ := hbuffer tail ht
  obtain ⟨b', hb'⟩ := hbuffer tail' ht'
  have hsame := hind 0 b b' "" "" [] [] _ _ .nil .nil rfl List.mem_cons_self List.mem_cons_self
  rw [← hb, ← hb']
  exact hsame.request

/-- **No history makes a difference** to a parser that has enough. -/
theorem independent_of_settled (hsettled : Settled parse datagram)
    (hlen : datagram.length ≤ 1000) : Independent B parse datagram := by
  intro maxmem b₁ b₂ e₁ e₂ history₁ history₂ h₁ h₂ hrun₁ hrun₂ hcache hmem₁ hmem₂
  refine sameAnswer_of_request_eq (Run.pending_eq hrun₁ hmem₁) (Run.pending_eq hrun₂ hmem₂)
    hcache ?_
  rw [request, request, RecvBuffer.fill_bytes _ hlen, RecvBuffer.fill_bytes _ hlen]
  refine hsettled _ _ ?_ ?_
  · rw [List.length_drop, h₁.recvBuffer.length_eq]
  · rw [List.length_drop, h₂.recvBuffer.length_eq]

/-- **A reply depends on earlier datagrams unless the datagram contains a request.**  For
every datagram of at most 1000 bytes: any two histories that end in the same state of the
cache hand on the same request and send the same reply, with every parser that is a function
of its bytes and reads a request of at most 1000 bytes that they begin with, if and only if
the datagram contains a whole request or fills the buffer.  With no such parser they do if and
only if the datagram is cut, and one that ends in its head or its body is. -/
theorem independent_iff (hlen : datagram.length ≤ 1000) :
    ((∀ parse, ParsesFront parse → Independent B parse datagram) ↔
      Whole datagram ∨ datagram.length = 1000) ∧
    ((∀ parse, ParsesFront parse → ¬Independent B parse datagram) ↔ Cut datagram) ∧
    (EndsEarly datagram → Cut datagram) := by
  refine ⟨⟨fun hall => ?_, ?_⟩, ⟨fun hnone => ?_, fun hcut parse hparse hind => ?_⟩,
    EndsEarly.cut⟩
  · by_contra hneither
    obtain ⟨hwhole, hshort⟩ := not_or.1 hneither
    have hcautious : ParsesFront cautiousParse := parsesFront_of_whole fun _ h => if_pos h
    exact not_settled_cautiousParse hwhole (lt_of_le_of_ne hlen hshort)
      (settled_of_independent (hall _ hcautious) hlen)
  · rintro (hwhole | hfull) parse hparse
    · exact independent_of_settled (hparse.settled_of_whole hwhole hlen) hlen
    · exact independent_of_settled (settled_of_length_eq hfull) hlen
  · by_contra hcut
    have hguessing : ParsesFront (guessingParse datagram) :=
      parsesFront_of_whole fun _ h => if_pos h
    exact hnone _ hguessing (independent_of_settled (settled_guessingParse hcut hlen) hlen)
  · exact hparse.not_settled_of_cut hcut (settled_of_independent hind hlen)

/-- The client's GET of `k`. -/
def getMessage : Message :=
  ⟨"GET", "/k", 11, [("Host", "127.0.0.1:9001"), ("User-Agent", "Boost.Beast/322")], ""⟩

/-- The client's GET is a whole request. -/
theorem independent_iff_whole : Independent plainBoost frontParse getMessage.text := by
  have hmsg : getMessage.WellFormed :=
    ⟨by decide, by decide, by decide, .inr rfl, by decide, by decide, rfl⟩
  exact (independent_iff (by decide)).1.2
    (.inl ⟨getMessage, _, [], hmsg, getMessage.written_text, (List.append_nil _).symm⟩)
    frontParse parsesFront_frontParse

/-- The target of an earlier HEAD follows a datagram of five bytes. -/
theorem fill_fill_bytes (b : RecvBuffer) {target : String}
    (hlen : (headMessage target).text.length ≤ 1000) :
    ∃ rest, ((b.fill (headMessage target).text).fill "GET /".toList).bytes =
      (Message.mk "GET" ("/" ++ target) 11 [] "").text ++ rest := by
  refine ⟨b.bytes.drop (headMessage target).text.length, ?_⟩
  have hfive : ("GET /".toList).length = 5 := by decide
  have hhead : (headMessage target).text = 'H' :: 'E' :: 'A' :: 'D' :: ' ' ::
      (target.toList ++ ' ' :: ("HTTP/1.1".toList ++ crlf ++ crlf)) := by
    simp [Message.text, Message.startLine, headMessage, Message.versionText]
  rw [RecvBuffer.fill_bytes _ (by decide), RecvBuffer.fill_bytes _ hlen, hfive, hhead]
  simp [Message.text, Message.startLine, Message.versionText]

/-- **Two histories, two replies:** the first has received a HEAD of `/abc`, the second one of
`/xyz`, and neither has changed the cache.  For the same datagram of five bytes, `GET /`,
the first hands on a GET of `//abc` and the second one of `//xyz`. -/
theorem reply_depends_on_history : ∃ h₁ h₂,
    Run plainBoost (requestOf frontParse) (new (.replicate nul) "" (serverCache 30)).run
      [.received "client" "HEAD /abc HTTP/1.1\r\n\r\n".toList, .sent] h₁ ∧
    Run plainBoost (requestOf frontParse) (new (.replicate nul) "" (serverCache 30)).run
      [.received "client" "HEAD /xyz HTTP/1.1\r\n\r\n".toList, .sent] h₂ ∧
    h₁.cache = h₂.cache ∧ .receive ∈ h₁.pending ∧ .receive ∈ h₂.pending ∧
    h₁.request frontParse "GET /".toList = ⟨"GET", "//abc", 11, [], ""⟩ ∧
    h₂.request frontParse "GET /".toList = ⟨"GET", "//xyz", 11, [], ""⟩ ∧
    ¬SameAnswer plainBoost frontParse h₁ h₂ "GET /".toList := by
  have hhistory : ∀ target : String, IsTarget target → target ≠ "" →
      (headMessage target).text.length ≤ 1000 →
      ∃ h : UdpHandler FifoEvictor, Run plainBoost (requestOf frontParse)
        (new (.replicate nul) "" (serverCache 30)).run
        [.received "client" (headMessage target).text, .sent] h ∧ h.cache = serverCache 30 ∧
      .receive ∈ h.pending ∧
      h.request frontParse "GET /".toList = ⟨"GET", "/" ++ target, 11, [], ""⟩ := by
    intro target htarget hne hlen
    have hread := frontParse_fill_head (.replicate nul) htarget hne hlen
    have hslash : IsTarget ("/" ++ target) := by
      intro b hb
      rw [String.toList_append, List.mem_append] at hb
      rcases hb with hb | hb
      · rw [List.mem_singleton.1 hb]
        decide
      · exact htarget b hb
    have hmsg : (Message.mk "GET" ("/" ++ target) 11 [] "").WellFormed :=
      ⟨(by decide : IsToken "GET"), hslash, by simp, .inr rfl, by simp, by simp, rfl⟩
    obtain ⟨rest, hbytes⟩ := fill_fill_bytes (.replicate nul) hlen
    have hrequest : ((new (.replicate nul) "" (serverCache 30)).run.arrive "client"
        (headMessage target).text).request frontParse "GET /".toList =
        frontParse (((RecvBuffer.replicate nul).fill (headMessage target).text).fill
          "GET /".toList).bytes := rfl
    refine ⟨_, run_head rfl "client" _ (congrArg (fun msg => msg.request.method) hread), rfl,
      List.mem_cons_self, ?_⟩
    rw [hrequest, hbytes]
    exact frontParse_append hmsg (Message.written_text _) rest
  obtain ⟨h₁, hrun₁, hcache₁, hmem₁, hreq₁⟩ :=
    hhistory "/abc" (by decide) (by decide) (by decide)
  obtain ⟨h₂, hrun₂, hcache₂, hmem₂, hreq₂⟩ :=
    hhistory "/xyz" (by decide) (by decide) (by decide)
  refine ⟨h₁, h₂, hrun₁, hrun₂, hcache₁.trans hcache₂.symm, hmem₁, hmem₂, hreq₁, hreq₂, ?_⟩
  intro hsame
  have heq := congrArg Message.target hsame.request
  rw [hreq₁, hreq₂] at heq
  exact absurd heq (by decide)

end UdpHandler
end CacheBench
