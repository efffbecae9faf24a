/-
# Requests on the wire

The grammar of a request, as far as what is said of the parser needs it: the start line,
the fields, each on a line of its own with white space allowed around its value, an empty
line, and a body of the length that `Content-Length` announces.  Bodies sent in chunks and
fields folded over several lines are left out.

Beast's `request_parser` is not part of the repository.  What is relied on is that it reads
a request of at most 1000 bytes that its bytes begin with, whatever comes after it
(`ParsesFront`); `frontParse` is such a parser (`parsesFront_frontParse`).
-/

import Mathlib.Data.List.DropRight
import Mathlib.Data.List.Infix
import Mathlib.Data.List.TakeWhile
import CacheBench.Server.Http

namespace CacheBench

/-! ### The parts of a request -/

/-- The method that a token names. -/
def verbOf (method : String) : Verb :=
  if method = "GET" then .get
  else if method = "PUT" then .put
  else if method = "DELETE" then .delete
  else if method = "HEAD" then .head
  else if method = "POST" then .post
  else .other

/-- The end of a line. -/
def crlf : List ByteType := ['\r', '\n']

/-- A byte of a token: a letter, a digit, or one of the fifteen signs that are no separator. -/
def TokenChar (b : ByteType) : Prop :=
  b.isAlphanum ∨ b.toNat ∈ [33, 35, 36, 37, 38, 39, 42, 43, 45, 46, 94, 95, 96, 124, 126]

instance (b : ByteType) : Decidable (TokenChar b) := inferInstanceAs (Decidable (_ ∨ _))

/-- A method or the name of a field. -/
def IsToken (s : String) : Prop := s ≠ "" ∧ ∀ b ∈ s.toList, TokenChar b

instance (s : String) : Decidable (IsToken s) :=
  have : Decidable (∀ b ∈ s.toList, TokenChar b) := List.decidableBAll TokenChar s.toList
  inferInstanceAs (Decidable (_ ∧ _))

/-- White space around the value of a field. -/
def isOws (b : ByteType) : Bool := b = ' ' || b = '\t'

/-- A byte that the value of a field may contain: a tab, or no control. -/
def FieldChar (b : ByteType) : Prop := b = '\t' ∨ 32 ≤ b.toNat ∧ b.toNat ≠ 127

instance (b : ByteType) : Decidable (FieldChar b) := inferInstanceAs (Decidable (_ ∨ _))

/-- The bytes without the white space around them. -/
def trim (bytes : List ByteType) : List ByteType := (bytes.dropWhile isOws).rdropWhile isOws

/-- The value of a field, which white space neither begins nor ends. -/
structure IsFieldValue (s : String) : Prop where
  chars : ∀ b ∈ s.toList, FieldChar b
  trimmed : trim s.toList = s.toList

instance (s : String) : Decidable (IsFieldValue s) :=
  have : Decidable (∀ b ∈ s.toList, FieldChar b) := List.decidableBAll FieldChar s.toList
  decidable_of_iff ((∀ b ∈ s.toList, FieldChar b) ∧ trim s.toList = s.toList)
    ⟨fun h => ⟨h.1, h.2⟩, fun h => ⟨h.1, h.2⟩⟩

/-- Letters of either case name the same field; `wanted` has small ones. -/
def isNamed (wanted name : String) : Bool := name.toList.map Char.toLower = wanted.toList

/-- The elements of a comma-separated list. -/
def listElements (value : String) : List (List ByteType) := (value.toList.splitOn ',').map trim

/-- A list has a token among its elements, in letters of either case. -/
def hasToken (value token : String) : Bool :=
  (listElements value).any fun e => e.map Char.toLower = token.toList

/-- The length that the fields announce for the body: none without `Content-Length`.  Nothing
is said of chunked bodies, nor of two lengths, nor of one that is no number. -/
def announced (fields : List (String × String)) : Option ℕ :=
  match fields.filter fun f => isNamed "content-length" f.1 || isNamed "transfer-encoding" f.1 with
  | [] => some 0
  | [f] =>
    if isNamed "content-length" f.1 && f.2 ≠ "" && f.2.toList.all Char.isDigit then
      some (Nat.ofDigitChars 10 f.2.toList 0)
    else none
  | _ => none

/-- `http::request<http::string_body>`, as the parser leaves it. -/
structure Message where
  method : String
  target : String
  version : ℕ
  fields : List (String × String)
  body : String
deriving DecidableEq, Repr

namespace Message

/-- `keep_alive()`: the first `Connection` field decides, and without one the version. -/
def keepAlive (msg : Message) : Bool :=
  match msg.fields.find? fun f => isNamed "connection" f.1 with
  | none => 11 ≤ msg.version
  | some f => if msg.version < 11 then hasToken f.2 "keep-alive" else !hasToken f.2 "close"

/-- What `handle_request` reads of a request. -/
def request (msg : Message) : Request :=
  ⟨verbOf msg.method, msg.target, msg.version, msg.keepAlive⟩

/-- A request that the grammar allows. -/
structure WellFormed (msg : Message) : Prop where
  method : IsToken msg.method
  target : IsTarget msg.target
  target_ne : msg.target ≠ ""
  version : msg.version = 10 ∨ msg.version = 11
  fields : ∀ f ∈ msg.fields, IsToken f.1 ∧ IsFieldValue f.2
  connection : ∀ f ∈ msg.fields, isNamed "connection" f.1 →
    ∀ e ∈ listElements f.2, ∀ b ∈ e, TokenChar b
  body : announced msg.fields = some msg.body.length

/-- The version in a start line. -/
def versionText (version : ℕ) : List ByteType :=
  if version = 10 then "HTTP/1.0".toList else "HTTP/1.1".toList

/-- The start line, with its end. -/
def startLine (msg : Message) : List ByteType :=
  msg.method.toList ++ ' ' :: (msg.target.toList ++ ' ' :: (versionText msg.version ++ crlf))

end Message

/-- The bytes are the lines of the fields. -/
inductive FieldLines : List (String × String) → List ByteType → Prop
  | nil : FieldLines [] []
  | cons {name value : String} {fields : List (String × String)}
      {before after lines : List ByteType} : (∀ b ∈ before, isOws b) → (∀ b ∈ after, isOws b) →
      FieldLines fields lines →
      FieldLines ((name, value) :: fields)
        (name.toList ++ ':' :: (before ++ value.toList ++ after ++ crlf ++ lines))

/-- The bytes are the request as it may be sent. -/
def Message.Written (msg : Message) (bytes : List ByteType) : Prop :=
  ∃ lines, FieldLines msg.fields lines ∧
    bytes = msg.startLine ++ lines ++ crlf ++ msg.body.toList

/-- The line of a field with one space before its value, as Beast writes it. -/
def fieldText (f : String × String) : List ByteType :=
  f.1.toList ++ ':' :: ' ' :: (f.2.toList ++ crlf)

/-- The request as Beast writes it. -/
def Message.text (msg : Message) : List ByteType :=
  msg.startLine ++ msg.fields.flatMap fieldText ++ crlf ++ msg.body.toList

/-- **The parser reads a request that its bytes begin with,** if that is no longer than a
datagram. -/
def ParsesFront (parse : List ByteType → Message) : Prop :=
  ∀ msg bytes rest, msg.WellFormed → msg.Written bytes → bytes.length ≤ 1000 →
    parse (bytes ++ rest) = msg

/-! ### A parser -/

/-- The bytes up to a stop, and those after it. -/
def upTo (stop : ByteType) (bytes : List ByteType) : List ByteType × List ByteType :=
  (bytes.takeWhile (· ≠ stop), (bytes.dropWhile (· ≠ stop)).drop 1)

/-- Field lines up to the empty line, and what follows that line. -/
def readFields : ℕ → List ByteType → List (String × String) × List ByteType
  | 0, bytes => ([], bytes)
  | fuel + 1, bytes =>
    if bytes.head? = some '\r' then ([], bytes.drop 2)
    else
      let (name, rest) := upTo ':' bytes
      let (value, rest) := upTo '\r' rest
      let (fields, rest) := readFields fuel (rest.drop 1)
      ((String.ofList name, String.ofList (trim value)) :: fields, rest)

/-- A parser of requests. -/
def frontParse (bytes : List ByteType) : Message :=
  let (method, rest) := upTo ' ' bytes
  let (target, rest) := upTo ' ' rest
  let (version, rest) := upTo '\r' rest
  let (fields, rest) := readFields bytes.length (rest.drop 1)
  { method := String.ofList method
    target := String.ofList target
    version := if version = "HTTP/1.0".toList then 10 else 11
    fields := fields
    body := String.ofList (rest.take ((announced fields).getD 0)) }

/-! ### It reads what was written -/

variable {stop : ByteType} {bytes rest lines : List ByteType} {msg : Message}
  {fields : List (String × String)}

/-- The stop is found where it first stands. -/
theorem upTo_append (h : stop ∉ bytes) : upTo stop (bytes ++ stop :: rest) = (bytes, rest) := by
  have hne : ∀ b ∈ bytes, decide (b ≠ stop) = true := by
    intro b hb
    exact decide_eq_true fun heq => h (heq ▸ hb)
  rw [upTo, List.takeWhile_append_of_pos hne, List.dropWhile_append_of_pos hne]
  simp

/-- A byte of a token is none that may not be in one. -/
theorem TokenChar.ne {b : ByteType} (h : TokenChar b) {c : ByteType} (hc : ¬TokenChar c) :
    b ≠ c := fun heq => hc (heq ▸ h)

/-- A byte that no token has stands in no token. -/
theorem IsToken.notMem {s : String} (h : IsToken s) {c : ByteType} (hc : ¬TokenChar c) :
    c ∉ s.toList := fun hmem => hc (h.2 c hmem)

/-- White space around a value is read over. -/
theorem trim_append {before value after : List ByteType} (hbefore : ∀ b ∈ before, isOws b)
    (hafter : ∀ b ∈ after, isOws b) (hvalue : trim value = value) :
    trim (before ++ value ++ after) = value := by
  have hdrop : (before ++ value ++ after).dropWhile isOws = (value ++ after).dropWhile isOws := by
    rw [List.append_assoc, List.dropWhile_append_of_pos hbefore]
  have htail : ∀ bytes : List ByteType, (bytes ++ after).rdropWhile isOws =
      bytes.rdropWhile isOws := by
    intro bytes
    rw [List.rdropWhile, List.reverse_append, List.dropWhile_append_of_pos, List.rdropWhile]
    exact fun b hb => hafter b (List.mem_reverse.1 hb)
  rw [trim, hdrop, List.dropWhile_append]
  split_ifs with hempty
  · -- nothing but white space
    rw [List.isEmpty_iff] at hempty
    rw [trim, hempty] at hvalue
    rw [← hvalue, List.dropWhile_eq_nil_iff.2 hafter]
  · rw [htail]
    exact hvalue

/-- **The lines of the fields are read back.** -/
theorem readFields_lines (hlines : FieldLines fields lines)
    (hfields : ∀ f ∈ fields, IsToken f.1 ∧ IsFieldValue f.2) :
    ∀ fuel, fields.length < fuel → readFields fuel (lines ++ crlf ++ rest) = (fields, rest) := by
  induction hlines with
  | nil =>
    intro fuel hfuel
    obtain ⟨fuel, rfl⟩ := Nat.exists_eq_succ_of_ne_zero (Nat.ne_of_gt hfuel)
    rfl
  | @cons name value fields before after lines hbefore hafter _ ih =>
    intro fuel hfuel
    obtain ⟨fuel, rfl⟩ := Nat.exists_eq_succ_of_ne_zero (Nat.ne_of_gt (Nat.zero_lt_of_lt hfuel))
    obtain ⟨hname, hvalue⟩ := hfields _ List.mem_cons_self
    have hcolon : ':' ∉ name.toList := hname.notMem (by decide)
    have hows : ∀ b, isOws b → b ≠ '\r' := by
      rintro b hb rfl
      exact absurd hb (by decide)
    have hreturn : '\r' ∉ before ++ value.toList ++ after := by
      simp only [List.mem_append, not_or]
      refine ⟨⟨fun h => hows _ (hbefore _ h) rfl, fun h => ?_⟩, fun h => hows _ (hafter _ h) rfl⟩
      exact absurd (hvalue.chars _ h) (by decide)
    have hstart : (name.toList ++ ':' :: (before ++ value.toList ++ after ++ crlf ++ lines) ++
        crlf ++ rest).head? ≠ some '\r' := by
      obtain ⟨b, bs, hbs⟩ := List.exists_cons_of_ne_nil (mt String.toList_eq_nil_iff.1 hname.1)
      have hb := hname.2 b (by rw [hbs]; exact List.mem_cons_self)
      rw [hbs]
      simpa using hb.ne (by decide)
    have hbytes : name.toList ++ ':' :: (before ++ value.toList ++ after ++ crlf ++ lines) ++
        crlf ++ rest = name.toList ++ ':' :: ((before ++ value.toList ++ after) ++ '\r' ::
          ('\n' :: (lines ++ crlf ++ rest))) := by
      simp [crlf]
    rw [readFields, if_neg hstart, hbytes, upTo_append hcolon]
    simp only [upTo_append hreturn, List.drop_succ_cons, List.drop_zero,
      ih (fun f hf => hfields f (List.mem_cons_of_mem _ hf)) fuel (Nat.lt_of_succ_lt_succ hfuel),
      trim_append hbefore hafter hvalue.trimmed, String.ofList_toList]

/-- A field takes a byte at least. -/
theorem FieldLines.length_le (h : FieldLines fields lines) : fields.length ≤ lines.length := by
  induction h with
  | nil => exact le_rfl
  | cons _ _ _ ih =>
    simp only [List.length_cons, List.length_append]
    omega

/-- **`frontParse` reads a request that its bytes begin with,** of any length. -/
theorem frontParse_append (hmsg : msg.WellFormed) (hbytes : msg.Written bytes)
    (rest : List ByteType) : frontParse (bytes ++ rest) = msg := by
  obtain ⟨lines, hlines, rfl⟩ := hbytes
  have hmethod : ' ' ∉ msg.method.toList := hmsg.method.notMem (by decide)
  have htarget : ' ' ∉ msg.target.toList := fun hmem => absurd (hmsg.target ' ' hmem) (by decide)
  have hversion : '\r' ∉ Message.versionText msg.version := by
    unfold Message.versionText
    split_ifs <;> decide
  set bytes := msg.startLine ++ lines ++ crlf ++ msg.body.toList ++ rest with hbytes
  have hsplit : bytes = msg.method.toList ++ ' ' :: (msg.target.toList ++ ' ' ::
      (Message.versionText msg.version ++ '\r' :: ('\n' :: (lines ++ crlf ++
        (msg.body.toList ++ rest))))) := by
    simp [hbytes, Message.startLine, crlf]
  have hfuel : msg.fields.length < bytes.length := by
    have hle := hlines.length_le
    simp only [hsplit, List.length_append, List.length_cons]
    omega
  have hfields : readFields bytes.length (lines ++ crlf ++ (msg.body.toList ++ rest)) =
      (msg.fields, msg.body.toList ++ rest) := readFields_lines hlines hmsg.fields _ hfuel
  have hread : (if Message.versionText msg.version = "HTTP/1.0".toList then 10 else 11) =
      msg.version := by
    rcases hmsg.version with h | h <;> rw [h] <;> rfl
  have hbody : String.ofList ((msg.body.toList ++ rest).take ((announced msg.fields).getD 0)) =
      msg.body := by
    rw [hmsg.body, Option.getD_some, ← String.length_toList, List.take_left, String.ofList_toList]
  unfold frontParse
  rw [hsplit] at hfields ⊢
  simp only [upTo_append hmethod, upTo_append htarget, upTo_append hversion, List.drop_succ_cons,
    List.drop_zero, hfields, hread, hbody, String.ofList_toList]

/-- So it reads those that a datagram has room for. -/
theorem parsesFront_frontParse : ParsesFront frontParse :=
  fun _ _ rest hmsg hbytes _ => frontParse_append hmsg hbytes rest

/-- Every field on a line of its own, as Beast writes it. -/
theorem fieldLines_flatMap : FieldLines fields (fields.flatMap fieldText) := by
  induction fields with
  | nil => exact .nil
  | cons f fields ih =>
    have h := @FieldLines.cons f.1 f.2 fields [' '] [] _ (List.forall_mem_singleton.2 rfl)
      (List.forall_mem_nil _) ih
    simpa [fieldText] using h

/-- What Beast writes is written. -/
theorem Message.written_text (msg : Message) : msg.Written msg.text :=
  ⟨_, fieldLines_flatMap, rfl⟩

end CacheBench
