/-
# Flat JSON objects

Objects whose values are strings, as text: `Json.writeObject` prints one member a line and
escapes what JSON wants escaped, `Json.readObject` reads such objects with spaces
anywhere between their tokens.  Reading takes back what writing did, for every string
(`Json.readObject_writeObject`), and no control character but the end of a line is written
(`Json.notControl_of_mem_writeObject`).

The argument goes up from one character: its escape reads as the character
(`Json.readString_escape`), so a string reads as itself up to its closing quote, and so do a
member and the members.
-/

import Mathlib.Data.List.Basic

namespace Json

/-! ### Writing -/

/-- The letter of a two-character escape. -/
def shortName (c : Char) : Option Char :=
  if c = '"' then some '"'
  else if c = '/' then some '/'
  else if c = '\\' then some '\\'
  else if c = '\n' then some 'n'
  else if c = '\r' then some 'r'
  else if c = '\t' then some 't'
  else if c = Char.ofNat 8 then some 'b'
  else if c = Char.ofNat 12 then some 'f'
  else none

/-- A digit of a number to the base of 16. -/
def hexDigit (n : ℕ) : Char := if n < 10 then Char.ofNat (48 + n) else Char.ofNat (55 + n)

/-- A character inside a string. -/
def escape (c : Char) : List Char :=
  match shortName c with
  | some e => ['\\', e]
  | none =>
    if c.toNat < 32 then ['\\', 'u', '0', '0', hexDigit (c.toNat / 16), hexDigit (c.toNat % 16)]
    else [c]

/-- A string between its quotes. -/
def writeString (s : String) : List Char := '"' :: (s.toList.flatMap escape ++ ['"'])

/-- A member, indented. -/
def writeMember (m : String × String) : List Char :=
  ' ' :: ' ' :: ' ' :: ' ' :: (writeString m.1 ++ ':' :: ' ' :: writeString m.2)

/-- The members, on lines of their own, with commas between them. -/
def writeMembers : List (String × String) → List Char
  | [] => []
  | [m] => writeMember m
  | m :: ms => writeMember m ++ ',' :: '\n' :: writeMembers ms

/-- The brace that begins an object. -/
def openBrace : Char := Char.ofNat 123

/-- The brace that ends an object. -/
def closeBrace : Char := Char.ofNat 125

/-- An object, one member a line. -/
def writeObject (ms : List (String × String)) : String :=
  String.ofList (openBrace :: '\n' :: (writeMembers ms ++ ['\n', closeBrace, '\n']))

/-! ### Reading -/

/-- What an escape of one letter stands for. -/
def ofShortName (e : Char) : Option Char :=
  if e = '"' then some '"'
  else if e = '/' then some '/'
  else if e = '\\' then some '\\'
  else if e = 'n' then some '\n'
  else if e = 'r' then some '\r'
  else if e = 't' then some '\t'
  else if e = 'b' then some (Char.ofNat 8)
  else if e = 'f' then some (Char.ofNat 12)
  else none

/-- The value of a digit to the base of 16, in letters of either case. -/
def hexValue (c : Char) : Option ℕ :=
  if 48 ≤ c.toNat ∧ c.toNat ≤ 57 then some (c.toNat - 48)
  else if 65 ≤ c.toNat ∧ c.toNat ≤ 70 then some (c.toNat - 55)
  else if 97 ≤ c.toNat ∧ c.toNat ≤ 102 then some (c.toNat - 87)
  else none

/-- The character with the given four digits for a code. -/
def ofHex (a b c d : Char) : Option Char := do
  let a ← hexValue a
  let b ← hexValue b
  let c ← hexValue c
  let d ← hexValue d
  return Char.ofNat (a * 4096 + b * 256 + c * 16 + d)

/-- A string up to its closing quote, and what follows. -/
def readString : List Char → Option (List Char × List Char)
  | [] => none
  | '"' :: rest => some ([], rest)
  | '\\' :: 'u' :: a :: b :: c :: d :: rest =>
    (ofHex a b c d).bind fun ch => (readString rest).map fun p => (ch :: p.1, p.2)
  | '\\' :: e :: rest =>
    (ofShortName e).bind fun ch => (readString rest).map fun p => (ch :: p.1, p.2)
  | ['\\'] => none
  | c :: rest => if c.toNat < 32 then none else (readString rest).map fun p => (c :: p.1, p.2)

/-- White space between tokens. -/
def isSpace (c : Char) : Bool := c = ' ' || c = '\n' || c = '\r' || c = '\t'

/-- The token `c`, after any spaces. -/
def expect (c : Char) (s : List Char) : Option (List Char) :=
  match s.dropWhile isSpace with
  | [] => none
  | d :: rest => if d = c then some rest else none

/-- A string with its quotes. -/
def readQuoted (s : List Char) : Option (List Char × List Char) := (expect '"' s).bind readString

/-- A name, a colon and a value. -/
def readMember (s : List Char) : Option ((String × String) × List Char) := do
  let (k, s) ← readQuoted s
  let s ← expect ':' s
  let (v, s) ← readQuoted s
  return ((String.ofList k, String.ofList v), s)

/-- The members up to the closing brace, with fuel for their number. -/
def readMembers : ℕ → List Char → Option (List (String × String) × List Char)
  | 0, _ => none
  | fuel + 1, s => do
    let (m, s) ← readMember s
    match expect ',' s with
    | some s => (readMembers fuel s).map fun p => (m :: p.1, p.2)
    | none => (expect closeBrace s).map fun s => ([m], s)

/-- An object with at least one member, and nothing but spaces around it. -/
def readObject (s : String) : Option (List (String × String)) := do
  let s ← expect openBrace s.toList
  let (ms, s) ← readMembers s.length s
  if s.all isSpace then some ms else none

/-! ### Characters -/

/-- A digit to the base of 16 is read back. -/
theorem hexValue_hexDigit : ∀ n < 16, hexValue (hexDigit n) = some n := by decide

/-- An escape of one letter is read back. -/
theorem ofShortName_of_shortName {c e : Char} (h : shortName c = some e) :
    ofShortName e = some c ∧ e ≠ 'u' := by
  unfold shortName at h
  split_ifs at h with h₁ h₂ h₃ h₄ h₅ h₆ h₇ h₈
  all_goals
    obtain rfl := Option.some.inj h
    simp only [*]
    decide

/-- One step of `readString` over an escape of one letter. -/
theorem readString_short {e : Char} (he : e ≠ 'u') (rest : List Char) :
    readString ('\\' :: e :: rest) =
      (ofShortName e).bind fun ch => (readString rest).map fun p => (ch :: p.1, p.2) := by
  rw [readString]
  intro a b c d rest' hu
  exact absurd hu he

/-- One step of `readString` over a character that stands for itself. -/
theorem readString_plain {c : Char} (hquote : c ≠ '"') (hslash : c ≠ '\\') (rest : List Char) :
    readString (c :: rest) =
      if c.toNat < 32 then none else (readString rest).map fun p => (c :: p.1, p.2) := by
  rw [readString]
  · exact hquote
  · intro a b d e rest' h
    exact absurd h hslash
  · intro e rest' h
    exact absurd h hslash
  · intro h
    exact absurd h hslash

/-- **The escape of a character reads as the character.** -/
theorem readString_escape (c : Char) (rest : List Char) :
    readString (escape c ++ rest) = (readString rest).map fun p => (c :: p.1, p.2) := by
  unfold escape
  cases hname : shortName c with
  | some e =>
    obtain ⟨hread, hu⟩ := ofShortName_of_shortName hname
    show readString ('\\' :: e :: rest) = _
    rw [readString_short hu, hread, Option.bind_some]
  | none =>
    dsimp only
    split_ifs with hlow
    · have hhi := hexValue_hexDigit (c.toNat / 16) (by omega)
      have hlo := hexValue_hexDigit (c.toNat % 16) (by omega)
      have hzero : hexValue '0' = some 0 := by decide
      have hcode : Char.ofNat (0 * 4096 + 0 * 256 + c.toNat / 16 * 16 + c.toNat % 16) = c := by
        rw [show 0 * 4096 + 0 * 256 + c.toNat / 16 * 16 + c.toNat % 16 = c.toNat by omega]
        exact Char.ofNat_toNat c
      show readString ('\\' :: 'u' :: '0' :: '0' :: _ :: _ :: rest) = _
      rw [readString]
      simp only [ofHex, hzero, hhi, hlo, bind, pure, Option.bind_some, hcode]
    · have hquote : c ≠ '"' := by
        rintro rfl
        simp [shortName] at hname
      have hslash : c ≠ '\\' := by
        rintro rfl
        simp [shortName] at hname
      show readString (c :: rest) = _
      rw [readString_plain hquote hslash, if_neg hlow]

/-- What is written of a character is printable. -/
theorem le_toNat_of_mem_escape {c d : Char} (h : d ∈ escape c) : 32 ≤ d.toNat := by
  unfold escape at h
  cases hname : shortName c with
  | some e =>
    rw [hname] at h
    simp only [List.mem_cons, List.not_mem_nil, or_false] at h
    rcases h with rfl | rfl
    · decide
    · unfold shortName at hname
      split_ifs at hname
      all_goals
        obtain rfl := Option.some.inj hname
        decide
  | none =>
    rw [hname] at h
    dsimp only at h
    split_ifs at h with hlow
    · have hdigit : ∀ n < 16, 32 ≤ (hexDigit n).toNat := by decide
      simp only [List.mem_cons, List.not_mem_nil, or_false] at h
      rcases h with rfl | rfl | rfl | rfl | rfl | rfl
      · decide
      · decide
      · decide
      · decide
      · exact hdigit _ (by omega)
      · exact hdigit _ (by omega)
    · rw [List.mem_singleton] at h
      rw [h]
      omega

/-! ### Strings, members and objects -/

/-- **What is written of a string is read back,** whatever comes after its quote. -/
theorem readString_flatMap (s rest : List Char) :
    readString (s.flatMap escape ++ '"' :: rest) = some (s, rest) := by
  induction s with
  | nil => rfl
  | cons c s ih =>
    rw [List.flatMap_cons, List.append_assoc, readString_escape, ih]
    rfl

/-- `expect` skips white space. -/
theorem expect_of_space {c d : Char} (hd : isSpace d = true) (s : List Char) :
    expect c (d :: s) = expect c s := by
  unfold expect
  rw [List.dropWhile_cons_of_pos hd]

/-- `expect` takes the character that it waits for. -/
theorem expect_self {c : Char} (hc : isSpace c = false) (s : List Char) :
    expect c (c :: s) = some s := by
  unfold expect
  rw [List.dropWhile_cons_of_neg (by rw [hc]; exact Bool.false_ne_true)]
  exact if_pos rfl

/-- `expect` takes no other character. -/
theorem expect_other {c d : Char} (hd : isSpace d = false) (hne : d ≠ c) (s : List Char) :
    expect c (d :: s) = none := by
  unfold expect
  rw [List.dropWhile_cons_of_neg (by rw [hd]; exact Bool.false_ne_true)]
  exact if_neg hne

/-- **A string is read back.** -/
theorem readQuoted_writeString (s : String) (rest : List Char) :
    readQuoted (writeString s ++ rest) = some (s.toList, rest) := by
  unfold readQuoted writeString
  rw [List.cons_append, expect_self (by decide), Option.bind_some, List.append_assoc]
  exact readString_flatMap s.toList rest

/-- White space before a string is skipped. -/
theorem readQuoted_of_space {d : Char} (hd : isSpace d = true) (s : List Char) :
    readQuoted (d :: s) = readQuoted s := by
  unfold readQuoted
  rw [expect_of_space hd]

/-- **A member is read back.** -/
theorem readMember_writeMember (m : String × String) (rest : List Char) :
    readMember (writeMember m ++ rest) = some (m, rest) := by
  have hspace : isSpace ' ' = true := by decide
  have htext : writeMember m ++ rest =
      ' ' :: ' ' :: ' ' :: ' ' ::
        (writeString m.1 ++ (':' :: ' ' :: (writeString m.2 ++ rest))) := by
    simp [writeMember]
  rw [htext]
  simp only [readMember, readQuoted_of_space hspace, readQuoted_writeString, bind, pure,
    Option.bind_some, expect_self (show isSpace ':' = false by decide), String.ofList_toList]

/-- White space before a member is skipped. -/
theorem readMember_of_space {d : Char} (hd : isSpace d = true) (s : List Char) :
    readMember (d :: s) = readMember s := by
  unfold readMember
  rw [readQuoted_of_space hd]

/-- **The members read as they were written,** with fuel for their number. -/
theorem readMembers_writeMembers {ms : List (String × String)} (hms : ms ≠ []) (fuel : ℕ)
    (hfuel : ms.length ≤ fuel) (rest : List Char) :
    readMembers fuel ('\n' :: (writeMembers ms ++ '\n' :: closeBrace :: rest)) =
      some (ms, rest) := by
  have hnewline : isSpace '\n' = true := by decide
  induction ms generalizing fuel with
  | nil => exact absurd rfl hms
  | cons m ms ih =>
    cases fuel with
    | zero => simp at hfuel
    | succ fuel =>
      rw [readMembers, readMember_of_space hnewline]
      cases ms with
      | nil =>
        have hcomma : expect ',' ('\n' :: closeBrace :: rest) = none := by
          rw [expect_of_space hnewline, expect_other (by decide) (by decide)]
        rw [writeMembers, readMember_writeMember]
        simp only [bind, Option.bind_some, hcomma, expect_of_space hnewline,
          expect_self (show isSpace closeBrace = false by decide), Option.map_some]
      | cons m' ms =>
        have hrest := ih (List.cons_ne_nil _ _) fuel (by simpa using hfuel)
        rw [writeMembers, List.append_assoc, readMember_writeMember]
        · simp only [bind, Option.bind_some, List.cons_append,
            expect_self (show isSpace ',' = false by decide), hrest, Option.map_some]
        · exact List.cons_ne_nil _ _

/-- A text has a character at least for each member. -/
theorem length_le_writeMembers (ms : List (String × String)) :
    ms.length ≤ (writeMembers ms).length := by
  induction ms with
  | nil => exact Nat.zero_le _
  | cons m ms ih =>
    cases ms with
    | nil => simp [writeMembers, writeMember]
    | cons m' ms =>
      have htext : (writeMembers (m :: m' :: ms)).length =
          (writeMember m).length + ((writeMembers (m' :: ms)).length + 2) := by
        rw [writeMembers, List.length_append, List.length_cons, List.length_cons]
        exact List.cons_ne_nil _ _
      rw [htext, List.length_cons]
      omega

/-- **Reading takes back what writing did.** -/
theorem readObject_writeObject {ms : List (String × String)} (hms : ms ≠ []) :
    readObject (writeObject ms) = some ms := by
  have hlen := length_le_writeMembers ms
  have hread := readMembers_writeMembers hms
    ('\n' :: (writeMembers ms ++ ['\n', closeBrace, '\n'])).length
    (by simp only [List.length_cons, List.length_append]; omega) ['\n']
  unfold readObject writeObject
  rw [String.toList_ofList, expect_self (by decide)]
  simp only [bind, Option.bind_some, hread]
  rfl

/-- **No control character is written** but the end of a line. -/
theorem notControl_of_mem_writeObject {ms : List (String × String)} {c : Char}
    (hc : c ∈ (writeObject ms).toList) : 32 ≤ c.toNat ∨ c = '\n' := by
  have hstring : ∀ s : String, ∀ d ∈ writeString s, 32 ≤ d.toNat := by
    intro s d hd
    simp only [writeString, List.mem_cons, List.mem_append, List.mem_flatMap, List.not_mem_nil,
      or_false] at hd
    rcases hd with rfl | ⟨e, -, he⟩ | rfl
    · decide
    · exact le_toNat_of_mem_escape he
    · decide
  have hmember : ∀ m, ∀ d ∈ writeMember m, 32 ≤ d.toNat := by
    intro m d hd
    simp only [writeMember, List.mem_cons, List.mem_append] at hd
    rcases hd with rfl | rfl | rfl | rfl | hd | rfl | rfl | hd
    · decide
    · decide
    · decide
    · decide
    · exact hstring m.1 d hd
    · decide
    · decide
    · exact hstring m.2 d hd
  have hmembers : ∀ ms, ∀ d ∈ writeMembers ms, 32 ≤ d.toNat ∨ d = '\n' := by
    intro ms
    induction ms with
    | nil => exact fun d hd => absurd hd List.not_mem_nil
    | cons m ms ih =>
      intro d hd
      cases ms with
      | nil => exact Or.inl (hmember m d hd)
      | cons m' ms =>
        rw [writeMembers, List.mem_append, List.mem_cons, List.mem_cons] at hd
        · rcases hd with hd | rfl | rfl | hd
          · exact Or.inl (hmember m d hd)
          · exact Or.inl (by decide)
          · exact Or.inr rfl
          · exact ih d hd
        · exact List.cons_ne_nil _ _
  unfold writeObject at hc
  simp only [String.toList_ofList, List.mem_cons, List.mem_append, List.not_mem_nil, or_false] at hc
  rcases hc with rfl | rfl | hc | rfl | rfl | rfl
  · exact Or.inl (by decide)
  · exact Or.inr rfl
  · exact hmembers ms c hc
  · exact Or.inr rfl
  · exact Or.inl (by decide)
  · exact Or.inr rfl

end Json
