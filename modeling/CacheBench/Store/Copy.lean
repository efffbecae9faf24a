/-
# The copy of a C string

`set` copies its value up to the first `'\0'` with an `int` index and then puts a
`'\0'` at `size - 1`.  For a C string with `size = strlen + 1`, as every caller in the
repository passes it, the block is the string and its terminator, with no cell left
unwritten and no write outside it (`copyValue_cString`), provided the string is
shorter than `2^31`: from there on the `int` index overflows.
-/

import CacheBench.Store.Cache

namespace CacheBench

/-- A string that a `char*` can carry whole: no `'\0'` in it. -/
def IsCString (s : String) : Prop := nul ∉ s.toList

instance (s : String) : Decidable (IsCString s) := inferInstanceAs (Decidable (_ ∉ _))

/-- `n` plain letters. -/
def letters (n : ℕ) : String := String.ofList (List.replicate n 'a')

/-- The string of letters has `n` of them. -/
@[simp] theorem letters_length (n : ℕ) : (letters n).length = n := by
  rw [letters, ← String.length_toList, String.toList_ofList, List.length_replicate]

/-- Strings of letters of different lengths differ. -/
theorem letters_injective : Function.Injective letters := fun n m h => by
  simpa using congrArg String.length h

/-- All letters are the same. -/
theorem mem_letters {n : ℕ} {b : ByteType} (hb : b ∈ (letters n).toList) : b = 'a' := by
  rw [letters, String.toList_ofList] at hb
  exact List.eq_of_mem_replicate hb

/-- No letter is a terminator. -/
theorem letters_isCString (n : ℕ) : IsCString (letters n) :=
  fun hb => absurd (mem_letters hb) (by decide)

/-- **The loop on a C string,** with `pre` already copied and room for the rest. -/
theorem copyLoop_eq_some {s : List ByteType} (hs : nul ∉ s) {pre : Block} {m : ℕ}
    (hlen : pre.length + s.length < 2 ^ 31) (stray : Bool) :
    copyLoop (s ++ [nul]) pre.length ⟨pre ++ List.replicate (s.length + m) none, stray⟩ =
      some ⟨pre ++ s.map some ++ List.replicate m none, stray⟩ := by
  induction s generalizing pre with
  | nil => simp [copyLoop]
  | cons b s ih =>
    obtain ⟨hb, hs⟩ := not_or.1 (mt List.mem_cons.2 hs)
    have hb : b ≠ nul := Ne.symm hb
    rw [List.length_cons] at hlen
    have hwrite : Copying.write ⟨pre ++ List.replicate (s.length + 1 + m) none, stray⟩
        pre.length b = ⟨(pre ++ [some b]) ++ List.replicate (s.length + m) none, stray⟩ := by
      have hcell : List.replicate (s.length + 1 + m) (none : Option ByteType) =
          none :: List.replicate (s.length + m) none := by
        rw [show s.length + 1 + m = (s.length + m) + 1 by omega, List.replicate_succ]
      rw [hcell]
      unfold Copying.write
      simp
    rw [List.cons_append, copyLoop, if_neg hb, if_pos (by omega), List.length_cons, hwrite,
      show pre.length + 1 = (pre ++ [some b]).length by simp]
    rw [ih hs (by simp; omega)]
    simp

/-- **The `int` index overflows** on a string of `2^31` bytes or more. -/
theorem copyLoop_eq_none {s : List ByteType} (hs : nul ∉ s) {i : ℕ} (hi : i < 2 ^ 31)
    (hlen : 2 ^ 31 ≤ i + s.length) (c : Copying) : copyLoop (s ++ [nul]) i c = none := by
  induction s generalizing i c with
  | nil =>
    rw [List.length_nil] at hlen
    omega
  | cons b s ih =>
    obtain ⟨hb, hs⟩ := not_or.1 (mt List.mem_cons.2 hs)
    rw [List.length_cons] at hlen
    rw [List.cons_append, copyLoop, if_neg (Ne.symm hb)]
    split_ifs with hlt
    · exact ih hs hlt (by omega) _
    · rfl

/-- The loop reads nothing past the first `'\0'`. -/
theorem copyLoop_append {s : List ByteType} (hs : nul ∉ s) (rest : List ByteType) (i : ℕ)
    (c : Copying) : copyLoop (s ++ nul :: rest) i c = copyLoop (s ++ [nul]) i c := by
  induction s generalizing i c with
  | nil => simp [copyLoop]
  | cons b s ih =>
    obtain ⟨hb, hs⟩ := not_or.1 (mt List.mem_cons.2 hs)
    rw [List.cons_append, List.cons_append, copyLoop, copyLoop, if_neg (Ne.symm hb),
      if_neg (Ne.symm hb)]
    split_ifs with hlt
    · exact ih hs (i + 1) _
    · rfl

/-- **Without a `'\0'` the loop runs past the array.** -/
theorem copyLoop_of_notMem {val : List ByteType} (h : nul ∉ val) (i : ℕ) (c : Copying) :
    copyLoop val i c = none := by
  induction val generalizing i c with
  | nil => rfl
  | cons b val ih =>
    obtain ⟨hb, hval⟩ := not_or.1 (mt List.mem_cons.2 h)
    rw [copyLoop, if_neg (Ne.symm hb)]
    split_ifs with hlt
    · exact ih hval (i + 1) _
    · rfl

/-- **The copy of a C string** with `size = strlen + 1` is the string with its
terminator, as long as an `int` can index it. -/
theorem copyValue_cString {s : String} (hs : IsCString s) {size : SizeType}
    (hsize : size.toNat = s.length + 1) :
    copyValue (cString s) size = if s.length < 2 ^ 31 then some ⟨stored s, false⟩ else none := by
  have hlen : s.toList.length = s.length := String.length_toList
  unfold copyValue cString
  split_ifs with h
  · have hloop := @copyLoop_eq_some s.toList hs [] 1 (by simpa [hlen] using h) false
    have halloc : Copying.alloc size =
        ⟨[] ++ List.replicate (s.toList.length + 1) none, false⟩ := by
      rw [Copying.alloc, hsize, hlen]
      rfl
    have hlast : (size - 1).toNat = s.length := by
      rw [UInt32.toNat_sub_of_le _ _ (by rw [UInt32.le_iff_toNat_le, hsize]; simp), hsize]
      simp
    rw [halloc]
    rw [List.length_nil] at hloop
    rw [hloop, Option.map_some, hlast]
    have hset : (s.toList.map some ++ [none]).set s.length (some nul) =
        s.toList.map some ++ [some nul] := by
      rw [List.set_append_right _ _ (by simp [hlen])]
      simp [hlen]
    simp [Copying.write, stored, cString, hset, hlen]
  · rw [copyLoop_eq_none hs (by omega) (by rw [hlen]; omega)]
    rfl

/-- A copy of a C string of the right size is the block that stores it. -/
theorem copy_eq_stored {s : String} (hs : IsCString s) {size : SizeType}
    (hsize : size.toNat = s.length + 1) {copied : Copying}
    (hcopy : copyValue (cString s) size = some copied) : copied.copy = stored s := by
  rw [copyValue_cString hs hsize] at hcopy
  split_ifs at hcopy
  obtain rfl := Option.some.inj hcopy
  rfl

end CacheBench
