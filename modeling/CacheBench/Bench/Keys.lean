/-
# The keys of the workload

What the constructor of the generator builds as keys: `"key_"`, zeros, the number of the
pass, and a filler of `'f'`.  The number can be read back from a key whatever the zeros and
the filler are, so no two passes build the same key, and a key that a dummy delete is given
is none of them (`keys_distinct`).

The zeros are counted from the digits of `1000000 - i`, not from those of `i`.  The two
together are the six that the length of the filler reckons with only for the first passes
after the very first and for the last ones (`paddedKey_documented_iff`).
-/

import CacheBench.Lib.Decimal
import CacheBench.Bench.Fill

namespace CacheBench
namespace Bench

variable {log10 : ℕ → ℕ} {bound : ℚ} {draws : ℕ → FillDraws} {b b' : Fill} {fuel i : ℕ}
variable {keySize : ℤ}

/-! ### Reading a key -/

/-- The number in a key. -/
def keyNumber (key : KeyType) : ℕ := Decimal.front (key.toList.drop 4)

/-- The characters of a key. -/
theorem toList_paddedKey (log10 : ℕ → ℕ) (i : ℕ) (keySize : ℤ) :
    (paddedKey log10 i keySize).toList = "key_".toList ++
      (List.replicate (log10 (1000000 - i)) '0' ++ Nat.toDigits 10 i ++
        List.replicate (keySize - 10).toNat 'f') := by
  unfold paddedKey
  simp only [String.toList_append, String.toList_ofList, Nat.toString_eq_repr, Nat.toList_repr,
    List.append_assoc]

/-- The filler does not go on with a digit. -/
theorem digits_filler (n : ℕ) : Decimal.digits (List.replicate n 'f') = [] := by
  cases n <;> rfl

/-- **The number is read back,** whatever the zeros and the filler. -/
@[simp] theorem keyNumber_paddedKey : keyNumber (paddedKey log10 i keySize) = i := by
  unfold keyNumber
  rw [toList_paddedKey]
  exact Decimal.front_zeros_toDigits _ i (digits_filler _)

/-- A dummy delete is given a key of another first letter. -/
theorem paddedKey_ne_dummyDelete (keyLength : ℤ) :
    paddedKey log10 i keySize ≠ (Generator.dummyDelete keyLength).key := by
  intro h
  have hlist := congrArg String.toList h
  simp only [toList_paddedKey, Generator.dummyDelete, String.toList_ofList] at hlist
  have hmem : 'k' ∈ List.replicate (clamp keyLength 15 70).toNat 'f' := by
    rw [← hlist]
    simp
  exact absurd (List.eq_of_mem_replicate hmem) (by decide)

/-! ### The keys of a run -/

/-- **The keys of `data_` are numbered by their passes.** -/
theorem map_keyNumber_of_run {ws : List FillDraws}
    (h : Trace.Run (Pass log10 bound) .init ws b) :
    b.data.map (fun e => keyNumber e.1) = List.range b.i := by
  refine h.invariant (P := fun b => b.data.map (fun e => keyNumber e.1) = List.range b.i)
    (fun b w b' hpass hb => ?_) rfl
  obtain ⟨_, _, -, -, -, -, -, rfl⟩ := fillStep_eq_some_iff.1 hpass.2
  rw [List.map_append, hb, List.map_singleton, keyNumber_paddedKey, List.range_succ]

/-- Every key of the data is a padded one. -/
theorem mem_data_of_run {ws : List FillDraws} (h : Trace.Run (Pass log10 bound) .init ws b) :
    ∀ e ∈ b.data, ∃ i keySize, e.1 = paddedKey log10 i keySize := by
  refine h.invariant (P := fun b => ∀ e ∈ b.data, ∃ i keySize, e.1 = paddedKey log10 i keySize)
    (fun b w b' hpass hb => ?_) (by simp [Fill.init])
  obtain ⟨n, _, -, -, -, -, -, rfl⟩ := fillStep_eq_some_iff.1 hpass.2
  intro e he
  rcases List.mem_append.1 he with he | he
  · exact hb e he
  · exact ⟨b.i, clamp n 15 70, congrArg Prod.fst (List.mem_singleton.1 he)⟩

/-- **Keys never collide.**  Whatever `log10` is, different passes build different keys, with
any key sizes; no key is one that a dummy delete is given; and so the keys of `data_` are
pairwise distinct and none of them is such a key, for every sequence of draws. -/
theorem keys_distinct (log10 : ℕ → ℕ) :
    (∀ i j ki kj, i ≠ j → paddedKey log10 i ki ≠ paddedKey log10 j kj) ∧
    (∀ i ki keyLength, paddedKey log10 i ki ≠ (Generator.dummyDelete keyLength).key) ∧
    ∀ shuffle fuel localityRange localityShift size sizeFactor draws g,
      (∀ data, (shuffle data).Perm data) →
      construct log10 shuffle fuel localityRange localityShift size sizeFactor draws = some g →
      (g.data.map Prod.fst).Nodup ∧
        ∀ keyLength, (Generator.dummyDelete keyLength).key ∉ g.data.map Prod.fst := by
  refine ⟨fun i j ki kj hij h => hij ?_, fun i ki => paddedKey_ne_dummyDelete, ?_⟩
  · simpa using congrArg keyNumber h
  · intro shuffle fuel localityRange localityShift size sizeFactor draws g hshuffle h
    obtain ⟨b, hb, rfl⟩ := Option.map_eq_some_iff.1 h
    obtain ⟨-, _, hrun⟩ := fillLoop_run hb
    have hperm := (hshuffle b.data).map Prod.fst
    refine ⟨hperm.nodup_iff.2 (List.Nodup.of_map keyNumber ?_), fun keyLength hmem => ?_⟩
    · rw [List.map_map]
      exact (map_keyNumber_of_run hrun).symm ▸ List.nodup_range
    · obtain ⟨e, he, hkey⟩ := List.mem_map.1 (hperm.mem_iff.1 hmem)
      obtain ⟨i, keySize, hpadded⟩ := mem_data_of_run hrun e he
      exact paddedKey_ne_dummyDelete keyLength (hpadded.symm.trans hkey)

/-- The keys of three passes. -/
theorem keys_distinct_three : ∃ g,
    construct (Nat.log 10) List.reverse 1000001 100 (1 / 5) 25 1 turnDraws = some g ∧
    g.data.length = 3 ∧ (g.data.map Prod.fst).Nodup ∧
    paddedKey (Nat.log 10) 0 15 ≠ paddedKey (Nat.log 10) 10 15 := by
  obtain ⟨b, hb, hsizes⟩ := exists_fillLoop_turnDraws
  obtain ⟨hkeys, -, hdata⟩ := keys_distinct (Nat.log 10)
  have hg : construct (Nat.log 10) List.reverse 1000001 100 (1 / 5) 25 1 turnDraws =
      some ⟨b.data.reverse, b.totalProb, 100, 1 / 5, 0⟩ :=
    construct_eq hb
  have hlen : b.data.reverse.length = 3 := by
    rw [List.length_reverse]
    simpa using congrArg List.length hsizes
  exact ⟨_, hg, hlen, (hdata _ _ _ _ _ _ _ _ List.reverse_perm hg).1,
    hkeys 0 10 15 15 (by omega)⟩

/-! ### The documented shape -/

/-- `"key_"`, six digits that denote `i`, then only `'f'`, and `keySize` characters in all. -/
def Documented (i : ℕ) (keySize : ℤ) (key : KeyType) : Prop :=
  ∃ (ds : List Char) (n : ℕ), ds.length = 6 ∧ (∀ c ∈ ds, c.isDigit) ∧
    Nat.ofDigitChars 10 ds 0 = i ∧
    key.toList = "key_".toList ++ (ds ++ List.replicate n 'f') ∧ key.length = keySize

/-- The length of a key. -/
theorem length_paddedKey (log10 : ℕ → ℕ) (i : ℕ) (keySize : ℤ) :
    (paddedKey log10 i keySize).length =
      4 + (log10 (1000000 - i) + (Nat.toDigits 10 i).length) + (keySize - 10).toNat := by
  rw [← String.length_toList, toList_paddedKey]
  simp only [List.length_append, List.length_replicate]
  have hkey : "key_".toList.length = 4 := rfl
  omega

/-- The shape is a matter of the number of digits. -/
theorem documented_paddedKey_iff (hlo : 15 ≤ keySize) :
    Documented i keySize (paddedKey log10 i keySize) ↔
      log10 (1000000 - i) + (Nat.toDigits 10 i).length = 6 := by
  have hlen := length_paddedKey log10 i keySize
  constructor
  · rintro ⟨_, _, -, -, -, -, hsize⟩
    omega
  · intro hsix
    refine ⟨_, _, ?_, fun _ => Decimal.isDigit_of_mem_zeros_toDigits,
      Decimal.ofDigitChars_zeros_toDigits _ _, toList_paddedKey log10 i keySize, by omega⟩
    rw [List.length_append, List.length_replicate, hsix]

/-- **Two numbers that add up to a million** have six digits together, the logarithm
counting one less, only if one of them has a single digit. -/
theorem log_add_log_eq_iff {i j : ℕ} (hi : 0 < i) (hj : 0 < j) (hsum : i + j = 1000000) :
    Nat.log 10 i + Nat.log 10 j = 5 ↔ i < 10 ∨ j < 10 := by
  have hlarge : ∀ {m : ℕ}, 100000 ≤ m → m < 1000000 → Nat.log 10 m = 5 := fun hlo hhi =>
    Nat.log_eq_of_pow_le_of_lt_pow (by omega) (by omega)
  constructor
  · intro hlog
    by_contra hcon
    have hpos := Nat.log_pos (by omega : 1 < 10) (by omega : 10 ≤ i)
    have hpos' := Nat.log_pos (by omega : 1 < 10) (by omega : 10 ≤ j)
    rcases Nat.le_total i j with hle | hle
    · have := hlarge (m := j) (by omega) (by omega)
      omega
    · have := hlarge (m := i) (by omega) (by omega)
      omega
  · rintro (hlt | hlt)
    · rw [Nat.log_of_lt hlt, hlarge (by omega) (by omega)]
    · rw [Nat.log_of_lt hlt, hlarge (by omega) (by omega)]

/-- **The documented shape, exactly for the passes with one digit:** with `(int)log10(m)` the
digits of `m` less one, the key of pass `i` is as documented if and only if `i` is from 1
to 9, or `1000000 - i` is. -/
theorem paddedKey_documented_iff (hi : i < 1000000) (hlo : 15 ≤ keySize) :
    Documented i keySize (paddedKey (Nat.log 10) i keySize) ↔
      1 ≤ i ∧ i ≤ 9 ∨ 999991 ≤ i ∧ i ≤ 999999 := by
  rw [documented_paddedKey_iff hlo]
  rcases Nat.eq_zero_or_pos i with rfl | hpos
  · have hlog : Nat.log 10 (1000000 - 0) = 6 :=
      Nat.log_eq_of_pow_le_of_lt_pow (by omega) (by omega)
    rw [hlog, Nat.toDigits_zero]
    simp
  · have hiff := log_add_log_eq_iff hpos (by omega : 0 < 1000000 - i) (by omega)
    rw [Decimal.length_toDigits hpos]
    omega

/-- Pass 7. -/
theorem paddedKey_documented_iff_seven :
    Documented 7 15 (paddedKey (Nat.log 10) 7 15) :=
  (paddedKey_documented_iff (by omega) (by omega)).2 (Or.inl (by omega))

/-- **The first key is one character too long:** seven zeros, and 16 characters where 15 were
drawn. -/
theorem paddedKey_zero_not_documented : ¬Documented 0 15 (paddedKey (Nat.log 10) 0 15) := by
  rw [documented_paddedKey_iff (by omega)]
  have hlog : Nat.log 10 (1000000 - 0) = 6 :=
    Nat.log_eq_of_pow_le_of_lt_pow (by omega) (by omega)
  rw [hlog, Nat.toDigits_zero]
  simp

end Bench
end CacheBench
