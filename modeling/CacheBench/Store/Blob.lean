/-
# Which blobs survive a set

`cache.hh` speaks of values as blobs of a given size, and `set` allocates, accounts and
terminates by that size; but its loop copies up to the first `'\0'`.  An array of `size`
bytes without a `'\0'` is read past its end; one with a `'\0'` before its last byte
leaves cells of the new block unwritten.  What is copied byte for byte, with every access
in bounds, are the arrays that C strings occupy, as long as an `int` can index them
(`Cache.set_keeps_blob_iff`).
-/

import CacheBench.Store.Copy
import CacheBench.Store.Accounting

namespace CacheBench

/-- A list is without `'\0'`, or its first one splits it. -/
theorem notMem_or_exists_split (val : List ByteType) :
    nul ∉ val ∨ ∃ s rest, nul ∉ s ∧ val = s ++ nul :: rest := by
  by_cases h : nul ∈ val
  · obtain ⟨s, rest, hval, hs⟩ := List.eq_append_cons_of_mem h
    exact Or.inr ⟨s, rest, hs, hval⟩
  · exact Or.inl h

/-- **The copy of an array whose first `'\0'` is not its last byte** has a cell that was
never written. -/
theorem copyValue_split {s rest : List ByteType} (hs : nul ∉ s) (hrest : rest ≠ [])
    {size : SizeType} (hsize : size.toNat = s.length + 1 + rest.length) {copied : Copying}
    (hcopy : copyValue (s ++ nul :: rest) size = some copied) :
    copied.copy[s.length]? = some none := by
  obtain ⟨c, hloop, rfl⟩ := Option.map_eq_some_iff.1 hcopy
  rw [copyLoop_append hs] at hloop
  have hlt : s.length < 2 ^ 31 := by
    by_contra hge
    rw [copyLoop_eq_none hs (by omega) (by omega)] at hloop
    cases hloop
  have halloc : Copying.alloc size =
      ⟨[] ++ List.replicate (s.length + (1 + rest.length)) none, false⟩ := by
    rw [Copying.alloc, hsize, List.nil_append, Nat.add_assoc]
  rw [halloc] at hloop
  have hsome := @copyLoop_eq_some s hs [] (1 + rest.length) (by simpa using hlt) false
  rw [List.length_nil] at hsome
  obtain rfl := Option.some.inj (hloop.symm.trans hsome)
  have hlen := List.length_pos_iff.2 hrest
  have hlast : (size - 1).toNat = s.length + rest.length := by
    have hone : (1 : SizeType) ≤ size := by
      rw [UInt32.le_iff_toNat_le, hsize, show (1 : SizeType).toNat = 1 from rfl]
      omega
    rw [UInt32.toNat_sub_of_le _ _ hone, hsize, show (1 : SizeType).toNat = 1 from rfl]
    omega
  -- the terminator goes to a later cell
  rw [Copying.write, hlast, List.nil_append, List.getElem?_set_ne (by omega),
    List.getElem?_append_right (by simp), List.length_map, Nat.sub_self,
    List.getElem?_replicate_of_lt (by omega)]

namespace Cache

variable {ε : Type} [Evictor ε] {c : Cache ε} {key : KeyType} {val : List ByteType}
variable {size : SizeType}

/-- **A blob is kept exactly when it is a C string.**  Of any cache, for a set of any array
of exactly `size` bytes that gets past the rejection and the eviction loop: the copy loop
stays inside `val` and inside `copy`, and the set returns with `get` giving back the
`size` bytes of `val`, if and only if the last byte of `val` is its only `'\0'` and the
bytes before it are fewer than `2^31`. -/
theorem set_keeps_blob_iff (hlen : val.length = size.toNat)
    (hadm : ∃ n, While.Exits (tooFull size) evictOne ⟨[], (c.del key).2⟩ n) :
    (∃ copied r c', copyValue val size = some copied ∧ copied.stray = false ∧
        c.SetReturns key val size r c' ∧ r.admitted = true ∧
        (c'.get key).1 = (some (val.map some), size)) ↔
      ∃ s, IsCString s ∧ val = cString s ∧ s.length < 2 ^ 31 := by
  have hget : ∀ n (copied : Copying),
      (((evictions n (c.del key).2).cache.insertCopy key copied.copy size).get key).1 =
        (some copied.copy, size) := by
    intro n copied
    rw [get_fst, insertCopy_entry_self _ _ _ _ (evictions_del_lookup_self n c key)]
  constructor
  · rintro ⟨copied, r, c', hcopy, -, hset, hr, hblob⟩
    rcases setReturns_iff.1 hset with ⟨-, -, rfl, -⟩ | ⟨n, copied', -, hcopy', -, rfl⟩
    · cases hr
    · obtain rfl := Option.some.inj (hcopy.symm.trans hcopy')
      rw [hget n copied] at hblob
      have hsame : copied.copy = val.map some := Option.some.inj (congrArg Prod.fst hblob)
      rcases notMem_or_exists_split val with hnot | ⟨s, rest, hs, rfl⟩
      · rw [copyValue, copyLoop_of_notMem hnot] at hcopy
        cases hcopy
      · have hrest : rest = [] := by
          by_contra hrest
          have hcell := copyValue_split hs hrest (by simp at hlen; omega) hcopy
          rw [hsame] at hcell
          simp at hcell
        subst hrest
        refine ⟨String.ofList s, by simpa [IsCString] using hs, by simp [cString], ?_⟩
        by_contra hge
        rw [String.length_ofList] at hge
        rw [copyValue, copyLoop_eq_none hs (by omega) (by omega)] at hcopy
        cases hcopy
  · rintro ⟨s, hs, rfl, hlt⟩
    obtain ⟨n, hn⟩ := hadm
    have hsize : size.toNat = s.length + 1 := by
      rw [← hlen, cString, List.length_append, String.length_toList, List.length_singleton]
    have hcopy : copyValue (cString s) size = some ⟨stored s, false⟩ := by
      rw [copyValue_cString hs hsize, if_pos hlt]
    refine ⟨_, _, _, hcopy, rfl, setReturns_iff.2 (Or.inr ⟨n, _, hn, hcopy, rfl, rfl⟩), rfl, ?_⟩
    exact hget n _

/-- A blob of two bytes that is a C string. -/
theorem set_keeps_blob_iff_play : ∃ copied r c',
    copyValue ['x', nul] 2 = some copied ∧ copied.stray = false ∧
    (new 30 (none : Option FifoEvictor)).SetReturns "a" ['x', nul] 2 r c' ∧ r.admitted = true ∧
    (c'.get "a").1 = (some [some 'x', some nul], 2) :=
  have hadm : ∃ n, While.Exits (tooFull 2) evictOne
      ⟨[], ((new 30 (none : Option FifoEvictor)).del "a").2⟩ n := ⟨0, .zero rfl⟩
  (set_keeps_blob_iff rfl hadm).2 ⟨"x", by decide, rfl, by decide⟩

/-- **A blob with a `'\0'` inside is not kept:** of the three bytes `a`, `'\0'`, `b` the set
is admitted, and `get` gives back a block without the last two. -/
theorem set_loses_blob : ∃ c',
    (new 30 (none : Option FifoEvictor)).SetReturns "k" ['a', nul, 'b'] 3 ⟨[], true⟩ c' ∧
    (c'.get "k").1 = (some [some 'a', none, some nul], 3) ∧
    (c'.get "k").1 ≠ (some (['a', nul, 'b'].map some), 3) := by
  obtain ⟨c', hset, hget, hne⟩ : ∃ c',
      (new 30 (none : Option FifoEvictor)).set 0 "k" ['a', nul, 'b'] 3 =
        some (⟨[], true⟩, c') ∧ (c'.get "k").1 = (some [some 'a', none, some nul], 3) ∧
      (c'.get "k").1 ≠ (some (['a', nul, 'b'].map some), 3) := ⟨_, rfl, rfl, by decide⟩
  exact ⟨c', ⟨0, hset⟩, hget, hne⟩

end Cache
end CacheBench
