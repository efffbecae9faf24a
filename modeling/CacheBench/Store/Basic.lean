/-
# What each operation does to each field

The lemmas beside the definitions of `CacheBench.Store.Cache`: for every operation
the fields after it, so that later proofs need not unfold it, and for `set` the
two ways it can return (`Cache.set_returns_iff`): it rejects the value, or its loop
leaves after some number of passes and the copy is inserted.  `Cache.entry` is the
pair `get` reports and `Cache.Live` says that its pointer is not null.
-/

import CacheBench.Store.Cache

namespace CacheBench
namespace Cache

variable {ε : Type}

/-- What `get` reports of `key`: its entry, or `(nullptr, 0)`. -/
def entry (c : Cache ε) (key : KeyType) : EntryType := (c.dict.lookup key).getD (none, 0)

/-- `key` holds a value: `get` would not return the null pointer. -/
def Live (c : Cache ε) (key : KeyType) : Prop := (c.entry key).1 ≠ none

instance (c : Cache ε) (key : KeyType) : Decidable (c.Live key) :=
  inferInstanceAs (Decidable (_ ≠ _))

/-- The sum of the sizes of all entries, as a natural number. -/
def total (c : Cache ε) : ℕ := Finmap.total (fun e : EntryType => e.2.toNat) c.dict

variable (c : Cache ε) (key : KeyType) (size : SizeType)

/-! ### `new`, `del`, `reset` -/

/-- A new cache is empty. -/
@[simp] theorem new_dict (maxmem : SizeType) (ev : Option ε) : (new maxmem ev).dict = ∅ := rfl
@[simp] theorem new_size (maxmem : SizeType) (ev : Option ε) : (new maxmem ev).size = 0 := rfl
@[simp] theorem new_maxmem (maxmem : SizeType) (ev : Option ε) :
    (new maxmem ev).maxmem = maxmem := rfl
@[simp] theorem new_evictor (maxmem : SizeType) (ev : Option ε) :
    (new maxmem ev).evictor = ev := rfl

/-- `del` says whether there was an entry. -/
theorem del_fst : (c.del key).1 = (c.dict.lookup key).isSome := by
  unfold del
  cases c.dict.lookup key <;> rfl

/-- `del` takes the entry away. -/
@[simp] theorem del_snd_dict : (c.del key).2.dict = c.dict.erase key := by
  unfold del
  cases h : c.dict.lookup key with
  | none => exact (Finmap.erase_of_lookup_eq_none h).symm
  | some e => rfl

@[simp] theorem del_snd_size : (c.del key).2.size = c.size - (c.entry key).2 := by
  unfold del entry
  cases h : c.dict.lookup key with
  | none => simp
  | some e => rfl

@[simp] theorem del_snd_maxmem : (c.del key).2.maxmem = c.maxmem := by
  unfold del
  cases c.dict.lookup key <;> rfl

@[simp] theorem del_snd_evictor : (c.del key).2.evictor = c.evictor := by
  unfold del
  cases c.dict.lookup key <;> rfl

/-- Without an entry `del` does nothing. -/
theorem del_of_lookup_eq_none (h : c.dict.lookup key = none) : (c.del key).2 = c := by
  unfold del
  rw [h]

/-- The deletion of `set`, which first looks for the entry, is `del`. -/
theorem del_of_find :
    (if (c.dict.lookup key).isSome then (c.del key).2 else c) = (c.del key).2 := by
  cases h : c.dict.lookup key with
  | none => simp [del_of_lookup_eq_none c key h]
  | some e => rfl

/-- `del` takes away the entry of its key and no other. -/
theorem del_snd_entry (j : KeyType) :
    (c.del key).2.entry j = if j = key then (none, 0) else c.entry j := by
  unfold entry
  rw [del_snd_dict, Finmap.lookup_erase_eq_ite]
  split_ifs <;> rfl

/-- `del` takes the size of the entry off the total. -/
theorem total_del_add : (c.entry key).2.toNat + (c.del key).2.total = c.total := by
  unfold total entry
  rw [del_snd_dict]
  cases h : c.dict.lookup key with
  | none => simp [Finmap.erase_of_lookup_eq_none h]
  | some e => exact Finmap.total_erase_add (fun e : EntryType => e.2.toNat) h

/-- A reset empties the cache. -/
@[simp] theorem reset_dict : c.reset.dict = ∅ := rfl
@[simp] theorem reset_size : c.reset.size = 0 := rfl
@[simp] theorem reset_maxmem : c.reset.maxmem = c.maxmem := rfl
@[simp] theorem reset_evictor : c.reset.evictor = c.evictor := rfl

/-! ### `touch`, `get` -/

variable [Evictor ε]

/-- A touch leaves the entries alone. -/
@[simp] theorem touch_dict : (c.touch key).dict = c.dict := rfl
@[simp] theorem touch_size : (c.touch key).size = c.size := rfl
@[simp] theorem touch_maxmem : (c.touch key).maxmem = c.maxmem := rfl
@[simp] theorem touch_evictor :
    (c.touch key).evictor = c.evictor.map fun e => Evictor.touchKey e key := rfl

/-- `dict_[key]` is the entry, or one that was just made. -/
theorem subscript_fst (d : Dict) (key : KeyType) :
    (subscript d key).1 = (d.lookup key).getD (none, 0) := by
  unfold subscript
  cases d.lookup key <;> rfl

/-- `dict_[key]` leaves an entry under `key`, and the others as they are. -/
theorem subscript_snd_lookup (d : Dict) (key j : KeyType) :
    (subscript d key).2.lookup j =
      if j = key ∧ d.lookup key = none then some (none, 0) else d.lookup j := by
  unfold subscript
  cases h : d.lookup key with
  | some e => simp
  | none => simp only [Finmap.lookup_insert_eq_ite, and_true]

/-- `get` returns the entry. -/
@[simp] theorem get_fst : (c.get key).1 = c.entry key := subscript_fst c.dict key
theorem get_snd_dict : (c.get key).2.dict = (subscript c.dict key).2 := rfl
@[simp] theorem get_snd_size : (c.get key).2.size = c.size := rfl
@[simp] theorem get_snd_maxmem : (c.get key).2.maxmem = c.maxmem := rfl
@[simp] theorem get_snd_evictor :
    (c.get key).2.evictor = c.evictor.map fun e => Evictor.touchKey e key := rfl

/-- `get` leaves every key with the entry that it reports. -/
@[simp] theorem get_snd_entry (j : KeyType) : (c.get key).2.entry j = c.entry j := by
  unfold entry
  rw [get_snd_dict, subscript_snd_lookup]
  split_ifs with h
  · rw [h.1, h.2]
    rfl
  · rfl

/-- The entry that `get` makes counts nothing. -/
@[simp] theorem get_snd_total : (c.get key).2.total = c.total := by
  unfold total
  rw [get_snd_dict]
  unfold subscript
  cases h : c.dict.lookup key with
  | some e => rfl
  | none => simp [Finmap.total_insert _ h]

/-! ### One pass of the eviction loop -/

variable (w : Evicting ε)

@[simp] theorem evictOne_maxmem : (evictOne w).cache.maxmem = w.cache.maxmem := by
  unfold evictOne
  cases w.cache.evictor <;> simp

/-- Without an evictor a pass does nothing. -/
theorem evictOne_of_none (h : w.cache.evictor = none) : evictOne w = w := by
  unfold evictOne
  rw [h]

/-- **One pass of the loop:** the key the evictor names is deleted and noted. -/
theorem evictOne_of_some {e : ε} (h : w.cache.evictor = some e) :
    (evictOne w).evicted = w.evicted ++ [(Evictor.evict e).1] ∧
      (evictOne w).cache.dict = w.cache.dict.erase (Evictor.evict e).1 ∧
      (evictOne w).cache.size = w.cache.size - (w.cache.entry (Evictor.evict e).1).2 ∧
      (evictOne w).cache.evictor = some (Evictor.evict e).2 := by
  unfold evictOne
  rw [h]
  simp [entry]

/-! ### `set` -/

/-- The test of the eviction loop. -/
def tooFull (size : SizeType) (w : Evicting ε) : Bool := w.cache.exceeds size

/-- `n` passes of the eviction loop on `c`. -/
def evictions (n : ℕ) (c : Cache ε) : Evicting ε := evictOne^[n] ⟨[], c⟩

variable {c size} in

/-- Where the loop ends the test fails. -/
theorem exceeds_evictions_of_exits {n : ℕ} (h : While.Exits (tooFull size) evictOne ⟨[], c⟩ n) :
    (evictions n c).cache.exceeds size = false :=
  h.stop

/-- The passes, one after the other. -/
@[simp] theorem evictions_zero : evictions 0 c = ⟨[], c⟩ := rfl

theorem evictions_succ (n : ℕ) : evictions (n + 1) c = evictOne (evictions n c) :=
  Function.iterate_succ_apply' evictOne n ⟨[], c⟩

/-- No pass changes the limit. -/
@[simp] theorem evictions_maxmem (n : ℕ) : (evictions n c).cache.maxmem = c.maxmem := by
  induction n with
  | zero => rfl
  | succ n ih => rw [evictions_succ, evictOne_maxmem, ih]

/-- **The induction over the passes of the loop:** what deleting a key keeps,
whatever becomes of the evictor, the loop keeps. -/
theorem evictions_induction {P : Cache ε → Prop}
    (hdel : ∀ (c : Cache ε) e k, P c → P (del { c with evictor := some e } k).2) (h : P c) (n : ℕ) :
    P (evictions n c).cache := by
  induction n with
  | zero => exact h
  | succ n ih =>
    rw [evictions_succ]
    unfold evictOne
    cases (evictions n c).cache.evictor with
    | none => exact ih
    | some e => exact hdel _ _ _ ih

/-- The loop erases the keys it evicts and nothing else. -/
theorem evictions_lookup (n : ℕ) (k : KeyType) :
    (evictions n c).cache.dict.lookup k =
      if k ∈ (evictions n c).evicted then none else c.dict.lookup k := by
  induction n with
  | zero => rfl
  | succ n ih =>
    rw [evictions_succ]
    cases hev : (evictions n c).cache.evictor with
    | none => rw [evictOne_of_none _ hev, ih]
    | some e =>
      obtain ⟨hkeys, hdict, -, -⟩ := evictOne_of_some _ hev
      rw [hkeys, hdict, Finmap.lookup_erase_eq_ite, ih]
      by_cases hk : k = (Evictor.evict e).1
      · simp [hk]
      · simp [hk]

/-- `emplace` inserts where there is no entry. -/
theorem emplace_of_lookup_eq_none {d : Dict} {e : EntryType} (h : d.lookup key = none) :
    emplace d key e = d.insert key e := by
  simp [emplace, h]

/-- An insertion adds the size and touches the key. -/
@[simp] theorem insertCopy_size (copy : Block) :
    (c.insertCopy key copy size).size = c.size + size := rfl
@[simp] theorem insertCopy_maxmem (copy : Block) :
    (c.insertCopy key copy size).maxmem = c.maxmem := rfl
@[simp] theorem insertCopy_evictor (copy : Block) :
    (c.insertCopy key copy size).evictor = c.evictor.map fun e => Evictor.touchKey e key := rfl

/-- Where there is no entry the insertion makes one. -/
theorem insertCopy_dict (copy : Block) (h : c.dict.lookup key = none) :
    (c.insertCopy key copy size).dict = c.dict.insert key (some copy, size) :=
  emplace_of_lookup_eq_none key h

/-- The new entry is the copy with its size. -/
theorem insertCopy_entry_self (copy : Block) (h : c.dict.lookup key = none) :
    (c.insertCopy key copy size).entry key = (some copy, size) := by
  rw [entry, insertCopy_dict c key size copy h, Finmap.lookup_insert]
  rfl

/-- An insertion leaves the other entries as they are. -/
theorem insertCopy_lookup_of_ne (copy : Block) {j : KeyType} (hj : j ≠ key) :
    (c.insertCopy key copy size).dict.lookup j = c.dict.lookup j := by
  show (emplace c.dict key (some copy, size)).lookup j = c.dict.lookup j
  unfold emplace
  split_ifs
  · rfl
  · rw [Finmap.lookup_insert_of_ne _ hj]

/-- After an insertion the entries count the new size as well. -/
theorem insertCopy_total (copy : Block) (h : c.dict.lookup key = none) :
    (c.insertCopy key copy size).total = c.total + size.toNat := by
  rw [total, insertCopy_dict c key size copy h, Finmap.total_insert _ h, Nat.add_comm]
  rfl

variable {c key size}

/-- `set` returns the report `r` and leaves the cache `c'`. -/
def SetReturns (c : Cache ε) (key : KeyType) (val : List ByteType) (size : SizeType) (r : Report)
    (c' : Cache ε) : Prop :=
  ∃ fuel, c.set fuel key val size = some (r, c')

/-- **How `set` can return.**  After the old entry of the key is deleted, either
there is no evictor and the value does not fit, and nothing else happens; or the
eviction loop leaves after `n` passes and the copy is inserted. -/
theorem setReturns_iff {val : List ByteType} {r : Report} {c' : Cache ε} :
    c.SetReturns key val size r c' ↔
      ((c.del key).2.exceeds size = true ∧ c.evictor = none ∧ r = ⟨[], false⟩ ∧
        c' = (c.del key).2) ∨
      ∃ n copied, While.Exits (tooFull size) evictOne ⟨[], (c.del key).2⟩ n ∧
        copyValue val size = some copied ∧
        r = ⟨(evictions n (c.del key).2).evicted, true⟩ ∧
        c' = (evictions n (c.del key).2).cache.insertCopy key copied.copy size := by
  have hset : ∀ fuel, c.set fuel key val size =
      if (c.del key).2.exceeds size && c.evictor.isNone then some (⟨[], false⟩, (c.del key).2)
      else (evictLoop fuel size (c.del key).2).bind fun w => (copyValue val size).bind fun copied =>
        some (⟨w.evicted, true⟩, w.cache.insertCopy key copied.copy size) := by
    intro fuel
    unfold set
    rw [del_of_find]
    simp only [del_snd_evictor]
    rfl
  unfold SetReturns
  simp only [hset]
  constructor
  · rintro ⟨fuel, h⟩
    split_ifs at h with hrej
    · left
      simp only [Bool.and_eq_true, Option.isNone_iff_eq_none] at hrej
      simp only [Option.some.injEq, Prod.mk.injEq] at h
      exact ⟨hrej.1, hrej.2, h.1.symm, h.2.symm⟩
    · right
      simp only [Option.bind_eq_some_iff, Option.some.injEq, Prod.mk.injEq] at h
      obtain ⟨w, hw, copied, hcopy, hr, hc'⟩ := h
      obtain ⟨n, -, hn, rfl⟩ := While.run_eq_some_iff.1 hw
      exact ⟨n, copied, hn, hcopy, hr.symm, hc'.symm⟩
  · rintro (⟨hexceeds, hev, rfl, rfl⟩ | ⟨n, copied, hn, hcopy, rfl, rfl⟩)
    · exact ⟨0, by simp [hexceeds, hev]⟩
    · refine ⟨n, ?_⟩
      have hrej : ¬((c.del key).2.exceeds size && c.evictor.isNone) = true := by
        simp only [Bool.and_eq_true, Option.isNone_iff_eq_none, not_and]
        intro hexceeds hev
        -- without an evictor a pass changes nothing, so the loop could not have left
        have hfix : ∀ m, evictOne^[m] ⟨[], (c.del key).2⟩ = ⟨[], (c.del key).2⟩ :=
          Function.iterate_fixed (evictOne_of_none _ (by simpa using hev))
        have hstop := hn.stop
        rw [hfix] at hstop
        exact Bool.false_ne_true (hstop.symm.trans hexceeds)
      rw [if_neg hrej]
      have hloop : evictLoop n size (c.del key).2 = some (evictions n (c.del key).2) := hn.run_eq
      simp [hloop, hcopy]

/-- The eviction loop of `set(key, …, size)` runs for ever. -/
def SetLoops (c : Cache ε) (key : KeyType) (size : SizeType) : Prop :=
  c.evictor.isSome = true ∧ ∀ fuel, evictLoop fuel size (c.del key).2 = none

/-- **The loop runs for ever** when no number of passes is enough. -/
theorem setLoops_iff : c.SetLoops key size ↔ c.evictor.isSome = true ∧
    ∀ n, ¬While.Exits (tooFull size) evictOne ⟨[], (c.del key).2⟩ n := by
  refine and_congr_right fun _ => ⟨fun hnone n hn => ?_, fun hnone fuel => ?_⟩
  · have hloop : evictLoop n size (c.del key).2 = some (evictions n (c.del key).2) := hn.run_eq
    rw [hnone n] at hloop
    cases hloop
  · cases hloop : evictLoop fuel size (c.del key).2 with
    | none => rfl
    | some w =>
      obtain ⟨n, -, hn, -⟩ := While.run_eq_some_iff.1 hloop
      exact absurd hn (hnone n)

/-- Then `set` does not return, whatever the value. -/
theorem SetLoops.not_setReturns (h : c.SetLoops key size) {val : List ByteType} {r : Report}
    {c' : Cache ε} : ¬c.SetReturns key val size r c' := by
  obtain ⟨hsome, hnone⟩ := setLoops_iff.1 h
  intro hset
  rcases setReturns_iff.1 hset with ⟨-, hev, -, -⟩ | ⟨n, copied, hn, -⟩
  · rw [hev] at hsome
    cases hsome
  · exact hnone n hn

end Cache
end CacheBench
