/-
# What a workload leaves in the cache

In a workload each key has one value, and the calls are gets and sets only
(`Cache.Plays`).  Then a set can take the place of an old entry of its key without any
change of `space_used()`, and so `space_used()` only grows until a value does not fit.

With any evictor, or with none, two cases are left (`Cache.space_after_workload`).  While
the values of all keys that were set fit together, every set finds room, everything that
was set is there, and `space_used()` is their sum.  From the first set on that does not
find room, whether it evicts or is rejected, `space_used()` stays within one value of the
limit: an eviction frees no more than it has to, up to the size of the last entry it takes,
and a rejection frees nothing that was not there before.
-/

import Mathlib.Algebra.Order.BigOperators.Group.Finset
import CacheBench.Store.Fifo
import CacheBench.Store.LastWrite

namespace CacheBench
namespace Cache

/-- The `size` that goes with the value of a key. -/
def sizeOfValue (value : KeyType → String) (k : KeyType) : SizeType :=
  UInt32.ofNat ((value k).length + 1)

/-- A get, or a set of a key to its value. -/
def Plays (value : KeyType → String) : Call → Prop
  | .set key val size => val = cString (value key) ∧ size = sizeOfValue value key
  | .get _ => True
  | _ => False

/-- The keys that the calls set. -/
def setKeys (calls : List Call) : Finset KeyType :=
  (calls.filterMap fun
    | .set key _ _ => some key
    | _ => none).toFinset

/-- A set that found no room: it evicted, or it was rejected. -/
def Pressed : Call × Reply → Prop
  | (.set _ _ _, .set r) => r.evicted ≠ [] ∨ r.admitted = false
  | _ => False

/-- Each value is a C string of less than `m` bytes, and a cache that is full to its limit
can count `m` bytes more. -/
structure Suits (value : KeyType → String) (m : ℕ) (maxmem : SizeType) : Prop where
  isCString : ∀ k, IsCString (value k)
  length : ∀ k, (value k).length + 1 ≤ m
  counted : maxmem.toNat + m < 2 ^ 32

/-- Each entry is without a value, or the value of its key. -/
def HoldsOwn {ε : Type} (value : KeyType → String) (c : Cache ε) : Prop :=
  ∀ k, c.entry k = (none, 0) ∨ c.entry k = (some (stored (value k)), sizeOfValue value k)

/-- A set adds its key to those that are set. -/
theorem setKeys_snoc_set (calls : List Call) (key : KeyType) (val : List ByteType)
    (size : SizeType) : setKeys (calls ++ [.set key val size]) = insert key (setKeys calls) := by
  ext k
  simp [setKeys]

/-- A get adds no key. -/
theorem setKeys_snoc_get (calls : List Call) (key : KeyType) :
    setKeys (calls ++ [.get key]) = setKeys calls := by
  simp [setKeys]

variable {value : KeyType → String} {m : ℕ} {maxmem : SizeType}

/-- The size of a value is its length with the terminator. -/
theorem Suits.toNat_size (h : Suits value m maxmem) (k : KeyType) :
    (sizeOfValue value k).toNat = (value k).length + 1 := by
  have hlen := h.length k
  have hcount := h.counted
  exact UInt32.toNat_ofNat_of_lt' (by unfold UInt32.size; omega)

/-- No size is above `m`. -/
theorem Suits.toNat_size_le (h : Suits value m maxmem) (k : KeyType) :
    (sizeOfValue value k).toNat ≤ m :=
  (h.toNat_size k).trans_le (h.length k)

/-- An entry has no size or that of its value. -/
theorem HoldsOwn.entry_size {ε : Type} {c : Cache ε} (h : c.HoldsOwn value) (k : KeyType) :
    (c.entry k).2 = 0 ∨ (c.entry k).2 = sizeOfValue value k := by
  rcases h k with hk | hk
  · exact Or.inl (congrArg Prod.snd hk)
  · exact Or.inr (congrArg Prod.snd hk)

/-- No entry is larger than `m`. -/
theorem HoldsOwn.entry_size_le {ε : Type} {c : Cache ε} (h : c.HoldsOwn value)
    (hs : Suits value m maxmem) (k : KeyType) : (c.entry k).2.toNat ≤ m := by
  rcases h.entry_size k with hk | hk
  · rw [hk]
    exact Nat.zero_le _
  · rw [hk]
    exact hs.toNat_size_le k

variable {ε : Type} [Evictor ε] {c c' : Cache ε} {key : KeyType} {val : List ByteType}
variable {size : SizeType} {r : Report} {log : List (Call × Reply)} {ev : Option ε}

/-- Calls of the workload store nothing else. -/
theorem HoldsOwn.step {l : Call × Reply} (hs : Suits value m maxmem) (h : c.HoldsOwn value)
    (hl : Plays value l.1) (hstep : Step c l c') : c'.HoldsOwn value := by
  intro k
  cases hstep with
  | @set _ key val size r hset =>
    obtain ⟨rfl, rfl⟩ := hl
    by_cases hk : k = key
    · subst hk
      rcases hset.entry_self with ⟨copied, hcopy, hentry⟩ | hentry
      · rw [hentry, copy_eq_stored (hs.isCString k) (hs.toNat_size k) hcopy]
        exact Or.inr rfl
      · exact Or.inl hentry
    · rcases hset.entry_of_ne hk with hentry | hentry
      · rw [hentry]
        exact h k
      · exact Or.inl hentry
  | get =>
    rw [get_snd_entry]
    exact h k
  | del => exact hl.elim
  | reset => exact hl.elim

/-- **Every key has its own value or none,** after every run of the workload. -/
theorem Run.holdsOwn (hs : Suits value m maxmem) (h : Run (new maxmem ev) log c)
    (hlog : ∀ l ∈ log, Plays value l.1) : c.HoldsOwn value := by
  refine Trace.Run.invariant_along h (fun pre l post c d hsplit _ hstep hc => ?_) ?_
  · exact hc.step hs (hlog l (by simp [hsplit])) hstep
  · intro k
    rw [entry, new_dict, Finmap.lookup_empty]
    exact Or.inl rfl

/-- **What a get of the workload returns:** nothing, or the value of its key. -/
theorem Run.entry_of_get (hs : Suits value m maxmem) (h : Run (new maxmem ev) log c)
    (hlog : ∀ l ∈ log, Plays value l.1) {e : EntryType} (hget : (.get key, .get e) ∈ log) :
    e = (none, 0) ∨ e = (some (stored (value key)), sizeOfValue value key) := by
  obtain ⟨pre, post, rfl⟩ := List.append_of_mem hget
  obtain ⟨d, hpre, hpost⟩ := Trace.run_append_iff.1 h
  obtain ⟨d', hstep, -⟩ := Trace.run_cons_iff.1 hpost
  have hown := Run.holdsOwn hs hpre fun l hl => hlog l (List.mem_append_left _ hl)
  cases hstep with
  | get => exact get_fst d key ▸ hown key

/-- No sum of the workload wraps. -/
theorem Run.exact_of_suits (hs : Suits value m maxmem) (h : Run (new maxmem ev) log c)
    (hlog : ∀ l ∈ log, Plays value l.1) : c.Exact := by
  refine Run.exact h fun key val size reply hmem => ?_
  obtain ⟨-, rfl⟩ := hlog _ hmem
  have hle := hs.toNat_size_le key
  have hcount := hs.counted
  omega

/-! ### A set that finds no room -/

/-- **The loop frees no more than it has to:** before its last pass the value did not fit. -/
theorem lt_size_of_evicted (hexact : c.Exact) (hentry : ∀ k, (c.entry k).2.toNat ≤ m) {n : ℕ}
    (hn : While.Exits (tooFull size) evictOne ⟨[], c⟩ n)
    (hevicted : (evictions n c).evicted ≠ []) :
    c.maxmem.toNat < (evictions n c).cache.size.toNat + size.toNat + m := by
  cases n with
  | zero => exact absurd rfl hevicted
  | succ n =>
    have hfull : (evictions n c).cache.exceeds size = true := hn.go n (Nat.lt_succ_self n)
    rw [exceeds_iff, evictions_maxmem] at hfull
    have hmod := Nat.mod_le ((evictions n c).cache.size.toNat + size.toNat) (2 ^ 32)
    have hprev := (hexact.evictions n).1
    rw [evictions_succ]
    cases hev : (evictions n c).cache.evictor with
    | none =>
      rw [evictOne_of_none _ hev]
      omega
    | some e =>
      obtain ⟨-, -, hsize, -⟩ := evictOne_of_some _ hev
      have hle : ((evictions n c).cache.entry (Evictor.evict e).1).2.toNat ≤ m := by
        rw [evictions_entry]
        split_ifs
        · exact Nat.zero_le _
        · exact hentry _
      have hsub := hprev.entry_le (Evictor.evict e).1
      rw [hsize, UInt32.toNat_sub_of_le _ _ (UInt32.le_iff_toNat_le.2 hsub)]
      omega

/-- **A set that found no room** leaves `space_used()` within `m` of the limit. -/
theorem SetReturns.lt_size_of_pressed (hexact : c.Exact) (hentry : ∀ k, (c.entry k).2.toNat ≤ m)
    (hwrap : c.NoWrap key size) (hsize : size.toNat ≤ m) (h : c.SetReturns key val size r c')
    (hr : r.evicted ≠ [] ∨ r.admitted = false) : c.maxmem.toNat < c'.size.toNat + m := by
  have hdel := hexact.del key
  have hexact' := hexact.set hwrap h
  rcases setReturns_iff.1 h with ⟨hfull, -, -, rfl⟩ | ⟨n, copied, hn, -, rfl, rfl⟩
  · rw [exceeds_iff, del_snd_maxmem] at hfull
    have hmod := Nat.mod_le ((c.del key).2.size.toNat + size.toNat) (2 ^ 32)
    omega
  · have hentry' : ∀ k, ((c.del key).2.entry k).2.toNat ≤ m := by
      intro k
      rw [del_snd_entry]
      split_ifs
      · exact Nat.zero_le _
      · exact hentry k
    have hlt := lt_size_of_evicted hdel hentry' hn (hr.resolve_right Bool.noConfusion)
    have hle := (hdel.evictions n).2
    rw [noWrap_iff] at hwrap
    rw [del_snd_maxmem] at hlt
    rw [insertCopy_size, UInt32.toNat_add, Nat.mod_eq_of_lt (by omega)]
    omega

/-! ### A set that finds room -/

/-- A loop that evicted nothing changed nothing. -/
theorem evictions_of_evicted_eq_nil (hexact : c.Exact) {n : ℕ}
    (hnil : (evictions n c).evicted = []) :
    (∀ k, (evictions n c).cache.dict.lookup k = c.dict.lookup k) ∧
      (evictions n c).cache.size = c.size := by
  have hlookup : ∀ k, (evictions n c).cache.dict.lookup k = c.dict.lookup k := by
    intro k
    rw [evictions_lookup, hnil, if_neg List.not_mem_nil]
  have hdict : (evictions n c).cache.dict = c.dict := Finmap.ext_lookup hlookup
  refine ⟨hlookup, UInt32.toNat_inj.1 ?_⟩
  rw [(hexact.evictions n).1.size, hexact.size, total, total, hdict]

/-- A set that evicted nothing and was not rejected: its key has the value, every other key
what it had. -/
theorem SetReturns.of_not_pressed (hexact : c.Exact) (hwrap : c.NoWrap key size)
    (h : c.SetReturns key val size r c') (hr : ¬(r.evicted ≠ [] ∨ r.admitted = false)) :
    (∃ copied, copyValue val size = some copied ∧ c'.entry key = (some copied.copy, size)) ∧
      (∀ k, k ≠ key → c'.entry k = c.entry k) ∧
      c'.size.toNat = (c.del key).2.size.toNat + size.toNat := by
  rw [noWrap_iff] at hwrap
  rcases setReturns_iff.1 h with ⟨-, -, rfl, -⟩ | ⟨n, copied, -, hcopy, rfl, rfl⟩
  · exact absurd (Or.inr rfl) hr
  · obtain ⟨hlookup, hsize⟩ :=
      evictions_of_evicted_eq_nil (hexact.del key) (n := n) (not_not.1 fun hne => hr (Or.inl hne))
    refine ⟨⟨copied, hcopy, ?_⟩, fun k hk => ?_, ?_⟩
    · exact insertCopy_entry_self _ _ _ _ (evictions_del_lookup_self n c key)
    · rw [entry, insertCopy_lookup_of_ne _ _ _ _ hk, hlookup]
      show (c.del key).2.entry k = _
      rw [del_snd_entry, if_neg hk]
    · rw [insertCopy_size, UInt32.toNat_add, hsize, Nat.mod_eq_of_lt hwrap]

/-- **A set finds room exactly when its value fits beside the other entries.** -/
theorem SetReturns.pressed_iff (hexact : c.Exact) (h : c.SetReturns key val size r c') :
    (r.evicted ≠ [] ∨ r.admitted = false) ↔ (c.del key).2.exceeds size = true := by
  constructor
  · intro hr
    by_contra hfits
    rcases setReturns_iff.1 h with ⟨hfull, -⟩ | ⟨n, copied, hn, -, rfl, -⟩
    · exact hfits hfull
    · obtain rfl : n = 0 := hn.unique (.zero (Bool.not_eq_true _ ▸ hfits))
      simp at hr
  · intro hfull
    rcases setReturns_iff.1 h with ⟨-, -, rfl, -⟩ | ⟨n, copied, hn, -, rfl, -⟩
    · exact Or.inr rfl
    · refine Or.inl fun hnil => ?_
      obtain ⟨-, hsize⟩ := evictions_of_evicted_eq_nil (hexact.del key) hnil
      have hstop := exceeds_evictions_of_exits hn
      unfold exceeds spaceUsed at hstop hfull
      rw [hsize, evictions_maxmem, hfull] at hstop
      cases hstop

/-- What the entry of a key weighs, and what the others do. -/
theorem Exact.entry_add_del {ε : Type} {c : Cache ε} (h : c.Exact) (key : KeyType) :
    (c.entry key).2.toNat + (c.del key).2.size.toNat = c.size.toNat := by
  rw [(h.del key).size, h.size, total_del_add]

/-! ### The whole workload -/

/-- What sets of the keys in `S` leave behind: either none of them was pressed, and what they
set is there and nothing else; or one was, and less than `m` bytes are free. -/
inductive Settled {ε : Type} (value : KeyType → String) (m : ℕ) (S : Finset KeyType)
    (pressed : Prop) (c : Cache ε) : Prop
  | kept (fits : ∑ k ∈ S, ((value k).length + 1) ≤ c.maxmem.toNat) (room : ¬pressed)
      (entry : ∀ k, c.entry k =
        if k ∈ S then (some (stored (value k)), sizeOfValue value k) else (none, 0))
      (size : c.size.toNat = ∑ k ∈ S, ((value k).length + 1))
  | full (excess : c.maxmem.toNat < ∑ k ∈ S, ((value k).length + 1)) (pressed : pressed)
      (size : c.maxmem.toNat < c.size.toNat + m)

variable {S : Finset KeyType} {pressed : Prop}

/-- Where all values fit together, they are what is counted. -/
theorem Settled.size_eq {ε : Type} {c : Cache ε} (h : Settled value m S pressed c)
    (hfits : ∑ k ∈ S, ((value k).length + 1) ≤ c.maxmem.toNat) :
    c.size.toNat = ∑ k ∈ S, ((value k).length + 1) := by
  cases h with
  | kept _ _ _ size => exact size
  | full excess => exact absurd hfits (not_le.2 excess)

/-- Where they do not, less than `m` bytes are free. -/
theorem Settled.lt_size {ε : Type} {c : Cache ε} (h : Settled value m S pressed c)
    (hover : c.maxmem.toNat < ∑ k ∈ S, ((value k).length + 1)) :
    c.maxmem.toNat < c.size.toNat + m := by
  cases h with
  | kept fits => exact absurd fits (not_le.2 hover)
  | full _ _ size => exact size

/-- **A set of the workload,** while everything is there: it finds room exactly when the
values still fit together. -/
theorem Settled.set_kept (hs : Suits value m c.maxmem) (hexact : c.Exact)
    (fits : ∑ k ∈ S, ((value k).length + 1) ≤ c.maxmem.toNat)
    (entry : ∀ k, c.entry k =
      if k ∈ S then (some (stored (value k)), sizeOfValue value k) else (none, 0))
    (size : c.size.toNat = ∑ k ∈ S, ((value k).length + 1))
    (hset : c.SetReturns key (cString (value key)) (sizeOfValue value key) r c')
    (hfull : r.evicted ≠ [] ∨ r.admitted = false → c'.maxmem.toNat < c'.size.toNat + m) :
    Settled value m (insert key S) (r.evicted ≠ [] ∨ r.admitted = false) c' := by
  have hsize := hs.toNat_size key
  have hle := hs.toNat_size_le key
  have hcount := hs.counted
  have hmax : c'.maxmem = c.maxmem := Step.maxmem (.set hset)
  have hwrap : c.NoWrap key (sizeOfValue value key) := hexact.noWrap_of_le (by omega) key
  have hdel := hexact.entry_add_del key
  have hentry := entry key
  have hothers : (c.del key).2.size.toNat = ∑ k ∈ S.erase key, ((value k).length + 1) := by
    by_cases hmem : key ∈ S
    · rw [if_pos hmem] at hentry
      rw [hentry, size, ← Finset.add_sum_erase S _ hmem, hsize] at hdel
      exact Nat.add_left_cancel hdel
    · rw [if_neg hmem] at hentry
      rw [hentry, size] at hdel
      rw [Finset.erase_eq_of_notMem hmem, ← hdel]
      exact (Nat.zero_add _).symm
  have hsum := Finset.add_sum_erase (insert key S) (fun k => (value k).length + 1)
    (Finset.mem_insert_self key S)
  rw [Finset.erase_insert_eq_erase] at hsum
  have hexceeds : (c.del key).2.exceeds (sizeOfValue value key) = true ↔
      c.maxmem.toNat < ∑ k ∈ insert key S, ((value k).length + 1) := by
    rw [noWrap_iff] at hwrap
    rw [exceeds_iff, del_snd_maxmem, Nat.mod_eq_of_lt hwrap, hothers, hsize, ← hsum, Nat.add_comm]
  rw [← hset.pressed_iff hexact] at hexceeds
  by_cases hr : r.evicted ≠ [] ∨ r.admitted = false
  · exact .full (hmax ▸ hexceeds.1 hr) hr (hfull hr)
  · obtain ⟨⟨copied, hcopy, hself⟩, hother, hafter⟩ := hset.of_not_pressed hexact hwrap hr
    refine .kept (hmax ▸ not_lt.1 (mt hexceeds.2 hr)) hr (fun k => ?_) ?_
    · by_cases hk : k = key
      · rw [hk, hself, if_pos (Finset.mem_insert_self key S),
          copy_eq_stored (hs.isCString key) hsize hcopy]
      · rw [hother k hk, entry k]
        simp only [Finset.mem_insert, hk, false_or]
    · rw [hafter, hothers, hsize, ← hsum, Nat.add_comm]

/-- Once less than `m` bytes are free, **a set of the workload keeps it so.** -/
theorem lt_size_of_set (hs : Suits value m c.maxmem) (hexact : c.Exact) (hown : c.HoldsOwn value)
    (hset : c.SetReturns key (cString (value key)) (sizeOfValue value key) r c')
    (h : r.evicted ≠ [] ∨ r.admitted = false ∨ c.maxmem.toNat < c.size.toNat + m) :
    c'.maxmem.toNat < c'.size.toNat + m := by
  have hle := hs.toNat_size_le key
  have hcount := hs.counted
  have hmax : c'.maxmem = c.maxmem := Step.maxmem (.set hset)
  have hwrap : c.NoWrap key (sizeOfValue value key) := hexact.noWrap_of_le (by omega) key
  rw [hmax]
  by_cases hr : r.evicted ≠ [] ∨ r.admitted = false
  · exact hset.lt_size_of_pressed hexact (hown.entry_size_le hs) hwrap hle hr
  · -- what the set takes away from its key it puts there again
    obtain ⟨-, -, hafter⟩ := hset.of_not_pressed hexact hwrap hr
    have hdel := hexact.entry_add_del key
    have hentry : (c.entry key).2.toNat ≤ (sizeOfValue value key).toNat := by
      rcases hown.entry_size key with heq | heq
      · rw [heq]
        exact Nat.zero_le _
      · rw [heq]
    have hlt := (or_assoc.2 h).resolve_left hr
    omega

/-- **What a workload leaves behind.** -/
theorem Run.settled (hs : Suits value m maxmem) (h : Run (new maxmem ev) log c)
    (hlog : ∀ l ∈ log, Plays value l.1) :
    Settled value m (setKeys (log.map Prod.fst)) (∃ l ∈ log, Pressed l) c := by
  induction h with
  | nil =>
    refine .kept (Nat.zero_le _) (by simp) (fun k => ?_) rfl
    rw [entry, new_dict, Finmap.lookup_empty]
    rfl
  | @snoc log l d c' hrun hstep ih =>
    have hpre : ∀ l ∈ log, Plays value l.1 := fun l hl => hlog l (List.mem_append_left _ hl)
    have hl : Plays value l.1 := hlog l (by simp)
    have hmax : d.maxmem = maxmem := Run.maxmem hrun
    have hpressed : (∃ l' ∈ log ++ [l], Pressed l') ↔ (∃ l' ∈ log, Pressed l') ∨ Pressed l := by
      simp [or_and_right, exists_or]
    rw [List.map_append, List.map_singleton, hpressed]
    cases hstep with
    | @set _ key val size r hset =>
      obtain ⟨rfl, rfl⟩ := hl
      have hsd : Suits value m d.maxmem := hmax.symm ▸ hs
      have hexact := Run.exact_of_suits hs hrun hpre
      have hafter := lt_size_of_set hsd hexact (Run.holdsOwn hs hrun hpre) hset
      rw [setKeys_snoc_set]
      cases ih hpre with
      | kept fits room entry size =>
        rw [or_iff_right room]
        exact Settled.set_kept hsd hexact fits entry size hset fun hr =>
          hafter (or_assoc.1 (Or.inl hr))
      | full excess pressed size =>
        refine .full ?_ (Or.inl pressed) (hafter (Or.inr (Or.inr size)))
        rw [show c'.maxmem = d.maxmem from Step.maxmem (.set hset)]
        exact excess.trans_le (Finset.sum_le_sum_of_subset (Finset.subset_insert key _))
    | get key =>
      rw [setKeys_snoc_get, or_iff_left (show ¬Pressed (.get key, _) from id)]
      cases ih hpre with
      | kept fits room entry size =>
        exact .kept fits room (fun k => (get_snd_entry d key k).trans (entry k)) size
      | full excess pressed size => exact .full excess pressed size
    | del => exact hl.elim
    | reset => exact hl.elim

/-- **The calls of a workload all return,** without an evictor and with a `FifoEvictor`. -/
theorem exists_run_of_plays (ev : Option FifoEvictor) (hs : Suits value m maxmem)
    (hint : m < 2 ^ 31) (hm : m ≤ maxmem.toNat) (todo : List Call)
    (htodo : ∀ call ∈ todo, Plays value call) :
    ∃ log c, Run (new maxmem ev) log c ∧ log.map Prod.fst = todo := by
  induction todo using List.reverseRecOn with
  | nil => exact ⟨[], _, .nil, rfl⟩
  | append_singleton todo call ih =>
    obtain ⟨log, c, hrun, hlog⟩ := ih fun call hcall => htodo call (List.mem_append_left _ hcall)
    have hcall : Plays value call := htodo call (by simp)
    suffices hstep : ∃ reply c', Step c (call, reply) c' by
      obtain ⟨reply, c', hstep⟩ := hstep
      exact ⟨_, c', .snoc hrun hstep, by rw [List.map_append, hlog, List.map_singleton]⟩
    cases call with
    | set key val size =>
      obtain ⟨rfl, rfl⟩ := hcall
      have hlen := hs.length key
      cases ev with
      | none =>
        have hev : c.evictor = none := (Run.evictor_eq_none hrun).2 rfl
        cases hfull : (c.del key).2.exceeds (sizeOfValue value key) with
        | true => exact ⟨_, _, .set (setReturns_iff.2 (Or.inl ⟨hfull, hev, rfl, rfl⟩))⟩
        | false =>
          have hcopy := copyValue_cString (hs.isCString key) (hs.toNat_size key)
          rw [if_pos (by omega)] at hcopy
          exact ⟨_, _, .set (setReturns_iff.2 (Or.inr ⟨0, _, .zero hfull, hcopy, rfl, rfl⟩))⟩
      | some e =>
        have hle : sizeOfValue value key ≤ c.maxmem := by
          rw [Run.maxmem hrun, UInt32.le_iff_toNat_le]
          exact (hs.toNat_size_le key).trans hm
        obtain ⟨n, -, hset⟩ := (Run.queued hrun).exists_set (Run.tallied hrun) (hs.isCString key)
          (hs.toNat_size key) hle (by omega) key
        exact ⟨_, _, .set hset⟩
    | get key => exact ⟨_, _, .get c key⟩
    | del key => exact hcall.elim
    | reset => exact hcall.elim

/-- **How full a workload leaves the cache.**  For every limit and any evictor or none, after
every run of gets and of sets of each key to its own value, each shorter than `m` bytes: no
set evicts or is rejected exactly when the values of all keys that were set fit together;
then `get` of each of these keys returns its value and `space_used()` is their sum; and
otherwise `space_used()`, which never exceeds the limit, is within `m` bytes of it. -/
theorem space_after_workload (hs : Suits value m maxmem) (h : Run (new maxmem ev) log c)
    (hlog : ∀ l ∈ log, Plays value l.1) :
    let sum := ∑ k ∈ setKeys (log.map Prod.fst), ((value k).length + 1)
    ((∀ l ∈ log, ¬Pressed l) ↔ sum ≤ maxmem.toNat) ∧
      (sum ≤ maxmem.toNat → c.spaceUsed.toNat = sum ∧
        ∀ k ∈ setKeys (log.map Prod.fst),
          (c.get k).1 = (some (stored (value k)), sizeOfValue value k)) ∧
      (maxmem.toNat < sum →
        maxmem.toNat < c.spaceUsed.toNat + m ∧ c.spaceUsed.toNat ≤ maxmem.toNat) := by
  intro sum
  have hmax : c.maxmem = maxmem := Run.maxmem h
  have hexact := Run.exact_of_suits hs h hlog
  have hsettled := Run.settled hs h hlog
  subst hmax
  refine ⟨?_, fun hfits => ⟨hsettled.size_eq hfits, fun k hk => ?_⟩,
    fun hover => ⟨hsettled.lt_size hover, hexact.size ▸ hexact.within⟩⟩
  · cases hsettled with
    | kept fits room _ _ => exact ⟨fun _ => fits, fun _ l hl hp => room ⟨l, hl, hp⟩⟩
    | full excess pressed _ =>
      obtain ⟨l, hl, hp⟩ := pressed
      exact ⟨fun hroom => absurd hp (hroom l hl), fun hfits => absurd hfits (not_le.2 excess)⟩
  · cases hsettled with
    | kept _ _ entry _ => rw [get_fst, entry k, if_pos hk]
    | full excess _ _ => exact absurd hfits (not_le.2 excess)

/-- Three values of four bytes in eight. -/
theorem space_after_workload_play : ∃ log c,
    (new 8 (some FifoEvictor.new)).play 3 [.set "a" (cString "one") 4, .set "b" (cString "one") 4,
      .get "a", .set "c" (cString "one") 4] = some (log, c) ∧
    8 < c.spaceUsed.toNat + 4 ∧ c.spaceUsed.toNat ≤ 8 := by
  obtain ⟨c, hc⟩ : ∃ c, (new 8 (some FifoEvictor.new)).play 3
      [.set "a" (cString "one") 4, .set "b" (cString "one") 4, .get "a",
        .set "c" (cString "one") 4] =
        some ([(.set "a" (cString "one") 4, .set ⟨[], true⟩),
          (.set "b" (cString "one") 4, .set ⟨[], true⟩), (.get "a", .get (some (stored "one"), 4)),
          (.set "c" (cString "one") 4, .set ⟨["a"], true⟩)], c) := ⟨_, rfl⟩
  have hs : Suits (fun _ => "one") 4 8 :=
    ⟨fun _ => by decide, fun _ => by decide, by decide⟩
  refine ⟨_, c, hc, (space_after_workload hs (run_of_play hc) ?_).2.2 (by decide)⟩
  intro l hl
  simp only [List.mem_cons, List.not_mem_nil, or_false] at hl
  rcases hl with rfl | rfl | rfl | rfl
  · exact ⟨rfl, rfl⟩
  · exact ⟨rfl, rfl⟩
  · trivial
  · exact ⟨rfl, rfl⟩

end Cache
end CacheBench
