/-
# How long a block lives

What `new[]` gives the cache, `delete[]` gets back once: whatever is called, with whatever
evictor, the blocks on the heap are those that the entries of `dict_` point to, one each, so
nothing is deleted twice and nothing is lost, and the destructor leaves nothing
(`Impl.memory_safe`).  The one thing that can go wrong is a size that is too small for the
string, for which the copy loop writes past the block, or 0, for which the `'\0'` does.

`get` gives out a pointer into the heap.  It is good until a call removes its key, by setting,
deleting, evicting or resetting it, and not any longer (`Impl.pointer_valid_iff`).
-/

import CacheBench.Store.Impl
import CacheBench.Store.LastWrite

namespace CacheBench

open Cache (Removes)

/-! ### When the copy misses its block -/

/-- The block is too small for the string, or has no byte for the `'\0'` at its end. -/
def Overruns (val : List ByteType) (size : SizeType) : Prop :=
  size = 0 ∨ size.toNat < (val.takeWhile fun b => b ≠ nul).length

/-- A write changes no length. -/
theorem write_length (c : Copying) (i : ℕ) (b : ByteType) :
    (c.write i b).copy.length = c.copy.length := by
  unfold Copying.write
  exact List.length_set

/-- The loop misses the block when the string is longer than what is left of it. -/
theorem copyLoop_stray {val : List ByteType} {i : ℕ} {c c' : Copying}
    (h : copyLoop val i c = some c') (hi : i ≤ c.copy.length ∨ c.stray = true) :
    c'.copy.length = c.copy.length ∧
      c'.stray = (c.stray ||
        decide (c.copy.length < i + (val.takeWhile fun b => b ≠ nul).length)) := by
  induction val generalizing i c with
  | nil => cases h
  | cons b val ih =>
    rw [copyLoop] at h
    split_ifs at h with hb hlt
    · obtain rfl := Option.some.inj h
      refine ⟨rfl, ?_⟩
      rcases hi with hle | hstray
      · simp [hb, not_lt.2 hle]
      · simp [hstray]
    · have hnext : i + 1 ≤ (c.write i b).copy.length ∨ (c.write i b).stray = true := by
        rw [write_length]
        by_cases hle : c.copy.length ≤ i
        · exact Or.inr (by simp [Copying.write, hle])
        · exact Or.inl (Nat.succ_le_of_lt (not_le.1 hle))
      obtain ⟨hlen, hstray⟩ := ih h hnext
      rw [write_length] at hlen hstray
      refine ⟨hlen, ?_⟩
      rw [hstray, List.takeWhile_cons_of_pos (by simpa using hb), List.length_cons,
        Copying.write, Bool.or_assoc, ← Bool.decide_or]
      congr 2
      exact propext (by omega)

/-- **The copy misses its block** exactly when the size is too small. -/
theorem copyValue_stray_iff {val : List ByteType} {size : SizeType} {copied : Copying}
    (h : copyValue val size = some copied) : copied.stray = true ↔ Overruns val size := by
  obtain ⟨c, hloop, rfl⟩ := Option.map_eq_some_iff.1 h
  obtain ⟨hlen, hstray⟩ := copyLoop_stray hloop (Or.inl (Nat.zero_le _))
  have halloc : (Copying.alloc size).copy.length = size.toNat := List.length_replicate
  rw [halloc] at hlen hstray
  have hlast : size.toNat ≤ (size - 1).toNat ↔ size = 0 := by
    by_cases hzero : size = 0
    · simp [hzero]
    · have hne : size.toNat ≠ 0 := fun heq => hzero (UInt32.toNat_inj.1 heq)
      have hone : (1 : SizeType) ≤ size := by
        rw [UInt32.le_iff_toNat_le, show (1 : SizeType).toNat = 1 from rfl]
        omega
      rw [UInt32.toNat_sub_of_le _ _ hone, show (1 : SizeType).toNat = 1 from rfl]
      simp only [hzero, iff_false]
      omega
  have halloc' : (Copying.alloc size).stray = false := rfl
  rw [Copying.write, hlen, hstray, halloc', Overruns, Bool.or_eq_true, decide_eq_true_iff, hlast]
  simp [or_comm]

namespace Impl

variable {ε : Type} {c c' d : Impl ε} {k key : KeyType} {a : ℕ} {val : List ByteType}
variable {size : SizeType} {r : Report} {l : Call × Reply} {log log' : List (Call × Reply)}

/-! ### Deletion -/

/-- After `del` the entries own the heap, and nothing is misused. -/
theorem del_owned (ho : c.heap.Owned c.pointer) (key : KeyType) :
    (c.del key).2.heap.Owned (c.del key).2.pointer ∧
      (c.del key).2.heap.misused = c.heap.misused := by
  rw [del_snd_pointer, del_snd_heap]
  exact ⟨ho.delete key, ho.delete_misused key⟩

/-- The block of the key that is deleted is gone, -/
theorem del_gone_self (ho : c.heap.Owned c.pointer) (hk : c.pointer k = some a) :
    (c.del k).2.heap.Gone a := by
  rw [del_snd_heap, hk]
  exact (ho.live k a hk).gone_delete

/-- that of any other key is where it was. -/
theorem del_pointer_of_ne (ho : c.heap.Owned c.pointer) (hk : c.pointer k = some a)
    (hne : k ≠ key) :
    (c.del key).2.pointer k = some a ∧
      (c.del key).2.heap.cells.lookup a = c.heap.cells.lookup a := by
  rw [del_snd_pointer, Function.update_of_ne hne, del_snd_heap, Heap.lookup_delete,
    if_neg fun hkey => hne (ho.inj k key a hk hkey)]
  exact ⟨hk, rfl⟩

/-- `del` brings no block back. -/
theorem del_gone (hgone : c.heap.Gone a) (key : KeyType) : (c.del key).2.heap.Gone a := by
  rw [del_snd_heap]
  exact hgone.delete _

/-- A reset leaves no block. -/
theorem Lists.cells_reset {order : List KeyType} (hl : c.Lists order)
    (ho : c.heap.Owned c.pointer) : (c.reset order).heap.cells = ∅ :=
  (hl.owned_reset ho).1.cells_eq_empty

/-- After a reset every block that was given out is gone. -/
theorem Lists.gone_reset {order : List KeyType} (hl : c.Lists order)
    (ho : c.heap.Owned c.pointer) (ha : a < c.heap.next) : (c.reset order).heap.Gone a := by
  refine ⟨ha.trans_eq (Heap.deleteAll_next _).symm, fun hlive => hlive ?_⟩
  rw [hl.cells_reset ho, Finmap.lookup_empty]

variable [Evictor ε]

/-! ### The eviction loop -/

/-- `n` passes of the eviction loop on `c`. -/
def evictions (n : ℕ) (c : Impl ε) : ImplEvicting ε := evictOne^[n] ⟨[], c⟩

/-- The passes of the loop, one after the other. -/
theorem evictions_succ (n : ℕ) (c : Impl ε) :
    evictions (n + 1) c = evictOne (evictions n c) :=
  Function.iterate_succ_apply' evictOne n ⟨[], c⟩

/-- **How `set` can return:** it rejects the value, or its loop leaves after some passes and
the copy is inserted. -/
theorem SetReturns.cases (h : c.SetReturns key val size r c') :
    r = ⟨[], false⟩ ∧ c' = (c.del key).2 ∨
      ∃ n copied, copyValue val size = some copied ∧
        r = ⟨(evictions n (c.del key).2).evicted, true⟩ ∧
        c' = (evictions n (c.del key).2).impl.insertCopy key copied size := by
  obtain ⟨fuel, h⟩ := h
  unfold set at h
  rw [del_of_find] at h
  dsimp only at h
  split_ifs at h
  · obtain ⟨rfl, rfl⟩ := Prod.mk.inj (Option.some.inj h)
    exact Or.inl ⟨rfl, rfl⟩
  · simp only [Option.bind_eq_bind, Option.bind_eq_some_iff, Option.some.injEq,
      Prod.mk.injEq] at h
    obtain ⟨w, hw, copied, hcopy, rfl, rfl⟩ := h
    obtain ⟨n, -, -, rfl⟩ := While.run_eq_some_iff.1 hw
    exact Or.inr ⟨n, copied, hcopy, rfl, rfl⟩

/-- A pass of the loop is a deletion, or nothing. -/
theorem evictOne_cases (w : ImplEvicting ε) :
    evictOne w = w ∨ ∃ e key, evictOne w =
      ⟨w.evicted ++ [key], (del { w.impl with evictor := some e } key).2⟩ := by
  unfold evictOne
  cases w.impl.evictor with
  | none => exact Or.inl rfl
  | some e => exact Or.inr ⟨_, _, rfl⟩

/-- After the loop the entries own the heap, and nothing is misused. -/
theorem evictions_owned (ho : c.heap.Owned c.pointer) (n : ℕ) :
    (evictions n c).impl.heap.Owned (evictions n c).impl.pointer ∧
      (evictions n c).impl.heap.misused = c.heap.misused := by
  induction n with
  | zero => exact ⟨ho, rfl⟩
  | succ n ih =>
    rw [evictions_succ]
    obtain heq | ⟨e, key, heq⟩ := evictOne_cases (evictions n c)
    · rwa [heq]
    · rw [heq]
      obtain ⟨howned, hmisused⟩ :=
        del_owned (c := { (evictions n c).impl with evictor := some e }) ih.1 key
      exact ⟨howned, hmisused.trans ih.2⟩

/-- The loop brings no block back. -/
theorem evictions_gone (hgone : c.heap.Gone a) (n : ℕ) : (evictions n c).impl.heap.Gone a := by
  induction n with
  | zero => exact hgone
  | succ n ih =>
    rw [evictions_succ]
    obtain heq | ⟨e, key, heq⟩ := evictOne_cases (evictions n c)
    · rwa [heq]
    · rw [heq]
      exact del_gone (c := { (evictions n c).impl with evictor := some e }) ih key

/-- **What the loop does to a block:** it is gone when its key is evicted, and else where it
was. -/
theorem evictions_pointer (ho : c.heap.Owned c.pointer) (hk : c.pointer k = some a) (n : ℕ) :
    (k ∉ (evictions n c).evicted → (evictions n c).impl.pointer k = some a ∧
        (evictions n c).impl.heap.cells.lookup a = c.heap.cells.lookup a) ∧
      (k ∈ (evictions n c).evicted → (evictions n c).impl.heap.Gone a) := by
  induction n with
  | zero => exact ⟨fun _ => ⟨hk, rfl⟩, fun hmem => absurd hmem List.not_mem_nil⟩
  | succ n ih =>
    rw [evictions_succ]
    obtain heq | ⟨e, key, heq⟩ := evictOne_cases (evictions n c)
    · rwa [heq]
    · obtain ⟨hstays, hgoes⟩ := ih
      have howned : ({ (evictions n c).impl with evictor := some e } : Impl ε).heap.Owned
          ({ (evictions n c).impl with evictor := some e } : Impl ε).pointer :=
        (evictions_owned ho n).1
      rw [heq]
      constructor
      · intro hmem
        obtain ⟨hmem, hne⟩ := not_or.1 (mt List.mem_append.2 hmem)
        obtain ⟨hpointer, hlookup⟩ := hstays hmem
        obtain ⟨hpointer', hlookup'⟩ :=
          del_pointer_of_ne howned hpointer fun heq => hne (List.mem_singleton.2 heq)
        exact ⟨hpointer', hlookup'.trans hlookup⟩
      · intro hmem
        by_cases hold : k ∈ (evictions n c).evicted
        · exact del_gone (c := { (evictions n c).impl with evictor := some e }) (hgoes hold) key
        · obtain rfl := List.mem_singleton.1 ((List.mem_append.1 hmem).resolve_left hold)
          exact del_gone_self howned (hstays hold).1

/-! ### Calls -/

/-- An insertion leaves the pointers of other keys as they are. -/
theorem insertCopy_pointer_of_ne (c : Impl ε) (copied : Copying) (hne : k ≠ key) :
    (c.insertCopy key copied size).pointer k = c.pointer k := by
  unfold pointer
  show Option.bind (Finmap.lookup k (if _ then _ else _)) _ = _
  split_ifs
  · rfl
  · rw [Finmap.lookup_insert_of_ne _ hne]

/-- An insertion leaves the other blocks as they are. -/
theorem insertCopy_lookup (c : Impl ε) (key : KeyType) (copied : Copying) (size : SizeType)
    (ha : a < c.heap.next) :
    (c.insertCopy key copied size).heap.cells.lookup a = c.heap.cells.lookup a :=
  (Heap.lookup_new a).trans (if_neg (Nat.ne_of_lt ha))

/-- An insertion brings no block back. -/
theorem insertCopy_gone (hgone : c.heap.Gone a) (key : KeyType) (copied : Copying)
    (size : SizeType) : (c.insertCopy key copied size).heap.Gone a :=
  hgone.new copied.copy

/-- A set that was admitted with a size that is too small. -/
def Overran : Call × Reply → Prop
  | (.set _ val size, .set r) => r.admitted = true ∧ Overruns val size
  | _ => False

/-- **What a call does wrong,** if anything. -/
theorem Step.misused_iff (hstep : Step c l c') (ho : c.heap.Owned c.pointer) :
    c'.heap.misused = true ↔ c.heap.misused = true ∨ Overran l := by
  cases hstep with
  | @set _ key val size r hset =>
    obtain ⟨howned, hmisused⟩ := del_owned ho key
    rcases hset.cases with ⟨rfl, rfl⟩ | ⟨n, copied, hcopy, rfl, rfl⟩
    · simp [Overran, hmisused]
    · have hloop := (evictions_owned howned n).2
      show ((evictions n (c.del key).2).impl.heap.misused || copied.stray) = true ↔ _
      rw [hloop, hmisused, Bool.or_eq_true, copyValue_stray_iff hcopy]
      simp [Overran]
  | get key => simp [Overran]
  | del key => simp [Overran, (del_owned ho key).2]
  | reset hl => simp [Overran, (hl.owned_reset ho).2]

/-- Blocks that are gone stay gone. -/
theorem Step.gone (hstep : Step c l c') (hgone : c.heap.Gone a)
    (ho : c.heap.Owned c.pointer) : c'.heap.Gone a := by
  cases hstep with
  | @set _ key val size r hset =>
    have hdel := del_gone hgone key
    rcases hset.cases with ⟨-, rfl⟩ | ⟨n, copied, -, -, rfl⟩
    · exact hdel
    · exact insertCopy_gone (evictions_gone hdel n) key copied size
  | get key => rwa [get_snd_heap]
  | del key => exact del_gone hgone key
  | reset hl => exact hl.gone_reset ho hgone.1

/-- **What a call does to a block:** it is gone when the call removes its key, and else where
it was. -/
theorem Step.pointer (hstep : Step c l c') (ho : c.heap.Owned c.pointer)
    (hk : c.pointer k = some a) :
    (¬Removes k l → c'.pointer k = some a ∧
        c'.heap.cells.lookup a = c.heap.cells.lookup a) ∧
      (Removes k l → c'.heap.Gone a) := by
  cases hstep with
  | @set _ key val size r hset =>
    obtain ⟨howned, -⟩ := del_owned ho key
    by_cases hkey : k = key
    · subst hkey
      refine ⟨fun hstays => absurd (Or.inl rfl) hstays, fun _ => ?_⟩
      have hgone := del_gone_self ho hk
      rcases hset.cases with ⟨-, rfl⟩ | ⟨n, copied, -, -, rfl⟩
      · exact hgone
      · exact insertCopy_gone (evictions_gone hgone n) k copied size
    · obtain ⟨hdel, hlookup⟩ := del_pointer_of_ne ho hk hkey
      rcases hset.cases with ⟨rfl, rfl⟩ | ⟨n, copied, -, rfl, rfl⟩
      · exact ⟨fun _ => ⟨hdel, hlookup⟩, fun hgoes => (hgoes.elim hkey List.not_mem_nil).elim⟩
      · obtain ⟨hstays, hgoes⟩ := evictions_pointer howned hdel n
        refine ⟨fun hl => ?_, fun hl => ?_⟩
        · obtain ⟨hpointer, hlookup'⟩ := hstays fun hmem => hl (Or.inr hmem)
          have hlt := ((evictions_owned howned n).1.live k a hpointer).lt_next
          rw [insertCopy_pointer_of_ne _ _ hkey, insertCopy_lookup _ _ _ _ hlt]
          exact ⟨hpointer, hlookup'.trans hlookup⟩
        · exact insertCopy_gone (hgoes (hl.resolve_left hkey)) key copied size
  | get key =>
    rw [get_snd_pointer, get_snd_heap]
    exact ⟨fun _ => ⟨hk, rfl⟩, fun hl => hl.elim⟩
  | del key =>
    by_cases hkey : k = key
    · subst hkey
      exact ⟨fun hstays => absurd rfl hstays, fun _ => del_gone_self ho hk⟩
    · exact ⟨fun _ => del_pointer_of_ne ho hk hkey, fun hl => absurd hl hkey⟩
  | reset hl =>
    exact ⟨fun hstays => absurd trivial hstays, fun _ => hl.gone_reset ho (ho.live k a hk).lt_next⟩

/-! ### Runs -/

variable {maxmem : SizeType} {ev : Option ε} {n : SizeType}

/-- **The entries own the heap** after every run. -/
theorem Run.owned (h : Run (new maxmem ev) log c) : c.heap.Owned c.pointer := by
  obtain ⟨d, -, hrep⟩ := Run.represents h
  exact hrep.owned

/-- **The blocks of the cache.**  After any run of calls, of any sizes and with any evictor:
every entry with a pointer has its own block, and every block has its entry; nothing that is
not defined has happened, no second `delete[]` and no write past a block, unless a set was
admitted whose size is 0 or less than the length of its string; and a destructor, which
resets, deletes every block, in whatever order it finds them, and nothing else.  Nothing is
said of reads, and no set is given a block of the cache for its array. -/
theorem memory_safe (h : Run (new maxmem ev) log c) :
    c.heap.Owned c.pointer ∧ (c.heap.misused = true ↔ ∃ l ∈ log, Overran l) ∧
      ∀ order, c.Lists order → (c.reset order).heap.cells = ∅ ∧
        (c.reset order).heap.misused = c.heap.misused := by
  have ho := Run.owned h
  refine ⟨ho, ?_, fun order hl => ⟨hl.cells_reset ho, (hl.owned_reset ho).2⟩⟩
  clear ho
  induction h with
  | nil => simp [new, Heap.empty]
  | snoc hrun hstep ih =>
    rw [hstep.misused_iff (Run.owned hrun), ih]
    simp [or_and_right, exists_or]

/-- Two blocks of which one makes place for the other, and a destructor. -/
theorem memory_safe_play : ∃ log c order, Run (new 8 (some FifoEvictor.new)) log c ∧
    log.length = 2 ∧ c.heap.next = 2 ∧ c.Lists order ∧ (c.reset order).heap.cells = ∅ := by
  obtain ⟨b, c, hb, hc, hnext⟩ : ∃ b c,
      (new 8 (some FifoEvictor.new)).set 3 "a" (cString "one") 4 = some (⟨[], true⟩, b) ∧
      b.set 3 "b" (cString "three") 6 = some (⟨["a"], true⟩, c) ∧ c.heap.next = 2 :=
    ⟨_, _, rfl, rfl, rfl⟩
  obtain ⟨order, hl⟩ := c.exists_lists
  have hrun : Run (new 8 (some FifoEvictor.new)) [(.set "a" (cString "one") 4, .set ⟨[], true⟩),
      (.set "b" (cString "three") 6, .set ⟨["a"], true⟩)] c :=
    .snoc (.snoc .nil (.set ⟨3, hb⟩)) (.set ⟨3, hc⟩)
  exact ⟨_, c, order, hrun, rfl, hnext, hl, ((memory_safe hrun).2.2 order hl).1⟩

/-- **How long a pointer is good.**  After any run of calls, the block behind a pointer that
`get` returns is there through any further calls, with what was in it, until one of them
removes the key, by setting, deleting or evicting it or by a reset; and it never is after
that.  A copy that runs over its own block is taken to change no other. -/
theorem pointer_valid_iff (h : Run (new maxmem ev) log c) (hget : (c.get k).1 = (some a, n))
    (h' : Run (c.get k).2 log' d) :
    (d.heap.Live a ↔ ∀ l ∈ log', ¬Removes k l) ∧
      (d.heap.Live a → d.heap.read (some a) = c.heap.read (some a)) := by
  have hk : (c.get k).2.pointer k = some a := by
    rw [get_snd_pointer, ← get_fst_fst, hget]
  have hrun : Run (new maxmem ev) (log ++ [(.get k, _)]) (c.get k).2 := h.snoc (.get c k)
  -- up to now nothing has removed the key, or something has and the block is gone
  have hkey : (∀ l ∈ log', ¬Removes k l) ∧ d.pointer k = some a ∧
      d.heap.cells.lookup a = c.heap.cells.lookup a ∨
      (∃ l ∈ log', Removes k l) ∧ d.heap.Gone a := by
    induction h' with
    | nil =>
      rw [get_snd_heap]
      exact Or.inl ⟨nofun, hk, rfl⟩
    | @snoc log' l d d' hd hstep ih =>
      have ho := Run.owned (Trace.run_append_iff.2 ⟨_, hrun, hd⟩)
      rcases ih with ⟨hnone, hpointer, hlookup⟩ | ⟨⟨l', hl', hremoves⟩, hgone⟩
      · obtain ⟨hstays, hgoes⟩ := hstep.pointer ho hpointer
        by_cases hl : Removes k l
        · exact Or.inr ⟨⟨l, by simp, hl⟩, hgoes hl⟩
        · obtain ⟨hpointer', hlookup'⟩ := hstays hl
          refine Or.inl ⟨?_, hpointer', hlookup'.trans hlookup⟩
          rw [List.forall_mem_append, List.forall_mem_singleton]
          exact ⟨hnone, hl⟩
      · exact Or.inr ⟨⟨l', List.mem_append_left _ hl', hremoves⟩, hstep.gone hgone ho⟩
  have ho := Run.owned (Trace.run_append_iff.2 ⟨_, hrun, h'⟩)
  rcases hkey with ⟨hnone, hpointer, hlookup⟩ | ⟨⟨l, hl, hremoves⟩, hgone⟩
  · exact ⟨iff_of_true (ho.live k a hpointer) hnone, fun _ => hlookup⟩
  · exact ⟨iff_of_false hgone.2 fun hnone => hnone l hl hremoves, fun hlive =>
      absurd hlive hgone.2⟩

/-- A pointer that is good until its key is evicted. -/
theorem pointer_valid_iff_play : ∃ log c, Run (new 8 (some FifoEvictor.new)) log c ∧
    (c.get "a").1 = (some 0, 4) ∧ ((c.get "a").2.del "b").2.heap.Live 0 ∧
    ∃ d, (((c.get "a").2.del "b").2).SetReturns "b" (cString "three") 6 ⟨["a"], true⟩ d ∧
      ¬d.heap.Live 0 := by
  obtain ⟨c, d, hc, hget, hfound, hd⟩ : ∃ c d,
      (new 8 (some FifoEvictor.new)).set 3 "a" (cString "one") 4 = some (⟨[], true⟩, c) ∧
      (c.get "a").1 = (some 0, 4) ∧ ((c.get "a").2.del "b").1 = false ∧
      ((c.get "a").2.del "b").2.set 3 "b" (cString "three") 6 = some (⟨["a"], true⟩, d) :=
    ⟨_, _, rfl, rfl, rfl, rfl⟩
  have hrun : Run (new 8 (some FifoEvictor.new)) [(.set "a" (cString "one") 4, .set ⟨[], true⟩)]
      c := .snoc .nil (.set ⟨3, hc⟩)
  have hdel : Run (c.get "a").2 [(.del "b", .del false)] ((c.get "a").2.del "b").2 :=
    hfound ▸ .snoc .nil (.del _ "b")
  refine ⟨_, c, hrun, hget, (pointer_valid_iff hrun hget hdel).1.2 ?_, d, ⟨3, hd⟩, fun hlive => ?_⟩
  · rw [List.forall_mem_singleton]
    exact (by decide : ¬"a" = "b")
  · have hremoves : Removes "a" (.set "b" (cString "three") 6, .set ⟨["a"], true⟩) :=
      Or.inr (List.mem_singleton_self "a")
    exact (pointer_valid_iff hrun hget (hdel.snoc (.set ⟨3, hd⟩))).1.1 hlive _
      (List.mem_append_right _ (List.mem_singleton_self _)) hremoves

end Impl
end CacheBench
