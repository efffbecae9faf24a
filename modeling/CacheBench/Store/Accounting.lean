/-
# The memory counter and the contents

`space_used()` is a `uint32_t` that `set` and `del` update beside `dict_`.  It is
the sum of the sizes of all entries modulo `2^32`, whatever the sizes
(`Cache.Tallied`).  It is that sum itself, and at most `maxmem`, as long as no set
makes the sum pass `2^32` (`Cache.Exact`): the test before the insertion is then
about the sum and not about a remainder of it.

A set that does make it pass is admitted on the remainder, for the sum it is tested
with has wrapped below what was already there.  So the contents stay within
`maxmem` along a run exactly when every set finds that what is left without the old
entry of its key, with the new size added, is below `2^32`
(`Cache.total_le_maxmem_iff`).
-/

import CacheBench.Store.Run

namespace CacheBench
namespace Cache

variable {ε : Type}

/-- The counter is the sum of the sizes modulo `2^32`. -/
def Tallied (c : Cache ε) : Prop := c.size.toNat = c.total % 2 ^ 32

/-- The counter is the sum of the sizes, and within the limit. -/
structure Exact (c : Cache ε) : Prop where
  size : c.size.toNat = c.total
  within : c.total ≤ c.maxmem.toNat

variable {c c' : Cache ε} {key : KeyType}

/-! ### What deletion does to the counter -/

/-- A deletion takes the size of the entry from both sides. -/
theorem Tallied.del (h : c.Tallied) (key : KeyType) : (c.del key).2.Tallied := by
  unfold Tallied at *
  have htotal := total_del_add c key
  have hsize := (c.entry key).2.toNat_lt
  rw [del_snd_size, UInt32.toNat_sub]
  omega

/-- Where nothing has wrapped the counter counts the entries. -/
theorem Exact.tallied (h : c.Exact) : c.Tallied :=
  h.size.trans (Nat.mod_eq_of_lt (h.size ▸ c.size.toNat_lt)).symm

/-- An entry is no larger than what is counted. -/
theorem Exact.entry_le (h : c.Exact) (key : KeyType) : (c.entry key).2.toNat ≤ c.size.toNat := by
  have htotal := total_del_add c key
  have := h.size
  omega

/-- A deletion takes away what it counts. -/
theorem Exact.del (h : c.Exact) (key : KeyType) : (c.del key).2.Exact := by
  have htotal := total_del_add c key
  have hsize := h.size
  have hle := h.within
  have hlt := c.size.toNat_lt
  constructor
  · rw [del_snd_size, UInt32.toNat_sub_of_le _ _ (by rw [UInt32.le_iff_toNat_le]; omega)]
    omega
  · rw [del_snd_maxmem]
    omega

/-- A deletion never raises the counter. -/
theorem Exact.del_size_le (h : c.Exact) (key : KeyType) :
    (c.del key).2.size.toNat ≤ c.size.toNat := by
  have htotal := total_del_add c key
  rw [(h.del key).size, h.size]
  omega

variable {size : SizeType} {val : List ByteType} {r : Report}

/-- The test of the loop, with its remainder written out. -/
theorem exceeds_iff : c.exceeds size = true ↔
    c.maxmem.toNat < (c.size.toNat + size.toNat) % 2 ^ 32 := by
  unfold exceeds spaceUsed
  rw [decide_eq_true_iff, UInt32.lt_iff_toNat_lt, UInt32.toNat_add]

/-- What is left without the old entry of `key`, with `size` bytes more, can still
be counted in 32 bits. -/
def NoWrap (c : Cache ε) (key : KeyType) (size : SizeType) : Prop :=
  (c.spaceUsed - (c.entry key).2).toNat + size.toNat < 2 ^ 32

/-- The sum that the test looks at is below `2^32`. -/
theorem noWrap_iff : c.NoWrap key size ↔ (c.del key).2.size.toNat + size.toNat < 2 ^ 32 := by
  rw [del_snd_size]
  rfl

/-- Nothing has wrapped in a new cache. -/
theorem exact_new (maxmem : SizeType) (ev : Option ε) : (new maxmem ev).Exact :=
  ⟨rfl, Nat.zero_le _⟩

/-- A set bounded by what `maxmem` leaves of the 32 bits cannot wrap. -/
theorem Exact.noWrap_of_le (h : c.Exact) (hle : size.toNat ≤ 2 ^ 32 - 1 - c.maxmem.toNat)
    (key : KeyType) : c.NoWrap key size := by
  have hd := (h.del key).size
  have hdle := (h.del key).within
  have hmax := c.maxmem.toNat_lt
  rw [del_snd_maxmem] at hdle
  rw [noWrap_iff]
  omega

variable [Evictor ε]

/-- The passes of the loop do not lose count. -/
theorem Tallied.evictions (h : c.Tallied) (n : ℕ) : (evictions n c).cache.Tallied :=
  evictions_induction c (P := Tallied)
    (fun d e k hd => Tallied.del (c := { d with evictor := some e }) hd k) h n

/-- The loop keeps the counter exact, and never raises it. -/
theorem Exact.evictions (h : c.Exact) (n : ℕ) :
    (evictions n c).cache.Exact ∧ (evictions n c).cache.size.toNat ≤ c.size.toNat := by
  refine evictions_induction c (P := fun d => d.Exact ∧ d.size.toNat ≤ c.size.toNat)
    ?_ ⟨h, le_rfl⟩ n
  rintro d e k ⟨hd, hle⟩
  have hd' : Exact { d with evictor := some e } := ⟨hd.size, hd.within⟩
  exact ⟨hd'.del k, (hd'.del_size_le k).trans hle⟩

/-! ### What `set` does to the counter -/

/-- The key being set is absent when its copy is inserted. -/
theorem evictions_del_lookup_self (n : ℕ) (c : Cache ε) (key : KeyType) :
    (Cache.evictions n (c.del key).2).cache.dict.lookup key = none := by
  rw [evictions_lookup, del_snd_dict, Finmap.lookup_erase]
  split_ifs <;> rfl

/-- A set counts what it deletes, evicts and inserts. -/
theorem Tallied.set (h : c.Tallied) (hset : c.SetReturns key val size r c') : c'.Tallied := by
  rcases setReturns_iff.1 hset with ⟨-, -, -, rfl⟩ | ⟨n, copied, -, -, -, rfl⟩
  · exact h.del key
  · have hw := (h.del key).evictions n
    unfold Tallied at *
    rw [insertCopy_size, insertCopy_total _ _ _ _ (evictions_del_lookup_self n c key),
      UInt32.toNat_add, hw]
    omega

/-- **A set that cannot wrap keeps the counter exact.**  The sum that the loop
tests is then the sum that the insertion makes. -/
theorem Exact.set (h : c.Exact) (hfit : c.NoWrap key size)
    (hset : c.SetReturns key val size r c') : c'.Exact := by
  rw [noWrap_iff] at hfit
  rcases setReturns_iff.1 hset with ⟨-, -, -, rfl⟩ | ⟨n, copied, hn, -, -, rfl⟩
  · exact h.del key
  · obtain ⟨hw, hle⟩ := (h.del key).evictions n
    have hstop := exceeds_evictions_of_exits hn
    rw [← Bool.not_eq_true, exceeds_iff, Nat.mod_eq_of_lt (by omega)] at hstop
    have htotal := insertCopy_total _ key size copied.copy (evictions_del_lookup_self n c key)
    have hsize := hw.size
    constructor
    · rw [htotal, insertCopy_size, UInt32.toNat_add, Nat.mod_eq_of_lt (by omega)]
      omega
    · rw [htotal, insertCopy_maxmem]
      omega

/-- **A set that wraps overfills the cache.**  The remainder it is tested with is
below what is already there, so it is admitted at once. -/
theorem Exact.noWrap_of_set (h : c.Exact) (hset : c.SetReturns key val size r c')
    (hle : c'.total ≤ c.maxmem.toNat) : c.NoWrap key size := by
  rw [noWrap_iff]
  by_contra hwrap
  have hd := h.del key
  have hdle := hd.within
  have hdsize := hd.size
  have hsize := size.toNat_lt
  rw [del_snd_maxmem] at hdle
  have hexceeds : (c.del key).2.exceeds size = false := by
    rw [← Bool.not_eq_true, exceeds_iff, del_snd_maxmem]
    omega
  rcases setReturns_iff.1 hset with ⟨hrej, -, -, -⟩ | ⟨n, copied, hn, -, -, rfl⟩
  · rw [hexceeds] at hrej
    cases hrej
  · obtain rfl := hn.unique (.zero hexceeds)
    rw [insertCopy_total _ _ _ _ (evictions_del_lookup_self 0 c key)] at hle
    have hmax := c.maxmem.toNat_lt
    simp only [evictions_zero] at hle
    omega

/-! ### Runs -/

/-- Every call keeps count. -/
theorem Tallied.step {l : Call × Reply} (h : c.Tallied) (hstep : Step c l c') : c'.Tallied := by
  cases hstep with
  | set hset => exact h.set hset
  | get => simpa [Tallied] using h
  | del => exact h.del _
  | reset => rfl

/-- Every call but a set that wraps keeps the counter exact. -/
theorem Exact.step {l : Call × Reply} (h : c.Exact) (hstep : Step c l c')
    (hfit : ∀ key val size reply, l = (.set key val size, reply) → c.NoWrap key size) :
    c'.Exact := by
  cases hstep with
  | set hset => exact h.set (hfit _ _ _ _ rfl) hset
  | get => exact ⟨by simpa using h.size, by simpa using h.within⟩
  | del => exact h.del _
  | reset => exact ⟨rfl, Nat.zero_le _⟩

variable {maxmem : SizeType} {ev : Option ε} {log : List (Call × Reply)}

/-- **The counter is the sum of the sizes,** modulo `2^32`, after every run. -/
theorem Run.tallied (h : Run (new maxmem ev) log c) : c.Tallied :=
  Trace.Run.invariant h (fun _ _ _ hstep hc => hc.step hstep) rfl

/-- **It is the sum itself** when no set comes near `2^32`. -/
theorem Run.exact (h : Run (new maxmem ev) log c)
    (hlog : ∀ key val size reply, (.set key val size, reply) ∈ log →
      size.toNat ≤ 2 ^ 32 - 1 - maxmem.toNat) : c.Exact := by
  refine Trace.Run.invariant_along h (fun pre l post m t hpre hm hstep hexact => ?_)
    (exact_new maxmem ev)
  refine hexact.step hstep fun key val size reply hl => hexact.noWrap_of_le ?_ key
  rw [Run.maxmem hm]
  exact hlog key val size reply (by simp [hpre, hl])

/-- **The counter never drifts from the contents.**  After any run, with or
without an evictor and whatever it evicts, `space_used()` is the sum of the sizes
of all entries modulo `2^32`.  If every size in the run is at most
`2^32 - 1 - maxmem` it is that sum, within `maxmem`; and no operation wraps: neither
the sums that a further set of such a size tests on its way, nor the subtraction
of any entry that it or a `del` may delete. -/
theorem spaceUsed_eq_total (h : Run (new maxmem ev) log c) :
    c.spaceUsed.toNat = c.total % 2 ^ 32 ∧
      ((∀ key val size reply, (.set key val size, reply) ∈ log →
          size.toNat ≤ 2 ^ 32 - 1 - maxmem.toNat) →
        c.spaceUsed.toNat = c.total ∧ c.spaceUsed ≤ maxmem ∧
          (∀ key, (c.entry key).2.toNat ≤ c.spaceUsed.toNat) ∧
          ∀ key (size : SizeType), size.toNat ≤ 2 ^ 32 - 1 - maxmem.toNat → ∀ n,
            let w := (Cache.evictions n (c.del key).2).cache
            w.spaceUsed.toNat + size.toNat < 2 ^ 32 ∧
              ∀ k, (w.entry k).2.toNat ≤ w.spaceUsed.toNat) := by
  refine ⟨Run.tallied h, fun hlog => ?_⟩
  have hc := Run.exact h hlog
  have hmax : c.maxmem = maxmem := Run.maxmem h
  refine ⟨hc.size, ?_, hc.entry_le, fun key size hsize n => ?_⟩
  · rw [UInt32.le_iff_toNat_le, ← hmax]
    exact hc.size.trans_le hc.within
  · obtain ⟨hw, hle⟩ := (hc.del key).evictions n
    have hfit := noWrap_iff.1 (hc.noWrap_of_le (hmax ▸ hsize) key)
    exact ⟨by unfold spaceUsed; omega, hw.entry_le⟩

/-- Two sets, the second of which evicts the first, with sizes below the bound. -/
theorem spaceUsed_eq_total_play : ∃ c,
    (new 30 (some FifoEvictor.new)).play 3 [.set "a" (cString "") 20, .set "b" (cString "") 12] =
      some ([(.set "a" (cString "") 20, .set ⟨[], true⟩),
        (.set "b" (cString "") 12, .set ⟨["a"], true⟩)], c) ∧
    c.spaceUsed.toNat = c.total ∧ c.spaceUsed ≤ 30 := by
  obtain ⟨c, hc⟩ : ∃ c,
      (new 30 (some FifoEvictor.new)).play 3 [.set "a" (cString "") 20, .set "b" (cString "") 12] =
        some ([(.set "a" (cString "") 20, .set ⟨[], true⟩),
          (.set "b" (cString "") 12, .set ⟨["a"], true⟩)], c) := ⟨_, rfl⟩
  obtain ⟨hsize, hle, -⟩ := (spaceUsed_eq_total (run_of_play hc)).2 (by
    intro key val size reply hmem
    simp only [List.mem_cons, Prod.mk.injEq, Call.set.injEq, List.not_mem_nil, or_false] at hmem
    rcases hmem with ⟨⟨-, -, rfl⟩, -⟩ | ⟨⟨-, -, rfl⟩, -⟩ <;> decide)
  exact ⟨c, hc, hsize, hle⟩

/-- **Capacity holds exactly as long as no set wraps.**  Along a run the sum of all
sizes stays within `maxmem` if and only if every set in it finds that what is left
without the old entry of its key, with the new size added, is below `2^32`. -/
theorem total_le_maxmem_iff (h : Run (new maxmem ev) log c) :
    (∀ pre post d, log = pre ++ post → Run (new maxmem ev) pre d → d.total ≤ maxmem.toNat) ↔
      ∀ pre key val size reply post d, log = pre ++ (.set key val size, reply) :: post →
        Run (new maxmem ev) pre d → d.NoWrap key size := by
  constructor
  · intro hle pre key val size reply post d hlog hd
    subst hlog
    obtain ⟨d', hstep, hd'⟩ := Trace.Run.exists_step h hd fun _ _ _ _ => Step.deterministic
    have hmax : d.maxmem = maxmem := Run.maxmem hd
    -- within the limit the remainder the counter holds is the sum itself
    have hdle := hle _ _ d rfl hd
    have hexact : d.Exact :=
      ⟨(Run.tallied hd).trans (Nat.mod_eq_of_lt (hdle.trans_lt maxmem.toNat_lt)), hmax ▸ hdle⟩
    cases hstep with
    | set hset =>
      refine hexact.noWrap_of_set hset ?_
      rw [hmax]
      exact hle _ _ d' (List.append_cons ..) hd'
  · intro hfit pre post d hlog hd
    subst hlog
    have hexact : d.Exact := by
      refine Trace.Run.invariant_along hd (fun pre₀ l post₀ m t hpre hm hstep hexact => ?_)
        (exact_new maxmem ev)
      refine hexact.step hstep fun key val size reply hl => ?_
      exact hfit pre₀ key val size reply (post₀ ++ post) m (by simp [hpre, hl]) hm
    have hmax : d.maxmem = maxmem := Run.maxmem hd
    exact hmax ▸ hexact.within

/-- A run whose second set wraps, so that neither side holds. -/
theorem total_le_maxmem_iff_play : ∃ log c,
    (new 30 (some FifoEvictor.new)).play 0 [.set "a" (cString "") 20,
      .set "b" (cString "") 4294967286] = some (log, c) ∧
    ((∀ pre post d, log = pre ++ post → Run (new 30 (some FifoEvictor.new)) pre d →
        d.total ≤ (30 : SizeType).toNat) ↔
      ∀ pre key val size reply post d, log = pre ++ (.set key val size, reply) :: post →
        Run (new 30 (some FifoEvictor.new)) pre d → d.NoWrap key size) := by
  obtain ⟨log, c, hc⟩ : ∃ log c, (new 30 (some FifoEvictor.new)).play 0
      [.set "a" (cString "") 20, .set "b" (cString "") 4294967286] = some (log, c) := ⟨_, _, rfl⟩
  exact ⟨log, c, hc, total_le_maxmem_iff (run_of_play hc)⟩

/-- **Two values that overfill the cache:** with 30 bytes allowed and 20 in use, a
value of `2^32 - 10` bytes is admitted, for the sum it is tested with is 10. -/
theorem total_gt_maxmem_of_wrap :
    ∃ log c, Run (new 30 (some FifoEvictor.new)) log c ∧ ¬c.total ≤ (30 : SizeType).toNat := by
  obtain ⟨log, c, hc, hgt⟩ : ∃ log c, (new 30 (some FifoEvictor.new)).play 0
      [.set "a" (cString "") 20, .set "b" (cString "") 4294967286] = some (log, c) ∧
      ¬c.total ≤ (30 : SizeType).toNat := ⟨_, _, rfl, by decide⟩
  exact ⟨log, c, run_of_play hc, hgt⟩

end Cache
end CacheBench
