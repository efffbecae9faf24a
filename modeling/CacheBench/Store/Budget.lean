/-
# How many entries there can be

When every set has a size of at least 1 and no sum wraps, the entries that sets put into
`dict_` are at most as many as `maxmem`, for each of them weighs something
(`Cache.Exact.card_le_maxmem`).  A get that misses puts an entry in as well, which
no set asked for and the counter does not see.  So the entries along a run are those that
sets have put there, and within `maxmem` in number, exactly when no get of the run misses
(`Cache.budgeted_iff`).
-/

import CacheBench.Store.Placeholder

namespace CacheBench
namespace Cache

/-- The entry `e` of `k` is the one that a completed set of `k` in the log made, and
nothing removed it since. -/
def PutBy (log : List (Call × Reply)) (k : KeyType) (e : EntryType) : Prop :=
  ∃ pre val size r copied post, log = pre ++ (.set k val size, .set r) :: post ∧
    r.admitted = true ∧ copyValue val size = some copied ∧ e = (some copied.copy, size) ∧
    ∀ l ∈ post, ¬Removes k l

/-- Every entry was put there by a completed set, and there are at most `maxmem`. -/
structure Budgeted {ε : Type} (log : List (Call × Reply)) (c : Cache ε) : Prop where
  put : ∀ k e, c.dict.lookup k = some e → PutBy log k e
  card : c.dict.keys.card ≤ c.maxmem.toNat

variable {log : List (Call × Reply)} {k : KeyType} {e : EntryType}

/-- What the log put under a key is what is read of it as a register. -/
theorem putBy_iff : PutBy log k e ↔ Register.read effect log k = some e := by
  rw [Register.read_eq_some_iff]
  constructor
  · rintro ⟨pre, val, size, r, copied, post, hlog, hadm, hcopy, he, hpost⟩
    refine ⟨pre, _, post, hlog, ?_, fun l hl => effect_eq_none_iff.2 (hpost l hl)⟩
    exact effect_eq_write_iff.2 ⟨val, size, r, copied, rfl, hadm, hcopy, he⟩
  · rintro ⟨pre, l, post, hlog, hwrite, hpost⟩
    obtain ⟨val, size, r, copied, rfl, hadm, hcopy, he⟩ := effect_eq_write_iff.1 hwrite
    exact ⟨pre, val, size, r, copied, post, hlog, hadm, hcopy, he,
      fun l hl => effect_eq_none_iff.1 (hpost l hl)⟩

/-- A set puts a block, not the null pointer. -/
theorem PutBy.fst_ne_none (h : PutBy log k e) : e.1 ≠ none := by
  obtain ⟨-, -, -, -, copied, -, -, -, -, rfl, -⟩ := h
  exact Option.some_ne_none copied.copy

/-- The size of the entry was the size of a set of the log. -/
theorem PutBy.exists_mem (h : PutBy log k e) :
    ∃ val reply, ((.set k val e.2, reply) : Call × Reply) ∈ log := by
  obtain ⟨pre, val, size, r, copied, post, rfl, -, -, rfl, -⟩ := h
  exact ⟨val, .set r, by simp⟩

/-- **Within the limit in bytes, within the limit in number:** entries that all weigh
something are at most `maxmem`. -/
theorem Exact.card_le_maxmem {ε : Type} {c : Cache ε} (h : c.Exact)
    (hpos : ∀ k e, c.dict.lookup k = some e → e.2 ≠ 0) :
    c.dict.keys.card ≤ c.maxmem.toNat := by
  refine (Finmap.card_keys_le_total (fun e : EntryType => e.2.toNat) fun k e he => ?_).trans
    h.within
  exact fun hzero => hpos k e he (UInt32.toNat_inj.1 hzero)

variable {ε : Type} [Evictor ε] {c c' : Cache ε} {maxmem : SizeType} {ev : Option ε}

/-- An entry with a value is the one its register holds. -/
theorem Run.putBy_of_lookup (h : Run (new maxmem ev) log c) {p : Block} {n : SizeType}
    (hk : c.dict.lookup k = some (some p, n)) : PutBy log k (some p, n) := by
  have hentry := Run.entry_eq h k
  rw [entry, hk, Option.getD_some] at hentry
  rw [putBy_iff]
  cases hread : Register.read effect log k with
  | none =>
    rw [hread] at hentry
    cases hentry
  | some e =>
    rw [hread] at hentry
    exact congrArg some hentry.symm

/-- A get that misses leaves an entry that no set has put there. -/
theorem exists_lookup_get_of_not_live (hlive : ¬c.Live k) :
    ∃ n, (c.get k).2.dict.lookup k = some (none, n) := by
  rw [get_snd_dict, subscript_snd_lookup]
  rw [Live, entry, not_not] at hlive
  rcases h : c.dict.lookup k with _ | ⟨_ | p, n⟩
  · exact ⟨0, by simp⟩
  · exact ⟨n, by simp⟩
  · rw [h] at hlive
    cases hlive

/-- **The budget of entries holds exactly as long as no get misses.**  In a run whose
sets all have a size of at least 1 and make no sum wrap: after every prefix of the run each
entry in `dict_` is one that a completed set of its key put there and nothing removed
since, and there are at most `maxmem` of them, if and only if every get in the run finds a
value. -/
theorem budgeted_iff (h : Run (new maxmem ev) log c)
    (hpos : ∀ key val size reply, (.set key val size, reply) ∈ log → size ≠ 0)
    (hwrap : ∀ pre key val size reply post d, log = pre ++ (.set key val size, reply) :: post →
      Run (new maxmem ev) pre d → d.NoWrap key size) :
    (∀ pre post d, log = pre ++ post → Run (new maxmem ev) pre d → Budgeted pre d) ↔
      ∀ pre key reply post d, log = pre ++ (.get key, reply) :: post →
        Run (new maxmem ev) pre d → d.Live key := by
  constructor
  · intro hbudget pre key reply post d hlog hd
    by_contra hlive
    subst hlog
    obtain ⟨d', hstep, hd'⟩ := Trace.Run.exists_step h hd fun _ _ _ _ => Step.deterministic
    cases hstep with
    | get =>
      obtain ⟨n, hn⟩ := exists_lookup_get_of_not_live hlive
      have hput := (hbudget _ _ _ (List.append_cons ..) hd').put key _ hn
      exact hput.fst_ne_none rfl
  · intro hlive pre post d hlog hd
    subst hlog
    have hexact : d.Exact := by
      refine Trace.Run.invariant_along hd (fun pre₀ l post₀ m t hpre hm hstep hexact => ?_)
        (exact_new maxmem ev)
      refine hexact.step hstep fun key val size reply hl => ?_
      exact hwrap pre₀ key val size reply (post₀ ++ post) m (by simp [hpre, hl]) hm
    -- no get has missed, so there is no placeholder and every entry is in its register
    have hput : ∀ k e, d.dict.lookup k = some e → PutBy pre k e := by
      rintro k ⟨_ | p, n⟩ he
      · obtain ⟨pre₀, m, post₀, rfl, -⟩ := (Run.placeholder_iff hd).1 ⟨n, he⟩
        obtain ⟨d₀, hd₀, -⟩ := Trace.run_append_iff.1 hd
        have hfound := hlive pre₀ k (.get (none, m)) (post₀ ++ post) d₀ (by simp) hd₀
        obtain ⟨d₁, hstep, -⟩ := Trace.Run.exists_step hd hd₀ fun _ _ _ _ => Step.deterministic
        generalize hreply : (Reply.get (none, m)) = reply at hstep
        cases hstep with
        | get =>
          rw [get_fst, Reply.get.injEq] at hreply
          exact absurd (congrArg Prod.fst hreply.symm) hfound
      · exact Run.putBy_of_lookup hd he
    refine ⟨hput, hexact.card_le_maxmem fun k e he => ?_⟩
    obtain ⟨val, reply, hmem⟩ := (hput k e he).exists_mem
    exact hpos k val e.2 reply (List.mem_append_left _ hmem)

/-- A set and a get that finds its value. -/
theorem budgeted_iff_play : ∃ log c,
    (new 30 (some FifoEvictor.new)).play 0 [.set "a" (cString "one") 4, .get "a"] = some (log, c) ∧
    ((∀ pre post d, log = pre ++ post → Run (new 30 (some FifoEvictor.new)) pre d →
        Budgeted pre d) ↔
      ∀ pre key reply post d, log = pre ++ (.get key, reply) :: post →
        Run (new 30 (some FifoEvictor.new)) pre d → d.Live key) := by
  obtain ⟨c, hc⟩ : ∃ c,
      (new 30 (some FifoEvictor.new)).play 0 [.set "a" (cString "one") 4, .get "a"] =
        some ([(.set "a" (cString "one") 4, .set ⟨[], true⟩),
          (.get "a", .get (some (stored "one"), 4))], c) := ⟨_, rfl⟩
  refine ⟨_, c, hc, budgeted_iff (run_of_play hc) ?_ ?_⟩
  · intro key val size reply hmem
    simp only [List.mem_cons, Prod.mk.injEq, Call.set.injEq, List.not_mem_nil, or_false] at hmem
    rcases hmem with ⟨⟨-, -, rfl⟩, -⟩ | ⟨h, -⟩
    · decide
    · cases h
  · intro pre key val size reply post d hlog hd
    rcases pre with _ | ⟨l, _ | ⟨l', pre⟩⟩
    · obtain ⟨hl, -⟩ := List.cons.inj hlog
      simp only [Prod.mk.injEq, Call.set.injEq] at hl
      obtain ⟨⟨rfl, rfl, rfl⟩, -⟩ := hl
      obtain rfl := Trace.run_nil_iff.1 hd
      unfold NoWrap
      decide
    · simp at hlog
    · simp at hlog

/-- **Two gets overfill the store:** on a new cache of one byte, without a set at all, two
gets that miss leave two entries that nothing has put there. -/
theorem not_budgeted_of_misses : ∃ log c, Run (new 1 (some FifoEvictor.new)) log c ∧
    (∀ key val size reply, (.set key val size, reply) ∉ log) ∧
    (¬∀ k e, c.dict.lookup k = some e → PutBy log k e) ∧
    ¬c.dict.keys.card ≤ c.maxmem.toNat := by
  obtain ⟨c, hc, hlookup, hcard⟩ : ∃ c,
      (new 1 (some FifoEvictor.new)).play 0 [.get "a", .get "b"] =
        some ([(.get "a", .get (none, 0)), (.get "b", .get (none, 0))], c) ∧
      c.dict.lookup "a" = some (none, 0) ∧ ¬c.dict.keys.card ≤ c.maxmem.toNat :=
    ⟨_, rfl, rfl, by decide⟩
  refine ⟨_, c, run_of_play hc, fun key val size reply hmem => ?_, fun hput => ?_, hcard⟩
  · simp at hmem
  · exact (hput "a" (none, 0) hlookup).fst_ne_none rfl

end Cache
end CacheBench
