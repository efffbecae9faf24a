/-
# First in, first out?

`FifoEvictor` should make the cache evict first what became present first.  A run of
sets and gets is dated here: a key's arrival is the last set that found it without a
value (`Dated.Step`), and a set evicts in order when nothing live that it leaves
arrived before anything live that it evicts (`Dated.EvictsInOrder`).

That holds as long as the live keys stand in the queue in the order of their arrival
(`Dated.Ordered`), and the nodes that `touch_key` left there earlier can spoil this
in two ways: a key that comes back takes the place of an old node of it, and a key
that is overwritten while its first node is popped falls back to its next node.
`Dated.InTurn` says that neither happens at a set; a run whose sets all meet it, and
no other run, evicts in order now and at whatever set comes next
(`Dated.evictsInOrder_iff`).
-/

import CacheBench.Store.Order

namespace CacheBench

/-- A cache with the number of sets so far and, for every key, the number at which it
became present. -/
structure Dated where
  cache : Cache FifoEvictor
  clock : ℕ
  arrived : KeyType → ℕ

namespace Dated

/-- A new cache with a new `FifoEvictor`. -/
def new (maxmem : SizeType) : Dated := ⟨Cache.new maxmem (some FifoEvictor.new), 0, fun _ => 0⟩

/-- The dates after a set of `key`: a key without a value becomes present. -/
def arrive (d : Dated) (key : KeyType) : KeyType → ℕ :=
  Function.update d.arrived key (if d.cache.Live key then d.arrived key else d.clock)

/-- The other keys arrived when they did. -/
theorem arrive_of_ne (d : Dated) {key x : KeyType} (h : x ≠ key) :
    d.arrive key x = d.arrived x :=
  Function.update_of_ne h _ _

/-- A key that has no value arrives now. -/
theorem arrive_self (d : Dated) (key : KeyType) :
    d.arrive key key = if d.cache.Live key then d.arrived key else d.clock :=
  Function.update_self _ _ _

/-- One completed set with `1 ≤ size ≤ maxmem`, or one get. -/
inductive Step : Dated → Call × Reply → Dated → Prop
  | set {d : Dated} {key : KeyType} {val : List ByteType} {size : SizeType} {r : Report}
      {c' : Cache FifoEvictor} :
      size ≠ 0 → size ≤ d.cache.maxmem → d.cache.SetReturns key val size r c' →
        Step d (.set key val size, .set r) ⟨c', d.clock + 1, d.arrive key⟩
  | get (d : Dated) (key : KeyType) :
      Step d (.get key, .get (d.cache.get key).1) { d with cache := (d.cache.get key).2 }

/-- The calls that the evictor is told about, of a size that fits. -/
def Counts (maxmem : SizeType) : Call × Reply → Prop
  | (.set _ _ size, _) => size ≠ 0 ∧ size ≤ maxmem
  | (.get _, _) => True
  | _ => False

/-- A finite run of them. -/
abbrev Run : Dated → List (Call × Reply) → Dated → Prop := Trace.Run Step

/-- Of the other keys with a value, none that the set leaves became present before one
that it evicts. -/
def EvictsInOrder (d : Dated) (key : KeyType) (r : Report) (c' : Cache FifoEvictor) : Prop :=
  ∀ x ∈ r.evicted, x ≠ key → d.cache.Live x → ∀ y, y ≠ key → c'.Live y →
    d.arrived x ≤ d.arrived y

/-- Among the live keys that the set leaves, `key` takes its turn: if it has no value
yet, no old node of it is left ahead of them; if it has one, it still has a node ahead
of all those that it was ahead of. -/
def InTurn (d : Dated) (key : KeyType) (size : SizeType) : Prop :=
  ∀ n, d.cache.FreesRoom key size n → ∀ y, y ≠ key → d.cache.Live y →
    y ∉ d.cache.queue.take n →
      (¬d.cache.Live key → (d.cache.queue.drop n ++ [key]).Ahead y key) ∧
      (d.cache.Live key → d.cache.queue.Ahead key y →
        (d.cache.queue.drop n ++ [key]).Ahead key y)

/-- No two live keys share a date, and no date is yet to come. -/
structure Clocked (d : Dated) : Prop where
  past : ∀ x, d.cache.Live x → d.arrived x < d.clock
  inj : ∀ x y, d.cache.Live x → d.cache.Live y → d.arrived x = d.arrived y → x = y

/-- The live keys stand in the queue in the order of their arrival. -/
def Ordered (d : Dated) : Prop :=
  ∀ x y, d.cache.Live x → d.cache.Live y → d.arrived x < d.arrived y → d.cache.queue.Ahead x y

variable {d d' : Dated} {key : KeyType} {val : List ByteType} {size : SizeType} {r : Report}
  {l : Call × Reply} {log : List (Call × Reply)}

/-! ### Dates do not change what the cache does -/

/-- A step of the dated cache is one of the cache. -/
theorem Step.cacheStep (h : Step d l d') : Cache.Step d.cache l d'.cache := by
  cases h with
  | set _ _ hset => exact .set hset
  | get => exact .get _ _

/-- A call and its reply leave one dated cache. -/
theorem Step.deterministic {d₁ d₂ : Dated} (h₁ : Step d l d₁) (h₂ : Step d l d₂) : d₁ = d₂ := by
  have hcache := h₁.cacheStep.deterministic h₂.cacheStep
  cases h₁ with
  | set =>
    cases h₂ with
    | set =>
      obtain rfl := hcache
      rfl
  | get =>
    cases h₂
    rfl

/-- A run of the dated cache is one of the cache. -/
theorem Run.cacheRun (h : Run d log d') : Cache.Run d.cache log d'.cache := by
  induction h with
  | nil => exact .nil
  | snoc _ hstep ih => exact .snoc ih hstep.cacheStep

/-- No run changes the limit. -/
theorem Run.maxmem_eq (h : Run d log d') : d'.cache.maxmem = d.cache.maxmem :=
  Cache.Run.maxmem (Run.cacheRun h)

/-- The sets of a step count no more than the limit. -/
theorem Step.counts (h : Step d l d') : Counts d.cache.maxmem l := by
  cases h with
  | set hpos hle => exact ⟨hpos, hle⟩
  | get => trivial

/-- A step of the cache can be dated. -/
theorem exists_step {c' : Cache FifoEvictor} (h : Cache.Step d.cache l c')
    (hl : Counts d.cache.maxmem l) : ∃ d', Step d l d' ∧ d'.cache = c' := by
  cases h with
  | set hset => exact ⟨_, .set hl.1 hl.2 hset, rfl⟩
  | get => exact ⟨_, .get _ _, rfl⟩
  | del => exact hl.elim
  | reset => exact hl.elim

/-- **The dated runs are the runs of the cache** that make no other calls. -/
theorem exists_run_iff {c : Cache FifoEvictor} :
    (∃ d', Run d log d' ∧ d'.cache = c) ↔
      Cache.Run d.cache log c ∧ ∀ l ∈ log, Counts d.cache.maxmem l := by
  constructor
  · rintro ⟨d', h, rfl⟩
    refine ⟨Run.cacheRun h, ?_⟩
    induction h with
    | nil => exact fun _ hl => absurd hl List.not_mem_nil
    | snoc hrun hstep ih =>
      intro l hl
      rcases List.mem_append.1 hl with hl | hl
      · exact ih l hl
      · obtain rfl := List.mem_singleton.1 hl
        exact Run.maxmem_eq hrun ▸ hstep.counts
  · rintro ⟨h, hl⟩
    induction h with
    | nil => exact ⟨d, .nil, rfl⟩
    | snoc hrun hstep ih =>
      obtain ⟨m, hm, rfl⟩ := ih fun l hmem => hl l (List.mem_append_left _ hmem)
      obtain ⟨d', hd', rfl⟩ := exists_step hstep
        (Run.maxmem_eq hm ▸ hl _ (List.mem_append_right _ (List.mem_singleton_self _)))
      exact ⟨d', .snoc hm hd', rfl⟩

/-- What a set of `key` that popped `n` nodes leaves. -/
structure AfterSet (d : Dated) (key : KeyType) (n : ℕ) (d' : Dated) : Prop where
  queue : d'.cache.queue = d.cache.queue.drop n ++ [key]
  live : ∀ k, d'.cache.Live k ↔ k = key ∨ k ∉ d.cache.queue.take n ∧ d.cache.Live k
  clock : d'.clock = d.clock + 1
  arrived : d'.arrived = d.arrive key

/-- What a set does to the dates. -/
theorem Step.afterSet (hq : d.cache.Queued) (h : Step d (.set key val size, .set r) d') :
    ∃ n, d.cache.FreesRoom key size n ∧ r = ⟨d.cache.queue.take n, true⟩ ∧
      d.AfterSet key n d' := by
  cases h with
  | set _ _ hset =>
    obtain ⟨n, copied, hfree, -, rfl, rfl⟩ := hq.setReturns_iff.1 hset
    exact ⟨n, hfree, rfl, (hq.setReturns_after hfree copied.copy).1,
      hq.setReturns_live hfree copied.copy, rfl, rfl⟩

/-- Another key that has a value after a set had it before, and was not popped. -/
theorem AfterSet.live_of_ne {n : ℕ} (h : d.AfterSet key n d') {x : KeyType} (hx : d'.cache.Live x)
    (hne : x ≠ key) : x ∉ d.cache.queue.take n ∧ d.cache.Live x :=
  ((h.live x).1 hx).resolve_left hne

/-- The other keys keep their dates. -/
theorem AfterSet.arrived_of_ne {n : ℕ} (h : d.AfterSet key n d') {x : KeyType} (hne : x ≠ key) :
    d'.arrived x = d.arrived x := by
  rw [h.arrived, arrive_of_ne d hne]

/-- The key that is set keeps its date if it had a value. -/
theorem AfterSet.arrived_self {n : ℕ} (h : d.AfterSet key n d') :
    d'.arrived key = if d.cache.Live key then d.arrived key else d.clock := by
  rw [h.arrived, arrive_self]

/-- A get gives no key a value. -/
theorem get_live_iff (d : Dated) (key x : KeyType) :
    (d.cache.get key).2.Live x ↔ d.cache.Live x := by
  unfold Cache.Live
  rw [Cache.get_snd_entry]

variable {maxmem : SizeType}

/-- What a state reached by a dated run satisfies, when no sum wraps. -/
structure Reached (d : Dated) : Prop where
  sound : d.cache.Sound
  clocked : d.Clocked

/-- A new cache has no values. -/
theorem new_not_live (maxmem : SizeType) (x : KeyType) : ¬(new maxmem).cache.Live x :=
  fun h => h (by simp [new, Cache.entry])

/-- Dates keep telling the live keys apart: the only new one is that of the key being
set, and no key had it before. -/
theorem Clocked.afterSet {n : ℕ} (h : d.Clocked) (hafter : d.AfterSet key n d') :
    d'.Clocked := by
  -- the date of the key being set: its own if it is live, else a new one
  have hself : d'.arrived key < d.clock + 1 ∧
      ∀ y, y ≠ key → d'.cache.Live y → d'.arrived key ≠ d'.arrived y := by
    rw [hafter.arrived_self]
    split_ifs with hkey
    · refine ⟨Nat.lt_succ_of_lt (h.past key hkey), fun y hne hy heq => hne ?_⟩
      rw [hafter.arrived_of_ne hne] at heq
      exact (h.inj key y hkey (hafter.live_of_ne hy hne).2 heq).symm
    · refine ⟨Nat.lt_succ_self _, fun y hne hy => ?_⟩
      rw [hafter.arrived_of_ne hne]
      exact (h.past y (hafter.live_of_ne hy hne).2).ne'
  constructor
  · intro x hx
    rw [hafter.clock]
    by_cases hxk : x = key
    · rw [hxk]
      exact hself.1
    · rw [hafter.arrived_of_ne hxk]
      exact Nat.lt_succ_of_lt (h.past x (hafter.live_of_ne hx hxk).2)
  · intro x y hx hy heq
    by_cases hxk : x = key <;> by_cases hyk : y = key
    · rw [hxk, hyk]
    · rw [hxk] at heq
      exact absurd heq (hself.2 y hyk hy)
    · rw [hyk] at heq
      exact absurd heq.symm (hself.2 x hxk hx)
    · rw [hafter.arrived_of_ne hxk, hafter.arrived_of_ne hyk] at heq
      exact h.inj x y (hafter.live_of_ne hx hxk).2 (hafter.live_of_ne hy hyk).2 heq

/-- No call dates anything in the future. -/
theorem Clocked.step (h : d.Clocked) (hq : d.cache.Queued) (hstep : Step d l d') :
    d'.Clocked := by
  cases hstep with
  | get key =>
    exact ⟨fun x hx => h.past x ((get_live_iff d key x).1 hx), fun x y hx hy =>
      h.inj x y ((get_live_iff d key x).1 hx) ((get_live_iff d key y).1 hy)⟩
  | set hpos hle hset =>
    obtain ⟨n, -, -, hafter⟩ := Step.afterSet hq (.set hpos hle hset)
    exact h.afterSet hafter

/-- What holds of the dates after every run. -/
theorem Run.reached (hmax : 2 * maxmem.toNat < 2 ^ 32) (h : Run (new maxmem) log d) :
    d.Reached := by
  refine Trace.Run.invariant h (fun d l d' hstep hd => ?_) ⟨Cache.sound_new hmax, ?_, ?_⟩
  · refine ⟨?_, hd.clocked.step hd.sound.queued hstep⟩
    cases hstep with
    | set hpos hle hset => exact hd.sound.set hpos hle hset
    | get key => exact hd.sound.get key
  · exact fun x hx => absurd hx (new_not_live maxmem x)
  · exact fun x _ hx => absurd hx (new_not_live maxmem x)

/-! ### The queue keeps the order of arrival as long as every set is in turn -/

/-- **Order is enough:** a set on an ordered queue evicts in order. -/
theorem Ordered.evictsInOrder (h : d.Ordered) (hq : d.cache.Queued)
    (hstep : Step d (.set key val size, .set r) d') : d.EvictsInOrder key r d'.cache := by
  obtain ⟨n, -, rfl, hafter⟩ := Step.afterSet hq hstep
  intro x hx _ hlive y hy hy'
  obtain ⟨hmem, hylive⟩ := hafter.live_of_ne hy' hy
  by_contra hlt
  exact hmem ((h y x hylive hlive (not_le.1 hlt)).mem_take hx)

/-- **A set in turn keeps the order.** -/
theorem Ordered.afterSet {n : ℕ} (h : d.Ordered) (hc : d.Clocked) (hq : d.cache.Queued)
    (hfree : d.cache.FreesRoom key size n) (hturn : d.InTurn key size)
    (hafter : d.AfterSet key n d') : d'.Ordered := by
  intro x y hx hy hlt
  rw [hafter.queue]
  by_cases hxk : x = key <;> by_cases hyk : y = key
  · rw [hxk, hyk] at hlt
    exact absurd hlt (lt_irrefl _)
  · subst hxk
    obtain ⟨hmem, hlive⟩ := hafter.live_of_ne hy hyk
    rw [hafter.arrived_self, hafter.arrived_of_ne hyk] at hlt
    split_ifs at hlt with hkey
    · exact (hturn n hfree y hyk hlive hmem).2 hkey (h x y hkey hlive hlt)
    · exact absurd (hc.past y hlive) hlt.not_gt
  · subst hyk
    obtain ⟨hmem, hlive⟩ := hafter.live_of_ne hx hxk
    by_cases hkey : d.cache.Live y
    · rw [hafter.arrived_self, if_pos hkey, hafter.arrived_of_ne hxk] at hlt
      have hahead := h x y hlive hkey hlt
      exact (List.ahead_drop_append hfree.le (hq.mem_queue hlive) (hq.mem_queue hkey) hmem
        fun hmem' => hmem (hahead.mem_take hmem')).2 hahead
    · exact (hturn n hfree x hxk hlive hmem).1 hkey
  · obtain ⟨hxmem, hxlive⟩ := hafter.live_of_ne hx hxk
    obtain ⟨hymem, hylive⟩ := hafter.live_of_ne hy hyk
    rw [hafter.arrived_of_ne hxk, hafter.arrived_of_ne hyk] at hlt
    exact (List.ahead_drop_append hfree.le (hq.mem_queue hxlive) (hq.mem_queue hylive) hxmem
      hymem).2 (h x y hxlive hylive hlt)

/-- **Only a set in turn keeps it.** -/
theorem Ordered.inTurn {n : ℕ} (h : d.Ordered) (hc : d.Clocked)
    (hfree : d.cache.FreesRoom key size n) (hafter : d.AfterSet key n d') (h' : d'.Ordered) :
    d.InTurn key size := by
  intro m hm y hne hlive hmem
  obtain rfl := hfree.unique hm
  have hkey' : d'.cache.Live key := (hafter.live key).2 (Or.inl rfl)
  have hlive' : d'.cache.Live y := (hafter.live y).2 (Or.inr ⟨hmem, hlive⟩)
  rw [← hafter.queue]
  constructor
  · intro hkey
    refine h' y key hlive' hkey' ?_
    rw [hafter.arrived_self, if_neg hkey, hafter.arrived_of_ne hne]
    exact hc.past y hlive
  · intro hkey hahead
    refine h' key y hkey' hlive' ?_
    rw [hafter.arrived_self, if_pos hkey, hafter.arrived_of_ne hne]
    rcases lt_trichotomy (d.arrived key) (d.arrived y) with hlt | heq | hlt
    · exact hlt
    · exact absurd (hc.inj key y hkey hlive heq).symm hne
    · exact absurd hahead (h y key hlive hkey hlt).asymm

/-- A get pushes a node behind all others. -/
theorem Ordered.get (h : d.Ordered) (hq : d.cache.Queued) (key : KeyType) :
    Ordered { d with cache := (d.cache.get key).2 } := by
  intro x y hx hy hlt
  have hxlive := (get_live_iff d key x).1 hx
  have hylive := (get_live_iff d key y).1 hy
  have hqueue : (d.cache.get key).2.queue = d.cache.queue ++ [key] :=
    Cache.queue_touch hq.isSome key
  rw [hqueue]
  exact (List.ahead_append_of_mem (hq.mem_queue hxlive) (hq.mem_queue hylive)).2
    (h x y hxlive hylive hlt)

/-- In a new cache there is nothing to order. -/
theorem ordered_new (maxmem : SizeType) : (new maxmem).Ordered :=
  fun x _ hx => absurd hx (new_not_live maxmem x)

/-- **Disorder shows:** when every set that could come next evicts in order, the queue
is in order. -/
theorem Reached.ordered (hd : d.Reached)
    (h : ∀ key val size r d', Step d (.set key val size, .set r) d' →
      d.EvictsInOrder key r d'.cache) : d.Ordered := by
  intro x y hx hy hlt
  have hxmem := hd.sound.queued.mem_queue hx
  have hymem := hd.sound.queued.mem_queue hy
  have hne : x ≠ y := fun heq => lt_irrefl _ (heq ▸ hlt)
  refine (List.ahead_or_ahead hxmem hne).resolve_right fun hahead => ?_
  -- a new key that takes just the room of `y` and of what is ahead of it evicts `y`
  obtain ⟨z, hz, hzmem, -⟩ := Cache.exists_fresh d.cache [x, y]
  obtain ⟨size, hpos, hle, hfree⟩ := hd.sound.exists_evicting_set hy hz
  obtain ⟨copy, c', hset, -, hlookup, -⟩ := hd.sound.queued.exists_setReturns hfree
  have hzx : x ≠ z := fun heq => hzmem (by simp [heq])
  have hzy : y ≠ z := fun heq => hzmem (by simp [heq])
  have hxlive : c'.Live x := by
    unfold Cache.Live Cache.entry
    rw [hlookup, if_neg hzx, if_neg hahead.notMem_take]
    exact hx
  exact absurd (h z [nul] size _ _ (.set hpos hle hset) y (List.mem_take_succ_idxOf hymem) hzy hy x
    hzx hxlive) (not_le.2 hlt)

/-- **When the cache is first in, first out.**  Along a run of sets and gets, every set
that the run makes, or could make next in any of its states, evicts in order if and
only if every set of the run is in turn. -/
theorem evictsInOrder_iff (hmax : 2 * maxmem.toNat < 2 ^ 32) (h : Run (new maxmem) log d) :
    (∀ pre post d₁, log = pre ++ post → Run (new maxmem) pre d₁ →
        ∀ key val size r d₂, Step d₁ (.set key val size, .set r) d₂ →
          d₁.EvictsInOrder key r d₂.cache) ↔
      ∀ pre key val size reply post d₁, log = pre ++ (.set key val size, reply) :: post →
        Run (new maxmem) pre d₁ → d₁.InTurn key size := by
  constructor
  · intro horder pre key val size reply post d₁ hlog hd₁
    subst hlog
    obtain ⟨d₂, hstep, hd₂⟩ := Trace.Run.exists_step h hd₁ fun _ _ _ _ => Step.deterministic
    have hr₁ := Run.reached hmax hd₁
    have ho₁ : d₁.Ordered := hr₁.ordered (horder _ _ d₁ rfl hd₁)
    have ho₂ : d₂.Ordered :=
      (Run.reached hmax hd₂).ordered (horder _ _ d₂ (List.append_cons ..) hd₂)
    cases hstep with
    | set hpos hle hset =>
      obtain ⟨n, hfree, -, hafter⟩ := Step.afterSet hr₁.sound.queued (.set hpos hle hset)
      exact ho₁.inTurn hr₁.clocked hfree hafter ho₂
  · intro hturn pre post d₁ hlog hd₁ key val size r d₂ hstep
    subst hlog
    have ho : d₁.Ordered := by
      refine Trace.Run.invariant_along hd₁ (fun pre₀ l post₀ m t hpre hm hstep ho => ?_)
        (ordered_new maxmem)
      have hr := Run.reached hmax hm
      cases hstep with
      | get key => exact ho.get hr.sound.queued key
      | @set key val size r _ hpos hle hset =>
        obtain ⟨n, hfree, -, hafter⟩ := Step.afterSet hr.sound.queued (.set hpos hle hset)
        refine ho.afterSet hr.clocked hr.sound.queued hfree ?_ hafter
        exact hturn pre₀ key val size (.set r) (post₀ ++ post) m (by simp [hpre]) hm
    exact ho.evictsInOrder (Run.reached hmax hd₁).sound.queued hstep

/-- A run that reads a key before it is set, so that neither side holds. -/
theorem evictsInOrder_iff_run : ∃ log d, Run (new 2) log d ∧
    ((∀ pre post d₁, log = pre ++ post → Run (new 2) pre d₁ →
        ∀ key val size r d₂, Step d₁ (.set key val size, .set r) d₂ →
          d₁.EvictsInOrder key r d₂.cache) ↔
      ∀ pre key val size reply post d₁, log = pre ++ (.set key val size, reply) :: post →
        Run (new 2) pre d₁ → d₁.InTurn key size) := by
  obtain ⟨log, d, h⟩ : ∃ log d, Run (new 2) log d :=
    ⟨_, _, .snoc (.snoc (.snoc .nil (.get _ "b"))
      (@Step.set _ "a" (cString "") 1 _ _ (by decide) (by decide) ⟨0, rfl⟩))
      (@Step.set _ "b" (cString "") 1 _ _ (by decide) (by decide) ⟨0, rfl⟩)⟩
  exact ⟨log, d, h, evictsInOrder_iff (by decide) h⟩

/-- **A key that comes back goes too early:** `evict` took one node of `a` off the queue
and left another, so `a` goes before `b`, `c` and `d`, which were all there when it came
back. -/
theorem evicts_out_of_order :
    2 * (4 : SizeType).toNat < 2 ^ 32 ∧
      ∃ log d r d', Run (new 4) log d ∧ Step d (.set "e" (cString "") 1, .set r) d' ∧
        r.evicted = ["a"] ∧ ¬d.EvictsInOrder "e" r d'.cache := by
  have hset : ∀ {d : Dated} {key : KeyType} {size : SizeType} {p : Report × Cache FifoEvictor},
      size ≠ 0 ∧ size ≤ d.cache.maxmem → d.cache.set 1 key (cString "") size = some p →
        Step d (.set key (cString "") size, .set p.1) ⟨p.2, d.clock + 1, d.arrive key⟩ :=
    fun hfits h => .set hfits.1 hfits.2 ⟨1, h⟩
  refine ⟨by decide, _, _, _, _, .snoc (.snoc (.snoc (.snoc (.snoc (.snoc (.snoc .nil
    (@hset _ "a" 1 _ (by decide) rfl)) (@hset _ "a" 1 _ (by decide) rfl))
    (@hset _ "b" 2 _ (by decide) rfl)) (@hset _ "d" 1 _ (by decide) rfl))
    (@hset _ "c" 1 _ (by decide) rfl)) (@hset _ "b" 1 _ (by decide) rfl))
    (@hset _ "a" 1 _ (by decide) rfl),
    @hset _ "e" 1 _ (by decide) rfl, rfl, fun h => ?_⟩
  have hle := h "a" (by decide) (by decide) (by decide) "b" (by decide) (by decide)
  revert hle
  decide

end Dated
end CacheBench
