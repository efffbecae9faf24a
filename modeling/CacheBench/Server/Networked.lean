/-
# The networked cache and the local one

The networked client sends a PUT for `set`, a GET for `get`, a DELETE for `del` and a
POST for `reset`.  A `Pair` runs the same operations on two caches with the same limit,
one called directly and one behind `handle_request` (`Pair.Step`).  The networked cache
should then always have the contents of the local one (`Pair.Agree`).

A PUT is a get and a set, so it leaves two nodes in the queue where a local set leaves
one.  The two caches agree as long as both queues hold the live keys in the same order,
and for that every set must be in step (`Pair.InStep`); after one that is not, some set
can follow that evicts different keys (`Pair.agree_iff`).
-/

import CacheBench.Store.Aligned
import CacheBench.Server.Serve

namespace CacheBench

/-- What a client of either cache can ask for. -/
inductive Op
  | set (key val : String)
  | get (key : String)
  | del (key : String)
  | reset
deriving DecidableEq, Repr

namespace Op

/-- The call on a local cache. -/
def call : Op → Call
  | set key val => .set key (cString val) (UInt32.ofNat (val.length + 1))
  | get key => .get key
  | del key => .del key
  | reset => .reset

/-- The request to the server. -/
def request (version : ℕ) (keepAlive : Bool) : Op → Request
  | set key val => ⟨.put, pairTarget key val, version, keepAlive⟩
  | get key => ⟨.get, keyTarget key, version, keepAlive⟩
  | del key => ⟨.delete, keyTarget key, version, keepAlive⟩
  | reset => ⟨.post, "/reset", version, keepAlive⟩

/-- Keys and values have no slash, and values are C strings that fit. -/
def Fits (maxmem : SizeType) : Op → Prop
  | set key val => SlashFree key ∧ SlashFree val ∧ IsCString val ∧ val.length + 1 ≤ maxmem.toNat
  | get key => SlashFree key
  | del key => SlashFree key
  | reset => True

instance (maxmem : SizeType) : (op : Op) → Decidable (op.Fits maxmem)
  | set _ _ => inferInstanceAs (Decidable (_ ∧ _ ∧ _ ∧ _))
  | get key => inferInstanceAs (Decidable (SlashFree key))
  | del key => inferInstanceAs (Decidable (SlashFree key))
  | reset => inferInstanceAs (Decidable True)

end Op

/-- A local cache and the server's. -/
structure Pair where
  direct : Cache FifoEvictor
  networked : Cache FifoEvictor

namespace Pair

/-- Both new, with the same limit. -/
def new (maxmem : SizeType) : Pair :=
  ⟨Cache.new maxmem (some FifoEvictor.new), serverCache maxmem⟩

/-- One operation, called on the one and requested of the other. -/
inductive Step (B : Boost) : Pair → Op → Pair → Prop
  | op {p : Pair} {c' d' : Cache FifoEvictor} {op : Op} {reply : Reply} {version : ℕ}
      {keepAlive : Bool} {out : Except Thrown Response} :
      op.Fits p.direct.maxmem → Cache.Step p.direct (op.call, reply) c' →
      Handles B p.networked (op.request version keepAlive) out d' → Step B p op ⟨c', d'⟩

/-- A finite run of operations. -/
abbrev Run (B : Boost) : Pair → List Op → Pair → Prop := Trace.Run (Step B)

/-- The same keys are live with the same values, and the same memory is in use. -/
structure Agree (p : Pair) : Prop where
  get : ∀ k, (p.direct.get k).1 = (p.networked.get k).1
  spaceUsed : p.direct.spaceUsed = p.networked.spaceUsed

/-- The operation is no set, or a set in step: when both caches have made room, the
server's with the node that the get of the PUT pushed, the same of the live keys that
stay are ahead of the key. -/
def InStep (p : Pair) : Op → Prop
  | .set key val =>
    Cache.InStep p.direct (p.networked.get key).2 key (UInt32.ofNat (val.length + 1))
  | _ => True

/-- Both caches are sound, under the same limit, and a GET finds only C strings. -/
structure Sound (p : Pair) : Prop where
  direct : p.direct.Sound
  networked : p.networked.Sound
  maxmem : p.direct.maxmem = p.networked.maxmem
  stocked : p.networked.Stocked

variable {B : Boost} {p p' : Pair} {key val : String} {op : Op} {ops : List Op}
  {maxmem : SizeType}

/-! ### What a step does to the two caches -/

/-- A set that is made on both sides. -/
theorem Step.of_set (h : Step B p (.set key val) p') :
    (Op.set key val).Fits p.direct.maxmem ∧ ∃ r r',
      p.direct.SetReturns key (cString val) (UInt32.ofNat (val.length + 1)) r p'.direct ∧
      (p.networked.get key).2.SetReturns key (cString val) (UInt32.ofNat (val.length + 1)) r'
        p'.networked := by
  obtain ⟨hfits, hstep, hhandles⟩ := h
  obtain ⟨⟨r', hset'⟩, -⟩ := (handles_put_iff hfits.1 hfits.2.1).1 hhandles
  cases hstep with
  | set hset => exact ⟨hfits, _, r', hset, hset'⟩

/-- A set that comes back on both sides is a step. -/
theorem step_set {c' d' : Cache FifoEvictor} {r r' : Report}
    (hfits : (Op.set key val).Fits p.direct.maxmem)
    (hc : p.direct.SetReturns key (cString val) (UInt32.ofNat (val.length + 1)) r c')
    (hd : (p.networked.get key).2.SetReturns key (cString val) (UInt32.ofNat (val.length + 1)) r'
      d') : Step B p (.set key val) ⟨c', d'⟩ :=
  @Step.op _ _ _ _ _ _ 11 true _ hfits (.set hc)
    ((handles_put_iff hfits.1 hfits.2.1).2 ⟨⟨r', hd⟩, rfl⟩)

/-- A get that is made on both sides. -/
theorem Step.of_get (h : Step B p (.get key) p') :
    p' = ⟨(p.direct.get key).2, (p.networked.get key).2⟩ := by
  obtain ⟨-, hstep, hhandles⟩ := h
  obtain ⟨rfl, -⟩ := handles_get_iff.1 hhandles
  cases hstep
  rfl

/-- A deletion that is made on both sides. -/
theorem Step.of_del (h : Step B p (.del key) p') :
    p' = ⟨(p.direct.del key).2, (p.networked.del key).2⟩ := by
  obtain ⟨-, hstep, hhandles⟩ := h
  obtain ⟨rfl, -⟩ := handles_delete_iff.1 hhandles
  cases hstep
  rfl

/-- A deletion of a key that fits is a step. -/
theorem step_del (hfits : (Op.del key).Fits p.direct.maxmem) :
    Step B p (.del key) ⟨(p.direct.del key).2, (p.networked.del key).2⟩ := by
  rcases hfound : (p.networked.del key).1 with _ | _
  · exact @Step.op _ _ _ _ _ _ 11 true _ hfits (.del _ key)
      (handles_delete_iff.2 ⟨rfl, Or.inr ⟨hfound, rfl⟩⟩)
  · exact @Step.op _ _ _ _ _ _ 11 true _ hfits (.del _ key)
      (handles_delete_iff.2 ⟨rfl, Or.inl ⟨hfound, rfl⟩⟩)

/-- A reset that is made on both sides. -/
theorem Step.of_reset (h : Step B p .reset p') :
    p' = ⟨p.direct.reset, p.networked.reset⟩ := by
  obtain ⟨-, hstep, hhandles⟩ := h
  obtain ⟨rfl, -⟩ := handles_reset_iff.1 hhandles
  cases hstep
  rfl

/-- An operation leaves one pair of caches. -/
theorem Step.unique {p₁ p₂ : Pair} (h₁ : Step B p op p₁) (h₂ : Step B p op p₂) : p₁ = p₂ := by
  cases op with
  | set key val =>
    obtain ⟨-, r₁, r₁', hc₁, hd₁⟩ := h₁.of_set
    obtain ⟨-, r₂, r₂', hc₂, hd₂⟩ := h₂.of_set
    obtain ⟨c₁, d₁⟩ := p₁
    obtain ⟨c₂, d₂⟩ := p₂
    obtain ⟨-, rfl⟩ := hc₁.deterministic hc₂
    obtain ⟨-, rfl⟩ := hd₁.deterministic hd₂
    rfl
  | get key => rw [h₁.of_get, h₂.of_get]
  | del key => rw [h₁.of_del, h₂.of_del]
  | reset => rw [h₁.of_reset, h₂.of_reset]

/-- The size that goes with a value that fits. -/
theorem size_of_fits (hfits : (Op.set key val).Fits maxmem) :
    (UInt32.ofNat (val.length + 1)).toNat = val.length + 1 ∧
      UInt32.ofNat (val.length + 1) ≠ 0 ∧ UInt32.ofNat (val.length + 1) ≤ maxmem := by
  have hsize := toNat_put_size hfits.2.2.2
  refine ⟨hsize, fun hzero => ?_, ?_⟩
  · rw [hzero, UInt32.toNat_zero] at hsize
    omega
  · rw [UInt32.le_iff_toNat_le, hsize]
    exact hfits.2.2.2

/-- The sets that fit are of C strings. -/
theorem setsCString_of_fits (hfits : (Op.set key val).Fits maxmem) (reply : Reply) :
    Cache.SetsCString ((Op.set key val).call, reply) := by
  intro key' val' size' reply' heq
  simp only [Op.call, Prod.mk.injEq, Call.set.injEq] at heq
  obtain ⟨⟨-, rfl, rfl⟩, -⟩ := heq
  exact ⟨val, hfits.2.2.1, rfl, (size_of_fits hfits).1⟩

/-- What is no set stores nothing. -/
theorem stocked_step {c c' : Cache FifoEvictor} {call : Call} {reply : Reply} (h : c.Stocked)
    (hstep : Cache.Step c (call, reply) c') (hcall : ∀ key val size, call ≠ .set key val size) :
    c'.Stocked :=
  h.step (fun key val size _ heq => absurd (Prod.mk.inj heq).1 (hcall key val size)) hstep

/-- **Every operation keeps the invariant.** -/
theorem Sound.step (h : p.Sound) (hstep : Step B p op p') : p'.Sound := by
  cases op with
  | set key val =>
    obtain ⟨hfits, r, r', hc, hd⟩ := hstep.of_set
    obtain ⟨-, hpos, hle⟩ := size_of_fits hfits
    refine ⟨h.direct.set hpos hle hc, (h.networked.get key).set hpos ?_ hd, ?_, ?_⟩
    · rwa [Cache.get_snd_maxmem, ← h.maxmem]
    · rw [Cache.Step.maxmem (.set hc), Cache.Step.maxmem (.set hd), Cache.get_snd_maxmem, h.maxmem]
    · exact (stocked_step h.stocked (.get _ key) (by simp)).step
        (setsCString_of_fits hfits (.set r')) (.set hd)
  | get key =>
    obtain rfl := hstep.of_get
    exact ⟨h.direct.get key, h.networked.get key, h.maxmem,
      stocked_step h.stocked (.get _ key) (by simp)⟩
  | del key =>
    obtain rfl := hstep.of_del
    refine ⟨h.direct.del key, h.networked.del key, ?_,
      stocked_step h.stocked (.del _ key) (by simp)⟩
    rw [Cache.del_snd_maxmem, Cache.del_snd_maxmem, h.maxmem]
  | reset =>
    obtain rfl := hstep.of_reset
    exact ⟨h.direct.reset, h.networked.reset, h.maxmem, stocked_step h.stocked (.reset _) (by simp)⟩

/-- No run changes the limit. -/
theorem Run.maxmem_eq (h : Run B (new maxmem) ops p) : p.direct.maxmem = maxmem := by
  refine Trace.Run.invariant (P := fun p => p.direct.maxmem = maxmem) h
    (fun p _ p' hstep hp => ?_) rfl
  obtain ⟨-, hc, -⟩ := hstep
  exact hc.maxmem.trans hp

/-- **The invariant holds after every run.** -/
theorem Run.sound (hmax : 2 * maxmem.toNat < 2 ^ 32) (h : Run B (new maxmem) ops p) : p.Sound := by
  refine Trace.Run.invariant h (fun _ _ _ hstep hp => hp.step hstep)
    ⟨Cache.sound_new hmax, Cache.sound_new hmax, rfl, ?_⟩
  exact Cache.Run.stocked .nil fun _ hl => absurd hl List.not_mem_nil

/-- **Every operation that fits completes on both.** -/
theorem Sound.exists_step (h : p.Sound) (B : Boost) (hop : op.Fits p.direct.maxmem) :
    ∃ p', Step B p op p' := by
  have hstep : ∀ {reply c' out d'}, Cache.Step p.direct (op.call, reply) c' →
      Handles B p.networked (op.request 11 true) out d' → ∃ p', Step B p op p' :=
    fun hc hd => ⟨_, .op hop hc hd⟩
  cases op with
  | set key val =>
    obtain ⟨hsize, -, hle⟩ := size_of_fits hop
    have hlimit := h.direct.limit
    have hfit : val.length + 1 ≤ p.direct.maxmem.toNat := hop.2.2.2
    have hlt : val.length < 2 ^ 31 := by omega
    have hg := h.networked.get key
    obtain ⟨n, -, hc⟩ :=
      h.direct.queued.exists_set h.direct.exact.tallied hop.2.2.1 hsize hle hlt key
    obtain ⟨m, -, hd⟩ := hg.queued.exists_set hg.exact.tallied hop.2.2.1 hsize
      (by rwa [Cache.get_snd_maxmem, ← h.maxmem]) hlt key
    exact ⟨_, step_set hop hc hd⟩
  | get key =>
    obtain ⟨reply, d, hd⟩ := h.stocked.exists_get B key 11 true
    exact hstep (.get _ key) hd
  | del key => exact ⟨_, step_del hop⟩
  | reset => exact hstep (.reset _) (handles_reset_iff.2 ⟨rfl, rfl⟩)

/-! ### Agreement -/

/-- Caches with the same entries agree. -/
theorem Sound.agree (h : p.Sound) (hentry : ∀ k, p.direct.entry k = p.networked.entry k) :
    p.Agree :=
  ⟨fun k => by rw [Cache.get_fst, Cache.get_fst, hentry k],
    Cache.size_eq_of_entry_eq hentry h.direct.exact h.networked.exact⟩

/-- **Every operation in step keeps the two caches aligned.** -/
theorem Sound.aligned_step (h : p.Sound) (ha : Cache.Aligned p.direct p.networked)
    (hturn : p.InStep op) (hstep : Step B p op p') : Cache.Aligned p'.direct p'.networked := by
  cases op with
  | set key val =>
    obtain ⟨hfits, r, r', hc, hd⟩ := hstep.of_set
    exact (ha.get_right h.networked.queued key).set h.direct (h.networked.get key) h.maxmem
      (size_of_fits hfits).2.2 hturn hc hd
  | get key =>
    obtain rfl := hstep.of_get
    exact ha.get h.direct.queued h.networked.queued key
  | del key =>
    obtain rfl := hstep.of_del
    exact ha.del key
  | reset =>
    obtain rfl := hstep.of_reset
    exact Cache.aligned_reset _ _

/-- **Whatever comes next leaves aligned caches in agreement,** in step or not. -/
theorem Sound.agree_step (h : p.Sound) (ha : Cache.Aligned p.direct p.networked)
    (hstep : Step B p op p') : p'.Agree := by
  refine (h.step hstep).agree ?_
  cases op with
  | set key val =>
    obtain ⟨hfits, r, r', hc, hd⟩ := hstep.of_set
    exact (ha.get_right h.networked.queued key).set_entry h.direct (h.networked.get key) h.maxmem
      (size_of_fits hfits).2.2 hc hd
  | _ => exact (h.aligned_step ha (by trivial) hstep).entry

/-- A value of plain letters for every size that fits. -/
theorem exists_value {size : SizeType} {z : String} (hz : SlashFree z) (hpos : size ≠ 0)
    (hle : size ≤ maxmem) :
    ∃ v : String, UInt32.ofNat (v.length + 1) = size ∧ (Op.set z v).Fits maxmem := by
  have hsize : 0 < size.toNat := Nat.pos_of_ne_zero fun h => hpos (UInt32.toNat_inj.1 h)
  rw [UInt32.le_iff_toNat_le] at hle
  have hlen : (letters (size.toNat - 1)).length + 1 = size.toNat := by
    rw [letters_length]
    omega
  exact ⟨_, by rw [hlen, UInt32.ofNat_toNat], hz, letters_slashFree _, letters_isCString _,
    by omega⟩

/-- Every operation that fits completes next, and leaves the two in agreement. -/
def AgreesNext (B : Boost) (p : Pair) : Prop :=
  ∀ op, op.Fits p.direct.maxmem → ∃ p', Step B p op p' ∧ p'.Agree

/-- Caches that agree after the next operation have the same entries. -/
theorem AgreesNext.entry_eq (hnext : p.AgreesNext B) (k : String) :
    p.direct.entry k = p.networked.entry k := by
  obtain ⟨p', hstep, hagree⟩ := hnext (.get "") (by decide : SlashFree "")
  obtain rfl := hstep.of_get
  have hget := hagree.get k
  rwa [Cache.get_fst, Cache.get_fst, Cache.get_snd_entry, Cache.get_snd_entry] at hget

/-- A set of a new key takes just the room of `x` and of what is ahead of it.  The local
cache keeps `y` then, so the server's must not have `y` ahead of `x`. -/
theorem AgreesNext.ahead (hnext : p.AgreesNext B) (h : p.Sound) {x y : String}
    (hx : p.direct.Live x) (hy : p.direct.Live y) (hxy : p.direct.queue.Ahead x y) :
    p.networked.queue.Ahead x y := by
  have hlive : ∀ {k}, p.direct.Live k → k ∈ p.networked.queue := by
    intro k hk
    refine h.networked.queued.mem_queue ?_
    unfold Cache.Live
    rwa [← hnext.entry_eq k]
  have hne : x ≠ y := fun heq => lt_irrefl _ (heq ▸ hxy)
  refine (List.ahead_or_ahead (hlive hx) hne).resolve_right fun hyx => ?_
  obtain ⟨z, hz, hzmem, l, hl⟩ := Cache.exists_fresh p.direct [x, y]
  have hxz : x ≠ z := fun heq => hzmem (by simp [heq])
  have hyz : y ≠ z := fun heq => hzmem (by simp [heq])
  obtain ⟨size, hpos, hle, hfree⟩ := h.direct.exists_evicting_set hx hz
  obtain ⟨v, hv, hfits⟩ := exists_value (hl ▸ letters_slashFree l) hpos hle
  obtain ⟨p', hstep, hagree⟩ := hnext (.set z v) hfits
  obtain ⟨-, r, r', hc, hd⟩ := hstep.of_set
  rw [hv] at hc hd
  have hg := h.networked.queued.get z
  obtain ⟨n, copied, hn, -, -, hc'⟩ := h.direct.queued.setReturns_iff.1 hc
  obtain ⟨m, copied', hm, -, -, hd'⟩ := hg.setReturns_iff.1 hd
  obtain rfl := hfree.unique hn
  have hkeeps : ∀ k, k ≠ z →
      (if k ∈ p.direct.queue.take (p.direct.queue.idxOf x + 1) then (none, 0)
        else p.direct.entry k : EntryType).1 =
      (if k ∈ (p.networked.get z).2.queue.take m then (none, 0)
        else p.direct.entry k : EntryType).1 := by
    intro k hk
    have hget := hagree.get k
    rw [Cache.get_fst, Cache.get_fst, hc', hd', h.direct.queued.setReturns_entry hn,
      hg.setReturns_entry hm, if_neg hk, if_neg hk, Cache.get_snd_entry, ← hnext.entry_eq k] at hget
    rw [hget]
  have hxtake : x ∈ (p.networked.get z).2.queue.take m := by
    by_contra hnot
    have hx' := hkeeps x hxz
    rw [if_pos (List.mem_take_succ_idxOf (h.direct.queued.mem_queue hx)), if_neg hnot] at hx'
    exact hx hx'.symm
  have hqueue : (p.networked.get z).2.queue = p.networked.queue ++ [z] :=
    Cache.queue_touch h.networked.queued.isSome z
  have hytake : y ∈ (p.networked.get z).2.queue.take m := by
    refine List.Ahead.mem_take ?_ hxtake
    rw [hqueue]
    exact (List.ahead_append_of_mem (hlive hy) (hlive hx)).2 hyx
  have hy' := hkeeps y hyz
  rw [if_neg hxy.notMem_take, if_pos hytake] at hy'
  exact hy hy'

/-- **Misalignment shows:** when the two caches agree after whatever comes next, their
queues are in the same order. -/
theorem AgreesNext.aligned (hnext : p.AgreesNext B) (h : p.Sound) :
    Cache.Aligned p.direct p.networked := by
  refine ⟨hnext.entry_eq, fun x y hx hy => ⟨hnext.ahead h hx hy, fun hxy => ?_⟩⟩
  have hne : x ≠ y := fun heq => lt_irrefl _ (heq ▸ hxy)
  exact (List.ahead_or_ahead (h.direct.queued.mem_queue hx) hne).resolve_right fun hyx =>
    (hnext.ahead h hy hx hyx).asymm hxy

/-- **When the networked cache refines the local one.**  Along a run of operations, every
operation that could come next completes on both caches and leaves them in agreement, if
and only if every set of the run is in step. -/
theorem agree_iff (B : Boost) (hmax : 2 * maxmem.toNat < 2 ^ 32) (h : Run B (new maxmem) ops p) :
    (∀ pre post p₁, ops = pre ++ post → Run B (new maxmem) pre p₁ →
        ∀ op, op.Fits maxmem → ∃ p₂, Step B p₁ op p₂ ∧ p₂.Agree) ↔
      ∀ pre op post p₁, ops = pre ++ op :: post → Run B (new maxmem) pre p₁ → p₁.InStep op := by
  constructor
  · intro hagree pre op post p₁ hops hp₁
    subst hops
    obtain ⟨p₂, hstep, hp₂⟩ := Trace.Run.exists_step h hp₁ fun _ _ _ _ => Step.unique
    have hs₁ := Run.sound hmax hp₁
    have hnext : p₂.AgreesNext B := fun op hop =>
      hagree _ _ p₂ (List.append_cons ..) hp₂ op (by rwa [Run.maxmem_eq hp₂] at hop)
    have ha₂ := hnext.aligned (Run.sound hmax hp₂)
    cases op with
    | set key val =>
      obtain ⟨-, r, r', hc, hd⟩ := hstep.of_set
      exact ha₂.inStep hs₁.direct.queued (hs₁.networked.queued.get key) hc hd
    | get key => trivial
    | del key => trivial
    | reset => trivial
  · intro hturn pre post p₁ hops hp₁ op hop
    subst hops
    have hs₁ := Run.sound hmax hp₁
    obtain ⟨p₂, hstep⟩ := hs₁.exists_step B (by rwa [Run.maxmem_eq hp₁])
    refine ⟨p₂, hstep, hs₁.agree_step ?_ hstep⟩
    refine Trace.Run.invariant_along (P := fun p => Cache.Aligned p.direct p.networked) hp₁
      (fun pre₀ op₀ post₀ m m' hpre hm hstep ha => ?_) (Cache.Aligned.refl _)
    exact (Run.sound hmax hm).aligned_step ha
      (hturn pre₀ op₀ (post₀ ++ post) m (by simp [hpre]) hm) hstep

/-- A run with a set that evicts and a key that comes back. -/
theorem agree_iff_run : ∃ ops p, Run plainBoost (new 4) ops p ∧
    ((∀ pre post p₁, ops = pre ++ post → Run plainBoost (new 4) pre p₁ →
        ∀ op, op.Fits 4 → ∃ p₂, Step plainBoost p₁ op p₂ ∧ p₂.Agree) ↔
      ∀ pre op post p₁, ops = pre ++ op :: post → Run plainBoost (new 4) pre p₁ →
        p₁.InStep op) := by
  obtain ⟨ops, p, h⟩ : ∃ ops p, Run plainBoost (new 4) ops p :=
    ⟨[.set "a" "1", .set "b" "22", .set "a" "1"], _,
      .snoc (.snoc (.snoc .nil (step_set (by decide) ⟨9, rfl⟩ ⟨9, rfl⟩))
        (step_set (by decide) ⟨9, rfl⟩ ⟨9, rfl⟩)) (step_set (by decide) ⟨9, rfl⟩ ⟨9, rfl⟩)⟩
  exact ⟨ops, p, h, agree_iff plainBoost (by decide) h⟩

/-- **The get of a PUT changes who is evicted later:** the local cache ends with `a` and
`d`, the server's with `c` and `d`. -/
theorem networked_evicts_another :
    2 * (4 : SizeType).toNat < 2 ^ 32 ∧ ∃ ops p, Run plainBoost (new 4) ops p ∧
      (p.direct.get "a").1.1 = some (stored "1") ∧ (p.networked.get "a").1.1 = none ∧
      ¬p.Agree := by
  obtain ⟨ops, p, h, ha, ha'⟩ : ∃ ops p, Run plainBoost (new 4) ops p ∧
      (p.direct.get "a").1.1 = some (stored "1") ∧ (p.networked.get "a").1.1 = none :=
    ⟨[.set "a" "1", .set "b" "1", .set "c" "1", .del "b", .set "a" "1", .set "d" "1"], _,
      .snoc (.snoc (.snoc (.snoc (.snoc (.snoc .nil
        (step_set (by decide) ⟨9, rfl⟩ ⟨9, rfl⟩)) (step_set (by decide) ⟨9, rfl⟩ ⟨9, rfl⟩))
        (step_set (by decide) ⟨9, rfl⟩ ⟨9, rfl⟩)) (step_del (by decide)))
        (step_set (by decide) ⟨9, rfl⟩ ⟨9, rfl⟩)) (step_set (by decide) ⟨9, rfl⟩ ⟨9, rfl⟩),
      rfl, rfl⟩
  refine ⟨by decide, ops, p, h, ha, ha', fun hagree => ?_⟩
  have hget := congrArg Prod.fst (hagree.get "a")
  rw [ha, ha'] at hget
  cases hget

end Pair
end CacheBench
