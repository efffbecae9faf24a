/-
# Runs of completed calls

A client of `class Cache` calls `set`, `get`, `del` and `reset` in any order.
`Cache.Step` is one completed call with its reply, `Cache.Run` a finite run of
them.  A reply of `set` carries the report of what the call did inside, which the
client does not see; `Reply.seen` is what it does see.

`Cache.Step.deterministic` and `Cache.Run.deterministic`: a log leads to one state
only.
-/

import CacheBench.Lib.Trace
import CacheBench.Store.Basic

namespace CacheBench

/-- The calls a client can make. -/
inductive Call
  | set (key : KeyType) (val : List ByteType) (size : SizeType)
  | get (key : KeyType)
  | del (key : KeyType)
  | reset
deriving DecidableEq, Repr

/-- What comes of a call: for `set` the report, for `get` the pointer and the
size, for `del` the answer. -/
inductive Reply
  | set (report : Report)
  | get (entry : EntryType)
  | del (found : Bool)
  | reset
deriving DecidableEq, Repr

/-- A reply as the caller sees it: `set` and `reset` return nothing. -/
inductive Seen
  | nothing
  | entry (entry : EntryType)
  | found (found : Bool)
deriving DecidableEq, Repr

/-- What the caller sees of a reply. -/
def Reply.seen : Reply → Seen
  | .set _ => .nothing
  | .get e => .entry e
  | .del b => .found b
  | .reset => .nothing

namespace Cache

variable {ε : Type} [Evictor ε]

/-- One completed call. -/
inductive Step : Cache ε → Call × Reply → Cache ε → Prop
  | set {c c' : Cache ε} {key : KeyType} {val : List ByteType} {size : SizeType} {r : Report} :
      c.SetReturns key val size r c' → Step c (.set key val size, .set r) c'
  | get (c : Cache ε) (key : KeyType) : Step c (.get key, .get (c.get key).1) (c.get key).2
  | del (c : Cache ε) (key : KeyType) : Step c (.del key, .del (c.del key).1) (c.del key).2
  | reset (c : Cache ε) : Step c (.reset, .reset) c.reset

/-- One call, executed with the given fuel for the eviction loop. -/
def exec (fuel : ℕ) (c : Cache ε) : Call → Option (Reply × Cache ε)
  | .set key val size => (c.set fuel key val size).map fun p => (.set p.1, p.2)
  | .get key => some (.get (c.get key).1, (c.get key).2)
  | .del key => some (.del (c.del key).1, (c.del key).2)
  | .reset => some (.reset, c.reset)

/-- A call completes when some fuel is enough for it. -/
theorem step_iff_exec {c c' : Cache ε} {call : Call} {reply : Reply} :
    Step c (call, reply) c' ↔ ∃ fuel, c.exec fuel call = some (reply, c') := by
  constructor
  · intro h
    cases h with
    | set h =>
      obtain ⟨fuel, hset⟩ := h
      exact ⟨fuel, by simp [exec, hset]⟩
    | get => exact ⟨0, rfl⟩
    | del => exact ⟨0, rfl⟩
    | reset => exact ⟨0, rfl⟩
  · rintro ⟨fuel, h⟩
    cases call with
    | set key val size =>
      obtain ⟨⟨r, d⟩, hset, heq⟩ := Option.map_eq_some_iff.1 h
      obtain ⟨rfl, rfl⟩ := Prod.mk.inj heq
      exact .set ⟨fuel, hset⟩
    | get key =>
      obtain ⟨rfl, rfl⟩ := Prod.mk.inj (Option.some.inj h)
      exact .get c key
    | del key =>
      obtain ⟨rfl, rfl⟩ := Prod.mk.inj (Option.some.inj h)
      exact .del c key
    | reset =>
      obtain ⟨rfl, rfl⟩ := Prod.mk.inj (Option.some.inj h)
      exact .reset c

/-- A finite run of completed calls. -/
abbrev Run : Cache ε → List (Call × Reply) → Cache ε → Prop := Trace.Run Step

/-- A list of calls, each executed with the given fuel: the log and the state. -/
def play (fuel : ℕ) : Cache ε → List Call → Option (List (Call × Reply) × Cache ε)
  | c, [] => some ([], c)
  | c, call :: calls =>
    (c.exec fuel call).bind fun p =>
      (play fuel p.2 calls).map fun q => ((call, p.1) :: q.1, q.2)

/-- What is executed is a run. -/
theorem run_of_play {fuel : ℕ} {c c' : Cache ε} {calls : List Call} {log : List (Call × Reply)}
    (h : c.play fuel calls = some (log, c')) : Run c log c' := by
  induction calls generalizing c log with
  | nil =>
    obtain ⟨rfl, rfl⟩ := Prod.mk.inj (Option.some.inj h)
    exact .nil
  | cons call calls ih =>
    obtain ⟨⟨reply, d⟩, hexec, hrest⟩ := Option.bind_eq_some_iff.1 h
    obtain ⟨⟨log', d'⟩, hplay, heq⟩ := Option.map_eq_some_iff.1 hrest
    obtain ⟨rfl, rfl⟩ := Prod.mk.inj heq
    exact Trace.run_cons_iff.2 ⟨d, step_iff_exec.2 ⟨fuel, hexec⟩, ih hplay⟩

/-- **A set has one outcome.** -/
theorem SetReturns.deterministic {c c₁ c₂ : Cache ε} {key : KeyType} {val : List ByteType}
    {size : SizeType} {r₁ r₂ : Report} (h₁ : c.SetReturns key val size r₁ c₁)
    (h₂ : c.SetReturns key val size r₂ c₂) : r₁ = r₂ ∧ c₁ = c₂ := by
  have hloop : ∀ {n}, (c.del key).2.exceeds size = true → c.evictor = none →
      ¬While.Exits (tooFull size) evictOne ⟨[], (c.del key).2⟩ n := by
    intro n hexceeds hev hn
    have hfix := Function.iterate_fixed
      (evictOne_of_none ⟨[], (c.del key).2⟩ (by simpa using hev)) n
    have hstop := hn.stop
    rw [hfix] at hstop
    exact Bool.false_ne_true (hstop.symm.trans hexceeds)
  rcases setReturns_iff.1 h₁ with ⟨hexceeds, hev, rfl, rfl⟩ | ⟨n, copied, hn, hcopy, rfl, rfl⟩ <;>
    rcases setReturns_iff.1 h₂ with ⟨hexceeds', hev', rfl, rfl⟩ | ⟨m, copied', hm, hcopy', rfl, rfl⟩
  · exact ⟨rfl, rfl⟩
  · exact absurd hm (hloop hexceeds hev)
  · exact absurd hn (hloop hexceeds' hev')
  · obtain rfl := hn.unique hm
    obtain rfl := Option.some.inj (hcopy.symm.trans hcopy')
    exact ⟨rfl, rfl⟩

/-- A call leads to one state, whatever it replies. -/
theorem Step.next_unique {c c₁ c₂ : Cache ε} {call : Call} {reply₁ reply₂ : Reply}
    (h₁ : Step c (call, reply₁) c₁) (h₂ : Step c (call, reply₂) c₂) : c₁ = c₂ := by
  cases h₁ with
  | set h₁ =>
    cases h₂ with
    | set h₂ => exact (h₁.deterministic h₂).2
  | get => cases h₂; rfl
  | del => cases h₂; rfl
  | reset => cases h₂; rfl

/-- A call and its reply leave one cache. -/
theorem Step.deterministic {c c₁ c₂ : Cache ε} {l : Call × Reply} (h₁ : Step c l c₁)
    (h₂ : Step c l c₂) : c₁ = c₂ :=
  h₁.next_unique h₂

/-- **A log leads to one state.** -/
theorem Run.deterministic {c c₁ c₂ : Cache ε} {log : List (Call × Reply)} (h₁ : Run c log c₁)
    (h₂ : Run c log c₂) : c₁ = c₂ :=
  Trace.Run.unique h₁ h₂ fun _ _ _ _ => Step.deterministic

/-- The limit never changes. -/
theorem Step.maxmem {c c' : Cache ε} {l : Call × Reply} (h : Step c l c') :
    c'.maxmem = c.maxmem := by
  cases h with
  | set h =>
    rcases setReturns_iff.1 h with ⟨-, -, -, rfl⟩ | ⟨n, copied, -, -, -, rfl⟩
    · simp
    · simp
  | get => rfl
  | del => simp
  | reset => rfl

/-- No run changes the limit. -/
theorem Run.maxmem {c c' : Cache ε} {log : List (Call × Reply)} (h : Run c log c') :
    c'.maxmem = c.maxmem :=
  Trace.Run.invariant (P := fun d => d.maxmem = c.maxmem) h
    (fun _ _ _ hstep hd => hstep.maxmem.trans hd) rfl

/-- The cache has its evictor from the start or never. -/
theorem Step.evictor_eq_none {c c' : Cache ε} {l : Call × Reply}
    (h : Step c l c') : c'.evictor = none ↔ c.evictor = none := by
  have hevictions : ∀ (c : Cache ε) n, (evictions n c).cache.evictor = none ↔ c.evictor = none := by
    intro c n
    induction n with
    | zero => rfl
    | succ n ih =>
      rw [evictions_succ, ← ih]
      cases hev : (evictions n c).cache.evictor with
      | none => rw [evictOne_of_none _ hev, hev]
      | some e => simp [(evictOne_of_some _ hev).2.2.2]
  cases h with
  | set h =>
    rcases setReturns_iff.1 h with ⟨-, -, -, rfl⟩ | ⟨n, copied, -, -, -, rfl⟩
    · rw [del_snd_evictor]
    · rw [insertCopy_evictor, Option.map_eq_none_iff, hevictions, del_snd_evictor]
  | get => rw [get_snd_evictor, Option.map_eq_none_iff]
  | del => rw [del_snd_evictor]
  | reset => rfl

/-- No run gives a cache an evictor or takes it away. -/
theorem Run.evictor_eq_none {c c' : Cache ε} {log : List (Call × Reply)} (h : Run c log c') :
    c'.evictor = none ↔ c.evictor = none :=
  Trace.Run.invariant (P := fun d => d.evictor = none ↔ c.evictor = none) h
    (fun _ _ _ hstep hd => hstep.evictor_eq_none.trans hd) Iff.rfl

end Cache
end CacheBench
