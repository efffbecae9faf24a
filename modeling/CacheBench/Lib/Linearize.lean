/-
# Linearizable objects

Operations on a shared object are called and return, and between the two, at one
moment, each takes effect.  Of a history only the calls and returns are seen
(`Linearize.Event`).  It is linearizable when its operations can be put into one order
that a sequential run of the object allows and that never puts an operation after one
that was called only when the first had returned (`Linearize.Linearizes`).  The order stays
good when the operations are taken for those of another object that allows them so
(`Linearize.Linearizes.map`).

The atomic object does just that: it keeps, beside the state of the object, how far each
operation is (`Linearize.Atomic`).  The order in which operations take effect linearizes
every run of it (`Linearize.Atomic.linearizes`).  So a system is linearizable when the
atomic object simulates it (`Linearize.Atomic.run_of_simulation`).
-/

import Mathlib.Data.List.Sublists
import Mathlib.Data.List.Perm.Subperm
import Mathlib.Data.Sum.Basic
import Mathlib.Logic.Function.Basic
import CacheBench.Lib.Trace

namespace Linearize

variable {ι Op Res σ τ κ : Type*}

/-- What is seen of an operation. -/
inductive Event (ι Op Res : Type*)
  | call (i : ι) (op : Op)
  | ret (i : ι) (res : Res)

/-- The operation that is called, if it is a call. -/
def Event.called? : Event ι Op Res → Option ι
  | .call i _ => some i
  | .ret _ _ => none

/-- The operation that returns, if it is a return. -/
def Event.returned? : Event ι Op Res → Option ι
  | .call _ _ => none
  | .ret i _ => some i

/-- `x` stands in `l` somewhere before `y`. -/
def Before (l : List τ) (x y : τ) : Prop := [x, y].Sublist l

/-- The operations of `order`, with their results, one after the other: each once, each
called, and with its result if it returned; in real time, as far as the history tells; and
as the object allows.  No operation is called or returns twice. -/
structure Linearizes (step : σ → Op × Res → σ → Prop) (s : σ) (h : List (Event ι Op Res))
    (order : List (ι × Op × Res)) : Prop where
  calledOnce : (h.filterMap Event.called?).Nodup
  returnedOnce : (h.filterMap Event.returned?).Nodup
  nodup : (order.map Prod.fst).Nodup
  called : ∀ l ∈ order, .call l.1 l.2.1 ∈ h
  returned : ∀ i res, .ret i res ∈ h → ∃ op, (i, op, res) ∈ order
  realTime : ∀ i res j op, Before h (.ret i res) (.call j op) → j ∈ order.map Prod.fst →
    Before (order.map Prod.fst) i j
  legal : ∃ t, Trace.Run step s (order.map Prod.snd) t

/-! ### Positions in a list -/

/-- Nothing is before anything in no list. -/
theorem not_before_nil {x y : τ} : ¬Before [] x y := by
  rintro ⟨⟩

/-- What comes later changes no order. -/
theorem Before.append {l : List τ} {x y : τ} (h : Before l x y) (l' : List τ) :
    Before (l ++ l') x y :=
  h.trans (List.sublist_append_left l l')

/-- Everything is before what comes last. -/
theorem before_concat_iff {l : List τ} {x y z : τ} :
    Before (l ++ [z]) x y ↔ Before l x y ∨ x ∈ l ∧ y = z := by
  unfold Before
  constructor
  · intro h
    obtain ⟨l₁, l₂, heq, h₁, h₂⟩ := List.sublist_append_iff.1 h
    rcases l₁ with _ | ⟨a, _ | ⟨b, l₁⟩⟩
    · have hlen := h₂.length_le
      rw [← List.nil_append l₂, ← heq] at hlen
      simp at hlen
    · obtain ⟨rfl, rfl⟩ : a = x ∧ l₂ = [y] := by simpa [eq_comm] using heq
      exact Or.inr ⟨List.singleton_sublist.1 h₁, List.mem_singleton.1 (List.singleton_sublist.1 h₂)⟩
    · obtain ⟨rfl, rfl, rfl, -⟩ : x = a ∧ y = b ∧ l₁ = [] ∧ l₂ = [] := by simpa using heq
      exact Or.inl h₁
  · rintro (h | ⟨hx, rfl⟩)
    · exact h.trans (List.sublist_append_left l [z])
    · exact (List.singleton_sublist.2 hx).append (List.Sublist.refl [y])

/-- What is before something is in the list. -/
theorem Before.mem_left {l : List τ} {x y : τ} (h : Before l x y) : x ∈ l :=
  h.subset List.mem_cons_self

/-- What something is before is in the list. -/
theorem Before.mem_right {l : List τ} {x y : τ} (h : Before l x y) : y ∈ l :=
  h.subset (List.mem_cons_of_mem x List.mem_cons_self)

/-- Where no value occurs twice, one element has it. -/
theorem eq_of_nodup_filterMap {f : τ → Option κ} {l : List τ} {x y : τ} {a : κ}
    (hl : (l.filterMap f).Nodup) (hx : x ∈ l) (hy : y ∈ l) (hfx : f x = some a)
    (hfy : f y = some a) : x = y := by
  induction l with
  | nil => cases hx
  | cons z l ih =>
    have hrest : (l.filterMap f).Nodup := by
      cases hz : f z with
      | none => rwa [List.filterMap_cons_none hz] at hl
      | some b =>
        rw [List.filterMap_cons_some hz] at hl
        exact hl.of_cons
    have hfirst : ∀ {x}, x ∈ l → f x = some a → f z ≠ some a := by
      intro x hx hfx hz
      rw [List.filterMap_cons_some hz] at hl
      exact (List.nodup_cons.1 hl).1 (List.mem_filterMap.2 ⟨x, hx, hfx⟩)
    rcases List.mem_cons.1 hx with hxz | hx' <;> rcases List.mem_cons.1 hy with hyz | hy'
    · rw [hxz, hyz]
    · exact absurd (hxz ▸ hfx) (hfirst hy' hfy)
    · exact absurd (hyz ▸ hfy) (hfirst hx' hfx)
    · exact ih hrest hx' hy'

/-- Where nothing occurs twice, `x` is before `y` in one way only. -/
theorem before_split_iff {l l' : List τ} {x y : τ} (h : (l ++ x :: l').Nodup) :
    Before (l ++ x :: l') x y ↔ y ∈ l' := by
  rw [List.nodup_append, List.nodup_cons] at h
  obtain ⟨-, ⟨hx, -⟩, hdisjoint⟩ := h
  constructor
  · intro hbefore
    obtain ⟨l₁, l₂, heq, h₁, h₂⟩ := List.sublist_append_iff.1 hbefore
    rcases l₁ with _ | ⟨a, l₁⟩
    · obtain rfl : [x, y] = l₂ := heq
      rcases List.sublist_cons_iff.1 h₂ with h₂ | ⟨r, hr, h₂⟩
      · exact absurd (h₂.subset List.mem_cons_self) hx
      · obtain ⟨-, rfl⟩ := List.cons.inj hr
        exact List.singleton_sublist.1 h₂
    · obtain ⟨rfl, -⟩ := List.cons.inj heq
      exact absurd rfl (hdisjoint x (h₁.subset List.mem_cons_self) x List.mem_cons_self)
  · intro hy
    exact List.sublist_append_of_sublist_right ((List.singleton_sublist.2 hy).cons_cons x)

/-- Where nothing comes twice, of two one at most is before the other. -/
theorem Before.asymm {l : List τ} {x y : τ} (hl : l.Nodup) (h : Before l x y) :
    ¬Before l y x := by
  intro h'
  obtain ⟨a, b, rfl⟩ := List.append_of_mem h.mem_left
  obtain ⟨b₁, b₂, rfl⟩ := List.append_of_mem ((before_split_iff hl).1 h)
  rw [← List.cons_append, ← List.append_assoc] at hl h'
  have hx := (before_split_iff hl).1 h'
  rw [List.nodup_append] at hl
  exact hl.2.2 x (by simp) x (List.mem_cons_of_mem y hx) rfl

/-! ### Real time -/

section
variable {step : σ → Op × Res → σ → Prop} {s : σ} {h : List (Event ι Op Res)}
variable {pre mid post order : List (ι × Op × Res)} {i j k : ι} {op op' : Op} {res res' : Res}

/-- An operation is called with one argument. -/
theorem Linearizes.call_eq (hlin : Linearizes step s h order) (hcall : .call i op ∈ h)
    (hcall' : .call i op' ∈ h) : op = op' :=
  (Event.call.inj (eq_of_nodup_filterMap hlin.calledOnce hcall hcall' rfl rfl)).2

/-- An operation of the order was not called after one behind it had returned. -/
theorem Linearizes.not_before (hlin : Linearizes step s h order)
    (horder : order = pre ++ (j, op, res) :: mid ++ (i, op', res') :: post) :
    ¬Before h (.ret i res') (.call j op) := by
  intro hbefore
  have hids : order.map Prod.fst =
      (pre.map Prod.fst ++ j :: mid.map Prod.fst) ++ i :: post.map Prod.fst := by
    simp [horder]
  have hnodup := hlin.nodup
  have htime := hlin.realTime i res' j op hbefore (by rw [hids]; simp)
  rw [hids] at hnodup htime
  have hpost := (before_split_iff hnodup).1 htime
  rw [List.nodup_append] at hnodup
  exact hnodup.2.2 j (by simp) j (List.mem_cons_of_mem i hpost) rfl

/-- **An operation that was called after one of the order had returned, and returned before
another was called, stands between the two.** -/
theorem Linearizes.mem_between (hlin : Linearizes step s h order) {opj opi : Op} {resj resi : Res}
    (horder : order = pre ++ (j, opj, resj) :: mid ++ (i, opi, resi) :: post)
    (hleft : Before h (.ret j res') (.call k op)) (hright : Before h (.ret k res) (.call i opi)) :
    (k, op, res) ∈ mid := by
  obtain ⟨op', hmem⟩ := hlin.returned k res hright.mem_left
  obtain rfl := hlin.call_eq (hlin.called _ hmem) hleft.mem_right
  have hids : order.map Prod.fst =
      pre.map Prod.fst ++ j :: (mid.map Prod.fst ++ i :: post.map Prod.fst) := by
    simp [horder]
  have hids' : order.map Prod.fst =
      (pre.map Prod.fst ++ j :: mid.map Prod.fst) ++ i :: post.map Prod.fst := by
    simp [horder]
  have hk : k ∈ order.map Prod.fst := List.mem_map.2 ⟨_, hmem, rfl⟩
  have hafter := hlin.realTime j res' k op' hleft hk
  have hbefore := hlin.realTime k res i opi hright (by rw [hids]; simp)
  have hnodup := hlin.nodup
  have hmid : k ∈ mid.map Prod.fst := by
    rw [hids] at hnodup hafter
    rcases List.mem_append.1 ((before_split_iff hnodup).1 hafter) with hmid | hlast
    · exact hmid
    · have hnodup' := hlin.nodup
      rcases List.mem_cons.1 hlast with rfl | hpost
      · exact absurd hbefore (hbefore.asymm hnodup')
      · refine absurd hbefore (Before.asymm hnodup' ?_)
        rw [hids'] at hnodup' ⊢
        exact (before_split_iff hnodup').2 hpost
  obtain ⟨l, hl, hlk⟩ := List.mem_map.1 hmid
  obtain rfl := List.inj_on_of_nodup_map hlin.nodup (by simp [horder, hl]) hmem hlk
  exact hl

end

/-! ### Another reading of a history -/

section
variable {Op' Res' σ' : Type*} {step : σ → Op × Res → σ → Prop} {s : σ}
variable {step' : σ' → Op' × Res' → σ' → Prop} {s' : σ'} {h : List (Event ι Op Res)}
variable {order : List (ι × Op × Res)} {i j : ι}

/-- The operation number `i` is another one, and so is its result. -/
def Event.map (f : ι → Op → Op') (g : ι → Res → Res') : Event ι Op Res → Event ι Op' Res'
  | .call i op => .call i (f i op)
  | .ret i res => .ret i (g i res)

/-- An entry of an order, read so. -/
def reread (f : ι → Op → Op') (g : ι → Res → Res') (l : ι × Op × Res) : ι × Op' × Res' :=
  (l.1, f l.1 l.2.1, g l.1 l.2.2)

variable {f : ι → Op → Op'} {g : ι → Res → Res'}

/-- Another reading of a history has the same calls. -/
theorem called_map (f : ι → Op → Op') (g : ι → Res → Res') (h : List (Event ι Op Res)) :
    (h.map (Event.map f g)).filterMap Event.called? = h.filterMap Event.called? := by
  rw [List.filterMap_map]
  exact List.filterMap_congr fun e _ => by cases e <;> rfl

/-- Another reading of a history has the same returns. -/
theorem returned_map (f : ι → Op → Op') (g : ι → Res → Res') (h : List (Event ι Op Res)) :
    (h.map (Event.map f g)).filterMap Event.returned? = h.filterMap Event.returned? := by
  rw [List.filterMap_map]
  exact List.filterMap_congr fun e _ => by cases e <;> rfl

/-- Another reading of an order has the same operations in it. -/
theorem ids_map (f : ι → Op → Op') (g : ι → Res → Res') (order : List (ι × Op × Res)) :
    (order.map (reread f g)).map Prod.fst = order.map Prod.fst := by
  rw [List.map_map]
  rfl

/-- A return that is seen before a call was one before it was reread. -/
theorem Before.of_map {res' : Res'} {op' : Op'}
    (hbefore : Before (h.map (Event.map f g)) (.ret i res') (.call j op')) :
    ∃ res op, Before h (.ret i res) (.call j op) := by
  obtain ⟨l, hl, heq⟩ := List.sublist_map_iff.1 hbefore
  match l, heq with
  | [.ret i₁ res, .call j₁ op], heq =>
    obtain ⟨hret, hcall⟩ := List.cons.inj heq
    obtain ⟨rfl, -⟩ := Event.ret.inj hret
    obtain ⟨rfl, -⟩ := Event.call.inj (List.cons.inj hcall).1
    exact ⟨res, op, hl⟩

/-- **What linearizes a history linearizes it reread,** where another object allows the
operations in the same order. -/
theorem Linearizes.map (hlin : Linearizes step s h order)
    (hlegal : ∃ t, Trace.Run step' s' ((order.map (reread f g)).map Prod.snd) t) :
    Linearizes step' s' (h.map (Event.map f g)) (order.map (reread f g)) where
  calledOnce := called_map f g h ▸ hlin.calledOnce
  returnedOnce := returned_map f g h ▸ hlin.returnedOnce
  nodup := ids_map f g order ▸ hlin.nodup
  called := by
    intro l hl
    obtain ⟨l', hl', rfl⟩ := List.mem_map.1 hl
    exact List.mem_map.2 ⟨_, hlin.called l' hl', rfl⟩
  returned := by
    intro i res' hret
    obtain ⟨e, he, heq⟩ := List.mem_map.1 hret
    cases e with
    | call => cases heq
    | ret i₁ res =>
      obtain ⟨rfl, rfl⟩ := Event.ret.inj heq
      obtain ⟨op, hmem⟩ := hlin.returned i₁ res he
      exact ⟨_, List.mem_map.2 ⟨_, hmem, rfl⟩⟩
  realTime := by
    intro i res' j op' hbefore hj
    obtain ⟨res, op, hbefore⟩ := hbefore.of_map
    rw [ids_map] at hj ⊢
    exact hlin.realTime i res j op hbefore hj
  legal := hlegal

end

/-! ### The atomic object -/

/-- How far an operation is. -/
inductive Phase (Op Res : Type*)
  | fresh
  | called (op : Op)
  | done (op : Op) (res : Res)
  | returned

/-- The state of the object, and how far each operation is. -/
structure Atomic (ι Op Res σ : Type*) where
  object : σ
  phase : ι → Phase Op Res

/-- A label: an event, or an operation that takes effect. -/
abbrev Label (ι Op Res : Type*) := Event ι Op Res ⊕ ι × Op × Res

/-- The operation that a label is about. -/
def Label.about : Label ι Op Res → ι
  | .inl (.call i _) => i
  | .inl (.ret i _) => i
  | .inr (i, _) => i

/-- What is seen of some labels. -/
def seen (ls : List (Label ι Op Res)) : List (Event ι Op Res) := ls.filterMap Sum.getLeft?

/-- The operations that took effect, in that order. -/
def effects (ls : List (Label ι Op Res)) : List (ι × Op × Res) := ls.filterMap Sum.getRight?

/-- What is seen of a run: an event is, and an effect is not. -/
@[simp] theorem seen_event (ls : List (Label ι Op Res)) (e : Event ι Op Res) :
    seen (ls ++ [.inl e]) = seen ls ++ [e] := by
  simp [seen]

@[simp] theorem seen_effect (ls : List (Label ι Op Res)) (l : ι × Op × Res) :
    seen (ls ++ [.inr l]) = seen ls := by
  simp [seen]

/-- The effects of a run: an event is none, and an effect is one. -/
@[simp] theorem effects_event (ls : List (Label ι Op Res)) (e : Event ι Op Res) :
    effects (ls ++ [.inl e]) = effects ls := by
  simp [effects]

@[simp] theorem effects_effect (ls : List (Label ι Op Res)) (l : ι × Op × Res) :
    effects (ls ++ [.inr l]) = effects ls ++ [l] := by
  simp [effects]

namespace Atomic

/-- Nothing called yet. -/
def init (s : σ) : Atomic ι Op Res σ := ⟨s, fun _ => .fresh⟩

variable {step : σ → Op × Res → σ → Prop} {s : σ} {a b : Atomic ι Op Res σ}
variable {ls : List (Label ι Op Res)} {i : ι}

/-- What the phase of an operation says of the labels so far. -/
def Fits (ls : List (Label ι Op Res)) (i : ι) : Phase Op Res → Prop
  | .fresh => (∀ op, .call i op ∉ seen ls) ∧ i ∉ (effects ls).map Prod.fst
  | .called op => .call i op ∈ seen ls ∧ i ∉ (effects ls).map Prod.fst
  | .done op res => (i, op, res) ∈ effects ls ∧ ∀ res', .ret i res' ∉ seen ls
  | .returned => True

/-- What holds after every run: the order so far linearizes what was seen so far. -/
structure Sound (step : σ → Op × Res → σ → Prop) (s : σ) (ls : List (Label ι Op Res))
    (a : Atomic ι Op Res σ) : Prop where
  fits : ∀ i, Fits ls i (a.phase i)
  run : Trace.Run step s ((effects ls).map Prod.snd) a.object
  linearizes : Linearizes step s (seen ls) (effects ls)

/-- Where nothing has been seen all is sound. -/
theorem sound_init (step : σ → Op × Res → σ → Prop) (s : σ) :
    Sound step s ([] : List (Label ι Op Res)) (init s) where
  fits _ := ⟨fun _ => List.not_mem_nil, List.not_mem_nil⟩
  run := .nil
  linearizes := {
    calledOnce := List.nodup_nil
    returnedOnce := List.nodup_nil
    nodup := List.nodup_nil
    called := fun _ h => absurd h List.not_mem_nil
    returned := fun _ _ h => absurd h List.not_mem_nil
    realTime := fun _ _ _ _ h => absurd h not_before_nil
    legal := ⟨s, .nil⟩ }

/-- A label about another operation leaves what fits. -/
theorem Fits.of_ne {j : ι} {l : Label ι Op Res} {p : Phase Op Res} (h : Fits ls j p)
    (hl : l.about ≠ j) : Fits (ls ++ [l]) j p := by
  have hids : j ∉ (effects ls).map Prod.fst → j ∉ (effects (ls ++ [l])).map Prod.fst := by
    intro hj
    cases l with
    | inl e => rwa [effects_event]
    | inr l =>
      rw [effects_effect, List.map_append, List.mem_append, List.map_singleton,
        List.mem_singleton, not_or]
      exact ⟨hj, Ne.symm hl⟩
  have hmem : ∀ e, e ∈ seen ls → e ∈ seen (ls ++ [l]) := by
    intro e he
    rw [seen, List.filterMap_append]
    exact List.mem_append_left _ he
  cases p with
  | fresh =>
    refine ⟨fun op hcall => ?_, hids h.2⟩
    cases l with
    | inl e =>
      rw [seen_event, List.mem_append, List.mem_singleton] at hcall
      rcases hcall with hcall | rfl
      · exact h.1 op hcall
      · exact hl rfl
    | inr l => exact h.1 op (by rwa [seen_effect] at hcall)
  | called op => exact ⟨hmem _ h.1, hids h.2⟩
  | done op res =>
    refine ⟨?_, fun res' hret => ?_⟩
    · rw [effects, List.filterMap_append]
      exact List.mem_append_left _ h.1
    · cases l with
      | inl e =>
        rw [seen_event, List.mem_append, List.mem_singleton] at hret
        rcases hret with hret | rfl
        · exact h.2 res' hret
        · exact hl rfl
      | inr l => exact h.2 res' (by rwa [seen_effect] at hret)
  | returned => trivial

variable [DecidableEq ι]

/-- The operation `i` gets as far as `p`. -/
def advance (a : Atomic ι Op Res σ) (i : ι) (p : Phase Op Res) : Atomic ι Op Res σ :=
  { a with phase := Function.update a.phase i p }

/-- One step: a call, an effect or a return. -/
inductive Step (step : σ → Op × Res → σ → Prop) :
    Atomic ι Op Res σ → Label ι Op Res → Atomic ι Op Res σ → Prop
  | call {a : Atomic ι Op Res σ} {i : ι} {op : Op} :
      a.phase i = .fresh → Step step a (.inl (.call i op)) (a.advance i (.called op))
  | effect {a : Atomic ι Op Res σ} {i : ι} {op : Op} {res : Res} {t : σ} :
      a.phase i = .called op → step a.object (op, res) t →
      Step step a (.inr (i, op, res)) ({ a with object := t }.advance i (.done op res))
  | ret {a : Atomic ι Op Res σ} {i : ι} {op : Op} {res : Res} :
      a.phase i = .done op res → Step step a (.inl (.ret i res)) (a.advance i .returned)

/-- The operation that gets further is in its new phase. -/
@[simp] theorem advance_phase_self (p : Phase Op Res) : (a.advance i p).phase i = p :=
  Function.update_self (β := fun _ => Phase Op Res) i p a.phase

/-- The others are in the phase they were in. -/
theorem advance_phase_of_ne {j : ι} (h : j ≠ i) (p : Phase Op Res) :
    (a.advance i p).phase j = a.phase j :=
  Function.update_of_ne (β := fun _ => Phase Op Res) h p a.phase

/-- Only the operation that moved has to be looked at. -/
theorem Sound.fits_advance (h : Sound step s ls a) {l : Label ι Op Res} {p : Phase Op Res}
    (t : σ) (hself : Fits (ls ++ [l]) l.about p) (j : ι) :
    Fits (ls ++ [l]) j (({ a with object := t }.advance l.about p).phase j) := by
  by_cases hj : j = l.about
  · rw [hj, advance_phase_self]
    exact hself
  · rw [advance_phase_of_ne hj]
    exact (h.fits j).of_ne (Ne.symm hj)

/-- A call is seen last, and is that of no operation that took effect. -/
theorem Sound.call (h : Sound step s ls a) {op : Op} (hphase : a.phase i = .fresh) :
    Sound step s (ls ++ [.inl (.call i op)]) (a.advance i (.called op)) := by
  have hfits := h.fits i
  rw [hphase] at hfits
  have hself : Fits (ls ++ [.inl (.call i op)]) i (.called op : Phase Op Res) :=
    ⟨by simp, by simpa using hfits.2⟩
  refine ⟨h.fits_advance a.object hself, ?_, ?_⟩
  · rw [effects_event]
    exact h.run
  rw [seen_event, effects_event]
  refine ⟨?_, ?_, h.linearizes.nodup,
    fun l hl => List.mem_append_left _ (h.linearizes.called l hl), ?_, ?_, h.linearizes.legal⟩
  · rw [List.filterMap_append]
    refine List.concat_eq_append ▸ .concat (fun hmem => ?_) h.linearizes.calledOnce
    obtain ⟨e, he, heq⟩ := List.mem_filterMap.1 hmem
    cases e with
    | call j op' =>
      obtain rfl : j = i := Option.some.inj heq
      exact hfits.1 op' he
    | ret j res => cases heq
  · rw [List.filterMap_append]
    exact (List.append_nil _).symm ▸ h.linearizes.returnedOnce
  · intro j res hmem
    rcases List.mem_append.1 hmem with hmem | hmem
    · exact h.linearizes.returned j res hmem
    · cases List.mem_singleton.1 hmem
  · intro j res k op' hbefore hk
    rcases before_concat_iff.1 hbefore with hbefore | ⟨-, heq⟩
    · exact h.linearizes.realTime j res k op' hbefore hk
    · obtain ⟨rfl, rfl⟩ := Event.call.inj heq
      exact absurd hk hfits.2

/-- An effect comes last in the order, after all that returned. -/
theorem Sound.effect (h : Sound step s ls a) {op : Op} {res : Res} {t : σ}
    (hphase : a.phase i = .called op) (hstep : step a.object (op, res) t) :
    Sound step s (ls ++ [.inr (i, op, res)])
      ({ a with object := t }.advance i (.done op res)) := by
  have hfits := h.fits i
  rw [hphase] at hfits
  have hrun : Trace.Run step s ((effects (ls ++ [.inr (i, op, res)])).map Prod.snd) t := by
    rw [effects_effect, List.map_append]
    exact .snoc h.run hstep
  have hnone : ∀ res', .ret i res' ∉ seen ls := by
    intro res' hret
    obtain ⟨op', hop'⟩ := h.linearizes.returned i res' hret
    exact hfits.2 (List.mem_map.2 ⟨_, hop', rfl⟩)
  have hself : Fits (ls ++ [.inr (i, op, res)]) i (.done op res) :=
    ⟨by simp, by simpa using hnone⟩
  refine ⟨h.fits_advance t hself, hrun, ?_⟩
  have hlegal := hrun
  rw [effects_effect] at hlegal
  rw [seen_effect, effects_effect]
  refine ⟨h.linearizes.calledOnce, h.linearizes.returnedOnce, ?_, ?_, ?_, ?_, ⟨t, hlegal⟩⟩
  · rw [List.map_append]
    exact List.concat_eq_append ▸ h.linearizes.nodup.concat hfits.2
  · intro l hl
    rcases List.mem_append.1 hl with hl | hl
    · exact h.linearizes.called l hl
    · rw [List.mem_singleton.1 hl]
      exact hfits.1
  · intro j res' hmem
    obtain ⟨op', hop'⟩ := h.linearizes.returned j res' hmem
    exact ⟨op', List.mem_append_left _ hop'⟩
  · intro j res' k op' hbefore hk
    rw [List.map_append, List.map_singleton] at hk ⊢
    rcases List.mem_append.1 hk with hk | hk
    · exact (h.linearizes.realTime j res' k op' hbefore hk).append _
    · obtain ⟨op'', hop''⟩ := h.linearizes.returned j res'
        (hbefore.subset List.mem_cons_self)
      refine before_concat_iff.2 (Or.inr ⟨List.mem_map.2 ⟨_, hop'', rfl⟩, ?_⟩)
      exact List.mem_singleton.1 hk

/-- What returns has taken effect. -/
theorem Sound.ret (h : Sound step s ls a) {op : Op} {res : Res}
    (hphase : a.phase i = .done op res) :
    Sound step s (ls ++ [.inl (.ret i res)]) (a.advance i .returned) := by
  have hfits := h.fits i
  rw [hphase] at hfits
  refine ⟨h.fits_advance a.object trivial, ?_, ?_⟩
  · rw [effects_event]
    exact h.run
  rw [seen_event, effects_event]
  refine ⟨?_, ?_, h.linearizes.nodup,
    fun l hl => List.mem_append_left _ (h.linearizes.called l hl), ?_, ?_, h.linearizes.legal⟩
  · rw [List.filterMap_append]
    exact (List.append_nil _).symm ▸ h.linearizes.calledOnce
  · rw [List.filterMap_append]
    refine List.concat_eq_append ▸ .concat (fun hmem => ?_) h.linearizes.returnedOnce
    obtain ⟨e, he, heq⟩ := List.mem_filterMap.1 hmem
    cases e with
    | call j op' => cases heq
    | ret j res' =>
      obtain rfl : j = i := Option.some.inj heq
      exact hfits.2 res' he
  · intro j res' hmem
    rcases List.mem_append.1 hmem with hmem | hmem
    · exact h.linearizes.returned j res' hmem
    · obtain ⟨rfl, rfl⟩ := Event.ret.inj (List.mem_singleton.1 hmem)
      exact ⟨op, hfits.1⟩
  · intro j res' k op' hbefore hk
    rcases before_concat_iff.1 hbefore with hbefore | ⟨-, heq⟩
    · exact h.linearizes.realTime j res' k op' hbefore hk
    · cases heq

/-- **The order of the effects linearizes every run.** -/
theorem sound_of_run (h : Trace.Run (Step step) (init s) ls a) : Sound step s ls a := by
  induction h with
  | nil => exact sound_init step s
  | snoc _ hstep ih =>
    cases hstep with
    | call hphase => exact ih.call hphase
    | effect hphase hobject => exact ih.effect hphase hobject
    | ret hphase => exact ih.ret hphase

/-- **The order of the effects linearizes what is seen.** -/
theorem linearizes (h : Trace.Run (Step step) (init s) ls a) :
    Linearizes step s (seen ls) (effects ls) :=
  (sound_of_run h).linearizes

/-- An operation that is called, takes effect and returns at once. -/
theorem run_at_once {op : Op} {res : Res} {t : σ} (hfresh : a.phase i = .fresh)
    (hstep : step a.object (op, res) t) :
    ∃ b, Trace.Run (Step step) a [.inl (.call i op), .inr (i, op, res), .inl (.ret i res)] b ∧
      b.object = t ∧ ∀ j, j ≠ i → b.phase j = a.phase j := by
  have hcall : Trace.Run (Step step) a ([] ++ [.inl (.call i op)]) _ := .snoc .nil (.call hfresh)
  have heffect := hcall.snoc (.effect (advance_phase_self _) hstep)
  have hret := heffect.snoc (.ret (advance_phase_self _))
  refine ⟨_, hret, rfl, fun j hj => ?_⟩
  rw [advance_phase_of_ne hj, advance_phase_of_ne hj]
  exact advance_phase_of_ne hj _

/-- **A system is linearizable that the atomic object simulates:** when each of its steps is
some steps of the atomic object, so is each of its runs. -/
theorem run_of_simulation {sys : τ → κ → τ → Prop} {R : τ → Atomic ι Op Res σ → Prop}
    {labels : κ → List (Label ι Op Res)} {x y : τ} {ks : List κ}
    (hstep : ∀ x k y a, R x a → sys x k y → ∃ b, Trace.Run (Step step) a (labels k) b ∧ R y b)
    (hx : R x a) (h : Trace.Run sys x ks y) :
    ∃ b, Trace.Run (Step step) a (ks.flatMap labels) b ∧ R y b := by
  induction h with
  | nil => exact ⟨a, .nil, hx⟩
  | snoc _ hlast ih =>
    obtain ⟨b, hrun, hb⟩ := ih
    obtain ⟨b', hrun', hb'⟩ := hstep _ _ _ _ hb hlast
    refine ⟨b', ?_, hb'⟩
    rw [List.flatMap_append, List.flatMap_singleton]
    exact Trace.run_append_iff.2 ⟨b, hrun, hrun'⟩

end Atomic
end Linearize
