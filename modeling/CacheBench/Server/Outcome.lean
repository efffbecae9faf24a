/-
# What can come of a request

The outcomes of `handle_request`, one constructor for each way through it
(`Served`, `handles_iff_served`): what a request needs of the cache to be answered as it
is, and what it leaves.  So the outcome is the only one (`Handles.deterministic`), and two
caches that report the same, and go on doing so whatever is called, answer every request
alike (`Simulation.handles`).
-/

import CacheBench.Server.Handle

namespace CacheBench

section

variable {ε : Type} [Evictor ε] {B : Boost} {c c' d : Cache ε} {req : Request}
  {out : Except Thrown Response}

/-- The ways a request can go. -/
inductive Served (B : Boost) (c : Cache ε) : Request → Except Thrown Response → Cache ε → Prop
  | throws {req : Request} {e : Thrown} :
      req.method = .get ∨ req.method = .put ∨ req.method = .delete →
      substr1 req.target = .error e → Served B c req (.error e) c
  | getMissing {req : Request} {key : String} : req.method = .get → substr1 req.target = .ok key →
      (c.entry key).1 = none → Served B c req (.ok (notFound B req key)) (c.get key).2
  | getFound {req : Request} {key : String} {p : Block} {val : String} : req.method = .get →
      substr1 req.target = .ok key → (c.entry key).1 = some p →
      heldValue p (c.entry key).2 = some val →
      Served B c req (.ok (foundReply B req key val)) (c.get key).2
  | put {req : Request} {line : String} {r : Report} {c' : Cache ε} : req.method = .put →
      substr1 req.target = .ok line →
      (c.get (putPair line).1).2.SetReturns (putPair line).1 (cString (putPair line).2)
        (UInt32.ofNat ((putPair line).2.length + 1)) r c' →
      Served B c req (.ok (putReply B req (putPair line).1 (c.entry (putPair line).1).1.isNone)) c'
  | deleteMissing {req : Request} {key : String} : req.method = .delete →
      substr1 req.target = .ok key → c.dict.lookup key = none →
      Served B c req (.ok (notFound B req key)) c
  | deleteFound {req : Request} {key : String} : req.method = .delete →
      substr1 req.target = .ok key → c.dict.lookup key ≠ none →
      Served B c req (.ok (deletedReply B req)) (c.del key).2
  | head {req : Request} {res : Response} : req.method = .head →
      handleHead B c req = some (.ok res, c) → Served B c req (.ok res) c
  | postOther {req : Request} : req.method = .post → req.target ≠ "/reset" →
      Served B c req (.ok (notFound B req req.target)) c
  | postReset {req : Request} : req.method = .post → req.target = "/reset" →
      Served B c req (.ok (resetReply B)) c.reset
  | unknown {req : Request} : req.method = .other → Served B c req (.ok (badRequest B req)) c

/-- An outcome is one of the ways a request can go. -/
theorem Handles.served (h : Handles B c req out c') : Served B c req out c' := by
  obtain ⟨method, target, version, keepAlive⟩ := req
  have hthrows : ∀ {e}, method = .get ∨ method = .put ∨ method = .delete →
      substr1 target = .error e → out = .error e ∧ c' = c := by
    rintro e hmethod he
    obtain ⟨fuel, h⟩ := h
    rcases hmethod with rfl | rfl | rfl
    all_goals
      simp only [handleRequest, handleGet, handlePut, handleDelete, he, Option.some.injEq,
        Prod.mk.injEq] at h
      exact ⟨h.1.symm, h.2.symm⟩
  cases method with
  | get =>
    cases hkey : substr1 target with
    | error e =>
      obtain ⟨rfl, rfl⟩ := hthrows (Or.inl rfl) hkey
      exact .throws (Or.inl rfl) hkey
    | ok key =>
      obtain ⟨rfl, ⟨hnone, rfl⟩ | ⟨p, val, hp, hheld, rfl⟩⟩ := (handles_get_iff_of_substr1 hkey).1 h
      · exact .getMissing rfl hkey hnone
      · exact .getFound rfl hkey hp hheld
  | put =>
    cases hline : substr1 target with
    | error e =>
      obtain ⟨rfl, rfl⟩ := hthrows (Or.inr (Or.inl rfl)) hline
      exact .throws (Or.inr (Or.inl rfl)) hline
    | ok line =>
      obtain ⟨⟨r, hset⟩, rfl⟩ := (handles_put_iff_of_substr1 hline).1 h
      exact .put rfl hline hset
  | delete =>
    cases hkey : substr1 target with
    | error e =>
      obtain ⟨rfl, rfl⟩ := hthrows (Or.inr (Or.inr rfl)) hkey
      exact .throws (Or.inr (Or.inr rfl)) hkey
    | ok key =>
      obtain ⟨rfl, ⟨hfound, rfl⟩ | ⟨hfound, rfl⟩⟩ := (handles_delete_iff_of_substr1 hkey).1 h
      · rw [Cache.del_fst, Option.isSome_iff_ne_none] at hfound
        exact .deleteFound rfl hkey hfound
      · rw [Cache.del_fst, Option.isSome_eq_false_iff, Option.isNone_iff_eq_none] at hfound
        rw [Cache.del_of_lookup_eq_none _ _ hfound]
        exact .deleteMissing rfl hkey hfound
  | head =>
    obtain ⟨fuel, h⟩ := h
    obtain ⟨rfl, rfl⟩ := Prod.mk.inj (Option.some.inj h)
    exact .head rfl rfl
  | post =>
    obtain ⟨fuel, h⟩ := h
    by_cases htarget : target = "/reset"
    · have hpost := h
      simp only [handleRequest, handlePost, htarget] at hpost
      obtain ⟨rfl, rfl⟩ := Prod.mk.inj (Option.some.inj hpost)
      exact .postReset rfl htarget
    · have hpost := h
      simp only [handleRequest, handlePost, if_pos htarget] at hpost
      obtain ⟨rfl, rfl⟩ := Prod.mk.inj (Option.some.inj hpost)
      exact .postOther rfl htarget
  | other =>
    obtain ⟨fuel, h⟩ := h
    obtain ⟨rfl, rfl⟩ := Prod.mk.inj (Option.some.inj h)
    exact .unknown rfl

/-- A way that a request can go is an outcome. -/
theorem Served.handles (h : Served B c req out c') : Handles B c req out c' := by
  obtain ⟨method, target, version, keepAlive⟩ := req
  cases h with
  | throws hmethod he =>
    refine ⟨0, ?_⟩
    simp only at hmethod he
    rcases hmethod with rfl | rfl | rfl
    all_goals simp only [handleRequest, handleGet, handlePut, handleDelete, he]
  | getMissing hmethod hkey hnone =>
    obtain rfl : method = .get := hmethod
    exact (handles_get_iff_of_substr1 hkey).2 ⟨rfl, Or.inl ⟨hnone, rfl⟩⟩
  | getFound hmethod hkey hp hheld =>
    obtain rfl : method = .get := hmethod
    exact (handles_get_iff_of_substr1 hkey).2 ⟨rfl, Or.inr ⟨_, _, hp, hheld, rfl⟩⟩
  | put hmethod hline hset =>
    obtain rfl : method = .put := hmethod
    exact (handles_put_iff_of_substr1 hline).2 ⟨⟨_, hset⟩, rfl⟩
  | deleteMissing hmethod hkey hnone =>
    obtain rfl : method = .delete := hmethod
    refine (handles_delete_iff_of_substr1 hkey).2 ⟨?_, Or.inr ⟨?_, rfl⟩⟩
    · rw [Cache.del_of_lookup_eq_none _ _ hnone]
    · rw [Cache.del_fst, hnone]
      rfl
  | deleteFound hmethod hkey hsome =>
    obtain rfl : method = .delete := hmethod
    refine (handles_delete_iff_of_substr1 hkey).2 ⟨rfl, Or.inl ⟨?_, rfl⟩⟩
    rwa [Cache.del_fst, Option.isSome_iff_ne_none]
  | head hmethod hreply =>
    obtain rfl : method = .head := hmethod
    exact ⟨0, hreply⟩
  | postOther hmethod htarget =>
    obtain rfl : method = .post := hmethod
    exact ⟨0, by simp only [handleRequest, handlePost, if_pos htarget]⟩
  | postReset hmethod htarget =>
    obtain rfl : method = .post := hmethod
    obtain rfl : target = "/reset" := htarget
    exact ⟨0, rfl⟩
  | unknown hmethod =>
    obtain rfl : method = .other := hmethod
    exact ⟨0, rfl⟩

/-- **Every outcome is one of these.** -/
theorem handles_iff_served : Handles B c req out c' ↔ Served B c req out c' :=
  ⟨Handles.served, Served.handles⟩

/-- **A request has one outcome.** -/
theorem Handles.deterministic {out' : Except Thrown Response} (h : Handles B c req out c')
    (h' : Handles B c req out' d) : out = out' ∧ c' = d := by
  by_cases hmethod : req.method = .put
  · obtain ⟨method, target, version, keepAlive⟩ := req
    obtain rfl : method = .put := hmethod
    cases hline : substr1 target with
    | error e =>
      obtain ⟨fuel, h⟩ := h
      obtain ⟨fuel', h'⟩ := h'
      simp only [handleRequest, handlePut, hline] at h h'
      exact Prod.mk.inj (Option.some.inj (h.symm.trans h'))
    | ok line =>
      obtain ⟨⟨r, hset⟩, rfl⟩ := (handles_put_iff_of_substr1 hline).1 h
      obtain ⟨⟨r', hset'⟩, rfl⟩ := (handles_put_iff_of_substr1 hline).1 h'
      exact ⟨rfl, (hset.deterministic hset').2⟩
  · obtain ⟨fuel, h⟩ := h
    obtain ⟨fuel', h'⟩ := h'
    -- only a PUT has a loop to spend fuel on
    have hfuel : handleRequest B fuel c req = handleRequest B fuel' c req := by
      unfold handleRequest
      split
      · rfl
      · exact absurd ‹_› hmethod
      all_goals rfl
    exact Prod.mk.inj (Option.some.inj (h.symm.trans (hfuel.trans h')))

/-! ### When there is no outcome -/

/-- How a call of `handle_request` can fail to come back: an exception leaves it, it does not
return, or what it does is not defined. -/
inductive Failure
  | threw
  | hung
  | undefined
deriving DecidableEq, Repr

/-- `handle_request` does not return: in a PUT the eviction loop of `set` runs for ever. -/
def Hangs (c : Cache ε) (req : Request) : Prop :=
  req.method = .put ∧ ∃ line, substr1 req.target = .ok line ∧
    (c.get (putPair line).1).2.SetLoops (putPair line).1
      (UInt32.ofNat ((putPair line).2.length + 1))

/-- A call of `handle_request` fails so.  It is undefined when it has no outcome though its
loop ends, for then a copy has read or counted too far. -/
def Fails (B : Boost) (c : Cache ε) (req : Request) : Failure → Prop
  | .threw => ∃ e d, Handles B c req (.error e) d
  | .hung => Hangs c req
  | .undefined => (∀ out d, ¬Handles B c req out d) ∧ ¬Hangs c req

/-- A request whose loop runs for ever has no outcome. -/
theorem Hangs.not_handles (h : Hangs c req) : ¬Handles B c req out d := by
  obtain ⟨hput, line, hline, hloops⟩ := h
  intro hreq
  cases hreq.served with
  | throws _ he => cases hline.symm.trans he
  | put _ hline' hset =>
    obtain rfl := Except.ok.inj (hline'.symm.trans hline)
    exact hloops.not_setReturns hset
  | getMissing hm | getFound hm | deleteMissing hm | deleteFound hm | head hm | postOther hm
  | postReset hm | unknown hm => cases hm.symm.trans hput

/-! ### What a request can do to the cache -/

/-- **What any request can do to the cache:** nothing, or one call of `get`, `del` or
`reset`, or a get and a set of two strings out of its target, without a slash. -/
theorem Handles.cache_cases (h : Handles B c req out c') :
    c' = c ∨ (∃ key, c' = (c.get key).2) ∨ (∃ key, c' = (c.del key).2) ∨ c' = c.reset ∨
      ∃ key val r, (SlashFree key ∧ SlashFree val) ∧
        ((∀ b ∈ key.toList, b ∈ req.target.toList) ∧ ∀ b ∈ val.toList, b ∈ req.target.toList) ∧
        (c.get key).2.SetReturns key (cString val) (UInt32.ofNat (val.length + 1)) r c' := by
  cases h.served with
  | throws => exact Or.inl rfl
  | @getMissing key => exact Or.inr (Or.inl ⟨key, rfl⟩)
  | @getFound key => exact Or.inr (Or.inl ⟨key, rfl⟩)
  | @put line r _ hmethod hline hset =>
    obtain ⟨hkey, hval⟩ := putPair_subset line
    exact Or.inr (Or.inr (Or.inr (Or.inr ⟨_, _, r, putPair_slashFree line,
      ⟨fun b hb => substr1_subset hline b (hkey b hb),
        fun b hb => substr1_subset hline b (hval b hb)⟩, hset⟩)))
  | deleteMissing => exact Or.inl rfl
  | @deleteFound key => exact Or.inr (Or.inr (Or.inl ⟨key, rfl⟩))
  | head => exact Or.inl rfl
  | postOther => exact Or.inl rfl
  | postReset => exact Or.inr (Or.inr (Or.inr (Or.inl rfl)))
  | unknown => exact Or.inl rfl

end

/-! ### Caches that answer alike -/

/-- Caches so related report the same entries and the same space used, and calls keep them
so related, where a set is of a key without a slash. -/
structure Simulation {ε : Type} [Evictor ε] (R : Cache ε → Cache ε → Prop) : Prop where
  dict : ∀ {c d}, R c d → c.dict = d.dict
  size : ∀ {c d}, R c d → c.size = d.size
  get : ∀ {c d}, R c d → ∀ key, R (c.get key).2 (d.get key).2
  del : ∀ {c d}, R c d → ∀ key, R (c.del key).2 (d.del key).2
  reset : ∀ {c d}, R c d → R c.reset d.reset
  set : ∀ {c c' d key val size r}, R c d → SlashFree key → c.SetReturns key val size r c' →
    ∃ r' d', d.SetReturns key val size r' d' ∧ R c' d'

/-- **They answer every request alike.** -/
theorem Simulation.handles {ε : Type} [Evictor ε] {R : Cache ε → Cache ε → Prop} {B : Boost}
    {c c' d : Cache ε} {req : Request} {out : Except Thrown Response} (hR : Simulation R)
    (h : R c d) (hreq : Handles B c req out c') : ∃ d', Handles B d req out d' ∧ R c' d' := by
  have hentry : ∀ k, c.entry k = d.entry k := fun k => by rw [Cache.entry, hR.dict h]; rfl
  cases hreq.served with
  | throws hmethod he => exact ⟨d, (Served.throws hmethod he).handles, h⟩
  | getMissing hmethod hkey hnone =>
    rw [hentry] at hnone
    exact ⟨_, (Served.getMissing hmethod hkey hnone).handles, hR.get h _⟩
  | getFound hmethod hkey hp hheld =>
    rw [hentry] at hp hheld
    exact ⟨_, (Served.getFound hmethod hkey hp hheld).handles, hR.get h _⟩
  | @put line _ _ hmethod hline hset =>
    obtain ⟨r', d', hset', hd'⟩ := hR.set (hR.get h _) (putPair_slashFree line).1 hset
    rw [hentry]
    exact ⟨d', (Served.put hmethod hline hset').handles, hd'⟩
  | deleteMissing hmethod hkey hnone =>
    rw [hR.dict h] at hnone
    exact ⟨d, (Served.deleteMissing hmethod hkey hnone).handles, h⟩
  | deleteFound hmethod hkey hsome =>
    rw [hR.dict h] at hsome
    exact ⟨_, (Served.deleteFound hmethod hkey hsome).handles, hR.del h _⟩
  | head hmethod hreply =>
    refine ⟨d, (Served.head hmethod ?_).handles, h⟩
    unfold handleHead Cache.spaceUsed at hreply ⊢
    rw [← hR.size h]
    rw [Option.some.injEq, Prod.mk.injEq] at hreply ⊢
    exact ⟨hreply.1, rfl⟩
  | postOther hmethod htarget => exact ⟨d, (Served.postOther hmethod htarget).handles, h⟩
  | postReset hmethod htarget =>
    exact ⟨_, (Served.postReset hmethod htarget).handles, hR.reset h⟩
  | unknown hmethod => exact ⟨d, (Served.unknown hmethod).handles, h⟩

end CacheBench
