/-
# The space used, as the client sees it

`Cache::space_used` of `cache/cache_client.cc`: a HEAD request, and `std::stoi` of the
`Space-Used` field in the reply.  The server prints a `uint32_t`, and `std::stoi` reads an
`int`, so the value comes back exactly as long as it is below `2^31` (`spaceUsed_returns_iff`).
Above that the client throws, and a server can get there, with nothing but small requests
(`exists_serves_puts`).
-/

import CacheBench.Lib.Decimal
import CacheBench.Server.Put
import CacheBench.Client.Client

namespace CacheBench

/-- `res[field]`: the first value of the field, empty if there is none. -/
def Response.value (res : Response) (field : Field) : String := (res.fields.lookup field).getD ""

namespace Client

/-- What `space_used` makes of a response: an `int`, returned as a `size_type`. -/
def used (res : Response) : Except Decimal.StoiError SizeType :=
  (Decimal.stoi (res.value .spaceUsed)).map UInt32.ofInt

/-- `Cache::space_used` of the client, on a server with the cache `c`. -/
def SpaceUsed {ε : Type} [Evictor ε] (B : Boost) (c : Cache ε)
    (result : Except Decimal.StoiError SizeType) (c' : Cache ε) : Prop :=
  ∃ out, Handles B c (prepReq .head "/") out c' ∧ result = used (sendTcp out)

/-! ### The round trip -/

/-- A value that comes back as an `int` is the one that was printed. -/
theorem ofInt_toNat (u : SizeType) : UInt32.ofInt (u.toNat : ℤ) = u := by
  have hlt := u.toNat_lt
  have hmod : ((u.toNat : ℤ) % 2 ^ 32).toNat = u.toNat := by omega
  unfold UInt32.ofInt
  rw [hmod]
  exact UInt32.ofNat_toNat

section

variable {ε : Type} [Evictor ε] {B : Boost} {c c' : Cache ε}

/-- **What the client finds in the reply to a HEAD.** -/
theorem handles_head_iff {target : String} {version : ℕ} {keepAlive : Bool}
    {out : Except Thrown Response} :
    Handles B c ⟨.head, target, version, keepAlive⟩ out c' ↔ c' = c ∧
      handleHead B c ⟨.head, target, version, keepAlive⟩ = some (out, c) := by
  have hhandle : ∀ fuel, handleRequest B fuel c ⟨.head, target, version, keepAlive⟩ =
      handleHead B c ⟨.head, target, version, keepAlive⟩ := fun _ => rfl
  unfold Handles
  simp only [hhandle, handleHead, Option.some.injEq, Prod.mk.injEq, exists_const]
  constructor
  · rintro ⟨hout, rfl⟩
    exact ⟨rfl, hout, trivial⟩
  · rintro ⟨rfl, hout, -⟩
    exact ⟨hout, rfl⟩

omit [Evictor ε] in
/-- The reply to a HEAD says what the counter is. -/
theorem value_handleHead {req : Request} {out : Except Thrown Response}
    (h : handleHead B c req = some (out, c)) :
    (sendTcp out).value .spaceUsed = toString c.spaceUsed.toNat := by
  obtain rfl := (Prod.mk.inj (Option.some.inj h)).1
  rfl

/-- The client's result is a matter of the value alone. -/
theorem spaceUsed_iff {result : Except Decimal.StoiError SizeType} :
    SpaceUsed B c result c' ↔ c' = c ∧
      result = if c.spaceUsed.toNat < 2 ^ 31 then .ok c.spaceUsed else .error .outOfRange := by
  have hused : ∀ out, handleHead B c (prepReq .head "/") = some (out, c) →
      used (sendTcp out) =
        if c.spaceUsed.toNat < 2 ^ 31 then .ok c.spaceUsed else .error .outOfRange := by
    intro out hout
    unfold used
    rw [value_handleHead hout, Decimal.stoi_toString]
    split_ifs
    · exact congrArg Except.ok (ofInt_toNat _)
    · rfl
  unfold SpaceUsed
  constructor
  · rintro ⟨out, hhandles, rfl⟩
    obtain ⟨rfl, hout⟩ := handles_head_iff.1 hhandles
    exact ⟨rfl, hused out hout⟩
  · rintro ⟨rfl, rfl⟩
    exact ⟨_, handles_head_iff.2 ⟨rfl, rfl⟩, (hused _ rfl).symm⟩

/-- **The space used comes back exactly below `2^31`.**  For every cache, and so for every
value that `space_used()` of the server can return: the client's `space_used()` returns that
value, and nothing else can come of it, if and only if the value is below `2^31`. -/
theorem spaceUsed_returns_iff (B : Boost) (c : Cache ε) :
    (SpaceUsed B c (.ok c.spaceUsed) c ∧
      ∀ result c', SpaceUsed B c result c' → result = .ok c.spaceUsed) ↔
    c.spaceUsed.toNat < 2 ^ 31 := by
  constructor
  · rintro ⟨h, -⟩
    have hresult := (spaceUsed_iff.1 h).2
    by_contra hge
    rw [if_neg hge] at hresult
    cases hresult
  · intro hlt
    refine ⟨spaceUsed_iff.2 ⟨rfl, (if_pos hlt).symm⟩, fun result c' h => ?_⟩
    rw [(spaceUsed_iff.1 h).2, if_pos hlt]

end

/-! ### A server with more than the client can read -/

open Cache

/-- After `n` PUTs of different keys, with values that take 1024 bytes each, on a cache that
has room for them all. -/
structure Filled (c : Cache FifoEvictor) (n : ℕ) : Prop where
  queued : c.Queued
  maxmem : c.maxmem = 4294967295
  size : c.size.toNat = 1024 * n
  keys : ∀ k, c.dict.lookup k ≠ none → ∃ i < n, k = toString i

/-- A number has no slash. -/
theorem slashFree_toString (n : ℕ) : SlashFree (toString n) := by
  unfold SlashFree
  rw [Nat.toString_eq_repr, Nat.toList_repr]
  exact fun hmem => absurd (Decimal.isDigit_of_mem_toDigits hmem) (by decide)

/-- Different numbers are written differently. -/
theorem toString_injective {m n : ℕ} (h : toString m = toString n) : m = n := by
  rw [Nat.toString_eq_repr, Nat.toString_eq_repr] at h
  have hlist := congrArg String.toList h
  rw [Nat.toList_repr, Nat.toList_repr] at hlist
  simpa using congrArg (Nat.ofDigitChars 10 · 0) hlist

/-- **One PUT more,** where there is room for it. -/
theorem Filled.put {c : Cache FifoEvictor} {n : ℕ} (h : Filled c n) (B : Boost)
    (hroom : 1024 * (n + 1) < 2 ^ 32) {v : String} (hv : v.length = 1023) (hslash : SlashFree v)
    (hnul : IsCString v) : ∃ out c',
      Handles B c ⟨.put, pairTarget (toString n) v, 11, true⟩ out c' ∧ Filled c' (n + 1) := by
  have hnew : c.dict.lookup (toString n) = none := by
    by_contra hold
    obtain ⟨i, hi, heq⟩ := h.keys _ hold
    have := toString_injective heq
    omega
  have hentry : c.entry (toString n) = (none, 0) := by
    rw [entry, hnew]
    rfl
  have hsize : (UInt32.ofNat (v.length + 1)).toNat = v.length + 1 :=
    toNat_copied_size (by omega)
  have hq : (c.get (toString n)).2.Queued := h.queued.get _
  have hdel : ((c.get (toString n)).2.del (toString n)).2.size.toNat = 1024 * n := by
    rw [del_snd_size, get_snd_entry, hentry, get_snd_size, ← h.size]
    simp
  have hmax : (c.get (toString n)).2.maxmem.toNat = 4294967295 := by
    rw [get_snd_maxmem, h.maxmem]
    rfl
  obtain ⟨c', hset, hlookup, hsize'⟩ := hq.exists_set_of_room hnul hsize (by omega)
    (by rw [hdel, hsize, hmax]; omega)
  refine ⟨_, c', (handles_put_iff (slashFree_toString n) hslash).2 ⟨⟨_, hset⟩, rfl⟩,
    hq.step (.set hset), ?_, by rw [hsize', hdel, hsize, hv]; omega, fun k hk => ?_⟩
  · exact (Step.maxmem (.set hset)).trans ((get_snd_maxmem c _).trans h.maxmem)
  · rw [hlookup] at hk
    split_ifs at hk with hkey
    · exact ⟨n, Nat.lt_succ_self n, hkey⟩
    · rw [get_snd_dict, subscript_snd_lookup, if_neg fun hand => hkey hand.1] at hk
      obtain ⟨i, hi, heq⟩ := h.keys k hk
      exact ⟨i, by omega, heq⟩

/-- **Small requests fill a server,** up to any number of bytes that it can count. -/
theorem exists_serves_puts (B : Boost) (n : ℕ) (hn : 1024 * n < 2 ^ 32) :
    ∃ log c, Serves B (serverCache 4294967295) log c ∧ Filled c n := by
  induction n with
  | zero =>
    exact ⟨[], _, .nil, queued_new _ _, rfl, rfl, fun k hk => absurd (Finmap.lookup_empty k) hk⟩
  | succ n ih =>
    obtain ⟨log, c, hserves, hfilled⟩ := ih (by omega)
    obtain ⟨out, c', hput, hfilled'⟩ := hfilled.put B hn (letters_length 1023)
      (letters_slashFree 1023) (letters_isCString 1023)
    exact ⟨log ++ [(⟨.put, pairTarget (toString n) (letters 1023), 11, true⟩, out)], c',
      .snoc hserves hput, hfilled'⟩

/-- **After 2097152 PUTs of a kilobyte each the client throws.** -/
theorem spaceUsed_throws : ∃ log c, Serves plainBoost (serverCache 4294967295) log c ∧
    c.spaceUsed.toNat = 2 ^ 31 ∧ SpaceUsed plainBoost c (.error .outOfRange) c ∧
    ¬SpaceUsed plainBoost c (.ok c.spaceUsed) c := by
  obtain ⟨log, c, hserves, hfilled⟩ := exists_serves_puts plainBoost 2097152 (by omega)
  have hsize : c.spaceUsed.toNat = 2 ^ 31 := hfilled.size
  refine ⟨log, c, hserves, hsize, spaceUsed_iff.2 ⟨rfl, (if_neg (by omega)).symm⟩, fun h => ?_⟩
  have hresult := (spaceUsed_iff.1 h).2
  rw [if_neg (by omega)] at hresult
  cases hresult

end Client
end CacheBench
