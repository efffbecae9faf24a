/-
# What is in the server's cache

Keys and values on the server come out of request targets, between slashes, and `set`
copies a value up to its `'\0'`.  So a run of requests leaves two kinds of entries only:
those without a value, of size 0, and those whose block is a string with its `'\0'` at the
end (`Cache.Holds`).  A GET relies on this without a test, and may: its `strncpy` stays in
the block, and what it puts into the reply is the whole string (`entries_wellFormed`).
-/

import CacheBench.Server.Serve
import CacheBench.Server.Outcome
import CacheBench.Store.Placeholder

namespace CacheBench

variable {B : Boost} {c c' : Cache FifoEvictor} {maxmem : SizeType} {P : ByteType → Prop}
variable {log : List (Request × Except Thrown Response)}

/-- Keys and values are strings of bytes that satisfy `P`, without a slash. -/
def Cache.Holds (P : ByteType → Prop) (c : Cache FifoEvictor) : Prop :=
  ∀ k p n, c.entry k = (some p, n) → SlashFree k ∧ (∀ b ∈ k.toList, P b) ∧
    ∃ s, SlashFree s ∧ (∀ b ∈ s.toList, P b) ∧ p = stored s ∧ n.toNat = s.length + 1

/-- Where entries stay or go what holds of them goes on holding. -/
theorem Cache.Holds.of_entry {d : Cache FifoEvictor} (h : c.Holds P)
    (hentry : ∀ k, d.entry k = c.entry k ∨ d.entry k = (none, 0)) : d.Holds P := by
  intro k p n hk
  rcases hentry k with heq | heq
  · exact h k p n (heq ▸ hk)
  · rw [heq] at hk
    cases hk

/-- A string without `nul` is a C string. -/
theorem isCString_of_forall (hP : ¬P nul) {s : String} (h : ∀ b ∈ s.toList, P b) : IsCString s :=
  fun hmem => hP (h nul hmem)

/-- **A request keeps it so,** when `P` holds of the bytes of its target. -/
theorem Handles.holds (hP : ¬P nul) {req : Request} {out : Except Thrown Response}
    (hc : c.Holds P) (hq : c.Queued) (htarget : ∀ b ∈ req.target.toList, P b)
    (h : Handles B c req out c') : c'.Holds P := by
  rcases h.cache_cases with rfl | ⟨k, rfl⟩ | ⟨k, rfl⟩ | rfl |
    ⟨k, v, r, ⟨hkfree, hvfree⟩, ⟨hkmem, hvmem⟩, hset⟩
  · exact hc
  · exact hc.of_entry fun j => Or.inl (Cache.get_snd_entry c k j)
  · refine hc.of_entry fun j => ?_
    rw [Cache.del_snd_entry]
    split_ifs
    · exact Or.inr rfl
    · exact Or.inl rfl
  · exact hc.of_entry fun j => Or.inr rfl
  · have hkP : ∀ b ∈ k.toList, P b := fun b hb => htarget b (hkmem b hb)
    have hvP : ∀ b ∈ v.toList, P b := fun b hb => htarget b (hvmem b hb)
    have hvnul := isCString_of_forall hP hvP
    have hsize := toNat_copied_size ((hq.get k).length_lt hvnul hset)
    intro j p n hj
    by_cases hjk : j = k
    · subst hjk
      rcases hset.entry_self with ⟨copied, hcopy, hentry⟩ | hentry
      · rw [hentry] at hj
        obtain ⟨hp, rfl⟩ := Prod.mk.inj hj
        refine ⟨hkfree, hkP, v, hvfree, hvP, ?_, hsize⟩
        rw [← Option.some.inj hp]
        exact copy_eq_stored hvnul hsize hcopy
      · rw [hentry] at hj
        cases hj
    · rcases hset.entry_of_ne hjk with hentry | hentry
      · rw [hentry, Cache.get_snd_entry] at hj
        exact hc j p n hj
      · rw [hentry] at hj
        cases hj

/-- **So does a run of requests.** -/
theorem Serves.holds (hP : ¬P nul) (h : Serves B (serverCache maxmem) log c)
    (hlog : ∀ l ∈ log, ∀ b ∈ l.1.target.toList, P b) : c.Holds P := by
  induction h with
  | nil =>
    intro k p n hk
    cases hk
  | @snoc log l m t hrun hstep ih =>
    have hpre : ∀ l ∈ log, ∀ b ∈ l.1.target.toList, P b := fun l hl =>
      hlog l (List.mem_append_left _ hl)
    obtain ⟨calls, hcalls, -⟩ := Serves.calls hrun fun l hl => isCString_of_forall hP (hpre l hl)
    exact hstep.holds hP (ih hpre) (Cache.Run.queued hcalls) (hlog l (by simp))

/-! ### What a GET relies on -/

/-- An entry with a value: `s` bytes, all written, of which the last is the one `'\0'`, and
no slash in them or in the key. -/
structure WellFormedEntry (k : KeyType) (p : Block) (s : SizeType) (bytes : List ByteType) :
    Prop where
  size : 1 ≤ s.toNat
  written : p = bytes.map some
  length : bytes.length = s.toNat
  last : bytes[s.toNat - 1]? = some nul
  first : ∀ i < s.toNat - 1, bytes[i]? ≠ some nul
  key : SlashFree k
  slashFree : '/' ∉ bytes

/-- A stored string without a slash is well formed. -/
theorem wellFormedEntry_stored {k s : String} {n : SizeType} (hk : SlashFree k)
    (hs : SlashFree s) (hnul : IsCString s) (hn : n.toNat = s.length + 1) :
    WellFormedEntry k (stored s) n (cString s) := by
  have hlen : s.toList.length = s.length := String.length_toList
  refine ⟨by omega, rfl, ?_, ?_, fun i hi => ?_, hk, ?_⟩
  · rw [cString, List.length_append, List.length_singleton, hlen, hn]
  · rw [hn, Nat.add_sub_cancel, ← hlen]
    exact List.getElem?_concat_length
  · rw [cString, List.getElem?_append_left (by omega)]
    exact fun hmem => hnul (List.mem_of_getElem? hmem)
  · rw [cString, List.mem_append, List.mem_singleton]
    rintro (hmem | hmem)
    · exact hs hmem
    · exact absurd hmem (by decide)

/-- The byte that a GET writes after its `strncpy` is the last of the copy. -/
theorem WellFormedEntry.sub_one_lt {k : KeyType} {p : Block} {s : SizeType}
    {bytes : List ByteType} (h : WellFormedEntry k p s bytes) : (s - 1).toNat < bytes.length := by
  have hsize := h.size
  have hone : (1 : SizeType) ≤ s := UInt32.le_iff_toNat_le.2 hsize
  have hsub : (s - 1).toNat = s.toNat - 1 := UInt32.toNat_sub_of_le _ _ hone
  rw [hsub, h.length]
  omega

/-- What a `strncpy` writes. -/
theorem strncpy_stored {s : String} (hs : IsCString s) {n : SizeType}
    (hn : n.toNat = s.length + 1) : strncpy (stored s) n.toNat = some (cString s) := by
  rw [hn, ← String.length_toList]
  exact strncpy_terminated hs

/-- **Entries are well formed, and a GET returns the whole string.**  After any run of
requests whose targets have no `'\0'` in them, each entry is without a value and of size 0,
or a block of as many written bytes as its size says, of which the last and only the last
is `'\0'`, with no slash in it or in its key.  Then `strncpy` fills the copy to its last byte
from within the block, the write to that byte is inside the copy, and every GET of the key
is answered with the whole string. -/
theorem entries_wellFormed (h : Serves B (serverCache maxmem) log c)
    (hnul : ∀ l ∈ log, IsCString l.1.target) {k : KeyType} {e : EntryType}
    (he : c.dict.lookup k = some e) :
    e = (none, 0) ∨ ∃ p s bytes str, e = (some p, s) ∧ WellFormedEntry k p s bytes ∧
      strncpy p s.toNat = some bytes ∧ (s - 1).toNat < bytes.length ∧
      bytes = cString str ∧ heldValue p s = some str ∧
      ∀ target version keepAlive out c', substr1 target = .ok k →
        (Handles B c ⟨.get, target, version, keepAlive⟩ out c' ↔
          out = .ok (foundReply B ⟨.get, target, version, keepAlive⟩ k str) ∧
            c' = (c.get k).2) := by
  obtain ⟨calls, hrun, -⟩ := h.calls hnul
  have hholds : c.Holds (· ≠ nul) := h.holds (fun hne => hne rfl) fun l hl b hb heq =>
    hnul l hl (heq ▸ hb)
  have hentry : c.entry k = e := by rw [Cache.entry, he]; rfl
  by_cases hlive : c.Live k
  · right
    obtain ⟨p, hp⟩ := Option.ne_none_iff_exists'.1 hlive
    have hpair : c.entry k = (some p, (c.entry k).2) := Prod.ext hp rfl
    obtain ⟨hk, -, str, hstr, hne, rfl, hsize⟩ := hholds k p _ hpair
    have hstrnul := isCString_of_forall (fun hne => hne rfl) hne
    have hheld := heldValue_stored hstrnul hsize
    have hwell := wellFormedEntry_stored hk hstr hstrnul hsize
    refine ⟨_, _, _, str, hentry.symm.trans hpair, hwell, strncpy_stored hstrnul hsize,
      hwell.sub_one_lt, rfl, hheld, fun target version keepAlive out c' htarget => ?_⟩
    rw [handles_get_iff_of_substr1 htarget]
    constructor
    · rintro ⟨rfl, ⟨hnone, -⟩ | ⟨q, val, hq, hval, rfl⟩⟩
      · exact absurd hnone hlive
      · obtain rfl := Option.some.inj (hp.symm.trans hq)
        obtain rfl := Option.some.inj (hheld.symm.trans hval)
        exact ⟨rfl, rfl⟩
    · rintro ⟨rfl, rfl⟩
      exact ⟨rfl, Or.inr ⟨_, str, hp, hheld, rfl⟩⟩
  · left
    rw [← hentry]
    exact Cache.Run.entry_eq_of_not_live hrun hlive

/-- A value, and a key that was asked for in vain. -/
theorem entries_wellFormed_run : ∃ log c, Serves plainBoost (serverCache 8) log c ∧
    c.dict.lookup "a" = some (some (stored "one"), 4) ∧
      heldValue (stored "one") 4 = some "one" := by
  obtain ⟨log, c, h, hnul, he⟩ : ∃ log c, Serves plainBoost (serverCache 8) log c ∧
      (∀ l ∈ log, IsCString l.1.target) ∧
        c.dict.lookup "a" = some (some (stored "one"), 4) := by
    refine ⟨[(⟨.get, keyTarget "b", 11, true⟩, _), (⟨.put, pairTarget "a" "one", 11, true⟩, _)], _,
      .snoc (.snoc .nil (handles_get_iff.2 ⟨rfl, Or.inl ⟨rfl, rfl⟩⟩))
        ((handles_put_iff (by decide) (by decide)).2 ⟨⟨_, 0, rfl⟩, rfl⟩), ?_, rfl⟩
    intro l hl
    simp only [List.mem_cons, List.not_mem_nil, or_false] at hl
    rcases hl with rfl | rfl <;> decide
  rcases entries_wellFormed h hnul he with hnone | ⟨p, s, _, str, hpair, -, -, -, -, hheld, -⟩
  · cases hnone
  · obtain ⟨hp, rfl⟩ := Prod.mk.inj hpair
    obtain rfl := Option.some.inj hp
    have hone : heldValue (stored "one") 4 = some "one" := heldValue_stored (by decide) rfl
    obtain rfl := Option.some.inj (hheld.symm.trans hone)
    exact ⟨log, c, h, he, hheld⟩

end CacheBench
