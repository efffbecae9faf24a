/-
# The benchmark over the wire

`driver_test.cc` gives the driver a networked cache: it warms it, asks for the space used,
and measures.  The keys that the generator builds and the values of `'B'`s have nothing in
them that a request target may not have, and no slash, so the benchmark is a workload over
the wire (`CacheBench.Client.Workload`), and ends as it does on a local cache
(`benchmark_runs_networked`): the `warm` test of `driver_test.cc` finds the server full but
for 5001 bytes, or with everything on it that was set.
-/

import CacheBench.Bench.Warm
import CacheBench.Client.Workload

namespace CacheBench
namespace Bench

variable {g : Generator} {log10 : ℕ → ℕ} {i n : ℕ} {keySize : ℤ}

/-- **Nothing in a key of the generator** is kept out of a target, or is a slash. -/
theorem targetChar_of_mem_paddedKey {b : ByteType} (hb : b ∈ (paddedKey log10 i keySize).toList) :
    TargetChar b ∧ b ≠ '/' := by
  rw [toList_paddedKey] at hb
  simp only [List.mem_append] at hb
  rcases hb with hb | hb | hb
  · have htarget : IsTarget "key_" := by decide
    have hslash : SlashFree "key_" := by decide
    exact ⟨htarget b hb, fun heq => hslash (heq ▸ hb)⟩
  · have hdigit := Decimal.isDigit_of_mem_zeros_toDigits (List.mem_append.2 hb)
    rw [Char.isDigit, Bool.and_eq_true, decide_eq_true_iff, decide_eq_true_iff,
      ge_iff_le, UInt32.le_iff_toNat_le, UInt32.le_iff_toNat_le] at hdigit
    have hlo : 48 ≤ b.toNat := hdigit.1
    have hhi : b.toNat ≤ 57 := hdigit.2
    refine ⟨⟨by omega, by omega⟩, fun hslash => ?_⟩
    rw [hslash] at hlo
    exact absurd hlo (by decide)
  · rw [List.eq_of_mem_replicate hb]
    decide

/-- A key of the generator may stand in a target. -/
theorem isTarget_paddedKey : IsTarget (paddedKey log10 i keySize) :=
  fun _ hb => (targetChar_of_mem_paddedKey hb).1

/-- A key of the generator has no slash. -/
theorem slashFree_paddedKey : SlashFree (paddedKey log10 i keySize) :=
  fun hb => (targetChar_of_mem_paddedKey hb).2 rfl

/-- A value of the generator may stand in a target. -/
theorem isTarget_bytes (n : ℕ) : IsTarget (bytes n) := fun b hb => by
  rw [eq_of_mem_bytes hb]
  decide

/-- A value of the generator has no slash. -/
theorem slashFree_bytes (n : ℕ) : SlashFree (bytes n) :=
  fun hb => absurd (eq_of_mem_bytes hb) (by decide)

/-- So gets and sets of tuples can go over the wire. -/
theorem Asks.wires (hkeys : ∀ e ∈ g.data, ∃ i keySize, e.1 = paddedKey log10 i keySize)
    {call : Call} (h : Asks g.data call) : Client.Wires (ownValue g.data) call := by
  obtain ⟨e, he, rfl | rfl⟩ := h
  · obtain ⟨i, keySize, hkey⟩ := hkeys e he
    rw [hkey]
    exact isTarget_paddedKey
  · obtain ⟨i, keySize, hkey⟩ := hkeys e he
    unfold setOf
    rw [hkey]
    exact ⟨slashFree_paddedKey, isTarget_paddedKey, slashFree_bytes _, isTarget_bytes _⟩

variable {B : Boost} {readJson : String → Option Tree} {maxmem : SizeType}

/-- **The benchmark over the wire.**  For every generator that the constructor builds and all
draws within their distributions, on a new server whose limit is 5001 bytes or more and an
`int`: `warm` makes as many sets as it was asked for and `baseline_latencies` comes to its
end, every operation of the two returns and no get throws, every get returns the null
pointer or as many bytes as the generator has for its key, and `space_used()` of the client
then returns the sum of the values of all keys that were set, or where that is above the
limit a number within 5001 bytes of it. -/
theorem benchmark_runs_networked (hjson : Client.Faithful B readJson)
    (hg : g.Constructed) (hfull : 5001 ≤ maxmem.toNat) (hmax : maxmem.toNat < 2 ^ 31)
    (passes : ℕ) (n : ℤ) (draws : ℕ → Draws) (ws : List Draws) (clock : ℕ → ℚ)
    (hdraws : ∀ k, g.Allows (draws k)) (hws : ∀ w ∈ ws, g.Allows w) (hpasses : n.toNat < passes) :
    ∃ sets asked, benchmark g.data.length passes clock g n draws ws = some (sets ++ asked) ∧
      sets.length = n.toNat ∧ (∀ call ∈ sets, ∃ e ∈ g.data, call = setOf e) ∧
      ∃ log c, Client.Run B readJson (serverCache maxmem) log c ∧
        log.map Prod.fst = sets ++ asked ∧
        (∀ key seen, (.get key, seen) ∈ log → seen = .got (.ok none) ∨ ∃ valSize prob,
          (key, valSize, prob) ∈ g.data ∧
            seen = .got (.ok (some (bytes valSize, UInt32.ofNat (valSize + 1))))) ∧
        let sum := ∑ k ∈ Cache.setKeys (sets ++ asked), ((ownValue g.data k).length + 1)
        ∃ used, Client.SpaceUsed B c (.ok used) c ∧ (sum ≤ maxmem.toNat → used.toNat = sum) ∧
          (maxmem.toNat < sum →
            maxmem.toNat < used.toNat + 5001 ∧ used.toNat ≤ maxmem.toNat) := by
  obtain ⟨hprep, log10, hkeys⟩ := hg.prepared
  have hs : Cache.Suits (ownValue g.data) 5001 maxmem := hprep.suits (by omega)
  obtain ⟨sets, asked, hbench, hlen, hsets, hasks⟩ :=
    hprep.exists_benchmark clock hdraws hws hpasses
  obtain ⟨log, c, hrun, hlog⟩ := Client.exists_run_of_plays hjson hs (by omega) hfull
    (sets ++ asked) (fun call hcall => (hasks call hcall).plays hprep.keys)
    fun call hcall => (hasks call hcall).wires hkeys
  have hmem : ∀ l ∈ log, Asks g.data l.1 := fun l hl =>
    hasks l.1 (hlog ▸ List.mem_map_of_mem hl)
  have hplays : ∀ l ∈ log, Cache.Plays (ownValue g.data) l.1 := fun l hl =>
    (hmem l hl).plays hprep.keys
  have hwires : ∀ l ∈ log, Client.Wires (ownValue g.data) l.1 := fun l hl => (hmem l hl).wires hkeys
  refine ⟨sets, asked, hbench, hlen, hsets, log, c, hrun, hlog, fun key seen hget => ?_, ?_⟩
  · obtain ⟨valSize, prob, hpair, hvalue⟩ := (hmem _ hget).exists_of_get hprep.keys
    refine (Client.Run.result_of_get hjson hs hrun hplays hwires hget).imp_right fun hseen => ?_
    rw [Cache.sizeOfValue, hvalue, length_bytes] at hseen
    exact ⟨valSize, prob, hpair, hseen⟩
  · obtain ⟨-, calls, hcalls, hplays', hsame⟩ := hrun.calls hplays hwires
    have hmaxmem : c.maxmem = maxmem := Cache.Run.maxmem hcalls
    have hexact := Cache.Run.exact_of_suits hs hcalls hplays'
    have hsettled := Cache.Run.settled hs hcalls hplays'
    rw [hsame, hlog] at hsettled
    have hwithin : c.spaceUsed.toNat ≤ c.maxmem.toNat := hexact.size ▸ hexact.within
    subst hmaxmem
    exact ⟨c.spaceUsed, Client.spaceUsed_iff.2 ⟨rfl, (if_pos (by omega)).symm⟩,
      hsettled.size_eq, fun hover => ⟨hsettled.lt_size hover, hwithin⟩⟩

/-- One set to warm a server of 6000 bytes, and then a get and a set. -/
theorem benchmark_runs_networked_five : ∃ g todo log c used, Generator.Constructed g ∧
    benchmark g.data.length 2 (fun k => k) g 1 (fun _ => ⟨0, 0, 43, 0⟩)
      [⟨0, 0, 43, 0⟩, ⟨30, 0, 43, 0⟩] = some todo ∧
    Client.Run Client.jsonBoost Json.readObject (serverCache 6000) log c ∧
    log.map Prod.fst = todo ∧ Client.SpaceUsed Client.jsonBoost c (.ok used) c := by
  obtain ⟨g, hg⟩ := exists_constructed
  have hfull : 5001 ≤ (6000 : SizeType).toNat := by decide
  have hmax : (6000 : SizeType).toNat < 2 ^ 31 := by decide
  have hallow : ∀ p, p ≤ 30 → g.Allows ⟨p, 0, 43, 0⟩ := fun p hp =>
    ⟨hp, Nat.zero_le _, Nat.zero_le _⟩
  obtain ⟨sets, asked, hbench, -, -, log, c, hrun, hlog, -, used, hused, -⟩ :=
    benchmark_runs_networked Client.faithful_jsonBoost hg hfull hmax 2 1 (fun _ => ⟨0, 0, 43, 0⟩)
      [⟨0, 0, 43, 0⟩, ⟨30, 0, 43, 0⟩] (fun k => k) (fun _ => hallow 0 (by omega))
      (by simp [hallow]) (by decide)
  exact ⟨g, _, log, c, used, hg, hbench, hrun, hlog, hused⟩

end Bench
end CacheBench
