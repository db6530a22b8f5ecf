import Dee.BumpLimits
import Dee.EvictionPrefix
import Dee.PrefetchQueue

/-! What a failed request leaves behind. Room is made before it is known whether the
allocation can succeed, so a failure keeps the evictions, and nothing else. -/
namespace Dee.VramCacheManager
open GuardedRuns

/-- The same experts are resident, with the same records, and as many bytes are in use. -/
structure SameCache (c c' : VramCacheManager) : Prop where
  find : ∀ k, c'.blocks.find? k = c.blocks.find? k
  used : c'.usedBytes = c.usedBytes

/-- The counters apart, the call from `c` to `c'` has done exactly the eviction for `n` bytes. -/
structure OnlyEvicted (c c' : VramCacheManager) (n : ℕ) : Prop where
  lowest : ∃ st l k, l.Perm c.blocks.entries ∧
    (l.Pairwise fun e f => e.2.evictionScore ≤ f.2.evictionScore) ∧
    EvictsPrefix { c with stats := st } c' n l k ∧
    c'.usedBytes + ((l.take k).map fun e => e.2.size).sum = c.usedBytes
  tick : c'.tick = c.tick
  same_iff : SameCache c c' ↔ n ≤ c.arena.freeSpace ∨ c.blocks.entries = []

/-- An eviction that removes a block is visible. -/
theorem EvictsPrefix.not_same {c c' : VramCacheManager} {need k : ℕ}
    {l : List (ExpertKey × ExpertBlock)} (h : EvictsPrefix c c' need l k)
    (hl : l.Perm c.blocks.entries) (hk : 0 < k) : ¬ SameCache c c' := by
  intro hsame
  have hpos : 0 < (l.take k).length := by
    have := h.le_length
    rw [List.length_take]
    omega
  obtain ⟨e, he⟩ := List.exists_mem_of_length_pos hpos
  have hmem : (e.1, e.2) ∈ c.blocks.entries := hl.mem_iff.mp (List.mem_of_mem_take he)
  have hfind := hsame.find e.1
  rw [UnorderedMap.find?_eq_some.mpr hmem] at hfind
  have hleft := h.remaining.mem_iff.mp (UnorderedMap.find?_eq_some.mp hfind)
  have hnd : (l.take k ++ l.drop k).Nodup := by
    rw [List.take_append_drop]
    exact hl.nodup_iff.mpr c.blocks.entries_nodup
  exact (List.nodup_append.mp hnd).2.2 e he e hleft rfl

/-- The bytes in use fall by the sizes of the evicted blocks. -/
theorem EvictsPrefix.used {c c' : VramCacheManager} {need k : ℕ}
    {l : List (ExpertKey × ExpertBlock)} (hk : EvictsPrefix c c' need l k) (h : c.Inv)
    (h' : c'.Inv) (hl : l.Perm c.blocks.entries) :
    c'.usedBytes + ((l.take k).map fun e => e.2.size).sum = c.usedBytes := by
  have hsum := ((hk.remaining.append_left (l.take k)).map
    fun e : ExpertKey × ExpertBlock => e.2.size).sum_eq
  rw [List.take_append_drop, (hl.map _).sum_eq, List.map_append, List.sum_append] at hsum
  rw [h.representation.used, h'.representation.used, Nat.add_comm]
  exact hsum

/-- The eviction for a request changes nothing exactly when there is room already or nothing
to evict. -/
theorem MapInv.sameCache_makeRoom_iff {c : VramCacheManager} (h : c.MapInv) (n : ℕ) :
    SameCache c (c.makeRoom n) ↔ n ≤ c.arena.freeSpace ∨ c.blocks.entries = [] := by
  obtain ⟨k, hk⟩ := h.countEnsure.evictLoop_evicts n le_rfl
  have hperm := c.countEnsure.evictionOrder_perm
  constructor
  · intro hsame
    by_contra hno
    obtain ⟨hfree, hne⟩ := not_or.mp hno
    rcases Nat.eq_zero_or_pos k with rfl | hpos
    · have hlen : 0 < c.countEnsure.evictionOrder.length := by
        rw [hperm.length_eq]
        exact List.length_pos_of_ne_nil hne
      have hroom := hk.enough hlen
      rw [hk.evicted] at hroom
      exact hfree hroom
    · exact hk.not_same hperm hpos ⟨hsame.find, hsame.used⟩
  · intro hdone
    rw [VramCacheManager.makeRoom, evictUntilFree_eq_self (by exact hdone)]
    exact ⟨fun _ => rfl, rfl⟩

/-- As long as the arena is consistent, making room is an eviction and nothing else. -/
theorem Inv.onlyEvicted {c : VramCacheManager} (h : c.Inv) (n : ℕ) :
    OnlyEvicted c (c.makeRoom n) n := by
  obtain ⟨k, hk⟩ := h.countEnsure.toMapInv.evictLoop_evicts n le_rfl
  have hperm := c.countEnsure.evictionOrder_perm
  have hused := hk.used h.countEnsure (h.makeRoom n) hperm
  exact ⟨⟨_, _, k, hperm, c.countEnsure.evictionOrder_sorted, hk, hused⟩,
    (h.toMapInv.makeRoom n).2.tick, h.toMapInv.sameCache_makeRoom_iff n⟩

/-- A failed `ensure` has evicted and nothing else. -/
theorem Inv.ensure_failure {c : VramCacheManager} (h : c.Inv) {k : ExpertKey} {n : ℕ} {p : ℤ}
    (hw : c.BumpFits (.ensure k n p)) (hf : (c.ensure k n p).1 = false) :
    OnlyEvicted c (c.ensure k n p).2 n := by
  have hs := (h.toMapInv.makeRoom n).2
  rcases ensure_cases c k n p with ⟨-, he⟩ | ⟨hk, ha, he⟩ | ⟨-, -, he⟩
  · simp [he] at hf
  · have hsame : ((c.makeRoom n).arena.alloc n).2 = (c.makeRoom n).arena := by
      rcases Nat.eq_zero_or_pos n with rfl | hn
      · rfl
      · rcases (h.makeRoom n).tiled.alloc_cases hn (fun hlt => by
          rw [hs.high]
          exact hw hk (h.not_runBelow_of_holes hn hlt)) with ⟨-, -, hne, -⟩ | ⟨-, hsame⟩
        · exact absurd ha hne
        · rw [hsame]
    rw [he, allocated, hsame]
    exact h.onlyEvicted n
  · simp [he] at hf

theorem Inv.syncFallback_failure {c : VramCacheManager} (h : c.Inv) {k : ExpertKey} {n : ℕ} {p : ℤ}
    (hw : c.BumpFits (.ensure k n p)) (hf : (c.syncFallback k n p).1 = false) :
    OnlyEvicted c (c.syncFallback k n p).2 n := by
  unfold VramCacheManager.syncFallback at hf ⊢
  split_ifs at hf ⊢
  have hinv : c.countFallback.Inv := h.with_stats _
  obtain ⟨h1, h2, h3⟩ := hinv.ensure_failure (p := p) hw hf
  exact ⟨h1, h2, ⟨fun hs => h3.mp ⟨hs.find, hs.used⟩, fun hs =>
    ⟨(h3.mpr hs).find, (h3.mpr hs).used⟩⟩⟩

/-- The prefetcher reports failure only when `ensure` does. -/
theorem prefetch_failure {q : AsyncPrefetcher} (h : q.cache.SlotInv) {k : ExpertKey}
    {src : HostPtr} {n : ℕ} {p : ℤ} (hf : (q.prefetch k src n p).1 = -1) :
    (q.cache.ensure k n p).1 = false := by
  rcases q.prefetch_cases k src n p with ⟨hno | hdata, -⟩ | ⟨-, -, he⟩
  · exact hno
  · by_contra ht
    exact (h.ensure k n p).data_ne_zero.mpr (h.ensure_resident (by simpa using ht)) hdata
  · rw [he] at hf
    simp only at hf
    omega

/-- In every run whose bump sums do not wrap: a call that reports failure has evicted the
shortest prefix of the blocks in order of their scores and changed nothing else. So it
leaves the cache as it was exactly when there was room already or nothing to evict. -/
theorem run_failure_only_evicts (order : Order) (be : Backend) (B : ℕ) {c₀ : VramCacheManager}
    (hB : B < 2 ^ 64) (hinit : (fresh order).init B be = (true, c₀)) (ops : List Op)
    (k : ExpertKey) (n : ℕ) (p : ℤ) (hw : Guarded step BumpFits c₀ (ops ++ [.ensure k n p])) :
    let c := run step c₀ ops
    ((c.ensure k n p).1 = false → OnlyEvicted c (c.ensure k n p).2 n) ∧
      ((c.syncFallback k n p).1 = false → OnlyEvicted c (c.syncFallback k n p).2 n) ∧
      ∀ (q : AsyncPrefetcher) (src : HostPtr), q.cache = c → (q.prefetch k src n p).1 = -1 →
        OnlyEvicted c (q.prefetch k src n p).2.cache n := by
  intro c
  obtain ⟨base, hbase, rfl⟩ := init_eq_true hinit
  obtain ⟨h1, h2⟩ := guarded_append.mp hw
  have hinv : c.Inv := (run_inv_of_bumpFits (started_inv order base hB) h1).1
  have hslot : c.SlotInv := run_slotInv (started_slotInv order hbase B) ops
  have hfits : c.BumpFits (.ensure k n p) := h2.1
  refine ⟨hinv.ensure_failure hfits, hinv.syncFallback_failure hfits, fun q src hq hf => ?_⟩
  rw [AsyncPrefetcher.prefetch_cache]
  rw [← hq] at hslot hinv hfits ⊢
  exact hinv.ensure_failure hfits (prefetch_failure hslot hf)

/-- Two of four bytes are in use and three are asked for: the expert goes, and the request
fails on the hole it leaves. -/
theorem run_failure_only_evicts_three :
    let c := run step (started (.newestFirst _ _) 100 4) [.ensure ⟨0, 0⟩ 2 0]
    OnlyEvicted c (c.ensure ⟨0, 1⟩ 3 0).2 3 := by
  have hinit : (fresh (.newestFirst _ _)).init 4 (.host 100) =
      (true, started (.newestFirst _ _) 100 4) := rfl
  refine (run_failure_only_evicts (.newestFirst _ _) (.host 100) 4 (by decide) hinit
    [.ensure ⟨0, 0⟩ 2 0] ⟨0, 1⟩ 3 0 ⟨fun _ _ => ?_, fun _ _ => ?_, trivial⟩).1 (by decide)
  · decide
  · decide

/-- The failed request of that run is not atomic: the expert is gone. -/
theorem failed_ensure_evicts :
    ¬ ∀ (order : Order) (be : Backend) (B : ℕ) (c₀ : VramCacheManager),
      (fresh order).init B be = (true, c₀) → ∀ (ops : List Op) (k : ExpertKey) (n : ℕ) (p : ℤ),
        ((run step c₀ ops).ensure k n p).1 = false →
          SameCache (run step c₀ ops) ((run step c₀ ops).ensure k n p).2 := by
  intro h
  have hinit : (fresh (.newestFirst _ _)).init 4 (.host 100) =
      (true, started (.newestFirst _ _) 100 4) := rfl
  have hused := (h (.newestFirst _ _) (.host 100) 4 _ hinit [.ensure ⟨0, 0⟩ 2 0] ⟨0, 1⟩ 3 0
    (by decide)).used
  revert hused
  decide

end Dee.VramCacheManager
