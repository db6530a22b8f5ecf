import Dee.PrefetchBytes
import Dee.TransferQueue
import Dee.VramCacheStaging

/-! Resident bytes in the queue with its positions in an `int`. While fewer than `2 ^ 31`
transfers are queued they are those of the sources; behind `2 ^ 32` transfers of another
expert a position names the wrong one, and `wait` returns on bytes that are not there. -/
namespace Dee.AsyncPrefetcher.IntQueue
open ByteMemory GuardedRuns VramCacheManager

/-- Whenever `wait` returns true for a resident expert, its bytes are those of its source,
and they stay so until the next prefetch or reset. -/
def ServesSources (tbl : ExpertTable) (p : AsyncPrefetcher) : Prop :=
  ∀ k, (wait p k).1 = true → p.cache.isResident k = true → ∀ quiet : List Op,
    (∀ op ∈ quiet, op.Quiet) →
    (run step (wait p k).2 quiet).cache.data k = p.cache.data k ∧
      ∀ i < tbl.size k, (run step (wait p k).2 quiet).vram (p.cache.data k + i) =
        (tbl.source k).bytes i

theorem nonNull_of_follows {tbl : ExpertTable} {a : Arena} {op : Op} (h : op.Follows tbl a) :
    op.NonNull := by
  cases op with
  | prefetch k src n pr => exact h.2.2.addr_ne
  | _ => trivial

/-- A quiet call submits nothing. -/
theorem quiet_hasRoom {p : AsyncPrefetcher} {op : Op} (h : op.Quiet) :
    op.NonNull ∧ HasRoom p op := by
  cases op with
  | prefetch => exact h.elim
  | reset => exact h.elim
  | _ => exact ⟨trivial, trivial⟩

/-- In every run that keeps fewer than `2 ^ 31` transfers queued, and in which each expert
keeps its size and its source buffer, the experts that `wait` reports hold their sources. -/
theorem run_serves_sources (order : Order) (be : Backend) (B : ℕ) {c₀ : VramCacheManager}
    (hinit : (VramCacheManager.fresh order).init B be = (true, c₀))
    (hfit : c₀.arena.base + B ≤ 2 ^ 64) (vram : ℕ → UInt8) (tbl : ExpertTable) (ops : List Op)
    (hops : ∀ op ∈ ops, op.Follows tbl c₀.arena)
    (hroom : Guarded step HasRoom (fresh c₀ vram) ops) :
    ServesSources tbl (run step (fresh c₀ vram) ops) := by
  intro k hw hres quiet hquiet
  have h0 := streaming_fresh c₀ vram
  have hsrcs : Guarded step (fun _ op => op.NonNull) (fresh c₀ vram) ops :=
    guarded_of_forall fun op hop => nonNull_of_follows (hops op hop)
  have hguard := hsrcs.and hroom
  obtain ⟨m, hstream⟩ := h0.run hguard
  -- the calls behind the run submit nothing, so they run in the same way too
  have hcalls : Guarded step (fun p op => op.NonNull ∧ HasRoom p op)
      (run step (fresh c₀ vram) ops) (.wait k :: quiet) :=
    ⟨⟨trivial, trivial⟩, guarded_of_always fun op hop _ => quiet_hasRoom (hquiet op hop)⟩
  have hsame := run_eq h0 hguard
  have hwait := wait_eq hstream.queue hstream.short k
  have hrest : run step (wait (run step (fresh c₀ vram) ops) k).2 quiet =
      run AsyncPrefetcher.step ((run step (fresh c₀ vram) ops).wait k).2 quiet :=
    run_eq hstream hcalls
  rw [hrest]
  rw [hwait] at hw
  rw [hsame] at hw hres ⊢
  exact run_wait_bytes order be B hinit hfit vram tbl ops hops k hw hres quiet hquiet

/-! A table of two experts of two bytes -/

section Tiny

/-- Expert 0 is all sevens, the others are all nines. -/
def sevensAndNines : ExpertTable :=
  ⟨fun _ => 2, fun k => ⟨1000, fun _ => if k.expert = 0 then 7 else 9⟩⟩

/-- A cache with room for one of them. -/
def twoBytes : VramCacheManager := started (.newestFirst _ _) 100 2

theorem twoBytes_init :
    (VramCacheManager.fresh (.newestFirst _ _)).init 2 (.host 100) = (true, twoBytes) := rfl

theorem sevensAndNines_real (k : ExpertKey) :
    RealSource twoBytes.arena (sevensAndNines.source k) 2 := by
  have hne : 1000 ≠ 0 := by decide
  have hfit : 1000 + 2 ≤ 2 ^ 64 := by omega
  have hapart : 100 + 2 ≤ 1000 := by decide
  exact ⟨Nat.two_pos, hne, hfit, Or.inr hapart⟩

theorem sevensAndNines_follows (k : ExpertKey) (pr : ℤ) :
    (Op.prefetch k (sevensAndNines.source k) 2 pr).Follows sevensAndNines twoBytes.arena :=
  ⟨rfl, rfl, sevensAndNines_real k⟩

theorem sevens_bytes : (sevensAndNines.source ⟨0, 0⟩).bytes = fun _ => 7 := by
  simp [sevensAndNines]

theorem nines_bytes : (sevensAndNines.source ⟨0, 1⟩).bytes = fun _ => 9 := by
  simp [sevensAndNines]

/-- The second prefetch evicts the first expert, whose stale transfer runs before it, into
the same bytes. -/
theorem run_serves_sources_small :
    let p := run step (fresh twoBytes fun _ => 0)
      [.prefetch ⟨0, 0⟩ (sevensAndNines.source ⟨0, 0⟩) 2 0,
        .prefetch ⟨0, 1⟩ (sevensAndNines.source ⟨0, 1⟩) 2 0]
    p.cache.isResident ⟨0, 0⟩ = false ∧
      ∀ i < 2, (run step (wait p ⟨0, 1⟩).2 [.wait ⟨0, 0⟩, .synchronizeAll]).vram
        (p.cache.data ⟨0, 1⟩ + i) = 9 := by
  intro p
  have hroom : Guarded step HasRoom (fresh twoBytes fun _ => 0)
      [.prefetch ⟨0, 0⟩ (sevensAndNines.source ⟨0, 0⟩) 2 0,
        .prefetch ⟨0, 1⟩ (sevensAndNines.source ⟨0, 1⟩) 2 0] := by
    simp only [Guarded, HasRoom]
    decide
  have h := run_serves_sources (.newestFirst _ _) (.host 100) 2 twoBytes_init (by decide)
    (fun _ => 0) sevensAndNines _
    (by
      simp only [List.forall_mem_cons]
      exact ⟨sevensAndNines_follows _ _, sevensAndNines_follows _ _, by simp⟩)
    hroom ⟨0, 1⟩ (by decide) (by decide) [.wait ⟨0, 0⟩, .synchronizeAll] (by simp [Op.Quiet])
  refine ⟨by decide, fun i hi => ?_⟩
  have hbyte := h.2 i hi
  rw [nines_bytes] at hbyte
  simpa only [p] using hbyte

end Tiny

/-! From `2 ^ 32` transfers on -/

/-- A cache of blocks of one size, with room for one: no request is refused. -/
structure Accepting (n : ℕ) (c : VramCacheManager) : Prop where
  uniform : Uniform n c
  slot : c.SlotInv
  pos : 0 < n
  fits : n ≤ c.arena.cap

theorem Accepting.ensure {n : ℕ} {c : VramCacheManager} (h : Accepting n c) (k : ExpertKey)
    (pr : ℤ) : (c.ensure k n pr).1 = true ∧ Accepting n (c.ensure k n pr).2 := by
  refine ⟨h.uniform.ensure_succeeds h.pos h.fits k pr, h.uniform.ensure h.pos h.fits k pr,
    h.slot.ensure k n pr, h.pos, ?_⟩
  rw [ensure_cap h.uniform.toMapInv]
  exact h.fits

/-- What any number of prefetches of one expert leave behind. -/
theorem run_prefetches {p : AsyncPrefetcher} {n : ℕ} (h : Accepting n p.cache) (k : ExpertKey)
    (src : HostPtr) (hsrc : src.addr ≠ 0) (pr : ℤ) (m : ℕ) :
    let q := run step p (List.replicate m (.prefetch k src n pr))
    Accepting n q.cache ∧ q.vram = p.vram ∧
      ∃ ts, q.inflight = p.inflight ++ ts ∧ ts.length = m ∧ ∀ t ∈ ts, Armed t ∧ t.src = src := by
  induction m generalizing p with
  | zero => exact ⟨h, rfl, [], (List.append_nil _).symm, rfl, by simp⟩
  | succ m ih =>
    obtain ⟨hok, hnext⟩ := h.ensure k pr
    obtain ⟨dst, hdst, he⟩ := prefetch_of_ensure h.slot hok src
    have hstep : step p (.prefetch k src n pr) =
        ({ p with cache := (p.cache.ensure k n pr).2 }).push ⟨k, dst, src, n, false, false⟩ := he
    rw [List.replicate_succ, run_cons, hstep]
    obtain ⟨hcache, hvram, ts, hts, hlen, harmed⟩ := ih (p := ({ p with
      cache := (p.cache.ensure k n pr).2 }).push ⟨k, dst, src, n, false, false⟩) hnext
    refine ⟨hcache, hvram, ⟨k, dst, src, n, false, false⟩ :: ts, ?_, ?_, ?_⟩
    · rw [hts, AsyncPrefetcher.push, List.append_assoc]
      rfl
    · rw [List.length_cons, hlen]
    · exact List.forall_mem_cons.mpr ⟨⟨⟨hsrc, hdst, rfl⟩, rfl⟩, harmed⟩

/-- Copies of one byte over leave it or what was there. -/
theorem runCopies_const {cs : List (Copy UInt8)} {m : ℕ → UInt8} {b : UInt8}
    (h : ∀ c ∈ cs, c.src = fun _ => b) (a : ℕ) : runCopies m cs a = m a ∨ runCopies m cs a = b := by
  induction cs generalizing m with
  | nil => exact Or.inl rfl
  | cons c cs ih =>
    obtain ⟨hc, hcs⟩ := List.forall_mem_cons.mp h
    rcases ih (m := c.run m) hcs with hrun | hrun
    · rw [runCopies_cons, hrun, Copy.run, memcpy, hc]
      split_ifs
      · exact Or.inr rfl
      · exact Or.inl rfl
    · exact Or.inr hrun

/-- A wait whose position is that of a pending transfer copies up to it and succeeds. -/
theorem wait_of_position {p : AsyncPrefetcher} {k : ExpertKey} {i : ℕ}
    (hf : findInflight p k = i) (hlast : lastDrained p i = i) {t : Transfer}
    (ht : p.inflight[i]? = some t) (harmed : Armed t) : (wait p k).1 = true ∧
      (wait p k).2.vram =
        runCopies p.vram
          (((p.inflight.take (i + 1)).filter Transfer.pending).map Transfer.copy) := by
  have hfind : ∀ st, findInflight { p with stats := st } k = i := fun st => hf
  have hdrain : ∀ st, drainUntil { p with stats := st } i =
      { p with stats := st }.drainUntil i := fun st => congrArg _ hlast
  have hn : ((i : ℤ) + 1).toNat = i + 1 := by omega
  have hneg : ¬ (i : ℤ) < 0 := by omega
  simp only [wait, hfind, if_neg hneg, hdrain, AsyncPrefetcher.drainUntil, hn, Int.toNat_natCast,
    drainFirst_getElem?, ht, Option.map_some, if_pos (Nat.lt_succ_self i), Option.any_some,
    drainFirst_vram]
  exact ⟨harmed.finish_done, trivial⟩

/-- Any number of prefetches of expert 1, and one of expert 0. -/
def prefetchOthers (m : ℕ) : List Op :=
  List.replicate m (.prefetch ⟨0, 1⟩ (sevensAndNines.source ⟨0, 1⟩) 2 0) ++
    [.prefetch ⟨0, 0⟩ (sevensAndNines.source ⟨0, 0⟩) 2 0]

theorem prefetchOthers_follows {m : ℕ} {op : Op} (h : op ∈ prefetchOthers m) :
    op.Follows sevensAndNines twoBytes.arena := by
  rcases List.mem_append.mp h with h | h
  · rw [List.eq_of_mem_replicate h]
    exact sevensAndNines_follows _ _
  · rw [List.mem_singleton.mp h]
    exact sevensAndNines_follows _ _

/-- The transfer of expert 0 lies behind those of expert 1. -/
theorem run_prefetchOthers (m : ℕ) :
    let p := run step (fresh twoBytes fun _ => 0) (prefetchOthers m)
    p.cache.isResident ⟨0, 0⟩ = true ∧ (p.vram = fun _ => 0) ∧ p.inflight.length = m + 1 ∧
      p.findInflight ⟨0, 0⟩ = some m ∧
      (0 < m → ∃ t, p.inflight[0]? = some t ∧ Armed t ∧ t.src.bytes = fun _ => 9) := by
  have h0 : Accepting 2 twoBytes :=
    ⟨started_uniform _ _ (by decide), started_slotInv _ (by decide) _, Nat.two_pos, by decide⟩
  obtain ⟨hcache, hvram, ts, hts, hlen, harmed⟩ := run_prefetches (p := fresh twoBytes fun _ => 0)
    h0 ⟨0, 1⟩ (sevensAndNines.source ⟨0, 1⟩) (by decide) 0 m
  rw [prefetchOthers, run_append, run_cons, run_nil]
  generalize run step (fresh twoBytes fun _ => 0)
    (List.replicate m (.prefetch ⟨0, 1⟩ (sevensAndNines.source ⟨0, 1⟩) 2 0)) = q
    at hcache hvram hts ⊢
  have hq : q.inflight = ts := hts
  obtain ⟨hok, -⟩ := hcache.ensure ⟨0, 0⟩ 0
  obtain ⟨dst, -, he⟩ := prefetch_of_ensure hcache.slot hok (sevensAndNines.source ⟨0, 0⟩)
  simp only [step, he]
  refine ⟨hcache.slot.ensure_resident hok, hvram, ?_, ?_, fun hm => ?_⟩
  · rw [AsyncPrefetcher.push, List.length_append, List.length_singleton, hq, hlen]
  · rw [← hlen, ← hq]
    exact push_findInflight _ _
  · obtain ⟨t, ts', rfl⟩ : ∃ t ts', ts = t :: ts' :=
      List.exists_cons_of_ne_nil (List.ne_nil_of_length_pos (by omega))
    obtain ⟨⟨harm, hsrc⟩, -⟩ := List.forall_mem_cons.mp harmed
    refine ⟨t, ?_, harm, ?_⟩
    · rw [AsyncPrefetcher.push, hq]
      rfl
    · rw [hsrc, nines_bytes]

/-- After `2 ^ 32` prefetches of expert 1 the position of the next one, of expert 0, is 0
again: `wait` copies a transfer of expert 1 and reports expert 0. -/
theorem wait_reads_other_bytes : ¬ ∀ (order : Order) (be : Backend) (B : ℕ)
    (c₀ : VramCacheManager), (VramCacheManager.fresh order).init B be = (true, c₀) →
    c₀.arena.base + B ≤ 2 ^ 64 → ∀ (vram : ℕ → UInt8) (tbl : ExpertTable) (ops : List Op),
    (∀ op ∈ ops, op.Follows tbl c₀.arena) → ServesSources tbl (run step (fresh c₀ vram) ops) := by
  intro hclaim
  obtain ⟨m, hm⟩ : ∃ m : ℕ, m = 4294967296 := ⟨_, rfl⟩
  have hserves := hclaim (.newestFirst _ _) (.host 100) 2 twoBytes twoBytes_init (by decide)
    (fun _ => 0) sevensAndNines (prefetchOthers m) fun op hop => prefetchOthers_follows hop
  obtain ⟨hres, hvram, hlength, hsome, hfirst⟩ := run_prefetchOthers m
  obtain ⟨t, ht, harmed, hnines⟩ := hfirst (by omega)
  generalize run step (fresh twoBytes fun _ => 0) (prefetchOthers m) = p
    at hserves hres hvram hlength hsome ht
  have hfind : findInflight p ⟨0, 0⟩ = (0 : ℕ) := by
    rw [findInflight, hsome, hm]
    decide
  have hlast : lastDrained p (0 : ℕ) = (0 : ℕ) := by
    rw [lastDrained, hlength, hm]
    decide
  obtain ⟨hw, hbytes⟩ := wait_of_position hfind hlast ht harmed
  -- the one copy that runs is of nines, over zeros
  have hcopies : ∀ c ∈ ((p.inflight.take (0 + 1)).filter Transfer.pending).map Transfer.copy,
      c.src = fun _ => 9 := by
    intro c hc
    obtain ⟨u, hu, rfl⟩ := List.mem_map.mp hc
    obtain ⟨j, hj, hu⟩ := mem_take (List.mem_of_mem_filter hu)
    obtain rfl : j = 0 := by omega
    rw [← Option.some_inj.mp (ht.symm.trans hu), Transfer.copy, hnines]
  have hmem := runCopies_const (m := p.vram) hcopies (p.cache.data ⟨0, 0⟩ + 0)
  have hseven := (hserves ⟨0, 0⟩ hw hres [] (by simp)).2 0 Nat.two_pos
  rw [run_nil, hbytes, sevens_bytes] at hseven
  rw [hseven, hvram] at hmem
  have hne : ¬ ((7 : UInt8) = 0 ∨ (7 : UInt8) = 9) := by decide
  exact hne hmem

end Dee.AsyncPrefetcher.IntQueue
