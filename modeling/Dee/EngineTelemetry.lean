import Dee.BudgetInclusion
import Dee.EngineFallbacks
import Dee.EngineReference

/-! What `stats()` says behind `generate`. The counters of the cache, of the prefetcher and
of the engine are raised in different places; over every run they stay in step with each
other, and a generation raises them by the ranks that the Oracle predicts. -/
namespace Dee
open CountedLoops GuardedRuns VramCacheManager

theorem VramCacheManager.touch_length (c : VramCacheManager) (k : ExpertKey) :
    (c.touch k).blocks.entries.length = c.blocks.entries.length := by
  unfold VramCacheManager.touch
  split_ifs
  · exact UnorderedMap.length_modify ..
  · rfl

namespace AsyncPrefetcher

/-- A prefetch queues its own expert only. -/
theorem Queued.of_prefetch {p : AsyncPrefetcher} {q k : ExpertKey} {src : HostPtr} {n : ℕ} {pr : ℤ}
    (h : (p.prefetch k src n pr).2.Queued q) : p.Queued q ∨ q = k := by
  obtain ⟨t, ht, hq⟩ := h
  rcases p.prefetch_cases k src n pr with ⟨-, he⟩ | ⟨-, -, he⟩
  · rw [he] at ht
    exact Or.inl ⟨t, ht, hq⟩
  · rw [he] at ht
    rcases List.mem_append.mp ht with ht | ht
    · exact Or.inl ⟨t, ht, hq⟩
    · rw [List.mem_singleton.mp ht] at hq
      exact Or.inr hq.symm

theorem Queued.of_drainUntil {p : AsyncPrefetcher} {q : ExpertKey} {i : ℤ}
    (h : (p.drainUntil i).Queued q) : p.Queued q := by
  obtain ⟨t', ht', hq⟩ := h
  obtain ⟨t, ht, rfl | rfl⟩ := drainUntil_mem ht'
  · exact ⟨t, ht, by rwa [finish_key] at hq⟩
  · exact ⟨_, ht, hq⟩

theorem Queued.of_wait {p : AsyncPrefetcher} {q k : ExpertKey} (h : (p.wait k).2.Queued q) :
    p.Queued q := by
  rcases p.wait_snd k with ⟨st, he⟩ | ⟨i, st, he⟩
  · rw [he] at h
    exact h
  · rw [he] at h
    exact Queued.of_drainUntil (i := i) h

/-- Waiting for an expert that is not queued is a fallback. -/
theorem QueueInv.wait_stats {p : AsyncPrefetcher} (h : p.QueueInv) (k : ExpertKey) :
    (p.wait k).2.stats.issued = p.stats.issued ∧
      (p.Queued k → (p.wait k).2.stats.fallbacks = p.stats.fallbacks) ∧
      (¬ p.Queued k → (p.wait k).2.stats.fallbacks = p.stats.fallbacks + 1) := by
  cases hf : p.findInflight k with
  | none =>
    have hf' : p.keyToIdx (packKey k) = none := hf
    have hno : ¬ p.Queued k := by
      intro hq
      obtain ⟨i, t, ht⟩ := exists_lastAt.mpr hq
      rw [(h.indexed k i).mpr ⟨t, ht⟩] at hf
      cases hf
    simp [AsyncPrefetcher.wait, findInflight, hf', hno]
  | some i =>
    have hf' : p.keyToIdx (packKey k) = some i := hf
    obtain ⟨t, ht⟩ := (h.indexed k i).mp hf
    have hyes : p.Queued k := ⟨t, ht.mem, ht.key⟩
    simp [AsyncPrefetcher.wait, findInflight, hf', hyes, AsyncPrefetcher.drainUntil]

end AsyncPrefetcher

namespace Engine
variable {F : Type*} [Field F] {env : Platform F} {e₀ e e' : Engine F} {B : ℕ}

/-! The run of `generate` as a sum over its layers -/

/-- What a layer adds to a measure, `generate` adds up over its tokens and layers. -/
theorem generateLoop_sum [LinearOrder F] {M : Type*} [AddCommMonoid M] {I : Engine F → Prop}
    {f : Engine F → M} {d : Int32 → (ℕ → F) → M}
    (hlayer : ∀ e layer hIn, I e → I (e.forwardLayer env layer hIn).2 ∧
      f (e.forwardLayer env layer hIn).2 = f e + d layer hIn)
    (hpeak : ∀ e, I e → I e.trackPeak ∧ f e.trackPeak = f e) (h : I e) :
    I (e.generateLoop env).engine ∧ f (e.generateLoop env).engine = f e +
      ∑ t ∈ Finset.range e.cfg.numTokens.toNat, ∑ L ∈ Finset.range e.cfg.numLayers.toNat,
        d (Int32.ofNat L) (e.beforeLayer env t L).current := by
  have hlayers : ∀ n (s : LoopState (ℕ → F) (Engine F)), I s.engine →
      I (forRange n (layerPass env) s).engine ∧ f (forRange n (layerPass env) s).engine =
        f s.engine + ∑ L ∈ Finset.range n,
          d (Int32.ofNat L) (forRange L (layerPass env) s).current := by
    intro n s hs
    induction n with
    | zero => exact ⟨hs, by simp⟩
    | succ n ih =>
      obtain ⟨hI, hf⟩ := ih
      obtain ⟨hI', hf'⟩ := hlayer _ (Int32.ofNat n) (forRange n (layerPass env) s).current hI
      rw [forRange_succ, Finset.sum_range_succ, ← add_assoc, ← hf]
      exact ⟨hI', hf'⟩
  have htokens : ∀ T (s : LoopState (ℕ → F) (Engine F)), I s.engine →
      I (forRange T (fun _ => tokenPass env e) s).engine ∧
        f (forRange T (fun _ => tokenPass env e) s).engine = f s.engine +
          ∑ t ∈ Finset.range T, ∑ L ∈ Finset.range e.cfg.numLayers.toNat, d (Int32.ofNat L)
            (forRange L (layerPass env) (forRange t (fun _ => tokenPass env e) s)).current := by
    intro T s hs
    induction T with
    | zero => exact ⟨hs, by simp⟩
    | succ T ih =>
      obtain ⟨hI, hf⟩ := ih
      obtain ⟨hI', hf'⟩ := hlayers e.cfg.numLayers.toNat _ hI
      obtain ⟨hI'', hf''⟩ := hpeak _ hI'
      rw [forRange_succ, Finset.sum_range_succ, ← add_assoc, ← hf]
      exact ⟨hI'', hf''.trans hf'⟩
  exact htokens _ _ h

/-- The predicted ranks of a generation whose expert is of a kind. -/
def ranks [LinearOrder F] (env : Platform F) (e : Engine F) (q : Int32 → Bool) : ℕ :=
  ∑ t ∈ Finset.range e.cfg.numTokens.toNat, ∑ L ∈ Finset.range e.cfg.numLayers.toNat,
    (e.predicted (Int32.ofNat L) (e.beforeLayer env t L).current).countP q

/-! The invariant of the counters -/

/-- Only experts of the shard are ever in flight, each transfer is a hit or a load of the
cache, and each load is resident or evicted. -/
structure Tallied (env : Platform F) (e₀ : Engine F) (B : ℕ) (e : Engine F) : Prop where
  reached : Reached (Streams env e₀ B) e₀ e
  served : ∀ k, e.prefetcher.Queued k → e₀.serves k.expert = true
  issued_eq : e.prefetcher.stats.issued = e.cache.stats.hits + e.cache.stats.loads
  held_eq : e.cache.stats.loads = e.cache.stats.evictions + e.cache.blocks.entries.length
  peak_le : e.stats.peakVram ≤ B

omit [Field F] in
/-- Calls that leave the cache's counters alone and queue nothing. -/
theorem Tallied.quiet (h : Tallied env e₀ B e) (hreached : Reached (Streams env e₀ B) e₀ e')
    (hqueued : ∀ k, e'.prefetcher.Queued k → e.prefetcher.Queued k)
    (hissued : e'.prefetcher.stats.issued = e.prefetcher.stats.issued)
    (hstats : e'.cache.stats = e.cache.stats)
    (hblocks : e'.cache.blocks.entries.length = e.cache.blocks.entries.length)
    (hpeak : e'.stats.peakVram ≤ B) : Tallied env e₀ B e' where
  reached := hreached
  served := fun k hk => h.served k (hqueued k hk)
  issued_eq := by
    rw [hissued, hstats]
    exact h.issued_eq
  held_eq := by
    rw [hstats, hblocks]
    exact h.held_eq
  peak_le := hpeak

section Steps
variable (hs : 0 < e₀.blobBytes) (hle : e₀.blobBytes ≤ B)
include hs hle

omit [Field F] in
/-- Staging issues a transfer exactly for the experts of the shard. -/
theorem Tallied.stageExpert (h : Tallied env e₀ B e) (layer x : Int32) (pr : ℤ) :
    Tallied env e₀ B (e.stageExpert env layer x pr) ∧
      (e.stageExpert env layer x pr).prefetcher.stats.issued =
        e.prefetcher.stats.issued + (if e₀.serves x then 1 else 0) ∧
      (e.stageExpert env layer x pr).prefetcher.stats.fallbacks =
        e.prefetcher.stats.fallbacks := by
  have hnext := h.reached.stageExpert (Streams.step env hs hle) layer x pr
  rcases stageExpert_cases env h.reached.staging h.reached.elems_ne layer x pr with
    ⟨hres, he⟩ | ⟨hres, he⟩
  · have hyes : e₀.serves x = true := serves_iff.mpr ((h.reached.setup.resolves 0 x).mp hres)
    have hbytes := h.reached.setup.blobBytes
    rw [he, hbytes] at hnext ⊢
    rw [if_pos hyes]
    have hcap : e₀.blobBytes ≤ e.prefetcher.cache.arena.cap := by
      rw [h.reached.prefetcher.cap]
      exact hle
    have hu := h.reached.prefetcher.uniform
    have hslot := h.reached.prefetcher.bytes.slot
    have hok := hu.ensure_succeeds hs hcap ⟨layer, x⟩ pr
    have hdata := (hslot.ensure ⟨layer, x⟩ e₀.blobBytes pr).data_ne_zero.mpr
      (hslot.ensure_resident hok)
    have hasked := hu.ensure_asked hs hcap ⟨layer, x⟩ pr
    have hbalance := ensure_balance hu.toMapInv ⟨layer, x⟩ e₀.blobBytes pr
    have hissued := h.issued_eq
    have hheld := h.held_eq
    simp only [AsyncPrefetcher.step] at hnext ⊢
    rcases e.prefetcher.prefetch_cases ⟨layer, x⟩ (blobPtr env x (e.layerBlob 0 x)) e₀.blobBytes pr
      with ⟨hno | hno, -⟩ | ⟨-, -, hpush⟩
    · rw [hok] at hno
      cases hno
    · exact absurd hno hdata
    · refine ⟨⟨hnext, fun k hk => ?_, ?_, ?_, h.peak_le⟩, ?_, ?_⟩
      · rcases hk.of_prefetch with hk | rfl
        · exact h.served k hk
        · exact hyes
      · simp only [cache, hpush, AsyncPrefetcher.push] at hissued ⊢
        omega
      · simp only [cache, hpush, AsyncPrefetcher.push] at hheld ⊢
        omega
      · simp only [hpush, AsyncPrefetcher.push]
      · simp only [hpush, AsyncPrefetcher.push]
  · have hno : ¬ e₀.serves x = true := fun hyes =>
      hres ((h.reached.setup.resolves 0 x).mpr (serves_iff.mp hyes))
    rw [he, if_neg hno]
    exact ⟨h, rfl, rfl⟩

omit [Field F] in
/-- The staging loop issues the served ranks and queues their experts. -/
theorem Tallied.stageAll (h : Tallied env e₀ B e) (layer : Int32) (k : ℕ) (xs : List Int32) :
    Tallied env e₀ B (Engine.stageAll env layer k xs e) ∧
      (Engine.stageAll env layer k xs e).prefetcher.stats.issued =
        e.prefetcher.stats.issued + xs.countP e₀.serves ∧
      (Engine.stageAll env layer k xs e).prefetcher.stats.fallbacks =
        e.prefetcher.stats.fallbacks := by
  induction xs generalizing e k with
  | nil => exact ⟨h, rfl, rfl⟩
  | cons x xs ih =>
    obtain ⟨hx, hissued, hfallbacks⟩ := h.stageExpert hs hle layer x (toInt (e.cfg.topk - k))
    obtain ⟨hxs, hissued', hfallbacks'⟩ := ih hx (k + 1)
    refine ⟨hxs, ?_, hfallbacks'.trans hfallbacks⟩
    rw [Engine.stageAll, hissued', hissued, List.countP_cons]
    omega

omit [Field F] in
/-- Waiting for an expert that is in flight if the shard serves it. -/
theorem Tallied.wait (h : Tallied env e₀ B e) {layer x : Int32}
    (hq : e₀.serves x = true → e.prefetcher.Queued ⟨layer, x⟩) (st : EngineStats)
    (hst : st.peakVram = e.stats.peakVram) :
    Tallied env e₀ B
        { e with prefetcher := (e.prefetcher.wait ⟨layer, x⟩).2, stats := st } ∧
      (e.prefetcher.wait ⟨layer, x⟩).2.stats.issued = e.prefetcher.stats.issued ∧
      (e.prefetcher.wait ⟨layer, x⟩).2.stats.fallbacks = e.prefetcher.stats.fallbacks +
        (if e₀.serves x then 0 else 1) := by
  have hqueue := h.reached.prefetcher.bytes.queue
  obtain ⟨hissued, hyes, hno⟩ := hqueue.wait_stats ⟨layer, x⟩
  have hreached := (h.reached.wait (Streams.step env hs hle) ⟨layer, x⟩).with_stats st
  have hqueued : ∀ k, (e.prefetcher.wait ⟨layer, x⟩).2.Queued k → e.prefetcher.Queued k :=
    fun k hk => AsyncPrefetcher.Queued.of_wait hk
  have hcache := AsyncPrefetcher.wait_cache e.prefetcher ⟨layer, x⟩
  refine ⟨h.quiet hreached hqueued hissued (congrArg VramCacheManager.stats hcache)
    (congrArg (fun c => c.blocks.entries.length) hcache) (hst.trans_le h.peak_le), hissued, ?_⟩
  · split_ifs with hserves
    · exact hyes (hq hserves)
    · exact hno fun hk => hserves (h.served ⟨layer, x⟩ hk)

omit [Field F] in
theorem Tallied.touch (h : Tallied env e₀ B e) (k : ExpertKey) :
    Tallied env e₀ B { e with prefetcher := e.prefetcher.touch k } := by
  refine h.quiet (h.reached.touch (Streams.step env hs hle) k) (fun _ hk => hk) rfl ?_ ?_ h.peak_le
  · exact touch_stats _ k
  · exact touch_length _ k

/-- The waits of a layer fall back for the ranks that are not served. -/
theorem Tallied.accumulate (h : Tallied env e₀ B e) (layer : Int32) (hIn : ℕ → F)
    {xs : List Int32} (acc : ℕ → F)
    (hq : ∀ x ∈ xs, e₀.serves x = true → e.prefetcher.Queued ⟨layer, x⟩) :
    Tallied env e₀ B (Engine.accumulate env layer hIn xs acc e).2 ∧
      (Engine.accumulate env layer hIn xs acc e).2.prefetcher.stats.issued =
        e.prefetcher.stats.issued ∧
      (Engine.accumulate env layer hIn xs acc e).2.prefetcher.stats.fallbacks =
        e.prefetcher.stats.fallbacks + xs.countP fun x => !e₀.serves x := by
  induction xs generalizing e acc with
  | nil => exact ⟨h, rfl, rfl⟩
  | cons x xs ih =>
    have hcount : (if e₀.serves x then 0 else 1) + (xs.countP fun x => !e₀.serves x) =
        (x :: xs).countP fun x => !e₀.serves x := by
      rw [List.countP_cons]
      cases e₀.serves x <;> simp [Nat.add_comm]
    have hrest : ∀ y ∈ xs, e₀.serves y = true →
        (e.prefetcher.wait ⟨layer, x⟩).2.Queued ⟨layer, y⟩ := fun y hy hserves =>
      (hq y (List.mem_cons_of_mem x hy) hserves).wait _
    simp only [Engine.accumulate]
    split_ifs with hp
    · obtain ⟨hw, hissued, hfallbacks⟩ := h.wait hs hle (hq x List.mem_cons_self)
        { e.stats with fallbacks := e.stats.fallbacks + 1 } rfl
      obtain ⟨hxs, hissued', hfallbacks'⟩ := ih hw acc hrest
      refine ⟨hxs, hissued'.trans hissued, ?_⟩
      rw [hfallbacks', hfallbacks, ← hcount]
      omega
    · obtain ⟨hw, hissued, hfallbacks⟩ := h.wait hs hle (hq x List.mem_cons_self) e.stats rfl
      obtain ⟨hxs, hissued', hfallbacks'⟩ := ih (hw.touch hs hle ⟨layer, x⟩) _ hrest
      refine ⟨hxs, hissued'.trans hissued, hfallbacks'.trans ?_⟩
      rw [← hcount, ← add_assoc]
      exact congrArg (· + _) hfallbacks

variable [LinearOrder F]

/-- A layer issues its served ranks and falls back for the others. -/
theorem Tallied.forwardLayer (h : Tallied env e₀ B e) (layer : Int32) (hIn : ℕ → F) :
    Tallied env e₀ B (e.forwardLayer env layer hIn).2 ∧
      (e.forwardLayer env layer hIn).2.prefetcher.stats.issued =
        e.prefetcher.stats.issued + (e₀.predicted layer hIn).countP e₀.serves ∧
      (e.forwardLayer env layer hIn).2.prefetcher.stats.fallbacks =
        e.prefetcher.stats.fallbacks +
          (e₀.predicted layer hIn).countP fun x => !e₀.serves x := by
  rw [← h.reached.setup.predicted]
  obtain ⟨hstaged, hissued, hfallbacks⟩ := h.stageAll hs hle layer 0 (e.predicted layer hIn)
  have hqueued : ∀ x ∈ e.predicted layer hIn, e₀.serves x = true →
      (Engine.stageAll env layer 0 (e.predicted layer hIn) e).prefetcher.Queued ⟨layer, x⟩ :=
    fun x hx hserves =>
      h.reached.stageAll_queued hs hle (Or.inr ⟨x, hx, serves_iff.mp hserves, rfl⟩)
  obtain ⟨hdone, hissued', hfallbacks'⟩ := hstaged.accumulate hs hle layer hIn (fun _ => 0) hqueued
  refine ⟨hdone, hissued'.trans hissued, hfallbacks'.trans ?_⟩
  rw [hfallbacks]

omit hs hle [Field F] [LinearOrder F] in
theorem Tallied.usedBytes_eq (h : Tallied env e₀ B e) :
    e.cache.usedBytes = e₀.blobBytes * e.cache.residentCount ∧ e.cache.usedBytes ≤ B := by
  have hu : Uniform e₀.blobBytes e.cache := h.reached.prefetcher.uniform
  have hcap : e.cache.arena.cap = B := h.reached.prefetcher.cap
  refine ⟨?_, ?_⟩
  · rw [usedBytes, hu.tiled.used_eq, hu.total_spans, hu.residentCount_eq, Nat.mul_comm]
  · rw [usedBytes, hu.tiled.used_eq, ← hcap]
    exact hu.tiled.tiling.total_live_le.trans hu.tiled.high_le

omit hs hle [Field F] [LinearOrder F] in
theorem Tallied.trackPeak (h : Tallied env e₀ B e) : Tallied env e₀ B e.trackPeak :=
  h.quiet (h.reached.with_stats _) (fun _ hk => hk) rfl rfl rfl
    (max_le h.peak_le h.usedBytes_eq.2)

/-- A generation, up to its reset of the prefetcher. -/
theorem Tallied.generateLoop (h : Tallied env e₀ B e) :
    Tallied env e₀ B (e.generateLoop env).engine ∧
      (e.generateLoop env).engine.prefetcher.stats.issued =
        e.prefetcher.stats.issued + e.ranks env e₀.serves ∧
      (e.generateLoop env).engine.prefetcher.stats.fallbacks =
        e.prefetcher.stats.fallbacks + e.ranks env fun x => !e₀.serves x := by
  have hpredicted := h.reached.setup.predicted
  have hissued := generateLoop_sum (I := Tallied env e₀ B)
    (f := fun e => e.prefetcher.stats.issued)
    (d := fun layer hIn => (e₀.predicted layer hIn).countP e₀.serves)
    (fun e layer hIn hI => ⟨(hI.forwardLayer hs hle layer hIn).1,
      (hI.forwardLayer hs hle layer hIn).2.1⟩) (fun e hI => ⟨hI.trackPeak, rfl⟩) h
  have hfallbacks := generateLoop_sum (I := Tallied env e₀ B)
    (f := fun e => e.prefetcher.stats.fallbacks)
    (d := fun layer hIn => (e₀.predicted layer hIn).countP fun x => !e₀.serves x)
    (fun e layer hIn hI => ⟨(hI.forwardLayer hs hle layer hIn).1,
      (hI.forwardLayer hs hle layer hIn).2.2⟩) (fun e hI => ⟨hI.trackPeak, rfl⟩) h
  simp only [ranks, hpredicted]
  exact ⟨hissued.1, hissued.2, hfallbacks.2⟩

/-- The step lemma of the runs. -/
theorem Tallied.step (h : Tallied env e₀ B e) (op : Op F) : Tallied env e₀ B (e.step env op) := by
  have hreached := h.reached.step (Streams.step env hs hle) op
  cases op with
  | forwardLayer layer hIn => exact (h.forwardLayer hs hle layer hIn).1
  | generate =>
    obtain ⟨hl, -, -⟩ := h.generateLoop hs hle
    refine hl.quiet hreached (fun k hk => ?_) rfl rfl rfl hl.peak_le
    obtain ⟨t, ht, -⟩ := hk
    exact absurd ht List.not_mem_nil

end Steps

/-! What is reported -/

section Report
variable [LinearOrder F] {files : EngineFiles F} {order : VramCacheManager.Order}
  {vram : ℕ → UInt8} {cfg : EngineConfig}

/-- The last thing a token does is to note what the cache uses. -/
theorem usedBytes_le_peakVram (htokens : 0 < e.cfg.numTokens) :
    (e.generate env).2.cache.usedBytes ≤ (e.generate env).2.stats.peakVram := by
  obtain ⟨T, hT⟩ := Nat.exists_eq_add_of_lt (show 0 < e.cfg.numTokens.toNat by omega)
  have hlast : (e.generateLoop env).engine = (forRange e.cfg.numLayers.toNat (layerPass env)
      (forRange T (fun _ => tokenPass env e) (e.loopStart env))).engine.trackPeak := by
    rw [Engine.generateLoop, LoopState.tokenLoop, hT, Nat.zero_add, forRange_succ]
    rfl
  show (e.generateLoop env).engine.cache.usedBytes ≤ (e.generateLoop env).engine.stats.peakVram
  rw [hlast]
  exact le_max_right _ _

theorem init_tallied (hinit : (Engine.fresh order vram).init env files cfg = (true, e₀))
    (hinter : 0 < e₀.inter) (hhidden : 0 < e₀.hidden) (hcfg : cfg.budgetBytes < 2 ^ 64)
    (hfit : 12 * (e₀.inter.toNat * e₀.hidden.toNat) ≤ e₀.cache.arena.cap) :
    Tallied env e₀ e₀.cache.arena.cap e₀ := by
  obtain ⟨base, hstart⟩ := init_started hinit
  have hreached := (run_streams hinit hinter hhidden hcfg hfit []).2.2.2
  have hprefetcher := hstart.prefetcher
  refine ⟨hreached, fun k hk => ?_, ?_, ?_, ?_⟩
  · obtain ⟨t, ht, -⟩ := hk
    rw [hprefetcher] at ht
    exact absurd ht List.not_mem_nil
  · rw [cache, hprefetcher]
    rfl
  · rw [cache, hprefetcher]
    rfl
  · rw [(init_untouched hinit).2]
    exact Nat.zero_le _

/-- The statistics behind a generation, after any calls before it; the same with the queue of
`int` positions, while there is room in it. -/
theorem run_telemetry (hinit : (Engine.fresh order vram).init env files cfg = (true, e₀))
    (hinter : 0 < e₀.inter) (hhidden : 0 < e₀.hidden) (hcfg : cfg.budgetBytes < 2 ^ 64)
    (hfit : 12 * (e₀.inter.toNat * e₀.hidden.toNat) ≤ e₀.cache.arena.cap) (ops : List (Op F)) :
    let e := run (step env) e₀ ops
    let r := (e.generate env).2
    r.stats.prefetchIssued = e.prefetcher.stats.issued + e.ranks env e₀.serves ∧
      r.stats.prefetchFallbacks =
        e.prefetcher.stats.fallbacks + e.ranks env (fun x => !e₀.serves x) ∧
      r.stats.prefetchIssued = r.stats.cacheHits + r.stats.cacheLoads ∧
      r.stats.cacheLoads = r.stats.evictions + r.cache.residentCount ∧
      r.cache.usedBytes = e₀.blobBytes * r.cache.residentCount ∧
      r.cache.usedBytes ≤ e₀.cache.arena.cap ∧
      r.stats.peakVram ≤ e₀.cache.arena.cap ∧
      (0 < e₀.cfg.numTokens → r.cache.usedBytes ≤ r.stats.peakVram) ∧
      (Guarded (IntQueue.step env) (IntQueue.HasRoom env) e₀ (ops ++ [.generate]) →
        run (IntQueue.step env) e₀ ops = e ∧ IntQueue.generate env e = e.generate env) := by
  obtain ⟨-, hs, hle, -⟩ := run_streams hinit hinter hhidden hcfg hfit []
  have htallied : Tallied env e₀ e₀.cache.arena.cap (run (step env) e₀ ops) :=
    invariant_run_of_step (fun _ op h => h.step hs hle op)
      (init_tallied hinit hinter hhidden hcfg hfit) ops
  have hcfg' := htallied.reached.setup.cfg
  have hstart := (init_tallied hinit hinter hhidden hcfg hfit).reached
  have hint : Guarded (IntQueue.step env) (IntQueue.HasRoom env) e₀ (ops ++ [.generate]) →
      run (IntQueue.step env) e₀ ops = run (step env) e₀ ops ∧
        IntQueue.generate env (run (step env) e₀ ops) = (run (step env) e₀ ops).generate env := by
    intro hroom
    obtain ⟨hbefore, hafter⟩ := guarded_append.mp hroom
    have hrun := IntQueue.run_eq hs hle hstart hbefore
    rw [hrun] at hafter
    refine ⟨hrun, ?_⟩
    rw [IntQueue.generate, IntQueue.generateLoop_eq hs hle htallied.reached hafter.1]
    rfl
  generalize run (step env) e₀ ops = e at htallied hcfg' hint ⊢
  obtain ⟨hloop, hissued, hfallbacks⟩ := htallied.generateLoop hs hle
  have hend : Tallied env e₀ e₀.cache.arena.cap (e.generate env).2 := htallied.step hs hle .generate
  have hheld := hend.held_eq
  have hcount : (e.generate env).2.cache.residentCount =
      (e.generate env).2.cache.blocks.entries.length :=
    hend.reached.prefetcher.uniform.residentCount_eq
  refine ⟨hissued, hfallbacks, hloop.issued_eq, ?_, hend.usedBytes_eq.1, hend.usedBytes_eq.2,
    hend.peak_le, fun h => usedBytes_le_peakVram (hcfg' ▸ h), hint⟩
  rw [hcount]
  exact hheld

end Report

section Tiny

/-- Two experts in each of two layers: a call of layer 1, which issues two transfers, and a
generation, which issues four. -/
theorem run_telemetry_four_slots :
    let e := run (IntQueue.step hostPlatform) fourSlots [.forwardLayer 1 fun _ => 1]
    let r := (IntQueue.generate hostPlatform e).2
    r.stats.prefetchIssued = 6 ∧ r.stats.prefetchFallbacks = 0 ∧
      r.stats.cacheHits + r.stats.cacheLoads = 6 ∧
      r.stats.cacheLoads = r.stats.evictions + r.cache.residentCount ∧
      r.cache.usedBytes ≤ 48 ∧ r.cache.usedBytes ≤ r.stats.peakVram := by
  have hfit := (Nat.le_mul_of_pos_left _ (by decide : 0 < 4)).trans
    (fourSlots_setup.fits (by decide : 0 < 4) rfl)
  obtain ⟨hissued, hfallbacks, hbalance, hheld, -, hused, -, hpeak, hint⟩ :=
    run_telemetry fourSlots_init fourSlots_setup.inter_pos fourSlots_setup.hidden_pos (by norm_num)
      hfit [.forwardLayer 1 fun _ => 1]
  have hserves : ∀ x ∈ [0, 1], fourSlots.serves x = true := fun x hx =>
    serves_iff.mpr (fourSlots_setup.resolves fun kind => mem_expertNames hx kind)
  have hsetup : SameSetup fourSlots (run (step hostPlatform) fourSlots
      [.forwardLayer 1 fun _ => 1]) := (run_reached fourSlots_init _).setup
  have hranks : ∀ q, (run (step hostPlatform) fourSlots [.forwardLayer 1 fun _ => 1]).ranks
      hostPlatform q = 2 * [0, 1].countP q := by
    intro q
    simp only [ranks, hsetup.predicted, hsetup.cfg, fourSlots_setup.predicted, fourSlots_setup.cfg]
    simp
  have hcalled : (run (step hostPlatform) fourSlots
      [.forwardLayer 1 fun _ => 1]).prefetcher.stats.issued = 2 := by decide +kernel
  have hnone : (run (step hostPlatform) fourSlots
      [.forwardLayer 1 fun _ => 1]).prefetcher.stats.fallbacks = 0 := by decide +kernel
  have hroom : Guarded (IntQueue.step hostPlatform) (IntQueue.HasRoom hostPlatform) fourSlots
      ([.forwardLayer 1 fun _ => 1] ++ [.generate]) := by
    simp only [List.singleton_append, Guarded, IntQueue.HasRoom, and_true]
    refine ⟨?_, ?_⟩ <;> decide +kernel
  obtain ⟨hrun, hgenerate⟩ := hint hroom
  intro e r
  have hr : r = ((run (step hostPlatform) fourSlots [.forwardLayer 1 fun _ => 1]).generate
      hostPlatform).2 := by
    rw [← hgenerate, ← hrun]
  rw [hr]
  rw [hranks, hcalled, List.countP_eq_length.mpr hserves] at hissued
  rw [hranks, hnone, List.countP_eq_zero.mpr fun x hx => by simp [hserves x hx]] at hfallbacks
  have hcap : fourSlots.cache.arena.cap = 48 := fourSlots_setup.cap (by decide)
  have htokens : 0 < fourSlots.cfg.numTokens := by
    rw [fourSlots_setup.cfg]
    exact Int.one_pos
  exact ⟨hissued, hfallbacks, hbalance.symm.trans hissued, hheld, hcap ▸ hused, hpeak htokens⟩

end Tiny
end Engine
end Dee
