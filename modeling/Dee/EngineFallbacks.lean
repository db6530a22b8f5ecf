import Dee.EngineAccumulation

/-! The experts that generation skips. The counter that a layer raises for them is the one
that `generate` sets again, from the statistics of the cache, when it gathers its own. -/
namespace Dee
open CountedLoops VramCacheManager

/-- The ranks of a layer whose expert is no longer in the cache when its turn comes. -/
def skippedRanks (layer : Int32) : List Int32 → AsyncPrefetcher → ℕ
  | [], _ => 0
  | x :: xs, p =>
    let p₁ := (p.wait ⟨layer, x⟩).2
    if p₁.cache.data ⟨layer, x⟩ = 0 then skippedRanks layer xs p₁ + 1
    else skippedRanks layer xs (p₁.touch ⟨layer, x⟩)

/-- None is skipped when all of them are in the cache at the start. -/
theorem skippedRanks_eq_zero_iff {layer : Int32} {xs : List Int32} {p : AsyncPrefetcher} :
    skippedRanks layer xs p = 0 ↔ ∀ x ∈ xs, p.cache.data ⟨layer, x⟩ ≠ 0 := by
  induction xs generalizing p with
  | nil => simp [skippedRanks]
  | cons x xs ih =>
    simp only [skippedRanks, List.forall_mem_cons, AsyncPrefetcher.wait_cache]
    split_ifs with hp
    · simp [hp]
    · rw [ih]
      simp only [AsyncPrefetcher.touch, AsyncPrefetcher.wait_cache, VramCacheManager.touch_data]
      exact ⟨fun h => ⟨hp, h⟩, And.right⟩

namespace Engine
variable {F : Type*} [Field F] {env : Platform F} {e : Engine F}

def layerSkips (env : Platform F) (e : Engine F) (layer : Int32) (hIn : ℕ → F) : ℕ :=
  skippedRanks layer (e.predicted layer hIn)
    (stageAll env layer 0 (e.predicted layer hIn) e).prefetcher

/-- The staging loop of the layer leaves every predicted expert in the cache. -/
def KeepsPredicted (env : Platform F) (e : Engine F) (layer : Int32) (hIn : ℕ → F) : Prop :=
  ∀ x ∈ e.predicted layer hIn,
    (stageAll env layer 0 (e.predicted layer hIn) e).cache.data ⟨layer, x⟩ ≠ 0

theorem accumulate_counts (layer : Int32) (hIn : ℕ → F) (xs : List Int32) (acc : ℕ → F)
    (e : Engine F) : (accumulate env layer hIn xs acc e).2.stats.fallbacks =
      e.stats.fallbacks + skippedRanks layer xs e.prefetcher := by
  induction xs generalizing e acc with
  | nil => rfl
  | cons x xs ih =>
    simp only [accumulate, skippedRanks, cache, AsyncPrefetcher.wait_cache]
    split_ifs with hp
    · rw [ih]
      simp only
      omega
    · rw [ih]

/-- A layer raises the counter by the ranks that it skips. -/
theorem forwardLayer_counts [LinearOrder F] (layer : Int32) (hIn : ℕ → F) (e : Engine F) :
    (e.forwardLayer env layer hIn).2.stats.fallbacks =
      e.stats.fallbacks + e.layerSkips env layer hIn := by
  simp only [forwardLayer, accumulate_counts, stageAll_stats, layerSkips]

/-! The run of `generate` -/

section Run
variable [LinearOrder F]

/-- One layer of a token. -/
def layerPass (env : Platform F) (L : ℕ) (s : LoopState (ℕ → F) (Engine F)) :
    LoopState (ℕ → F) (Engine F) :=
  LoopState.layerStep (fun L h e => e.forwardLayer env (Int32.ofNat L) h) L s

/-- One token. -/
def tokenPass (env : Platform F) (e : Engine F) (s : LoopState (ℕ → F) (Engine F)) :
    LoopState (ℕ → F) (Engine F) :=
  LoopState.tokenStep (fun L h e => e.forwardLayer env (Int32.ofNat L) h) trackPeak
    e.cfg.numLayers.toNat s

/-- The state of `generate` before layer `L` of token `t`. -/
def beforeLayer (env : Platform F) (e : Engine F) (t L : ℕ) : LoopState (ℕ → F) (Engine F) :=
  forRange L (layerPass env) (forRange t (fun _ => tokenPass env e) (e.loopStart env))

/-- The evaluations of a run, by token, layer and rank, that a layer skips. -/
def skippedEvaluations (env : Platform F) (e : Engine F) : ℕ :=
  ∑ t ∈ Finset.range e.cfg.numTokens.toNat, ∑ L ∈ Finset.range e.cfg.numLayers.toNat,
    (e.beforeLayer env t L).engine.layerSkips env (Int32.ofNat L) (e.beforeLayer env t L).current

theorem layers_count (env : Platform F) (n : ℕ) (s : LoopState (ℕ → F) (Engine F)) :
    (forRange n (layerPass env) s).engine.stats.fallbacks = s.engine.stats.fallbacks +
      ∑ L ∈ Finset.range n, (forRange L (layerPass env) s).engine.layerSkips env (Int32.ofNat L)
        (forRange L (layerPass env) s).current := by
  induction n with
  | zero => rfl
  | succ n ih =>
    rw [forRange_succ, Finset.sum_range_succ, ← add_assoc, ← ih]
    exact forwardLayer_counts _ _ _

/-- The layers count every skipped evaluation. -/
theorem generateLoop_counts (env : Platform F) (e : Engine F) :
    (e.generateLoop env).engine.stats.fallbacks =
      e.stats.fallbacks + e.skippedEvaluations env := by
  have htokens : ∀ T s, (forRange T (fun _ => tokenPass env e) s).engine.stats.fallbacks =
      s.engine.stats.fallbacks + ∑ t ∈ Finset.range T, ∑ L ∈ Finset.range e.cfg.numLayers.toNat,
        (forRange L (layerPass env) (forRange t (fun _ => tokenPass env e) s)).engine.layerSkips
          env (Int32.ofNat L)
          (forRange L (layerPass env) (forRange t (fun _ => tokenPass env e) s)).current := by
    intro T s
    induction T with
    | zero => rfl
    | succ T ih =>
      rw [forRange_succ, Finset.sum_range_succ, ← add_assoc, ← ih]
      exact layers_count env _ _
  exact htokens _ _

theorem skippedEvaluations_eq_zero_iff : e.skippedEvaluations env = 0 ↔
    ∀ t < e.cfg.numTokens.toNat, ∀ L < e.cfg.numLayers.toNat,
      (e.beforeLayer env t L).engine.KeepsPredicted env (Int32.ofNat L)
        (e.beforeLayer env t L).current := by
  simp only [skippedEvaluations, Finset.sum_eq_zero_iff, Finset.mem_range, layerSkips,
    skippedRanks_eq_zero_iff]
  rfl

/-- Before each layer of a run the engine is one that calls lead to. -/
theorem Reached.beforeLayer {P : AsyncPrefetcher → Prop} {e₀ : Engine F}
    (hP : ∀ p op, P p → Calls env e₀ op → P (p.step op)) (h : Reached P e₀ e) (t L : ℕ) :
    Reached P e₀ (e.beforeLayer env t L).engine := by
  have hlayers : ∀ n (s : LoopState (ℕ → F) (Engine F)), Reached P e₀ s.engine →
      Reached P e₀ (forRange n (layerPass env) s).engine := by
    intro n s hs
    exact forRange_invariant
      (P := fun (_ : ℕ) (s : LoopState (ℕ → F) (Engine F)) => Reached P e₀ s.engine) hs
      fun L s _ hs => hs.forwardLayer hP _ _
  apply hlayers
  apply forRange_invariant
    (P := fun (_ : ℕ) (s : LoopState (ℕ → F) (Engine F)) => Reached P e₀ s.engine)
  · exact h
  · exact fun t s _ hs => (hlayers _ s hs).with_stats _

omit [Field F] [LinearOrder F] in
/-- Distinct experts of the shard are all kept exactly when each eviction of the staging
loop finds a stale block first. -/
theorem Reached.keepsPredicted_iff {e₀ : Engine F} {B : ℕ} (h : Reached (Streams env e₀ B) e₀ e)
    (hs : 0 < e₀.blobBytes) (hle : e₀.blobBytes ≤ B) (layer : Int32) (hIn : ℕ → F)
    (hnd : (e₀.predicted layer hIn).Nodup) (hr : ∀ x ∈ e₀.predicted layer hIn, e₀.Resolves 0 x) :
    KeepsPredicted env e layer hIn ↔ SparesStaged e₀.blobBytes []
      (requests layer e₀.cfg.topk 0 (e₀.predicted layer hIn)) e.cache := by
  have hslot := (h.stageAll (Streams.step env hs hle) layer 0
    (e₀.predicted layer hIn)).prefetcher.bytes.slot
  rw [← h.stageAll_resident_iff hs hle hnd hr, KeepsPredicted, h.setup.predicted]
  exact forall₂_congr fun x _ => hslot.data_ne_zero

end Run

/-! What `stats()` then says -/

section Report
variable [LinearOrder F] {files : EngineFiles F} {order : VramCacheManager.Order}
  {vram : ℕ → UInt8} {cfg : EngineConfig}

/-- `stats().fallbacks` behind a call is the number of skipped evaluations and of fallbacks
that the cache counted in the call. -/
def ReportsSkips (env : Platform F) (e : Engine F) : Prop :=
  (e.generate env).2.stats.fallbacks = e.skippedEvaluations env +
    ((e.generate env).2.cache.stats.fallbacks - e.cache.stats.fallbacks)

theorem reportsSkips_iff (hcache : e.cache.stats.fallbacks = 0) :
    ReportsSkips env e ↔ e.skippedEvaluations env = 0 := by
  have hreport : (e.generate env).2.stats.fallbacks =
      (e.generate env).2.cache.stats.fallbacks := rfl
  unfold ReportsSkips
  rw [hreport, hcache]
  omega

omit [LinearOrder F] in
/-- The cache of a fresh engine has counted nothing. -/
theorem init_fallbacks (hinit : (Engine.fresh order vram).init env files cfg = (true, e)) :
    e.cache.stats.fallbacks = 0 := by
  obtain ⟨base, hs⟩ := init_started hinit
  rw [cache, hs.prefetcher]
  rfl

/-- The first call reports the skipped experts exactly when there are none: each layer of
each token keeps what it predicts in the cache. -/
theorem generate_reports_skips_iff
    (hinit : (Engine.fresh order vram).init env files cfg = (true, e)) :
    ReportsSkips env e ↔
      ∀ t < e.cfg.numTokens.toNat, ∀ L < e.cfg.numLayers.toNat,
        (e.beforeLayer env t L).engine.KeepsPredicted env (Int32.ofNat L)
          (e.beforeLayer env t L).current := by
  rw [reportsSkips_iff (init_fallbacks hinit), skippedEvaluations_eq_zero_iff]

/-- With a budget of a blob, and an Oracle that predicts distinct experts of the shard, the
caches before the layers decide. -/
theorem reportsSkips_iff_sparesStaged
    (hinit : (Engine.fresh order vram).init env files cfg = (true, e)) (hinter : 0 < e.inter)
    (hhidden : 0 < e.hidden) (hcfg : cfg.budgetBytes < 2 ^ 64)
    (hfit : 12 * (e.inter.toNat * e.hidden.toNat) ≤ e.cache.arena.cap)
    (hnd : ∀ layer hIn, (e.predicted layer hIn).Nodup)
    (hr : ∀ layer hIn, ∀ x ∈ e.predicted layer hIn, e.Resolves 0 x) :
    ReportsSkips env e ↔
      ∀ t < e.cfg.numTokens.toNat, ∀ L < e.cfg.numLayers.toNat,
        SparesStaged e.blobBytes [] (requests (Int32.ofNat L) e.cfg.topk 0
          (e.predicted (Int32.ofNat L) (e.beforeLayer env t L).current))
          (e.beforeLayer env t L).engine.cache := by
  obtain ⟨-, hs, hle, hrun⟩ := run_streams hinit hinter hhidden hcfg hfit []
  rw [reportsSkips_iff (init_fallbacks hinit), skippedEvaluations_eq_zero_iff]
  refine forall₂_congr fun t _ => forall₂_congr fun L _ => ?_
  have hreached := hrun.beforeLayer (Streams.step env hs hle) t L
  exact hreached.keepsPredicted_iff hs hle _ _ (hnd _ _) (hr _ _)

end Report

section Tiny

theorem generate_reports_skips_iff_oneSlot : ReportsSkips hostPlatform oneSlot ↔
    ∀ t < oneSlot.cfg.numTokens.toNat, ∀ L < oneSlot.cfg.numLayers.toNat,
      (oneSlot.beforeLayer hostPlatform t L).engine.KeepsPredicted hostPlatform (Int32.ofNat L)
        (oneSlot.beforeLayer hostPlatform t L).current :=
  generate_reports_skips_iff oneSlot_init

/-- With one slot each layer skips an expert, and none is reported. -/
theorem generate_loses_skips : ¬ ∀ (env : Platform ℝ) (files : EngineFiles ℝ)
    (order : VramCacheManager.Order) (vram : ℕ → UInt8) (cfg : EngineConfig) (e : Engine ℝ),
    (Engine.fresh order vram).init env files cfg = (true, e) → ReportsSkips env e := by
  intro h
  have hzero := (reportsSkips_iff (init_fallbacks oneSlot_init)).mp
    (h _ _ _ _ _ _ oneSlot_init)
  have htoken : 0 < oneSlot.cfg.numTokens.toNat := by
    rw [oneSlot_setup.cfg]
    exact Nat.one_pos
  have hlayer : 0 < oneSlot.cfg.numLayers.toNat := by
    rw [oneSlot_setup.cfg]
    exact Nat.two_pos
  have hkeeps := skippedEvaluations_eq_zero_iff.mp hzero 0 htoken 0 hlayer 0 (by decide +kernel)
  exact hkeeps (by decide +kernel)

end Tiny

end Engine
end Dee
