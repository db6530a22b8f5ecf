import Dee.EngineStaging
import Dee.VramCacheStaging

/-! The working set of a layer. All blobs have one size, so the staging loop is a pass of
equal requests over a uniform cache. It keeps the whole predicted set exactly when it
evicts stale blocks first, which their old priorities can prevent. -/
namespace Dee.Engine
open GuardedRuns VramCacheManager
variable {F : Type*} {env : Platform F} {e e₀ : Engine F} {B : ℕ}

/-- What is transferred for an expert: its blob of layer 0. -/
def blobTable (env : Platform F) (e : Engine F) : AsyncPrefetcher.ExpertTable :=
  ⟨fun _ => e.blobBytes, fun k => blobPtr env k.expert (e.layerBlob 0 k.expert)⟩

/-- The prefetcher of an engine over a budget of `B` bytes. -/
structure Streams (env : Platform F) (e₀ : Engine F) (B : ℕ) (p : AsyncPrefetcher) : Prop where
  elems_ne : e₀.blobElems ≠ 0
  bytes : p.BytesInv (e₀.blobTable env)
  uniform : Uniform e₀.blobBytes p.cache
  cap : p.cache.arena.cap = B

theorem Started.streams {order : Order} {vram : ℕ → UInt8} {base : ℕ}
    (h : Started order vram base B e) (hne : e.blobElems ≠ 0) (hB : B < 2 ^ 64) :
    Streams env e B e.prefetcher := by
  rw [h.prefetcher]
  exact ⟨hne, AsyncPrefetcher.fresh_bytesInv _ (started_inv order base hB) h.base_ne rfl vram,
    started_uniform order base hB, rfl⟩

/-- The step lemma: the calls of an engine whose budget holds a blob. -/
theorem Streams.step (env : Platform F) (hs : 0 < e₀.blobBytes) (hle : e₀.blobBytes ≤ B) (p : AsyncPrefetcher)
    (op : AsyncPrefetcher.Op) (h : Streams env e₀ B p) (hop : Calls env e₀ op) :
    Streams env e₀ B (p.step op) := by
  have hle' : e₀.blobBytes ≤ p.cache.arena.cap := by rwa [h.cap]
  cases op with
  | prefetch k src n pr =>
    obtain ⟨rfl, rfl⟩ := hop
    have hu := h.uniform.ensure hs hle' k pr
    constructor
    · exact h.elems_ne
    · exact h.bytes.prefetch (env.blobAddr_ne _) hu.toInv
    · simp only [AsyncPrefetcher.step, AsyncPrefetcher.prefetch_cache]
      exact hu
    · simp only [AsyncPrefetcher.step, AsyncPrefetcher.prefetch_cache,
        ensure_cap h.uniform.toMapInv]
      exact h.cap
  | wait k =>
    refine ⟨h.elems_ne, h.bytes.wait k, ?_, ?_⟩ <;> simp only [AsyncPrefetcher.step, AsyncPrefetcher.wait_cache]
    · exact h.uniform
    · exact h.cap
  | synchronizeAll => exact ⟨h.elems_ne, h.bytes.drainUntil _, h.uniform, h.cap⟩
  | reset => exact ⟨h.elems_ne, h.bytes.reset, h.uniform, h.cap⟩
  | touch k =>
    refine ⟨h.elems_ne, h.bytes.touch k, h.uniform.touch k, ?_⟩
    simp only [AsyncPrefetcher.step, AsyncPrefetcher.touch, touch_arena]
    exact h.cap

theorem Reached.elems_ne (h : Reached (Streams env e₀ B) e₀ e) : e.blobElems ≠ 0 := by
  rw [h.setup.blobElems]
  exact h.prefetcher.elems_ne

/-- The requests of a staging loop from rank `k` on. -/
def requests (layer : Int32) (topk : ℤ) : ℕ → List Int32 → List (ExpertKey × ℤ)
  | _, [] => []
  | k, x :: xs => (⟨layer, x⟩, toInt (topk - k)) :: requests layer topk (k + 1) xs

theorem requests_map_fst (layer : Int32) (topk : ℤ) (k : ℕ) (xs : List Int32) :
    (requests layer topk k xs).map Prod.fst = xs.map fun x => ⟨layer, x⟩ := by
  induction xs generalizing k with
  | nil => rfl
  | cons x xs ih => simp only [requests, List.map_cons, ih]

/-- On the cache, the staging loop is a pass of `ensure`. -/
theorem stageAll_cache (h : e.StagingInv) (hne : e.blobElems ≠ 0) {layer : Int32} {k : ℕ} {xs : List Int32}
    (hr : ∀ x ∈ xs, e.Resolves 0 x) : (stageAll env layer k xs e).cache =
      ensureAll e.blobBytes (requests layer e.cfg.topk k xs) e.cache := by
  induction xs generalizing e k with
  | nil => rfl
  | cons x xs ih =>
    simp only [List.forall_mem_cons] at hr
    rcases stageExpert_cases env h hne layer x (toInt (e.cfg.topk - k)) with
      ⟨hx, he⟩ | ⟨hx, -⟩
    · rw [stageAll, he, ih (h.update hx _) hne hr.2]
      simp only [requests, ensureAll, cache, AsyncPrefetcher.step, AsyncPrefetcher.prefetch_cache]
    · exact absurd hr.1 hx

theorem Reached.stageAll_resident_iff (h : Reached (Streams env e₀ B) e₀ e)
    (hs : 0 < e₀.blobBytes) (hle : e₀.blobBytes ≤ B) {layer : Int32} {xs : List Int32}
    (hnd : xs.Nodup) (hr : ∀ x ∈ xs, e₀.Resolves 0 x) :
    (∀ x ∈ xs, (Engine.stageAll env layer 0 xs e).cache.isResident ⟨layer, x⟩ = true) ↔
      SparesStaged e₀.blobBytes [] (requests layer e₀.cfg.topk 0 xs) e.cache := by
  have hinj : Function.Injective fun x => (⟨layer, x⟩ : ExpertKey) := fun x y hxy => by simpa using hxy
  have hu : Uniform e₀.blobBytes e.cache := h.prefetcher.uniform
  have hkeys := requests_map_fst layer e₀.cfg.topk 0 xs
  have hnd' : ((requests layer e₀.cfg.topk 0 xs).map Prod.fst).Nodup := by
    rw [hkeys]
    exact hnd.map hinj
  have hle' : e₀.blobBytes ≤ e.cache.arena.cap := by
    rw [cache, h.prefetcher.cap]
    exact hle
  rw [stageAll_cache h.staging h.elems_ne fun x hx => (h.setup.resolves 0 x).mpr (hr x hx), h.setup.blobBytes,
    h.setup.cfg, ← hu.ensureAll_resident_iff hs hle' hnd' (by simp) (by simp)]
  simp [hkeys]

variable [Field F] [LinearOrder F] {files : EngineFiles F} {order : Order} {vram : ℕ → UInt8}
  {cfg : EngineConfig}

/-- The reached engines when the budget holds a blob. -/
theorem run_streams (hinit : (Engine.fresh order vram).init env files cfg = (true, e₀))
    (hinter : 0 < e₀.inter) (hhidden : 0 < e₀.hidden) (hcfg : cfg.budgetBytes < 2 ^ 64)
    (hfit : 12 * (e₀.inter.toNat * e₀.hidden.toNat) ≤ e₀.cache.arena.cap) (ops : List (Op F)) :
    e₀.blobBytes = 12 * e₀.weights ∧ 0 < e₀.blobBytes ∧ e₀.blobBytes ≤ e₀.cache.arena.cap ∧
      Reached (Streams env e₀ e₀.cache.arena.cap) e₀ (run (step env) e₀ ops) := by
  obtain ⟨base, hs⟩ := init_started hinit
  generalize hb : (if cfg.budgetBytes ≠ 0 then cfg.budgetBytes else 4 * e₀.blobBytes % 2 ^ 64) = b
    at hs
  have hlt : b < 2 ^ 64 := by
    rw [← hb]
    split_ifs
    · exact hcfg
    · exact Nat.mod_lt _ (by norm_num)
  have hcap : e₀.cache.arena.cap = b := by
    rw [cache, hs.prefetcher]
    rfl
  rw [hcap] at hfit ⊢
  have hd : e₀.Dims := ⟨hinter, hhidden, hs.inter_lt, hs.hidden_lt⟩
  have hw : e₀.blobBytes = 12 * e₀.weights := by
    rw [hs.blobBytes, hd.blob_bytes (lt_of_le_of_lt hfit hlt)]
  have hpos : 0 < e₀.blobBytes := by
    have := hd.weights_pos
    omega
  have hle : e₀.blobBytes ≤ b := hw.trans_le hfit
  have hne : e₀.blobElems ≠ 0 := by
    have := hd.weights_pos
    rw [hs.blobElems, hd.blob_size]
    omega
  have h0 : Reached (Streams env e₀ b) e₀ e₀ := hs.reached (by
    rw [← hs.prefetcher]
    exact hs.streams hne hlt)
  exact ⟨hw, hpos, hle, h0.run (Streams.step env hpos hle) ops⟩

/-- After every run, when the budget holds the predicted set: the staging loop leaves all
of it resident exactly when each of its evictions finds a stale block first. -/
theorem run_predicted_resident_iff
    (hinit : (Engine.fresh order vram).init env files cfg = (true, e₀)) (hinter : 0 < e₀.inter)
    (hhidden : 0 < e₀.hidden) (hcfg : cfg.budgetBytes < 2 ^ 64) (ops : List (Op F)) (layer : Int32)
    (hIn : ℕ → F) (hnd : (e₀.predicted layer hIn).Nodup)
    (hr : ∀ x ∈ e₀.predicted layer hIn, e₀.Resolves 0 x)
    (hfit : (e₀.predicted layer hIn).length * (12 * (e₀.inter.toNat * e₀.hidden.toNat)) ≤
      e₀.cache.arena.cap) :
    let e := run (step env) e₀ ops
    (∀ x ∈ e.predicted layer hIn,
      (stageAll env layer 0 (e.predicted layer hIn) e).cache.isResident ⟨layer, x⟩ = true) ↔
      SparesStaged e.blobBytes [] (requests layer e.cfg.topk 0 (e.predicted layer hIn)) e.cache := by
  intro e
  cases hxs : e₀.predicted layer hIn with
  | nil =>
    rw [(run_reached hinit ops).setup.predicted, hxs]
    simp [requests, SparesStaged]
  | cons x xs =>
    rw [hxs, List.length_cons, Nat.succ_mul] at hfit
    obtain ⟨-, hpos, hle, hrun⟩ := run_streams hinit hinter hhidden hcfg (by omega) ops
    rw [hrun.setup.predicted, hrun.setup.blobBytes, hrun.setup.cfg]
    exact hrun.stageAll_resident_iff hpos hle hnd hr

section Tiny

/-- Six experts; layer 0 uses the first three and layer 1 the others, in three slots. -/
noncomputable def sixExperts : Engine ℝ :=
  (tinyInit (expertNames 0 [0, 1, 2, 3, 4, 5])
    (fun layer => if layer = 0 then [0, 1, 2] else [3, 4, 5]) 3 36).2

theorem sixExperts_init : (Engine.fresh (.newestFirst _ _) fun _ => 0).init hostPlatform
    (tinyFiles (expertNames 0 [0, 1, 2, 3, 4, 5]) fun layer => if layer = 0 then [0, 1, 2]
      else [3, 4, 5]) ⟨1, 3, 2, 36, false, 1⟩ = (true, sixExperts) :=
  tinyInit_eq (gate_expertNames (by decide))

theorem sixExperts_setup : TinySetup (expertNames 0 [0, 1, 2, 3, 4, 5])
    (fun layer => if layer = 0 then [0, 1, 2] else [3, 4, 5]) 3 36 sixExperts :=
  tinyInit_setup (gate_expertNames (by decide))

theorem sixExperts_resolves : ∀ x ∈ [0, 1, 2, 3, 4, 5], sixExperts.Resolves 0 x := fun _ hx =>
  sixExperts_setup.resolves fun kind => mem_expertNames hx kind

/-- Layer 1, run after layer 0, evicts its expert 4 before an expert of layer 0. -/
theorem sixExperts_layer1 :
    let e := run (step hostPlatform) sixExperts [.forwardLayer 0 fun _ => 0]
    let staged := stageAll hostPlatform 1 0 [3, 4, 5] e
    3 * e.blobBytes ≤ e.cache.arena.cap ∧
      staged.cache.isResident ⟨1, 4⟩ = false ∧ staged.cache.isResident ⟨0, 0⟩ = true := by
  dsimp only
  decide +kernel

theorem sixExperts_predicted (ops : List (Op ℝ)) :
    ((run (step hostPlatform) sixExperts ops).predicted 1 fun _ => 0) = [3, 4, 5] := by
  rw [(run_reached sixExperts_init ops).setup.predicted, sixExperts_setup.predicted]
  rfl

/-- After a run of layer 0, the condition fails for layer 1. -/
theorem run_predicted_resident_iff_six :
    let e := run (step hostPlatform) sixExperts [.forwardLayer 0 fun _ => 0]
    ¬ SparesStaged e.blobBytes [] (requests 1 e.cfg.topk 0 (e.predicted 1 fun _ => 0)) e.cache := by
  have hxs : (sixExperts.predicted 1 fun _ => 0) = [3, 4, 5] := sixExperts_predicted []
  have hr : ∀ x ∈ [3, 4, 5], sixExperts.Resolves 0 x := fun x hx =>
    sixExperts_resolves x (List.mem_append_right [0, 1, 2] hx)
  have hiff := run_predicted_resident_iff sixExperts_init sixExperts_setup.inter_pos
    sixExperts_setup.hidden_pos (by norm_num)
    [.forwardLayer 0 fun _ => 0] 1 (fun _ => 0) (by rw [hxs]; decide) (by rw [hxs]; exact hr)
    (by rw [hxs]; exact sixExperts_setup.fits (by decide) rfl)
  obtain ⟨-, hout, -⟩ := sixExperts_layer1
  dsimp only at hiff hout ⊢
  rw [← hiff, sixExperts_predicted]
  intro hall
  have h4 := hall 4 (by decide)
  rw [hout] at h4
  cases h4

/-- Staging expert 5 evicts expert 4 of the same layer, and an expert of layer 0 stays. -/
theorem staging_evicts_predicted :
    let e := run (step hostPlatform) sixExperts [.forwardLayer 0 fun _ => 0]
    let staged := stageAll hostPlatform 1 0 (e.predicted 1 fun _ => 0) e
    (e.predicted 1 fun _ => 0) = [3, 4, 5] ∧ (∀ x ∈ [3, 4, 5], sixExperts.Resolves 0 x) ∧
      e.cfg.topk = 3 ∧ 3 * e.blobBytes ≤ e.cache.arena.cap ∧
      staged.cache.isResident ⟨1, 4⟩ = false ∧ staged.cache.isResident ⟨0, 0⟩ = true := by
  obtain ⟨hfit, hout, hstays⟩ := sixExperts_layer1
  dsimp only at hfit hout hstays ⊢
  rw [sixExperts_predicted]
  refine ⟨rfl, fun x hx => sixExperts_resolves x (List.mem_append_right [0, 1, 2] hx), ?_, hfit,
    hout, hstays⟩
  rw [(run_reached sixExperts_init _).setup.cfg, sixExperts_setup.cfg]

end Tiny

end Dee.Engine
