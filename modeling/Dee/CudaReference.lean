import Dee.EngineReference

/-! The GPU path next to the plain forward pass, with one SwiGLU for both. Its two other
differences from the CPU path, that it keeps no recency and that its device rows outlive a
call, cannot be observed when the working set fits and the shard serves what the Oracle asks for. -/
namespace Dee.CudaEngine
open GuardedRuns VramCacheManager ThreadLaunch Engine
variable {F : Type*} {env : Platform F} {e₀ : Engine F} {B : ℕ} {keys : Finset ExpertKey}
  {layers : Finset Int32}

/-- Every expert that the layers can ask for is in the shard. -/
def Serves (e : Engine F) (layers : Finset Int32) : Prop :=
  ∀ layer ∈ layers, ∀ hIn, ∀ x ∈ e.predicted layer hIn, e.Resolves 0 x

variable [Field F]

/-- A call of the GPU path as a step. -/
def step [LinearOrder F] (env : Platform F) (g : CudaEngine F) (call : LayerCall F) :
    CudaEngine F := (g.forwardLayerCuda env call).2

/-- The loop over the experts waits, and leaves the cache alone. -/
theorem runExperts_cache (layer : Int32) (hIn : ℕ → F) (k : ℕ) (xs : List Int32)
    (g : CudaEngine F) : (runExperts env layer hIn k xs g).engine.cache = g.engine.cache := by
  induction xs generalizing g k with
  | nil => rfl
  | cons x xs ih =>
    simp only [runExperts]
    split_ifs
    · rw [ih]
      exact waitFor_cache g.engine ⟨layer, x⟩
    · rw [ih]
      exact waitFor_cache g.engine ⟨layer, x⟩

variable [LinearOrder F]

omit [LinearOrder F] in
theorem combined_cache (g : CudaEngine F) (call : LayerCall F) :
    (g.combined env call).2.engine.cache =
      (Engine.stageAll env call.layer 0 (g.engine.predicted call.layer call.hIn) g.engine).cache := by
  unfold combined
  cases g.engine.predicted call.layer call.hIn with
  | nil => rfl
  | cons x xs => exact runExperts_cache call.layer call.hIn 0 (x :: xs) _

/-- The mean and the rescaling of the CPU path, in the form of the GPU path. -/
theorem combine_eq_stabilize (env : Platform F) (hidden count : ℕ) (acc : ℕ → F) :
    combine env hidden count acc =
      stabilize env hidden fun i => acc i * if count = 0 then 1 else 1 / (count : F) := by
  have hten : ((10 ^ 8 : ℕ) : F) = 10 ^ 8 := by rw [Nat.cast_pow, Nat.cast_ofNat]
  unfold combine stabilize
  rw [hten]

theorem stabilize_congr {hidden : ℕ} {v w : ℕ → F} (h : ∀ i < hidden, v i = w i) :
    stabilize env hidden v = stabilize env hidden w := by
  have hsum : ∑ i ∈ Finset.range hidden, v i * v i = ∑ i ∈ Finset.range hidden, w i * w i :=
    Finset.sum_congr rfl fun i hi => by rw [h i (Finset.mem_range.mp hi)]
  funext i
  simp only [stabilize, hsum]
  split_ifs with hi
  · rw [h i hi]
  · rw [h i hi]
  · rfl

section Steps
variable (hs : 0 < e₀.blobBytes) (hle : e₀.blobBytes ≤ B) (hw : e₀.blobBytes = 12 * e₀.weights)
  (hgrid : e₀.hidden.toNat + 255 < 2 ^ 31) (hasks : e₀.AsksFor layers keys)
  (hserves : Serves e₀ layers)
include hs hle hw hgrid hasks hserves

/-- The step lemma: a layer on the GPU path computes the plain forward pass, whatever the
scratch holds. -/
theorem forwardLayerCuda_reference {g : CudaEngine F} (h : Ample env e₀ B keys g.engine)
    {call : LayerCall F} (hlayer : call.layer ∈ layers)
    (horder : call.order.Perm (threads (grid e₀.hidden.toNat) 256)) :
    (g.forwardLayerCuda env call).1 = e₀.referenceLayer env call.layer call.hIn ∧
      Ample env e₀ B keys (g.forwardLayerCuda env call).2.engine := by
  have hxs : g.engine.predicted call.layer call.hIn = e₀.predicted call.layer call.hIn :=
    h.reached.setup.predicted call.layer call.hIn
  have hkeys : ∀ x ∈ e₀.predicted call.layer call.hIn, e₀.Resolves 0 x → ⟨call.layer, x⟩ ∈ keys :=
    hasks call.layer hlayer call.hIn
  have hstays : ∀ x ∈ e₀.predicted call.layer call.hIn,
      Stays env g.engine call.layer (e₀.predicted call.layer call.hIn) x = true := by
    intro x hx
    rw [h.stays hs hle hkeys hx]
    exact serves_iff.mpr (hserves call.layer hlayer call.hIn x hx)
  have hserved : ∀ x ∈ e₀.predicted call.layer call.hIn, e₀.serves x = true := fun x hx =>
    serves_iff.mpr (hserves call.layer hlayer call.hIn x hx)
  obtain ⟨hready, hrows⟩ := h.toReady.combined_cuda hs hle hw hgrid horder
  have hhold := (h.stageAll hs hle hkeys 0).1.holding
  constructor
  · rw [forwardLayerCuda, referenceLayer, combine_eq_stabilize, h.reached.setup.hidden]
    apply stabilize_congr
    intro o ho
    rw [hrows o ho, staleAt_eq_zero _ _ _ _ hstays, add_zero, List.filter_eq_self.mpr hstays,
      List.filter_eq_self.mpr hserved]
  · refine ⟨hready, ?_⟩
    rw [← hxs, ← combined_cache] at hhold
    exact hhold

/-- The run lemma, over any sequence of layer calls. -/
theorem runCuda_reference {g : CudaEngine F} (h : Ample env e₀ B keys g.engine)
    {calls : List (LayerCall F)} (hcalls : ∀ call ∈ calls, call.layer ∈ layers ∧
      call.order.Perm (threads (grid e₀.hidden.toNat) 256)) :
    outputs (fun g call => [(g.forwardLayerCuda env call).1]) (step env) g calls =
      calls.map fun call => e₀.referenceLayer env call.layer call.hIn := by
  induction calls generalizing g with
  | nil => rfl
  | cons call calls ih =>
    obtain ⟨⟨hlayer, horder⟩, hrest⟩ := List.forall_mem_cons.mp hcalls
    obtain ⟨hout, hnext⟩ :=
      forwardLayerCuda_reference hs hle hw hgrid hasks hserves h hlayer horder
    rw [outputs, hout, List.singleton_append, List.map_cons, step, ih hnext hrest]

end Steps

/-- The run lemma of the CPU path. -/
theorem runLayers_reference (hs : 0 < e₀.blobBytes) (hle : e₀.blobBytes ≤ B)
    (hw : e₀.blobBytes = 12 * e₀.weights) (hasks : e₀.AsksFor layers keys) {e : Engine F}
    (h : Ample env e₀ B keys e) {calls : List (LayerCall F)}
    (hcalls : ∀ call ∈ calls, call.layer ∈ layers) :
    outputs (fun e op => [e.output env op]) (Engine.step env) e
        (calls.map fun call => .forwardLayer call.layer call.hIn) =
      calls.map fun call => e₀.referenceLayer env call.layer call.hIn := by
  induction calls generalizing e with
  | nil => rfl
  | cons call calls ih =>
    obtain ⟨hlayer, hrest⟩ := List.forall_mem_cons.mp hcalls
    obtain ⟨hout, hnext⟩ := h.forwardLayer hs hle hw hasks hlayer call.hIn
    rw [List.map_cons, outputs, List.map_cons, Engine.output, hout, List.singleton_append]
    exact congrArg _ (ih hnext hrest)

/-! The positions of the queue in an `int` -/

/-- The ranks that the Oracle predicts for the calls. -/
def predictedRanks (e : Engine F) (calls : List (LayerCall F)) : ℕ :=
  (calls.map fun call => (e.predicted call.layer call.hIn).length).sum

namespace IntQueue

/-- `wait` on the engine's prefetcher. -/
def waitFor (e : Engine F) (k : ExpertKey) : Engine F :=
  { e with prefetcher := (AsyncPrefetcher.IntQueue.wait e.prefetcher k).2 }

def runExperts (env : Platform F) (layer : Int32) (hIn : ℕ → F) :
    ℕ → List Int32 → CudaEngine F → CudaEngine F
  | _, [], g => g
  | k, x :: xs, g =>
    let e := waitFor g.engine ⟨layer, x⟩
    let p := e.cache.data ⟨layer, x⟩
    if p = 0 then runExperts env layer hIn (k + 1) xs { g with engine := e.countFallback }
    else
      let blob := Engine.readFloats env e.prefetcher.vram p
      let y := swiglu env.exp blob hIn e.inter.toNat e.hidden.toNat fun _ => 0
      runExperts env layer hIn (k + 1) xs
        { g with engine := e, ybuf := storeRow e.hidden.toNat k y g.ybuf }

def combined (env : Platform F) (g : CudaEngine F) (call : LayerCall F) :
    (ℕ → F) × CudaEngine F :=
  match g.engine.predicted call.layer call.hIn with
  | [] => (fun _ => 0, g)
  | x :: xs =>
    let g₁ := runExperts env call.layer call.hIn 0 (x :: xs)
      { g with engine := Engine.stageAll env call.layer 0 (x :: xs) g.engine }
    let hOut := combineCuda g₁.ybuf g₁.hOut (x :: xs).length g₁.engine.hidden.toNat call.order
    (hOut, { g₁ with hOut := hOut })

def forwardLayerCuda (env : Platform F) (g : CudaEngine F) (call : LayerCall F) :
    (ℕ → F) × CudaEngine F :=
  let r := combined env g call
  (stabilize env g.engine.hidden.toNat r.1, r.2)

def step (env : Platform F) (g : CudaEngine F) (call : LayerCall F) : CudaEngine F :=
  (forwardLayerCuda env g call).2

omit [Field F] [LinearOrder F] in
theorem waitFor_eq {e : Engine F} (h : Ready env e₀ B e) (hroom : e.queued < 2 ^ 31)
    (k : ExpertKey) : waitFor e k = e.waitFor k := by
  rw [waitFor, AsyncPrefetcher.IntQueue.wait_eq h.reached.prefetcher.bytes.queue hroom k]
  rfl

section Steps
variable (hs : 0 < e₀.blobBytes) (hle : e₀.blobBytes ≤ B)
include hs hle

omit [LinearOrder F] in
theorem runExperts_eq {g : CudaEngine F} (h : Ready env e₀ B g.engine)
    (hroom : g.engine.queued < 2 ^ 31) (layer : Int32) (hIn : ℕ → F) (k : ℕ) (xs : List Int32) :
    runExperts env layer hIn k xs g = CudaEngine.runExperts env layer hIn k xs g ∧
      (runExperts env layer hIn k xs g).engine.queued = g.engine.queued := by
  induction xs generalizing g k with
  | nil => exact ⟨rfl, rfl⟩
  | cons x xs ih =>
    have hwait := h.waitFor hs hle ⟨layer, x⟩
    have hlen := queued_waitFor g.engine ⟨layer, x⟩
    simp only [runExperts, CudaEngine.runExperts, waitFor_eq h hroom ⟨layer, x⟩]
    split_ifs
    · obtain ⟨hrun, hqueued⟩ := ih (g := { g with
        engine := (g.engine.waitFor ⟨layer, x⟩).countFallback }) hwait.countFallback
        (hlen.trans_lt hroom) (k + 1)
      exact ⟨hrun, hqueued.trans hlen⟩
    · generalize storeRow _ k _ g.ybuf = ybuf
      obtain ⟨hrun, hqueued⟩ := ih (g := ⟨g.engine.waitFor ⟨layer, x⟩, ybuf, g.hOut⟩) hwait
        (hlen.trans_lt hroom) (k + 1)
      exact ⟨hrun, hqueued.trans hlen⟩

theorem forwardLayerCuda_eq {g : CudaEngine F} (h : Ready env e₀ B g.engine) {call : LayerCall F}
    (hroom : g.engine.queued + (g.engine.predicted call.layer call.hIn).length < 2 ^ 31) :
    forwardLayerCuda env g call = g.forwardLayerCuda env call ∧
      (g.forwardLayerCuda env call).2.engine.queued ≤
        g.engine.queued + (g.engine.predicted call.layer call.hIn).length := by
  have hstaged := h.stageAll hs hle call.layer 0 (g.engine.predicted call.layer call.hIn)
  have hle' := (queued_stageAll env call.layer 0
    (g.engine.predicted call.layer call.hIn) g.engine).2
  unfold forwardLayerCuda CudaEngine.forwardLayerCuda combined CudaEngine.combined
  generalize g.engine.predicted call.layer call.hIn = xs at hroom hstaged hle' ⊢
  cases xs with
  | nil => exact ⟨rfl, Nat.le_add_right _ _⟩
  | cons x xs =>
    obtain ⟨hrun, hqueued⟩ := runExperts_eq (g := { g with
      engine := Engine.stageAll env call.layer 0 (x :: xs) g.engine }) hs hle hstaged
      (hle'.trans_lt hroom) call.layer call.hIn 0 (x :: xs)
    simp only [← hrun]
    exact ⟨trivial, hqueued.trans_le hle'⟩

end Steps

/-- A run of calls whose ranks fit in the queue. -/
theorem runCuda_eq (hs : 0 < e₀.blobBytes) (hle : e₀.blobBytes ≤ B)
    (hw : e₀.blobBytes = 12 * e₀.weights) (hgrid : e₀.hidden.toNat + 255 < 2 ^ 31)
    (hasks : e₀.AsksFor layers keys) (hserves : Serves e₀ layers) {g : CudaEngine F}
    (h : Ample env e₀ B keys g.engine) {calls : List (LayerCall F)}
    (hcalls : ∀ call ∈ calls, call.layer ∈ layers ∧
      call.order.Perm (threads (grid e₀.hidden.toNat) 256))
    (hroom : g.engine.queued + predictedRanks e₀ calls < 2 ^ 31) :
    outputs (fun g call => [(forwardLayerCuda env g call).1]) (step env) g calls =
      outputs (fun g call => [(g.forwardLayerCuda env call).1]) (CudaEngine.step env) g calls := by
  induction calls generalizing g with
  | nil => simp only [outputs]
  | cons call calls ih =>
    obtain ⟨⟨hlayer, horder⟩, hrest⟩ := List.forall_mem_cons.mp hcalls
    rw [predictedRanks, List.map_cons, List.sum_cons,
      ← h.reached.setup.predicted call.layer call.hIn] at hroom
    have hcall : g.engine.queued + (g.engine.predicted call.layer call.hIn).length < 2 ^ 31 := by
      omega
    obtain ⟨hsame, hqueued⟩ := forwardLayerCuda_eq hs hle h.toReady hcall
    have hnext :=
      (forwardLayerCuda_reference hs hle hw hgrid hasks hserves h hlayer horder).2
    have hroom' :
        (CudaEngine.step env g call).engine.queued + predictedRanks e₀ calls < 2 ^ 31 := by
      rw [CudaEngine.step, predictedRanks]
      omega
    simp only [outputs, step, hsame]
    exact congrArg _ (ih hnext hrest hroom')

/-- These calls leave room in the queue on the CPU path. -/
theorem guarded_layers (hs : 0 < e₀.blobBytes) (hle : e₀.blobBytes ≤ B) {e : Engine F}
    (h : Reached (Streams env e₀ B) e₀ e) {calls : List (LayerCall F)}
    (hroom : e.queued + predictedRanks e₀ calls < 2 ^ 31) :
    Guarded (Engine.IntQueue.step env) (Engine.IntQueue.HasRoom env) e
      (calls.map fun call => .forwardLayer call.layer call.hIn) := by
  induction calls generalizing e with
  | nil => trivial
  | cons call calls ih =>
    rw [predictedRanks, List.map_cons, List.sum_cons,
      ← h.setup.predicted call.layer call.hIn] at hroom
    have hqueued := Engine.IntQueue.queued_forwardLayer env call.layer call.hIn e
    have hcall : Engine.IntQueue.HasRoom env e (.forwardLayer call.layer call.hIn) := by
      rw [Engine.IntQueue.HasRoom]
      omega
    refine ⟨hcall, ih (Engine.IntQueue.reached_step hs hle e _ h hcall) ?_⟩
    rw [Engine.IntQueue.step, predictedRanks]
    omega

end IntQueue

variable {files : EngineFiles F} {order : Order} {vram : ℕ → UInt8} {cfg : EngineConfig}

/-- For every sequence of layer calls, every schedule of their threads and any contents of
the device scratch: with room for the working set, both paths return the same vectors,
those of the plain forward pass; with the queue of `int` positions too, while the ranks of
the calls are fewer than `2 ^ 31`. -/
theorem run_paths_agree (hinit : (Engine.fresh order vram).init env files cfg = (true, e₀))
    (hinter : 0 < e₀.inter) (hhidden : 0 < e₀.hidden) (hcfg : cfg.budgetBytes < 2 ^ 64)
    (hne : keys.Nonempty) (hasks : e₀.AsksFor layers keys) (hserves : Serves e₀ layers)
    (hroom : keys.card * (12 * (e₀.inter.toNat * e₀.hidden.toNat)) ≤ e₀.cache.arena.cap)
    (hgrid : e₀.hidden.toNat + 255 < 2 ^ 31) (ybuf hOut : ℕ → F) (calls : List (LayerCall F))
    (hcalls : ∀ call ∈ calls, call.layer ∈ layers ∧
      call.order.Perm (threads (grid e₀.hidden.toNat) 256)) :
    let g₀ : CudaEngine F := ⟨e₀, ybuf, hOut⟩
    let ops := calls.map fun call => Op.forwardLayer call.layer call.hIn
    outputs (fun g call => [(g.forwardLayerCuda env call).1]) (step env) g₀ calls =
        outputs (fun e op => [e.output env op]) (Engine.step env) e₀ ops ∧
      (predictedRanks e₀ calls < 2 ^ 31 →
        outputs (fun g call => [(IntQueue.forwardLayerCuda env g call).1]) (IntQueue.step env) g₀
            calls =
          outputs (fun e op => [Engine.IntQueue.output env e op]) (Engine.IntQueue.step env) e₀
            ops) := by
  intro g₀ ops
  obtain ⟨hw, hs, hle, hplain⟩ := init_plain hinit hinter hhidden hcfg hne hroom
  have hcpu : outputs (fun e op => [e.output env op]) (Engine.step env) e₀ ops =
      calls.map fun call => e₀.referenceLayer env call.layer call.hIn :=
    runLayers_reference hs hle hw hasks hplain.toAmple fun call hcall => (hcalls call hcall).1
  have hgpu : outputs (fun g call => [(g.forwardLayerCuda env call).1]) (step env) g₀ calls =
      calls.map fun call => e₀.referenceLayer env call.layer call.hIn :=
    runCuda_reference hs hle hw hgrid hasks hserves hplain.toAmple hcalls
  refine ⟨hgpu.trans hcpu.symm, fun hranks => ?_⟩
  have hempty : e₀.queued = 0 := by
    obtain ⟨base, hstart⟩ := init_started hinit
    rw [Engine.queued, hstart.prefetcher]
    rfl
  have hqueue : e₀.queued + predictedRanks e₀ calls < 2 ^ 31 := by rwa [hempty, Nat.zero_add]
  have hcpu' := Engine.IntQueue.outputs_eq hs hle hplain.reached
    (IntQueue.guarded_layers hs hle hplain.reached hqueue)
  have hgpu' := IntQueue.runCuda_eq hs hle hw hgrid hasks hserves (g := g₀) hplain.toAmple hcalls
    hqueue
  rw [hgpu', hgpu, hcpu', hcpu]

section Tiny

/-- Two calls of layer 1 and one of layer 0, with rubbish in the scratch. -/
theorem run_paths_agree_four_slots :
    outputs (fun g call => [(IntQueue.forwardLayerCuda hostPlatform g call).1])
        (IntQueue.step hostPlatform) (⟨fourSlots, fun _ => 7, fun _ => 9⟩ : CudaEngine ℝ)
        [onesCall 1, onesCall 0, onesCall 1] =
      outputs (fun e op => [Engine.IntQueue.output hostPlatform e op])
        (Engine.IntQueue.step hostPlatform) fourSlots
        [.forwardLayer 1 fun _ => 1, .forwardLayer 0 fun _ => 1, .forwardLayer 1 fun _ => 1] := by
  have hcard : fourKeys.card = 4 := by decide
  have hroom := fourSlots_setup.fits (by decide : 0 < 4) rfl
  rw [← hcard] at hroom
  have hhidden : fourSlots.hidden.toNat = 1 := by
    rw [fourSlots_setup.hidden]
    rfl
  have hserves : Serves fourSlots {0, 1} := by
    intro layer _ hIn x hx
    rw [fourSlots_setup.predicted] at hx
    exact fourSlots_setup.resolves fun kind => mem_expertNames hx kind
  have hranks : predictedRanks fourSlots [onesCall 1, onesCall 0, onesCall 1] < 2 ^ 31 := by
    simp only [predictedRanks, fourSlots_setup.predicted]
    decide
  exact (run_paths_agree fourSlots_init fourSlots_setup.inter_pos fourSlots_setup.hidden_pos
    (by norm_num) (Finset.card_pos.mp (by decide)) fourSlots_asksFor hserves hroom
    (by rw [hhidden]; norm_num) _ _ [onesCall 1, onesCall 0, onesCall 1] (by
      rw [hhidden]
      simp only [List.forall_mem_cons]
      exact ⟨⟨by decide, .refl _⟩, ⟨by decide, .refl _⟩, ⟨by decide, .refl _⟩, by simp⟩)).2 hranks

end Tiny

end Dee.CudaEngine
