import Dee.CudaInterleaving
import Dee.CudaReference

/-! What the layers on the GPU compute. With room for the working set, every interleaving of the
host with its streams returns the forward pass of the kernels, without cache, copies or scratch. -/
namespace Dee
open GuardedRuns VramCacheManager ThreadLaunch

section Definitions
variable {F : Type*} [Field F]

/-- The output of the kernels for an expert of the shard. -/
def Engine.kernelOutput (env : Platform F) (e : Engine F) (hIn : ℕ → F) (x : Int32) (o : ℕ) : F :=
  let inter := e.inter.toNat
  let hidden := e.hidden.toNat
  let blob := fun j => env.ofBits (e.layerBlob 0 x j)
  ∑ i ∈ Finset.range inter, blob (2 * (inter * hidden) + (o * inter + i)) *
    (siluCuda env.exp (rowDot blob hIn hidden i) *
      rowDot (advance blob (inter * hidden)) hIn hidden i)

/-- A layer over the kernels: the mean of its experts, rescaled. -/
def Engine.kernelLayer [LinearOrder F] (env : Platform F) (e : Engine F) (layer : Int32)
    (hIn : ℕ → F) : ℕ → F :=
  let experts := e.predicted layer hIn
  stabilize env e.hidden.toNat fun o =>
    (experts.map fun x => e.kernelOutput env hIn x o).sum / experts.length

end Definitions

namespace SyncEngine
variable {F : Type*} [Field F] {env : Platform F} {e₀ : Engine F} {B : ℕ} {keys : Finset ExpertKey}
  {layers : Finset Int32} {g : SyncEngine F} {req : LayerRequest F}

/-- The two kernels of an expert fill its row, and leave the rows of lower rank alone. -/
theorem ideal_expert (env : Platform F) (hinter : e₀.inter.toNat + 255 < 2 ^ 31)
    (hhidden : e₀.hidden.toNat + 255 < 2 ^ 31) (hIn : ℕ → F) (d : Scratch F) (row : ℕ) (x : Int32)
    (p : ℕ) :
    let d' := run (StreamedEngine.ideal env e₀ hIn) d [.swigluH x p, .swigluY row x p]
    (∀ i < row * e₀.hidden.toNat, d'.ybuf i = d.ybuf i) ∧
      ∀ o < e₀.hidden.toNat,
        d'.ybuf (row * e₀.hidden.toNat + o) = e₀.kernelOutput env hIn x o := by
  constructor
  · exact fun i hi => if_neg (Nat.not_le.mpr hi)
  · intro o ho
    simp only [run_cons, run_nil, StreamedEngine.ideal, Kernel.launch, Kernel.grid, Kernel.rows,
      storeFrom]
    rw [if_pos (Nat.le_add_right _ _), Nat.add_sub_cancel_left,
      Kernel.runThreads_swigluY hhidden (.refl _), if_pos ho]
    apply Finset.sum_congr rfl
    intro i hi
    rw [Kernel.runThreads_swigluH hinter (.refl _), if_pos (Finset.mem_range.mp hi)]

/-- The staging loop at once. -/
theorem finish_stageSteps (h : CudaEngine.Ready env e₀ B g.engine) (hs : 0 < e₀.blobBytes)
    (hle : e₀.blobBytes ≤ B) (req : LayerRequest F) (k : ℕ) (xs : List Int32) :
    g.finish env req (stageSteps e₀.cfg.topk k xs) =
      { g with engine := Engine.stageAll env req.layer k xs g.engine } := by
  induction xs generalizing g k with
  | nil => rfl
  | cons x xs ih =>
    have hnext := h.stageExpert hs hle req.layer x (toInt (e₀.cfg.topk - k))
    rw [stageSteps, finish, run_cons]
    refine (ih (g := hostStep env req g (.stage x (toInt (e₀.cfg.topk - k)))) hnext
      (k + 1)).trans ?_
    rw [Engine.stageAll, h.reached.setup.cfg]
    rfl

section Steps
variable (hs : 0 < e₀.blobBytes) (hle : e₀.blobBytes ≤ B) (hw : e₀.blobBytes = 12 * e₀.weights)
  (hinter : e₀.inter.toNat + 255 < 2 ^ 31) (hhidden : e₀.hidden.toNat + 255 < 2 ^ 31)
include hs hle hw hinter hhidden

/-- The launching loop at once, when its experts are resident: it fills their rows. -/
theorem finish_launchSteps (req : LayerRequest F) (h : Engine.Ample env e₀ B keys g.engine)
    (k : ℕ) {xs : List Int32}
    (hres : ∀ x ∈ xs, g.engine.cache.isResident ⟨req.layer, x⟩ = true)
    (hq : g.engine.prefetcher.QueuedAll req.layer xs) :
    let g' := g.finish env req (launchSteps k xs)
    Engine.Ample env e₀ B keys g'.engine ∧
      (∀ i < k * e₀.hidden.toNat, g'.scratch.ybuf i = g.scratch.ybuf i) ∧
      ∀ o < e₀.hidden.toNat,
        ∑ j ∈ Finset.range xs.length, g'.scratch.ybuf ((k + j) * e₀.hidden.toNat + o) =
          (xs.map fun x => e₀.kernelOutput env req.hIn x o).sum := by
  induction xs generalizing g k with
  | nil => exact ⟨h, fun _ _ => rfl, fun _ _ => rfl⟩
  | cons x xs ih =>
    obtain ⟨hx, hrest⟩ := List.forall_mem_cons.mp hres
    have hfill := StreamedEngine.sync_launch_fill hw hinter hhidden h.toReady k hx
      (hq x List.mem_cons_self hx)
    obtain ⟨hkeep, hrow⟩ := ideal_expert env hinter hhidden req.hIn g.scratch k x
      (g.engine.cache.data ⟨req.layer, x⟩)
    rw [launchSteps, finish, run_cons, hfill]
    generalize run (StreamedEngine.ideal env e₀ req.hIn) g.scratch _ = d at hkeep hrow
    obtain ⟨hample, hlow, hsum⟩ := ih (g := ⟨g.engine.waitFor ⟨req.layer, x⟩, d⟩)
      (h.waitFor hs hle ⟨req.layer, x⟩) (k + 1)
      (fun y hy => by
        dsimp only
        rw [CudaEngine.waitFor_cache]
        exact hrest y hy)
      (hq.wait _)
    have hbelow : ∀ i < k * e₀.hidden.toNat + e₀.hidden.toNat, i < (k + 1) * e₀.hidden.toNat :=
      fun i hi => by rwa [Nat.succ_mul]
    refine ⟨hample, fun i hi => ?_, fun o ho => ?_⟩
    · exact (hlow i (hbelow i (by omega))).trans (hkeep i hi)
    · rw [List.length_cons, CudaEngine.sum_rows_succ, List.map_cons, List.sum_cons]
      have hfirst := (hlow (k * e₀.hidden.toNat + o) (hbelow _ (by omega))).trans (hrow o ho)
      exact congrArg₂ (· + ·) hfirst (hsum o ho)

variable [LinearOrder F]

/-- The step lemma: a layer at once computes the forward pass of its kernels. -/
theorem forwardLayerCuda_kernelLayer (hasks : e₀.AsksFor layers keys)
    (hserves : CudaEngine.Serves e₀ layers) (h : Engine.Ample env e₀ B keys g.engine)
    (hlayer : req.layer ∈ layers) :
    (g.forwardLayerCuda env req).1 = e₀.kernelLayer env req.layer req.hIn ∧
      Engine.Ample env e₀ B keys (g.next env req).engine := by
  have hpred : g.engine.predicted req.layer req.hIn = e₀.predicted req.layer req.hIn :=
    h.reached.setup.predicted _ _
  have hkeys := hasks req.layer hlayer req.hIn
  have hall := hserves req.layer hlayer req.hIn
  unfold next forwardLayerCuda Engine.kernelLayer
  dsimp only
  rw [hpred, h.reached.setup.hidden, h.reached.setup.cfg]
  cases hxs : e₀.predicted req.layer req.hIn with
  | nil => exact ⟨by simp, h⟩
  | cons x xs =>
    rw [hxs] at hkeys hall
    -- the staged experts are resident, and their transfers are queued
    have hstay : ∀ y ∈ x :: xs, CudaEngine.Stays env g.engine req.layer (x :: xs) y = true :=
      fun y hy => (h.stays hs hle hkeys hy).trans (Engine.serves_iff.mpr (hall y hy))
    have hstaged := finish_stageSteps h.toReady hs hle req 0 (x :: xs)
    obtain ⟨hample, -, hsum⟩ := finish_launchSteps
      (g := { g with engine := Engine.stageAll env req.layer 0 (x :: xs) g.engine })
      hs hle hw hinter hhidden req (h.stageAll hs hle hkeys 0).1 0 hstay
      (h.toReady.queued hs hle req.layer (x :: xs))
    have hprogram : g.finish env req (program e₀.cfg.topk (x :: xs)) =
        (finish env req { g with engine := Engine.stageAll env req.layer 0 (x :: xs) g.engine }
          (launchSteps 0 (x :: xs))).launch env req.hIn (.combine (x :: xs).length) := by
      rw [← hstaged]
      simp only [program, finish, run_append]
      rfl
    rw [hprogram, if_neg (List.cons_ne_nil x xs)]
    generalize finish env req
      { g with engine := Engine.stageAll env req.layer 0 (x :: xs) g.engine }
      (launchSteps 0 (x :: xs)) = g' at hample hsum
    refine ⟨CudaEngine.stabilize_congr fun o ho => ?_, hample⟩
    simp only [launch, Kernel.launch, Kernel.grid, Kernel.rows, hample.reached.setup.hidden]
    simp only [Nat.zero_add] at hsum
    rw [Kernel.combineCuda_eq hhidden (.refl _), if_pos ho, hsum o ho]

/-- The run lemma, over any sequence of layers. -/
theorem run_kernelLayer (hasks : e₀.AsksFor layers keys) (hserves : CudaEngine.Serves e₀ layers)
    (h : Engine.Ample env e₀ B keys g.engine) {reqs : List (LayerRequest F)}
    (hreqs : ∀ req ∈ reqs, req.layer ∈ layers) :
    outputs (fun g req => [(g.forwardLayerCuda env req).1]) (next env) g reqs =
      reqs.map fun req => e₀.kernelLayer env req.layer req.hIn := by
  induction reqs generalizing g with
  | nil => rfl
  | cons req reqs ih =>
    obtain ⟨hlayer, hrest⟩ := List.forall_mem_cons.mp hreqs
    obtain ⟨hout, hnext⟩ := forwardLayerCuda_kernelLayer hs hle hw hinter hhidden hasks hserves h
      hlayer
    rw [outputs, hout, List.singleton_append, List.map_cons, ih hnext hrest]

end Steps
end SyncEngine

namespace StreamedEngine
variable {F : Type*} [Field F] [LinearOrder F] {env : Platform F} {e₀ : Engine F}
  {keys : Finset ExpertKey} {layers : Finset Int32} {files : EngineFiles F} {order : Order}
  {vram : ℕ → UInt8} {cfg : EngineConfig}

/-- With room for the working set: for every sequence of layers, in every interleaving of the host
with the copies and the kernels and in every order of their threads, whatever the scratch holds,
each layer returns the forward pass of the kernels on the weights of the shard, while the ranks
fit in the queue. -/
theorem run_kernelLayers (hinit : (Engine.fresh order vram).init env files cfg = (true, e₀))
    (hinter : 0 < e₀.inter) (hhidden : 0 < e₀.hidden) (hcfg : cfg.budgetBytes < 2 ^ 64)
    (hne : keys.Nonempty) (hasks : e₀.AsksFor layers keys)
    (hserves : CudaEngine.Serves e₀ layers)
    (hroom : keys.card * (12 * (e₀.inter.toNat * e₀.hidden.toNat)) ≤ e₀.cache.arena.cap)
    (hgridInter : e₀.inter.toNat + 255 < 2 ^ 31) (hgridHidden : e₀.hidden.toNat + 255 < 2 ^ 31)
    (scratch : Scratch F) (calls : List (ScheduledCall F))
    (hlayers : ∀ c ∈ calls, c.request.layer ∈ layers)
    (hcalls : Guarded (next env) (Returns env) (fresh e₀ scratch) calls)
    (hqueue : Guarded (next env) (fun s c => s.HasRoom c.request) (fresh e₀ scratch) calls) :
    outputs (fun s c => [(s.forwardLayerCuda env c).1]) (next env) (fresh e₀ scratch) calls =
      calls.map fun c => e₀.kernelLayer env c.request.layer c.request.hIn := by
  obtain ⟨hw, hs, hle, hplain⟩ := Engine.init_plain hinit hinter hhidden hcfg hne hroom
  obtain ⟨a, hrest⟩ := fresh_atRest hinit hplain.toReady scratch
  have hout := hrest.run hs hle hw hgridInter hgridHidden hcalls hqueue
  rw [hout, SyncEngine.run_kernelLayer hs hle hw hgridInter hgridHidden hasks hserves
    (g := ⟨e₀, scratch⟩) hplain.toAmple (by
      intro req hreq
      obtain ⟨c, hc, rfl⟩ := List.mem_map.mp hreq
      exact hlayers c hc), List.map_map]
  rfl

section Tiny
open Engine

/-- Two layers; the kernels of expert 0 run among the copies of expert 1. -/
theorem run_kernelLayers_four_slots :
    let d : Scratch ℝ := ⟨fun _ => 5, fun _ => 7, fun _ => 9⟩
    let o := threads (grid 1) 256
    let turns : List StreamTurn := [.host, .host, .copy, .host, .kernel o, .copy, .host, .kernel o,
      .host, .kernel o, .kernel o, .kernel o, .host]
    outputs (fun s c => [(s.forwardLayerCuda hostPlatform c).1]) (next hostPlatform)
        (fresh fourSlots d) [⟨⟨1, fun _ => 1⟩, turns⟩, ⟨⟨0, fun _ => 1⟩, turns⟩] =
      [fourSlots.kernelLayer hostPlatform 1 fun _ => 1,
        fourSlots.kernelLayer hostPlatform 0 fun _ => 1] := by
  intro d o turns
  have hinter : fourSlots.inter.toNat = 1 := by
    rw [fourSlots_setup.inter]
    rfl
  have hhidden : fourSlots.hidden.toNat = 1 := by
    rw [fourSlots_setup.hidden]
    rfl
  have hcard : fourKeys.card = 4 := by decide
  have hroom := fourSlots_setup.fits (by decide : 0 < 4) rfl
  rw [← hcard] at hroom
  have hserves : CudaEngine.Serves fourSlots {0, 1} := by
    intro layer _ hIn x hx
    rw [fourSlots_setup.predicted] at hx
    exact fourSlots_setup.resolves fun kind => mem_expertNames hx kind
  refine run_kernelLayers fourSlots_init fourSlots_setup.inter_pos fourSlots_setup.hidden_pos
    (by norm_num) (Finset.card_pos.mp (by decide)) fourSlots_asksFor hserves hroom
    (by rw [hinter]; norm_num) (by rw [hhidden]; norm_num) d
    [⟨⟨1, fun _ => 1⟩, turns⟩, ⟨⟨0, fun _ => 1⟩, turns⟩] (by simp)
    ⟨⟨⟨?_, ?_, ?_, ?_, ?_, ?_, ?_, ?_, ?_, ?_, ?_, ?_, ?_, trivial⟩, ?_⟩,
      ⟨⟨?_, ?_, ?_, ?_, ?_, ?_, ?_, ?_, ?_, ?_, ?_, ?_, ?_, trivial⟩, ?_⟩, trivial⟩
    ⟨?_, ?_, trivial⟩
  all_goals decide +kernel

end Tiny

end StreamedEngine
end Dee
