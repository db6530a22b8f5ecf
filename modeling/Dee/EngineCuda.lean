import Dee.EngineAccumulation
import Dee.SwigluCuda

/-! The GPU forward path next to the CPU one. Both stage, wait and skip alike, but the
GPU path averages all rows of a device buffer that outlives the call, with whatever an
earlier call has left in the row of a skipped expert. -/
namespace Dee
open GuardedRuns VramCacheManager ThreadLaunch

/-- An engine with its device scratch: a row of `ybuf` for each rank, and the mean. -/
structure CudaEngine (F : Type*) where
  engine : Engine F
  ybuf : ℕ → F
  hOut : ℕ → F

/-- A call of a layer, with the order in which the threads of `combine_kernel` run. -/
structure LayerCall (F : Type*) where
  layer : Int32
  hIn : ℕ → F
  order : List (ℕ × ℕ)

section Definitions
variable {F : Type*} [Field F] [LinearOrder F]

/-- The output of `swiglu_expert_cuda` in row `k`. -/
def storeRow (hidden k : ℕ) (y ybuf : ℕ → F) : ℕ → F :=
  fun i => if k * hidden ≤ i ∧ i < k * hidden + hidden then y (i - k * hidden) else ybuf i

/-- The rescaling to an RMS of one that ends both paths. -/
def stabilize (env : Platform F) (hidden : ℕ) (v : ℕ → F) : ℕ → F :=
  let ss := ∑ i ∈ Finset.range hidden, v i * v i
  let rms := env.sqrt (ss / hidden)
  fun i =>
    if i < hidden then if 1 / ((10 ^ 8 : ℕ) : F) < rms then v i * (1 / rms) else v i else 0

/-- The combined vector of the CPU path, before it is rescaled. -/
def Engine.combined (env : Platform F) (e : Engine F) (layer : Int32) (hIn : ℕ → F) : ℕ → F :=
  let experts := e.predicted layer hIn
  let r := Engine.accumulate env layer hIn experts (fun _ => 0)
    (Engine.stageAll env layer 0 experts e)
  let inv : F := if experts.length = 0 then 1 else 1 / experts.length
  fun i => r.1 i * inv

/-- The engine after `prefetcher_.wait`. -/
def Engine.waitFor (e : Engine F) (k : ExpertKey) : Engine F :=
  { e with prefetcher := (e.prefetcher.wait k).2 }

def Engine.countFallback (e : Engine F) : Engine F :=
  { e with stats := { e.stats with fallbacks := e.stats.fallbacks + 1 } }

namespace CudaEngine

/-- The loop of `forward_layer_cuda` that waits for the experts and fills their rows. -/
def runExperts (env : Platform F) (layer : Int32) (hIn : ℕ → F) :
    ℕ → List Int32 → CudaEngine F → CudaEngine F
  | _, [], g => g
  | k, x :: xs, g =>
    let e := g.engine.waitFor ⟨layer, x⟩
    let p := e.cache.data ⟨layer, x⟩
    if p = 0 then runExperts env layer hIn (k + 1) xs { g with engine := e.countFallback }
    else
      let blob := Engine.readFloats env e.prefetcher.vram p
      let y := swiglu env.exp blob hIn e.inter.toNat e.hidden.toNat fun _ => 0
      runExperts env layer hIn (k + 1) xs
        { g with engine := e, ybuf := storeRow e.hidden.toNat k y g.ybuf }

/-- `forward_layer_cuda` up to the download of the combined vector. -/
def combined (env : Platform F) (g : CudaEngine F) (call : LayerCall F) :
    (ℕ → F) × CudaEngine F :=
  match g.engine.predicted call.layer call.hIn with
  | [] => (fun _ => 0, g)
  | x :: xs =>
    let g₁ := runExperts env call.layer call.hIn 0 (x :: xs)
      { g with engine := Engine.stageAll env call.layer 0 (x :: xs) g.engine }
    let hOut := combineCuda g₁.ybuf g₁.hOut (x :: xs).length g₁.engine.hidden.toNat call.order
    (hOut, { g₁ with hOut := hOut })

def forwardLayerCuda (env : Platform F) (g : CudaEngine F) (call : LayerCall F) :
    (ℕ → F) × CudaEngine F :=
  let r := g.combined env call
  (stabilize env g.engine.hidden.toNat r.1, r.2)

/-- The device scratch is zero at first. -/
def zeroScratch (e : Engine F) : CudaEngine F := ⟨e, fun _ => 0, fun _ => 0⟩

/-- The same call on both paths. -/
def stepBoth (env : Platform F) (s : Engine F × CudaEngine F) (call : LayerCall F) :
    Engine F × CudaEngine F :=
  ((s.1.forwardLayer env call.layer call.hIn).2, (s.2.forwardLayerCuda env call).2)

/-- Both paths combine to the same vector. -/
def Agree (env : Platform F) (s : Engine F × CudaEngine F) (call : LayerCall F) : Prop :=
  ∀ o < s.1.hidden.toNat,
    s.1.combined env call.layer call.hIn o = (s.2.combined env call).1 o

end CudaEngine
end Definitions

namespace CudaEngine
variable {F : Type*} {env : Platform F}

/-- The predicted expert is still resident when the staging loop has ended. -/
def Stays (env : Platform F) (e : Engine F) (layer : Int32) (xs : List Int32) (x : Int32) : Bool :=
  (Engine.stageAll env layer 0 xs e).cache.isResident ⟨layer, x⟩

/-- Both paths skip the same experts. -/
def SameSkips (env : Platform F) (s : Engine F × CudaEngine F) (call : LayerCall F) : Prop :=
  ∀ x ∈ s.1.predicted call.layer call.hIn,
    Stays env s.1 call.layer (s.1.predicted call.layer call.hIn) x =
      Stays env s.2.engine call.layer (s.1.predicted call.layer call.hIn) x

/-- What the device buffer holds for place `o` in the rows of the skipped experts. -/
def staleAt [AddMonoid F] (ybuf : ℕ → F) (hidden : ℕ) (stays : Int32 → Bool) (o : ℕ) :
    ℕ → List Int32 → F
  | _, [] => 0
  | k, x :: xs =>
    (if stays x then 0 else ybuf (k * hidden + o)) + staleAt ybuf hidden stays o (k + 1) xs

/-- The rows of the skipped experts add up to nothing. -/
def StaleRowsCancel [AddMonoid F] (env : Platform F) (s : Engine F × CudaEngine F)
    (call : LayerCall F) : Prop :=
  let xs := s.1.predicted call.layer call.hIn
  ∀ o < s.1.hidden.toNat,
    staleAt s.2.ybuf s.1.hidden.toNat (Stays env s.2.engine call.layer xs) o 0 xs = 0

/-- The rows count only what skipped experts have left there. -/
theorem staleAt_eq_zero [AddMonoid F] (ybuf : ℕ → F) (hidden : ℕ) {stays : Int32 → Bool} (o k : ℕ)
    {xs : List Int32} (h : ∀ x ∈ xs, stays x = true) : staleAt ybuf hidden stays o k xs = 0 := by
  induction xs generalizing k with
  | nil => rfl
  | cons x xs ih =>
    obtain ⟨hx, hrest⟩ := List.forall_mem_cons.mp h
    rw [staleAt, if_pos hx, ih (k + 1) hrest, add_zero]

/-- A call that skips no expert, on either path. -/
theorem sameSkips_of_stays [AddMonoid F] {s : Engine F × CudaEngine F} {call : LayerCall F}
    {xs : List Int32} (hxs : s.1.predicted call.layer call.hIn = xs)
    (hcpu : ∀ x ∈ xs, Stays env s.1 call.layer xs x = true)
    (hgpu : ∀ x ∈ xs, Stays env s.2.engine call.layer xs x = true) :
    SameSkips env s call ∧ StaleRowsCancel env s call := by
  simp only [SameSkips, StaleRowsCancel, hxs]
  refine ⟨fun x hx => by rw [hcpu x hx, hgpu x hx], fun o _ => ?_⟩
  exact staleAt_eq_zero _ _ _ _ hgpu

theorem sameSkips_zeroScratch [Field F] {e : Engine F} {call : LayerCall F} {xs : List Int32}
    (hxs : e.predicted call.layer call.hIn = xs)
    (hstays : ∀ x ∈ xs, Stays env e call.layer xs x = true) :
    SameSkips env (e, zeroScratch e) call ∧ StaleRowsCancel env (e, zeroScratch e) call :=
  sameSkips_of_stays hxs hstays hstays

/-- What every call of a layer preserves, on either path. -/
structure Ready (env : Platform F) (e₀ : Engine F) (B : ℕ) (e : Engine F) : Prop where
  reached : Engine.Reached (Engine.Streams env e₀ B) e₀ e
  resolves : ∀ k, e.cache.isResident k = true → e₀.Resolves 0 k.expert

variable {e₀ e : Engine F} {B : ℕ}

theorem Ready.stageExpert (h : Ready env e₀ B e) (hs : 0 < e₀.blobBytes) (hle : e₀.blobBytes ≤ B)
    (layer x : Int32) (pr : ℤ) : Ready env e₀ B (e.stageExpert env layer x pr) := by
  refine ⟨h.reached.stageExpert (Engine.Streams.step env hs hle) layer x pr, fun k hk => ?_⟩
  rcases Engine.stageExpert_cases env h.reached.staging h.reached.elems_ne layer x pr with ⟨hx, he⟩ | ⟨-, he⟩
  · have hcap : e₀.blobBytes ≤ e.cache.arena.cap := by
      rw [Engine.cache, h.reached.prefetcher.cap]
      exact hle
    have hu : Uniform e₀.blobBytes e.cache := h.reached.prefetcher.uniform
    simp only [he, Engine.cache, AsyncPrefetcher.step, AsyncPrefetcher.prefetch_cache,
      h.reached.setup.blobBytes] at hk
    rcases (hu.ensure_isResident hs hcap _ pr k).mp hk with rfl | ⟨-, hold⟩
    · exact (h.reached.setup.resolves 0 x).mp hx
    · exact h.resolves k hold
  · rw [he] at hk
    exact h.resolves k hk

theorem Ready.stageAll (h : Ready env e₀ B e) (hs : 0 < e₀.blobBytes) (hle : e₀.blobBytes ≤ B)
    (layer : Int32) (k : ℕ) (xs : List Int32) :
    Ready env e₀ B (Engine.stageAll env layer k xs e) := by
  induction xs generalizing e k with
  | nil => exact h
  | cons x xs ih => exact ih (h.stageExpert hs hle layer x _) (k + 1)

/-- After the staging loop every resident expert of the layer has its transfer queued. -/
theorem Ready.queued (h : Ready env e₀ B e) (hs : 0 < e₀.blobBytes) (hle : e₀.blobBytes ≤ B)
    (layer : Int32) (xs : List Int32) :
    (Engine.stageAll env layer 0 xs e).prefetcher.QueuedAll layer xs := by
  intro x hx hres
  have hresolves : e₀.Resolves 0 x := (h.stageAll hs hle layer 0 xs).resolves ⟨layer, x⟩ hres
  apply h.reached.stageAll_queued hs hle
  right
  exact ⟨x, hx, hresolves, rfl⟩

theorem staleAt_congr [AddMonoid F] {ybuf ybuf' : ℕ → F} {hidden : ℕ} (stays : Int32 → Bool)
    (o k : ℕ) (xs : List Int32) (h : ∀ i, k * hidden ≤ i → ybuf i = ybuf' i) :
    staleAt ybuf hidden stays o k xs = staleAt ybuf' hidden stays o k xs := by
  induction xs generalizing k with
  | nil => rfl
  | cons x xs ih =>
    have hrest := ih (k + 1) fun i hi => h i (by rw [Nat.succ_mul] at hi; omega)
    rw [staleAt, staleAt, hrest, h (k * hidden + o) (Nat.le_add_right _ _)]

theorem storeRow_of_lt {hidden k : ℕ} (y ybuf : ℕ → F) {i : ℕ} (h : i < k * hidden) :
    storeRow hidden k y ybuf i = ybuf i := if_neg fun hi => absurd hi.1 h.not_ge

theorem storeRow_of_ge {hidden k : ℕ} (y ybuf : ℕ → F) {i : ℕ} (h : (k + 1) * hidden ≤ i) :
    storeRow hidden k y ybuf i = ybuf i := by
  rw [Nat.succ_mul] at h
  exact if_neg fun hi => absurd hi.2 h.not_gt

theorem storeRow_row {hidden k o : ℕ} (y ybuf : ℕ → F) (h : o < hidden) :
    storeRow hidden k y ybuf (k * hidden + o) = y o := by
  rw [storeRow, if_pos ⟨Nat.le_add_right _ _, Nat.add_lt_add_left h _⟩, Nat.add_sub_cancel_left]

theorem waitFor_cache (e : Engine F) (k : ExpertKey) : (e.waitFor k).cache = e.cache := by
  simp only [Engine.cache, Engine.waitFor, AsyncPrefetcher.wait_cache]

theorem queued_waitFor (e : Engine F) (k : ExpertKey) : (e.waitFor k).queued = e.queued :=
  AsyncPrefetcher.wait_length ..

theorem Ready.waitFor (h : Ready env e₀ B e) (hs : 0 < e₀.blobBytes) (hle : e₀.blobBytes ≤ B)
    (k : ExpertKey) : Ready env e₀ B (e.waitFor k) := by
  refine ⟨h.reached.wait (Engine.Streams.step env hs hle) k, fun q hq => h.resolves q ?_⟩
  rwa [waitFor_cache] at hq

theorem Ready.countFallback (h : Ready env e₀ B e) : Ready env e₀ B e.countFallback :=
  ⟨h.reached.with_stats _, h.resolves⟩

variable [Field F] {g : CudaEngine F}

theorem sum_rows_succ (ybuf : ℕ → F) (hidden k n o : ℕ) :
    ∑ j ∈ Finset.range (n + 1), ybuf ((k + j) * hidden + o) =
      ybuf (k * hidden + o) + ∑ j ∈ Finset.range n, ybuf ((k + 1 + j) * hidden + o) := by
  rw [Finset.sum_range_succ', add_comm, Nat.add_zero]
  congr 1
  apply Finset.sum_congr rfl
  intro j _
  rw [Nat.add_right_comm, Nat.add_assoc]

/-- The loop leaves the rows of higher rank alone. -/
theorem runExperts_above (layer : Int32) (hIn : ℕ → F) (k : ℕ) (xs : List Int32) {i : ℕ}
    (hi : (k + xs.length) * g.engine.hidden.toNat ≤ i) :
    (runExperts env layer hIn k xs g).ybuf i = g.ybuf i := by
  induction xs generalizing g k with
  | nil => rfl
  | cons x xs ih =>
    rw [List.length_cons, ← Nat.add_assoc, Nat.add_right_comm] at hi
    simp only [runExperts]
    split_ifs
    · exact ih (g := { g with engine := (g.engine.waitFor ⟨layer, x⟩).countFallback }) (k + 1) hi
    · refine Eq.trans (ih (k + 1) ?_) (storeRow_of_ge _ g.ybuf (le_trans ?_ hi))
      · exact hi
      · exact Nat.mul_le_mul_right _ (Nat.le_add_right _ _)

/-- An expert that is not resident is skipped. -/
theorem Ready.runExperts_skip (h : Ready env e₀ B g.engine) {layer x : Int32}
    (hno : g.engine.cache.isResident ⟨layer, x⟩ = false) (hIn : ℕ → F) (k : ℕ) (xs : List Int32) :
    runExperts env layer hIn k (x :: xs) g = runExperts env layer hIn (k + 1) xs
      { g with engine := (g.engine.waitFor ⟨layer, x⟩).countFallback } := by
  have hnull : (g.engine.waitFor ⟨layer, x⟩).cache.data ⟨layer, x⟩ = 0 := by
    rw [waitFor_cache]
    by_contra hp
    have hyes := h.reached.prefetcher.bytes.slot.data_ne_zero.mp hp
    rw [Engine.cache, hyes] at hno
    cases hno
  simp only [runExperts, if_pos hnull]

/-- A resident expert fills its row with its output. -/
theorem Ready.runExperts_fill (h : Ready env e₀ B g.engine)
    (hw : e₀.blobBytes = 12 * e₀.weights) {layer x : Int32}
    (hyes : g.engine.cache.isResident ⟨layer, x⟩ = true)
    (hq : g.engine.prefetcher.Queued ⟨layer, x⟩) (hIn : ℕ → F) (k : ℕ) (xs : List Int32) :
    runExperts env layer hIn k (x :: xs) g = runExperts env layer hIn (k + 1) xs
      ⟨g.engine.waitFor ⟨layer, x⟩,
        storeRow e₀.hidden.toNat k (Engine.expertOutput env e₀ hIn x) g.ybuf, g.hOut⟩ := by
  have hptr : g.engine.cache.data ⟨layer, x⟩ ≠ 0 :=
    h.reached.prefetcher.bytes.slot.data_ne_zero.mpr hyes
  have hready := (h.reached.prefetcher.bytes.queue.wait_eq_true_iff (k := ⟨layer, x⟩)).mpr hq
  have hblob : swiglu env.exp (Engine.readFloats env (g.engine.waitFor ⟨layer, x⟩).prefetcher.vram
      (g.engine.cache.data ⟨layer, x⟩)) hIn e₀.inter.toNat e₀.hidden.toNat (fun _ => 0) =
        Engine.expertOutput env e₀ hIn x := by
    apply swiglu_congr
    intro j hj
    apply h.reached.prefetcher.read_blob hready hptr
    rw [hw, Engine.weights]
    omega
  have hinter : (g.engine.waitFor ⟨layer, x⟩).inter = e₀.inter := h.reached.setup.inter
  have hhidden : (g.engine.waitFor ⟨layer, x⟩).hidden = e₀.hidden := h.reached.setup.hidden
  simp only [runExperts, waitFor_cache, if_neg hptr, hinter, hhidden, hblob]

/-- The loop reads the cache only, and leaves the rows of lower rank alone. -/
theorem Ready.runExperts (h : Ready env e₀ B g.engine) (hs : 0 < e₀.blobBytes)
    (hle : e₀.blobBytes ≤ B) (hw : e₀.blobBytes = 12 * e₀.weights) {layer : Int32} (hIn : ℕ → F)
    (k : ℕ) {xs : List Int32} (hq : g.engine.prefetcher.QueuedAll layer xs) :
    Ready env e₀ B (runExperts env layer hIn k xs g).engine ∧
      ∀ i < k * e₀.hidden.toNat, (CudaEngine.runExperts env layer hIn k xs g).ybuf i = g.ybuf i := by
  induction xs generalizing g k with
  | nil => exact ⟨h, fun _ _ => rfl⟩
  | cons x xs ih =>
    have hrest : (g.engine.waitFor ⟨layer, x⟩).prefetcher.QueuedAll layer xs := hq.wait _
    have hwait := h.waitFor hs hle ⟨layer, x⟩
    have hrow : k * e₀.hidden.toNat ≤ (k + 1) * e₀.hidden.toNat :=
      Nat.mul_le_mul_right _ (Nat.le_succ k)
    cases hres : g.engine.cache.isResident ⟨layer, x⟩ with
    | false =>
      rw [h.runExperts_skip hres]
      obtain ⟨h1, h2⟩ := ih (g := { g with engine := (g.engine.waitFor ⟨layer, x⟩).countFallback })
        hwait.countFallback (k + 1) hrest
      exact ⟨h1, fun i hi => h2 i (hi.trans_le hrow)⟩
    | true =>
      rw [h.runExperts_fill hw hres (hq x List.mem_cons_self hres)]
      obtain ⟨h1, h2⟩ := ih (g := ⟨g.engine.waitFor ⟨layer, x⟩, storeRow e₀.hidden.toNat k
        (Engine.expertOutput env e₀ hIn x) g.ybuf, g.hOut⟩) hwait (k + 1) hrest
      exact ⟨h1, fun i hi => (h2 i (hi.trans_le hrow)).trans (storeRow_of_lt _ _ hi)⟩

/-- The rows of the experts from rank `k` on add up to the outputs of those that are
resident and to what was in the rows of the others. -/
theorem Ready.runExperts_rows (h : Ready env e₀ B g.engine) (hs : 0 < e₀.blobBytes)
    (hle : e₀.blobBytes ≤ B) (hw : e₀.blobBytes = 12 * e₀.weights) {layer : Int32} (hIn : ℕ → F)
    (k : ℕ) {xs : List Int32} (hq : g.engine.prefetcher.QueuedAll layer xs) {o : ℕ}
    (ho : o < e₀.hidden.toNat) :
    ∑ j ∈ Finset.range xs.length, (CudaEngine.runExperts env layer hIn k xs g).ybuf
        ((k + j) * e₀.hidden.toNat + o) =
      ((xs.filter fun x => g.engine.cache.isResident ⟨layer, x⟩).map fun x =>
        Engine.expertOutput env e₀ hIn x o).sum +
      staleAt g.ybuf e₀.hidden.toNat (fun x => g.engine.cache.isResident ⟨layer, x⟩) o k xs := by
  induction xs generalizing g k with
  | nil => simp [staleAt]
  | cons x xs ih =>
    have hcache : (g.engine.waitFor ⟨layer, x⟩).countFallback.cache = g.engine.cache :=
      waitFor_cache g.engine _
    have hrest : (g.engine.waitFor ⟨layer, x⟩).prefetcher.QueuedAll layer xs := hq.wait _
    have hwait := h.waitFor hs hle ⟨layer, x⟩
    have hbelow : k * e₀.hidden.toNat + o < (k + 1) * e₀.hidden.toNat := by
      rw [Nat.succ_mul]
      omega
    rw [List.length_cons, sum_rows_succ, staleAt]
    cases hres : g.engine.cache.isResident ⟨layer, x⟩ with
    | false =>
      -- its row is what it was
      rw [h.runExperts_skip hres, List.filter_cons_of_neg (by simp [hres]),
        (hwait.countFallback.runExperts (g := { g with
          engine := (g.engine.waitFor ⟨layer, x⟩).countFallback }) hs hle hw hIn (k + 1) hrest).2 _
          hbelow, ih (g := { g with engine := (g.engine.waitFor ⟨layer, x⟩).countFallback })
          hwait.countFallback (k + 1) hrest, hcache, if_neg Bool.false_ne_true]
      ring
    | true =>
      have hstale : staleAt (storeRow e₀.hidden.toNat k (Engine.expertOutput env e₀ hIn x) g.ybuf)
          e₀.hidden.toNat (fun x => g.engine.cache.isResident ⟨layer, x⟩) o (k + 1) xs =
          staleAt g.ybuf e₀.hidden.toNat (fun x => g.engine.cache.isResident ⟨layer, x⟩) o (k + 1)
            xs := staleAt_congr _ o (k + 1) xs fun i hi => storeRow_of_ge _ g.ybuf hi
      have hrow := (hwait.runExperts (g := ⟨g.engine.waitFor ⟨layer, x⟩, storeRow e₀.hidden.toNat k
        (Engine.expertOutput env e₀ hIn x) g.ybuf, g.hOut⟩) hs hle hw hIn (k + 1) hrest).2 _ hbelow
      have hrows := ih (g := ⟨g.engine.waitFor ⟨layer, x⟩, storeRow e₀.hidden.toNat k
        (Engine.expertOutput env e₀ hIn x) g.ybuf, g.hOut⟩) hwait (k + 1) hrest
      dsimp only at hrow hrows
      rw [h.runExperts_fill hw hres (hq x List.mem_cons_self hres), List.filter_cons_of_pos (by simp [hres]),
        List.map_cons, List.sum_cons, hrow, storeRow_row _ _ ho, hrows, waitFor_cache, hstale,
        if_pos rfl]
      ring

/-- After the loop the row of a resident expert holds its output. -/
theorem Ready.runExperts_row (h : Ready env e₀ B g.engine) (hs : 0 < e₀.blobBytes)
    (hle : e₀.blobBytes ≤ B) (hw : e₀.blobBytes = 12 * e₀.weights) {layer : Int32} (hIn : ℕ → F)
    (k : ℕ) {xs : List Int32} (hq : g.engine.prefetcher.QueuedAll layer xs) {j : ℕ} {x : Int32}
    (hx : xs[j]? = some x) (hres : g.engine.cache.isResident ⟨layer, x⟩ = true) {o : ℕ}
    (ho : o < e₀.hidden.toNat) :
    (CudaEngine.runExperts env layer hIn k xs g).ybuf ((k + j) * e₀.hidden.toNat + o) =
      Engine.expertOutput env e₀ hIn x o := by
  induction xs generalizing g k j with
  | nil => cases hx
  | cons y xs ih =>
    have hrest : (g.engine.waitFor ⟨layer, y⟩).prefetcher.QueuedAll layer xs := hq.wait _
    have hwait := h.waitFor hs hle ⟨layer, y⟩
    have hkeep : (g.engine.waitFor ⟨layer, y⟩).cache.isResident ⟨layer, x⟩ = true := by
      rw [waitFor_cache]
      exact hres
    cases j with
    | zero =>
      -- its own turn fills the row, and the later ones leave it alone
      obtain rfl : y = x := Option.some_inj.mp hx
      have hbelow : k * e₀.hidden.toNat + o < (k + 1) * e₀.hidden.toNat := by
        rw [Nat.succ_mul]
        omega
      simp only [Nat.add_zero]
      rw [h.runExperts_fill hw hres (hq y List.mem_cons_self hres),
        (hwait.runExperts (g := ⟨g.engine.waitFor ⟨layer, y⟩, storeRow e₀.hidden.toNat k
          (Engine.expertOutput env e₀ hIn y) g.ybuf, g.hOut⟩) hs hle hw hIn (k + 1) hrest).2 _ hbelow]
      exact storeRow_row _ _ ho
    | succ j =>
      rw [← Nat.add_assoc, Nat.add_right_comm]
      cases hy : g.engine.cache.isResident ⟨layer, y⟩ with
      | false =>
        rw [h.runExperts_skip hy]
        exact ih (g := { g with engine := (g.engine.waitFor ⟨layer, y⟩).countFallback })
          hwait.countFallback (k + 1) hrest hx hkeep
      | true =>
        rw [h.runExperts_fill hw hy (hq y List.mem_cons_self hy)]
        exact ih (g := ⟨g.engine.waitFor ⟨layer, y⟩, storeRow e₀.hidden.toNat k
          (Engine.expertOutput env e₀ hIn y) g.ybuf, g.hOut⟩) hwait (k + 1) hrest hx hkeep

theorem Ready.accumulate (h : Ready env e₀ B e) (hs : 0 < e₀.blobBytes) (hle : e₀.blobBytes ≤ B)
    (layer : Int32) (hIn : ℕ → F) (xs : List Int32) (acc : ℕ → F) :
    Ready env e₀ B (Engine.accumulate env layer hIn xs acc e).2 := by
  induction xs generalizing e acc with
  | nil => exact h
  | cons x xs ih =>
    have hwait := h.waitFor hs hle ⟨layer, x⟩
    simp only [Engine.accumulate]
    split_ifs
    · exact ih hwait.countFallback acc
    · refine ih ⟨hwait.reached.touch (Engine.Streams.step env hs hle) ⟨layer, x⟩, fun q hq => ?_⟩ _
      apply hwait.resolves q
      rw [← hq]
      exact (touch_isResident hwait.reached.prefetcher.uniform.toMapInv _ _).symm

/-- What the CPU path combines. -/
theorem Ready.combined_eq (h : Ready env e₀ B e) (hs : 0 < e₀.blobBytes) (hle : e₀.blobBytes ≤ B)
    (hw : e₀.blobBytes = 12 * e₀.weights) (layer : Int32) (hIn : ℕ → F) (o : ℕ) :
    let xs := e₀.predicted layer hIn
    e.combined env layer hIn o =
      ((xs.filter fun x => Stays env e layer xs x).map fun x =>
        Engine.expertOutput env e₀ hIn x o).sum *
          if xs.length = 0 then 1 else 1 / (xs.length : F) := by
  intro xs
  have hxs : e.predicted layer hIn = xs := h.reached.setup.predicted layer hIn
  have hstaged := h.stageAll hs hle layer 0 xs
  have hsum := hstaged.reached.accumulate_sum hs hle hw
    (h.queued hs hle layer xs) hIn (fun _ => 0) o
  simp only [Engine.combined, hxs, hsum, zero_add]
  rfl

/-- What the GPU path combines: the rows of skipped experts count as they are. -/
theorem Ready.combined_cuda (h : Ready env e₀ B g.engine) (hs : 0 < e₀.blobBytes)
    (hle : e₀.blobBytes ≤ B) (hw : e₀.blobBytes = 12 * e₀.weights)
    (hgrid : e₀.hidden.toNat + 255 < 2 ^ 31) {call : LayerCall F}
    (horder : call.order.Perm (threads (grid e₀.hidden.toNat) 256)) :
    let xs := e₀.predicted call.layer call.hIn
    Ready env e₀ B (g.combined env call).2.engine ∧
      ∀ o < e₀.hidden.toNat, (g.combined env call).1 o =
        (((xs.filter fun x => Stays env g.engine call.layer xs x).map fun x =>
          Engine.expertOutput env e₀ call.hIn x o).sum +
          staleAt g.ybuf e₀.hidden.toNat (Stays env g.engine call.layer xs) o 0 xs) *
            if xs.length = 0 then 1 else 1 / (xs.length : F) := by
  intro xs
  have hxs : g.engine.predicted call.layer call.hIn = xs :=
    h.reached.setup.predicted call.layer call.hIn
  have hstaged := h.stageAll hs hle call.layer 0 xs
  have hq : (Engine.stageAll env call.layer 0 xs g.engine).prefetcher.QueuedAll call.layer xs :=
    h.queued hs hle call.layer xs
  generalize hys : xs = ys at hxs hstaged hq ⊢
  cases ys with
  | nil =>
    simp only [CudaEngine.combined, hxs]
    exact ⟨h, fun o _ => by simp [staleAt]⟩
  | cons x ys =>
    obtain ⟨hready, -⟩ := hstaged.runExperts (g := { g with
      engine := Engine.stageAll env call.layer 0 (x :: ys) g.engine }) hs hle hw call.hIn 0 hq
    simp only [CudaEngine.combined, hxs]
    refine ⟨hready, fun o ho => ?_⟩
    have hrows := hstaged.runExperts_rows (g := { g with
      engine := Engine.stageAll env call.layer 0 (x :: ys) g.engine }) hs hle hw call.hIn 0 hq ho
    simp only [Nat.zero_add] at hrows
    rw [hready.reached.setup.hidden, combineCuda_apply _ _ _ hgrid horder ho, hrows,
      if_neg (by simp), mul_one_div]
    rfl

/-- A call leaves the output of an expert that stays in the row of its rank. -/
theorem Ready.combined_row (h : Ready env e₀ B g.engine) (hs : 0 < e₀.blobBytes)
    (hle : e₀.blobBytes ≤ B) (hw : e₀.blobBytes = 12 * e₀.weights) {call : LayerCall F}
    {xs : List Int32} (hxs : e₀.predicted call.layer call.hIn = xs) {k : ℕ} {x : Int32}
    (hx : xs[k]? = some x) (hstay : Stays env g.engine call.layer xs x = true) {o : ℕ}
    (ho : o < e₀.hidden.toNat) : (g.combined env call).2.ybuf (k * e₀.hidden.toNat + o) =
      Engine.expertOutput env e₀ call.hIn x o := by
  have hpred : g.engine.predicted call.layer call.hIn = xs :=
    (h.reached.setup.predicted call.layer call.hIn).trans hxs
  have hrow := (h.stageAll hs hle call.layer 0 xs).runExperts_row (g := { g with
    engine := Engine.stageAll env call.layer 0 xs g.engine }) hs hle hw call.hIn 0
    (h.queued hs hle call.layer xs) hx hstay ho
  rw [Nat.zero_add] at hrow
  cases xs with
  | nil => cases hx
  | cons y ys =>
    simp only [CudaEngine.combined, hpred]
    exact hrow

/-- A call leaves the rows behind its experts alone. -/
theorem Ready.combined_above (h : Ready env e₀ B g.engine) (hs : 0 < e₀.blobBytes)
    (hle : e₀.blobBytes ≤ B) {call : LayerCall F} {xs : List Int32}
    (hxs : e₀.predicted call.layer call.hIn = xs) {i : ℕ} (hi : xs.length * e₀.hidden.toNat ≤ i) :
    (g.combined env call).2.ybuf i = g.ybuf i := by
  have hpred : g.engine.predicted call.layer call.hIn = xs :=
    (h.reached.setup.predicted call.layer call.hIn).trans hxs
  have hhidden := (h.stageAll hs hle call.layer 0 xs).reached.setup.hidden
  cases xs with
  | nil => simp only [CudaEngine.combined, hpred]
  | cons y ys =>
    simp only [CudaEngine.combined, hpred]
    apply runExperts_above
    rw [Nat.zero_add, hhidden]
    exact hi

variable [LinearOrder F]

/-- The step lemma: a call on both paths. -/
theorem Ready.stepBoth {s : Engine F × CudaEngine F} (h : Ready env e₀ B s.1)
    (hg : Ready env e₀ B s.2.engine) (hs : 0 < e₀.blobBytes) (hle : e₀.blobBytes ≤ B)
    (hw : e₀.blobBytes = 12 * e₀.weights) (hgrid : e₀.hidden.toNat + 255 < 2 ^ 31)
    {call : LayerCall F} (horder : call.order.Perm (threads (grid e₀.hidden.toNat) 256)) :
    Ready env e₀ B (stepBoth env s call).1 ∧ Ready env e₀ B (stepBoth env s call).2.engine :=
  ⟨(h.stageAll hs hle call.layer 0 _).accumulate hs hle call.layer call.hIn _ _,
    (hg.combined_cuda hs hle hw hgrid horder).1⟩

omit [LinearOrder F] in
/-- When both paths skip the same experts, they combine to the same vector exactly when
the rows of these experts cancel. -/
theorem Ready.agree_iff [CharZero F] {s : Engine F × CudaEngine F} (h : Ready env e₀ B s.1)
    (hg : Ready env e₀ B s.2.engine) (hs : 0 < e₀.blobBytes) (hle : e₀.blobBytes ≤ B)
    (hw : e₀.blobBytes = 12 * e₀.weights) (hgrid : e₀.hidden.toNat + 255 < 2 ^ 31)
    {call : LayerCall F} (horder : call.order.Perm (threads (grid e₀.hidden.toNat) 256))
    (hsame : SameSkips env s call) : Agree env s call ↔ StaleRowsCancel env s call := by
  have hxs := h.reached.setup.predicted call.layer call.hIn
  unfold SameSkips at hsame
  unfold Agree StaleRowsCancel
  rw [hxs] at hsame ⊢
  rw [h.reached.setup.hidden]
  refine forall₂_congr fun o ho => ?_
  have hfilter : (e₀.predicted call.layer call.hIn).filter
      (fun x => Stays env s.1 call.layer (e₀.predicted call.layer call.hIn) x) =
      (e₀.predicted call.layer call.hIn).filter
        fun x => Stays env s.2.engine call.layer (e₀.predicted call.layer call.hIn) x :=
    List.filter_congr hsame
  have hinv : (if (e₀.predicted call.layer call.hIn).length = 0 then (1 : F)
      else 1 / ((e₀.predicted call.layer call.hIn).length : F)) ≠ 0 := by
    split_ifs with hlen
    · exact one_ne_zero
    · exact one_div_ne_zero (Nat.cast_ne_zero.mpr hlen)
  rw [h.combined_eq hs hle hw call.layer call.hIn o,
    (hg.combined_cuda hs hle hw hgrid horder).2 o ho, hfilter, mul_left_inj' hinv, left_eq_add]

variable {files : EngineFiles F} {order : Order} {vram : ℕ → UInt8} {cfg : EngineConfig}

theorem init_ready (hinit : (Engine.fresh order vram).init env files cfg = (true, e₀))
    (hinter : 0 < e₀.inter) (hhidden : 0 < e₀.hidden) (hcfg : cfg.budgetBytes < 2 ^ 64)
    (hfit : 12 * (e₀.inter.toNat * e₀.hidden.toNat) ≤ e₀.cache.arena.cap) :
    e₀.blobBytes = 12 * e₀.weights ∧ 0 < e₀.blobBytes ∧ e₀.blobBytes ≤ e₀.cache.arena.cap ∧
      Ready env e₀ e₀.cache.arena.cap e₀ := by
  obtain ⟨hw, hs, hle, hrun⟩ := Engine.run_streams hinit hinter hhidden hcfg hfit []
  refine ⟨hw, hs, hle, hrun, fun k hk => ?_⟩
  -- nothing is resident at first
  obtain ⟨base, hstart⟩ := Engine.init_started hinit
  rw [Engine.cache, hstart.prefetcher] at hk
  cases hk

theorem stepBoth_snd (s : Engine F × CudaEngine F) (call : LayerCall F) :
    (CudaEngine.stepBoth env s call).2 = (s.2.combined env call).2 := rfl

/-- The rows after a first call. -/
theorem Ready.row_zeroScratch (h : Ready env e₀ B e) (hs : 0 < e₀.blobBytes)
    (hle : e₀.blobBytes ≤ B) (hw : e₀.blobBytes = 12 * e₀.weights) {call : LayerCall F}
    {xs : List Int32} (hxs : e₀.predicted call.layer call.hIn = xs) {k : ℕ} {x : Int32}
    (hx : xs[k]? = some x) (hstay : Stays env e call.layer xs x = true) {o : ℕ}
    (ho : o < e₀.hidden.toNat) :
    (CudaEngine.stepBoth env (e, CudaEngine.zeroScratch e) call).2.ybuf
      (k * e₀.hidden.toNat + o) = Engine.expertOutput env e₀ call.hIn x o :=
  Ready.combined_row (g := CudaEngine.zeroScratch e) h hs hle hw hxs hx hstay ho

theorem Ready.stepBoth_zeroScratch (h : Ready env e₀ B e) (hs : 0 < e₀.blobBytes)
    (hle : e₀.blobBytes ≤ B) (hw : e₀.blobBytes = 12 * e₀.weights)
    (hgrid : e₀.hidden.toNat + 255 < 2 ^ 31) {call : LayerCall F}
    (horder : call.order.Perm (threads (grid e₀.hidden.toNat) 256)) :
    Ready env e₀ B (CudaEngine.stepBoth env (e, CudaEngine.zeroScratch e) call).1 ∧
      Ready env e₀ B (CudaEngine.stepBoth env (e, CudaEngine.zeroScratch e) call).2.engine :=
  Ready.stepBoth (s := (e, CudaEngine.zeroScratch e)) h h hs hle hw hgrid horder

/-- For every sequence of layer calls, with any budget of at least one blob, on both paths
from the same state with zero scratch: if both paths skip the same experts in each call,
they combine to the same vector in each call exactly when the rows of the skipped experts
cancel in each call. -/
theorem run_agree_iff [CharZero F]
    (hinit : (Engine.fresh order vram).init env files cfg = (true, e₀)) (hinter : 0 < e₀.inter)
    (hhidden : 0 < e₀.hidden) (hcfg : cfg.budgetBytes < 2 ^ 64)
    (hfit : 12 * (e₀.inter.toNat * e₀.hidden.toNat) ≤ e₀.cache.arena.cap)
    (hgrid : e₀.hidden.toNat + 255 < 2 ^ 31) (calls : List (LayerCall F))
    (horder : ∀ call ∈ calls, call.order.Perm (threads (grid e₀.hidden.toNat) 256))
    (hsame : Guarded (stepBoth env) (SameSkips env) (e₀, zeroScratch e₀) calls) :
    Guarded (stepBoth env) (Agree env) (e₀, zeroScratch e₀) calls ↔
      Guarded (stepBoth env) (StaleRowsCancel env) (e₀, zeroScratch e₀) calls := by
  obtain ⟨hw, hs, hle, hready⟩ := init_ready hinit hinter hhidden hcfg hfit
  refine guarded_iff_guarded
    (P := fun s => Ready env e₀ e₀.cache.arena.cap s.1 ∧ Ready env e₀ e₀.cache.arena.cap s.2.engine)
    (fun s call hP hcall => hP.1.stepBoth hP.2 hs hle hw hgrid hcall)
    (fun s call hP hcall hskip => hP.1.agree_iff hP.2 hs hle hw hgrid hcall hskip)
    ⟨hready, hready⟩ horder hsame

section Tiny
open Engine

/-- A call with the input one. -/
def onesCall (layer : Int32) : LayerCall ℝ := ⟨layer, fun _ => 1, threads (grid 1) 256⟩

/-- Two slots; layer 0 predicts experts 0 and 1, layer 1 predicts expert 0. -/
noncomputable def shrinkingSet : Engine ℝ :=
  (tinyInit (expertNames 0 [0, 1]) (fun layer => if layer = 0 then [0, 1] else [0]) 2 24).2

theorem shrinkingSet_init : (Engine.fresh (.newestFirst _ _) fun _ => 0).init hostPlatform
    (tinyFiles (expertNames 0 [0, 1]) fun layer => if layer = 0 then [0, 1] else [0])
    ⟨1, 2, 2, 24, false, 1⟩ = (true, shrinkingSet) := tinyInit_eq (gate_expertNames (by decide))

theorem shrinkingSet_setup : TinySetup (expertNames 0 [0, 1])
    (fun layer => if layer = 0 then [0, 1] else [0]) 2 24 shrinkingSet :=
  tinyInit_setup (gate_expertNames (by decide))

/-- Both engines after layer 0, whose experts all stay. -/
noncomputable def afterBothRows : Engine ℝ × CudaEngine ℝ :=
  stepBoth hostPlatform (shrinkingSet, zeroScratch shrinkingSet) (onesCall 0)

theorem shrinkingSet_stays :
    ∀ x ∈ [0, 1], Stays hostPlatform shrinkingSet (onesCall 0).layer [0, 1] x = true := by
  simp only [List.forall_mem_cons]
  refine ⟨?_, ?_, by simp⟩ <;> decide +kernel

theorem afterBothRows_stays :
    (∀ x ∈ [0], Stays hostPlatform afterBothRows.1 (onesCall 1).layer [0] x = true) ∧
      ∀ x ∈ [0], Stays hostPlatform afterBothRows.2.engine (onesCall 1).layer [0] x = true := by
  simp only [List.mem_singleton, forall_eq]
  refine ⟨?_, ?_⟩ <;> decide +kernel

/-- The second call uses one row; the other one survives it, and both paths agree. -/
theorem run_agree_iff_shrinking_set :
    let s := (shrinkingSet, zeroScratch shrinkingSet)
    Guarded (stepBoth hostPlatform) (Agree hostPlatform) s [onesCall 0, onesCall 1] ∧
      (run (stepBoth hostPlatform) s [onesCall 0, onesCall 1]).2.ybuf 1 =
        Engine.expertOutput hostPlatform shrinkingSet (fun _ => 1) 1 0 := by
  intro s
  have hone : shrinkingSet.hidden.toNat = 1 := by
    rw [shrinkingSet_setup.hidden]
    rfl
  have hfit := shrinkingSet_setup.fits (by decide : 0 < 2) rfl
  have hgrid : shrinkingSet.hidden.toNat + 255 < 2 ^ 31 := by
    rw [hone]
    norm_num
  have horder : ∀ layer, (onesCall layer).order.Perm
      (threads (grid shrinkingSet.hidden.toNat) 256) := by
    rw [hone]
    exact fun _ => .refl _
  obtain ⟨hw, hs, hle, hready⟩ := init_ready shrinkingSet_init shrinkingSet_setup.inter_pos
    shrinkingSet_setup.hidden_pos (by norm_num) (by omega)
  obtain ⟨hcpu, hgpu⟩ := hready.stepBoth_zeroScratch hs hle hw hgrid (horder 0)
  have hpred₀ : shrinkingSet.predicted (onesCall 0).layer (onesCall 0).hIn = [0, 1] :=
    shrinkingSet_setup.predicted _ _
  have hpred₁ : shrinkingSet.predicted (onesCall 1).layer (onesCall 1).hIn = [0] :=
    shrinkingSet_setup.predicted _ _
  obtain ⟨hsame₀, hcancel₀⟩ := sameSkips_zeroScratch hpred₀ shrinkingSet_stays
  obtain ⟨hsame₁, hcancel₁⟩ := sameSkips_of_stays (s := afterBothRows)
    ((hcpu.reached.setup.predicted _ _).trans hpred₁) afterBothRows_stays.1 afterBothRows_stays.2
  have hiff := run_agree_iff shrinkingSet_init shrinkingSet_setup.inter_pos
    shrinkingSet_setup.hidden_pos (by norm_num) (by omega) hgrid [onesCall 0, onesCall 1]
    (by
      simp only [List.forall_mem_cons]
      exact ⟨horder 0, horder 1, by simp⟩)
    ⟨hsame₀, hsame₁, trivial⟩
  have hcancels : Guarded (stepBoth hostPlatform) (StaleRowsCancel hostPlatform) s
      [onesCall 0, onesCall 1] := ⟨hcancel₀, hcancel₁, trivial⟩
  refine ⟨hiff.mpr hcancels, ?_⟩
  have hrow := hready.row_zeroScratch hs hle hw hpred₀ (k := 1) rfl
    (shrinkingSet_stays 1 (by simp)) (o := 0) (by omega)
  have hkeep := hgpu.combined_above hs hle hpred₁ (i := 1) (by rw [hone]; exact le_rfl)
  rw [hone, Nat.one_mul, Nat.add_zero] at hrow
  rw [run_cons, run_cons, run_nil, stepBoth_snd, hkeep]
  exact hrow

/-- One slot; layer 0 predicts expert 0, layer 1 predicts experts 0 and 1. -/
noncomputable def growingSet : Engine ℝ :=
  (tinyInit (expertNames 0 [0, 1]) (fun layer => if layer = 0 then [0] else [0, 1]) 2 12).2

/-- Both engines after layer 0. -/
noncomputable def afterLayer0 : Engine ℝ × CudaEngine ℝ :=
  stepBoth hostPlatform (growingSet, zeroScratch growingSet)
    (onesCall 0)

theorem growingSet_init : (Engine.fresh (.newestFirst _ _) fun _ => 0).init hostPlatform
    (tinyFiles (expertNames 0 [0, 1]) fun layer => if layer = 0 then [0] else [0, 1])
    ⟨1, 2, 2, 12, false, 1⟩ = (true, growingSet) := tinyInit_eq (gate_expertNames (by decide))

theorem growingSet_setup : TinySetup (expertNames 0 [0, 1])
    (fun layer => if layer = 0 then [0] else [0, 1]) 2 12 growingSet :=
  tinyInit_setup (gate_expertNames (by decide))

theorem growingSet_hidden : growingSet.hidden.toNat = 1 := by
  rw [growingSet_setup.hidden]
  rfl

theorem growingSet_ready : growingSet.blobBytes = 12 * growingSet.weights ∧
    0 < growingSet.blobBytes ∧ growingSet.blobBytes ≤ growingSet.cache.arena.cap ∧
      Ready hostPlatform growingSet growingSet.cache.arena.cap growingSet := by
  have hfit := growingSet_setup.fits Nat.one_pos rfl
  exact init_ready growingSet_init growingSet_setup.inter_pos growingSet_setup.hidden_pos
    (by norm_num) (by omega)

theorem onesCall_order (layer : Int32) :
    (onesCall layer).order.Perm (threads (grid growingSet.hidden.toNat) 256) := by
  rw [growingSet_hidden]
  exact .refl _

theorem growingSet_grid : growingSet.hidden.toNat + 255 < 2 ^ 31 := by
  rw [growingSet_hidden]
  norm_num

theorem afterLayer0_ready :
    Ready hostPlatform growingSet growingSet.cache.arena.cap afterLayer0.1 ∧
      Ready hostPlatform growingSet growingSet.cache.arena.cap afterLayer0.2.engine := by
  obtain ⟨hw, hs, hle, hready⟩ := growingSet_ready
  exact hready.stepBoth_zeroScratch hs hle hw growingSet_grid (onesCall_order 0)

theorem afterLayer0_predicted :
    afterLayer0.1.predicted (onesCall 1).layer (onesCall 1).hIn = [0, 1] := by
  have hsecond : growingSet.predicted (onesCall 1).layer (onesCall 1).hIn = [0, 1] :=
    growingSet_setup.predicted _ _
  exact (afterLayer0_ready.1.reached.setup.predicted _ _).trans hsecond

/-- Both paths keep expert 1 only. -/
theorem afterLayer0_stays :
    (Stays hostPlatform afterLayer0.1 (onesCall 1).layer [0, 1] 0 = false ∧
      Stays hostPlatform afterLayer0.1 (onesCall 1).layer [0, 1] 1 = true) ∧
    Stays hostPlatform afterLayer0.2.engine (onesCall 1).layer [0, 1] 0 = false ∧
      Stays hostPlatform afterLayer0.2.engine (onesCall 1).layer [0, 1] 1 = true := by
  refine ⟨⟨?_, ?_⟩, ?_, ?_⟩ <;> decide +kernel

theorem afterLayer0_sameSkips : SameSkips hostPlatform afterLayer0 (onesCall 1) := by
  obtain ⟨⟨hcpu0, hcpu1⟩, hgpu0, hgpu1⟩ := afterLayer0_stays
  intro x hx
  rw [afterLayer0_predicted] at hx ⊢
  rcases List.mem_pair.mp hx with rfl | rfl
  · rw [hcpu0, hgpu0]
  · rw [hcpu1, hgpu1]

/-- Layer 0 has left the output of its expert in the first row. -/
theorem afterLayer0_row :
    afterLayer0.2.ybuf 0 = Engine.expertOutput hostPlatform growingSet (onesCall 0).hIn 0 0 := by
  obtain ⟨hw, hs, hle, hready⟩ := growingSet_ready
  have hfirst : growingSet.predicted (onesCall 0).layer (onesCall 0).hIn = [0] :=
    growingSet_setup.predicted _ _
  have hstay : Stays hostPlatform growingSet (onesCall 0).layer [0] 0 = true := by decide +kernel
  have hpos : 0 < growingSet.hidden.toNat := by
    rw [growingSet_hidden]
    exact Nat.one_pos
  have hrow := hready.row_zeroScratch hs hle hw hfirst (k := 0) rfl hstay hpos
  rw [Nat.zero_mul, Nat.zero_add] at hrow
  rw [afterLayer0]
  exact hrow

/-- The call of layer 1 skips expert 0, whose row still holds the output of layer 0. -/
theorem forward_layer_cuda_adds_stale_row :
    growingSet.blobBytes ≤ growingSet.cache.arena.cap ∧
      ¬ Guarded (stepBoth hostPlatform) (Agree hostPlatform) (growingSet, zeroScratch growingSet)
        [onesCall 0, onesCall 1] := by
  obtain ⟨hw, hs, hle, -⟩ := growingSet_ready
  refine ⟨hle, fun ⟨_, hagree, _⟩ => ?_⟩
  obtain ⟨hcpu, hgpu⟩ := afterLayer0_ready
  have hcancel := (hcpu.agree_iff hgpu hs hle hw growingSet_grid (onesCall_order 1)
    afterLayer0_sameSkips).mp hagree 0 (by
      rw [hcpu.reached.setup.hidden, growingSet_hidden]
      exact Nat.one_pos)
  have hstale : ∀ (ybuf : ℕ → ℝ) (hidden : ℕ) (stays : Int32 → Bool), stays 0 = false →
      stays 1 = true → staleAt ybuf hidden stays 0 0 [0, 1] = ybuf 0 := by
    intro ybuf hidden stays h0 h1
    simp [staleAt, h0, h1]
  obtain ⟨-, hgpu0, hgpu1⟩ := afterLayer0_stays
  rw [afterLayer0_predicted, hstale _ _ _ hgpu0 hgpu1, afterLayer0_row] at hcancel
  have hpos := tiny_output_pos growingSet_setup
  exact hpos.ne' hcancel

end Tiny

end CudaEngine
end Dee
