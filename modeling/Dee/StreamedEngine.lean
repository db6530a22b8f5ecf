import Dee.ComputeStream
import Dee.CudaPrefetcher
import Dee.EngineCuda

/-! A layer on the GPU while it runs. The host stages the experts, waits for their copies and
launches kernels; the copies and the kernels run on streams of their own, each at any time and
with its threads in any order. Beside it stands the engine that does everything at once. -/
namespace Dee
open ByteMemory GuardedRuns LittleEndian VramCacheManager CudaPrefetcher ThreadLaunch

structure LayerRequest (F : Type*) where
  layer : Int32
  hIn : ℕ → F

/-- What the host does in `forward_layer_cuda`, up to `cudaStreamSynchronize`. -/
inductive HostStep
  | stage (x : Int32) (priority : ℤ)
  | launch (row : ℕ) (x : Int32)
  | combine (count : ℕ)
  | sync

def HostStep.isStage : HostStep → Bool
  | .stage _ _ => true
  | .launch _ _ => false
  | .combine _ => false
  | .sync => false

/-- The staging loop, from rank `k` on. -/
def stageSteps (topk : ℤ) : ℕ → List Int32 → List HostStep
  | _, [] => []
  | k, x :: xs => .stage x (toInt (topk - k)) :: stageSteps topk (k + 1) xs

/-- The loop that waits and launches, from rank `k` on. -/
def launchSteps : ℕ → List Int32 → List HostStep
  | _, [] => []
  | k, x :: xs => .launch k x :: launchSteps (k + 1) xs

/-- Without experts the layer returns at once. -/
def program (topk : ℤ) : List Int32 → List HostStep
  | [] => []
  | x :: xs => stageSteps topk 0 (x :: xs) ++
      (launchSteps 0 (x :: xs) ++ [.combine (x :: xs).length, .sync])

/-- The engine that does everything at once: a copy runs at the wait for it, as in the queue of
the mock, and a kernel at its launch. -/
structure SyncEngine (F : Type*) where
  engine : Engine F
  scratch : Scratch F

/-- The engine with its two streams. The memory of the device is that of the prefetcher, and
`todo` is what the host has left to do in the layer under way. -/
structure StreamedEngine (F : Type*) where
  engine : Engine F
  events : List ℕ
  stream : List (Copy UInt8)
  completed : ℕ
  kernels : List Kernel
  scratch : Scratch F
  todo : List HostStep

/-- The host and the two streams take turns in any order; a kernel has an order of its threads. -/
inductive StreamTurn
  | host
  | copy
  | kernel (order : List (ℕ × ℕ))

/-- A call of a layer and the turns that are taken until it returns. -/
structure ScheduledCall (F : Type*) where
  request : LayerRequest F
  turns : List StreamTurn

section Definitions
variable {F : Type*} [Field F] [LinearOrder F]

namespace SyncEngine

def launch (env : Platform F) (hIn : ℕ → F) (g : SyncEngine F) (ker : Kernel) : SyncEngine F :=
  let inter := g.engine.inter.toNat
  let hidden := g.engine.hidden.toNat
  { g with
    scratch := ker.launch env.exp inter hidden hIn
      (fun _ p => Engine.readFloats env g.engine.prefetcher.vram p) (ker.grid inter hidden)
      g.scratch }

def hostStep (env : Platform F) (req : LayerRequest F) (g : SyncEngine F) :
    HostStep → SyncEngine F
  | .stage x priority => { g with engine := g.engine.stageExpert env req.layer x priority }
  | .launch row x =>
    let e := g.engine.waitFor ⟨req.layer, x⟩
    let p := e.cache.data ⟨req.layer, x⟩
    if p = 0 then { g with engine := e.countFallback }
    else (({ g with engine := e }.launch env req.hIn (.swigluH x p)).launch env req.hIn
      (.swigluY row x p))
  | .combine count => g.launch env req.hIn (.combine count)
  | .sync => g

/-- What the host has left to do, done at once. -/
def finish (env : Platform F) (req : LayerRequest F) (g : SyncEngine F) (ops : List HostStep) :
    SyncEngine F := run (hostStep env req) g ops

def forwardLayerCuda (env : Platform F) (g : SyncEngine F) (req : LayerRequest F) :
    (ℕ → F) × SyncEngine F :=
  let experts := g.engine.predicted req.layer req.hIn
  let g' := g.finish env req (program g.engine.cfg.topk experts)
  let combined := if experts = [] then fun _ => 0 else g'.scratch.hOut
  (stabilize env g.engine.hidden.toNat combined, g')

/-- A layer as a step. -/
def next (env : Platform F) (g : SyncEngine F) (req : LayerRequest F) : SyncEngine F :=
  (g.forwardLayerCuda env req).2

end SyncEngine

namespace StreamedEngine

/-- An initialised engine: nothing is under way. -/
def fresh (e : Engine F) (scratch : Scratch F) : StreamedEngine F :=
  ⟨e, [], [], 0, [], scratch, []⟩

/-- The part of the state that the prefetcher works on. -/
def copies (s : StreamedEngine F) : CudaPrefetcher :=
  ⟨s.engine.prefetcher, s.events, s.stream, s.completed⟩

def withCopies (s : StreamedEngine F) (p : CudaPrefetcher) : StreamedEngine F :=
  { s with
    engine := { s.engine with prefetcher := p.host }
    events := p.events
    stream := p.stream
    completed := p.completed }

def stageExpert (env : Platform F) (s : StreamedEngine F) (layer x : Int32) (priority : ℤ) :
    StreamedEngine F :=
  match s.engine.getStaging env x with
  | (none, e) => { s with engine := e }
  | (some blob, e) =>
    let s := { s with engine := e }
    s.withCopies (s.copies.prefetch ⟨layer, x⟩ blob e.blobBytes priority).2

/-- `prefetcher_.wait`, and the kernels of the expert unless its address is null. -/
def launchExpert (s : StreamedEngine F) (layer : Int32) (row : ℕ) (x : Int32) :
    StreamedEngine F :=
  let s := s.withCopies (s.copies.wait ⟨layer, x⟩).2
  let p := s.engine.cache.data ⟨layer, x⟩
  if p = 0 then { s with engine := s.engine.countFallback }
  else { s with kernels := s.kernels ++ [.swigluH x p, .swigluY row x p] }

def hostStep (env : Platform F) (layer : Int32) (s : StreamedEngine F) :
    HostStep → StreamedEngine F
  | .stage x priority => s.stageExpert env layer x priority
  | .launch row x => s.launchExpert layer row x
  | .combine count => { s with kernels := s.kernels ++ [.combine count] }
  | .sync => s

/-- The compute stream runs its oldest kernel, on the memory as it is now. -/
def runKernel (env : Platform F) (hIn : ℕ → F) (s : StreamedEngine F) (order : List (ℕ × ℕ)) :
    StreamedEngine F :=
  match s.kernels with
  | [] => s
  | ker :: ks =>
    { s with
      kernels := ks
      scratch := ker.launch env.exp s.engine.inter.toNat s.engine.hidden.toNat hIn
        (fun _ p => Engine.readFloats env s.engine.prefetcher.vram p) order s.scratch }

def step (env : Platform F) (req : LayerRequest F) (s : StreamedEngine F) :
    StreamTurn → StreamedEngine F
  | .host =>
    match s.todo with
    | [] => s
    | op :: ops => hostStep env req.layer { s with todo := ops } op
  | .copy => s.withCopies s.copies.runCopy
  | .kernel order => s.runKernel env req.hIn order

/-- The host is blocked by an event that has not fired and by a busy compute stream. -/
def MayGo (layer : Int32) (s : StreamedEngine F) : HostStep → Prop
  | .stage _ _ => True
  | .launch _ x => s.copies.EventDone ⟨layer, x⟩
  | .combine _ => True
  | .sync => s.kernels = []

def Enabled (req : LayerRequest F) (s : StreamedEngine F) : StreamTurn → Prop
  | .host => ∃ op ops, s.todo = op :: ops ∧ s.MayGo req.layer op
  | .copy => s.stream ≠ []
  | .kernel order => ∃ ker ks, s.kernels = ker :: ks ∧
      order.Perm (ker.grid s.engine.inter.toNat s.engine.hidden.toNat)

/-- A layer is called: the Oracle is asked, and the host has its work laid out. -/
def start (s : StreamedEngine F) (req : LayerRequest F) : StreamedEngine F :=
  { s with todo := program s.engine.cfg.topk (s.engine.predicted req.layer req.hIn) }

def forwardLayerCuda (env : Platform F) (s : StreamedEngine F) (c : ScheduledCall F) :
    (ℕ → F) × StreamedEngine F :=
  let experts := s.engine.predicted c.request.layer c.request.hIn
  let s' := run (step env c.request) (s.start c.request) c.turns
  let combined := if experts = [] then fun _ => 0 else s'.scratch.hOut
  (stabilize env s.engine.hidden.toNat combined, s')

/-- A scheduled call as a step. -/
def next (env : Platform F) (s : StreamedEngine F) (c : ScheduledCall F) : StreamedEngine F :=
  (s.forwardLayerCuda env c).2

/-- The ranks of the call fit in the queue. -/
def HasRoom (s : StreamedEngine F) (req : LayerRequest F) : Prop :=
  s.engine.queued + (s.engine.predicted req.layer req.hIn).length < 2 ^ 31

/-- The turns are possible, and they end with the return of the call. -/
def Returns (env : Platform F) (s : StreamedEngine F) (c : ScheduledCall F) : Prop :=
  Guarded (step env c.request) (Enabled c.request) (s.start c.request) c.turns ∧
    (s.next env c).todo = []

instance (s : StreamedEngine F) (req : LayerRequest F) : Decidable (s.HasRoom req) :=
  inferInstanceAs (Decidable (_ < _))

instance (layer : Int32) (s : StreamedEngine F) (op : HostStep) : Decidable (s.MayGo layer op) :=
  match op with
  | .stage _ _ => inferInstanceAs (Decidable True)
  | .launch _ x => inferInstanceAs (Decidable (s.copies.EventDone ⟨layer, x⟩))
  | .combine _ => inferInstanceAs (Decidable True)
  | .sync => decidable_of_iff (s.kernels.isEmpty = true) List.isEmpty_iff

omit [Field F] [LinearOrder F] in
theorem enabled_host_iff {req : LayerRequest F} {s : StreamedEngine F} :
    (s.todo.head?.any fun op => decide (s.MayGo req.layer op)) = true ↔ s.Enabled req .host := by
  cases htodo : s.todo with
  | nil => simp [Enabled, htodo]
  | cons op ops => simp [Enabled, htodo]

omit [Field F] [LinearOrder F] in
theorem enabled_kernel_iff {req : LayerRequest F} {s : StreamedEngine F} {order : List (ℕ × ℕ)} :
    (s.kernels.head?.any fun ker =>
      decide (order.Perm (ker.grid s.engine.inter.toNat s.engine.hidden.toNat))) = true ↔
        s.Enabled req (.kernel order) := by
  cases hks : s.kernels with
  | nil => simp [Enabled, hks]
  | cons ker ks => simp [Enabled, hks]

instance (req : LayerRequest F) (s : StreamedEngine F) (t : StreamTurn) :
    Decidable (s.Enabled req t) :=
  match t with
  | .host => decidable_of_iff _ enabled_host_iff
  | .copy => decidable_of_iff (¬ s.stream.isEmpty = true) (not_congr List.isEmpty_iff)
  | .kernel _ => decidable_of_iff _ enabled_kernel_iff

end StreamedEngine
end Definitions

namespace StreamedEngine
variable {F : Type*} {env : Platform F} {e₀ e : Engine F} {B : ℕ} {a : Arena}
  {log : AsyncPrefetcher} {s : StreamedEngine F}

/-- The engine with its streams and the one whose copies run at once are in the same state as far
as the host can tell; `log` is the ledger of the copies. -/
structure Follows (env : Platform F) (e₀ : Engine F) (B : ℕ) (a : Arena) (log : AsyncPrefetcher)
    (s : StreamedEngine F) (e : Engine F) : Prop where
  ready : CudaEngine.Ready env e₀ B e
  engine : s.engine = { e with prefetcher := s.engine.prefetcher }
  host : SameHost e.prefetcher s.copies
  tracks : Tracks (e₀.blobTable env) a log s.copies

theorem Follows.of_same {s' : StreamedEngine F} (h : Follows env e₀ B a log s e)
    (hengine : s'.engine = s.engine) (hcopies : s'.copies = s.copies) :
    Follows env e₀ B a log s' e where
  ready := h.ready
  engine := by
    rw [hengine]
    exact h.engine
  host := by
    rw [hcopies]
    exact h.host
  tracks := by
    rw [hcopies]
    exact h.tracks

theorem Follows.data (h : Follows env e₀ B a log s e) (k : ExpertKey) :
    s.engine.cache.data k = e.cache.data k :=
  congrArg (fun c : VramCacheManager => c.data k) h.host.cache.symm

theorem Follows.setup (h : Follows env e₀ B a log s e) : Engine.SameSetup e₀ s.engine := by
  rw [h.engine]
  exact h.ready.reached.setup.trans ⟨rfl, rfl, rfl, rfl, rfl, rfl, rfl⟩

theorem Follows.runCopy (h : Follows env e₀ B a log s e) (hne : s.copies.stream ≠ []) :
    Follows env e₀ B a (log.drainUntil s.completed) (s.withCopies s.copies.runCopy) e where
  ready := h.ready
  engine := congrArg (fun e : Engine F =>
    { e with prefetcher := s.copies.runCopy.host }) h.engine
  host := h.host.runCopy
  tracks := h.tracks.runCopy hne

theorem Follows.wait (h : Follows env e₀ B a log s e) (hs : 0 < e₀.blobBytes)
    (hle : e₀.blobBytes ≤ B) (hshort : e.queued < 2 ^ 31) (k : ExpertKey) :
    Follows env e₀ B a log (s.withCopies (s.copies.wait k).2)
      (e.waitFor k) where
  ready := h.ready.waitFor hs hle k
  engine := congrArg (fun e : Engine F =>
    { e with prefetcher := (s.copies.wait k).2.host }) h.engine
  host := (h.host.wait hshort k).2
  tracks := h.tracks.wait k

theorem Follows.countFallback (h : Follows env e₀ B a log s e) :
    Follows env e₀ B a log { s with engine := s.engine.countFallback }
      e.countFallback where
  ready := h.ready.countFallback
  engine := congrArg Engine.countFallback h.engine
  host := h.host
  tracks := h.tracks

theorem Follows.staging (h : Follows env e₀ B a log s e) : s.engine.StagingInv := by
  rw [h.engine]
  exact h.ready.reached.staging

/-- An expert of the shard is staged: its blob is kept and its transfer is submitted. -/
theorem Follows.stageExpert_of_resolves (h : Follows env e₀ B a log s e) (layer : Int32)
    {x : Int32} (hr : e₀.Resolves 0 x) (pr : ℤ) :
    s.stageExpert env layer x pr = withCopies { s with engine := { s.engine with
        staging := Function.update s.engine.staging x (some (e₀.layerBlob 0 x)) } }
      (s.copies.prefetch ⟨layer, x⟩ (Engine.blobPtr env x (e₀.layerBlob 0 x))
        e₀.blobBytes pr).2 := by
  have hne : s.engine.blobElems ≠ 0 := by
    rw [h.engine]
    exact h.ready.reached.elems_ne
  rw [StreamedEngine.stageExpert,
    Engine.getStaging_of_resolves h.staging ((h.setup.resolves 0 x).mpr hr),
    Engine.blobData, if_neg hne, ← h.setup.layerBlob, ← h.setup.blobBytes]
  rfl

/-- Staging an expert on both sides. -/
theorem Follows.stageExpert (h : Follows env e₀ B a log s e) (hs : 0 < e₀.blobBytes)
    (hle : e₀.blobBytes ≤ B) (layer x : Int32) (pr : ℤ) :
    ∃ log', Follows env e₀ B a log' (s.stageExpert env layer x pr)
      (e.stageExpert env layer x pr) := by
  have hready := h.ready.stageExpert hs hle layer x pr
  rcases Engine.stageExpert_cases env h.ready.reached.staging h.ready.reached.elems_ne
    layer x pr with ⟨hr, he⟩ | ⟨hr, he⟩
  · have hr₀ : e₀.Resolves 0 x := (h.ready.reached.setup.resolves 0 x).mp hr
    have hstaged : e.stageExpert env layer x pr = { e with
        staging := Function.update e.staging x (some (e₀.layerBlob 0 x))
        prefetcher := (e.prefetcher.prefetch ⟨layer, x⟩
          (Engine.blobPtr env x (e₀.layerBlob 0 x)) e₀.blobBytes pr).2 } := by
      rw [he, ← h.ready.reached.setup.layerBlob, ← h.ready.reached.setup.blobBytes]
      rfl
    rw [hstaged] at hready ⊢
    rw [h.stageExpert_of_resolves layer hr₀ pr]
    have hcap : e₀.blobBytes ≤ e.prefetcher.cache.arena.cap := by
      rwa [h.ready.reached.prefetcher.cap]
    have hcache : log.cache = e.prefetcher.cache := h.tracks.cache.trans h.host.cache.symm
    have hinv : (log.cache.ensure ⟨layer, x⟩ e₀.blobBytes pr).2.Inv := by
      rw [hcache]
      exact (h.ready.reached.prefetcher.uniform.ensure hs hcap ⟨layer, x⟩ pr).toInv
    have hbytes := h.tracks.bytes.prefetch (k := ⟨layer, x⟩) (env.blobAddr_ne x) hinv
    obtain ⟨log', htracks, -⟩ := h.tracks.submit pr hbytes
    exact ⟨log', hready, congrArg (fun e : Engine F => { e with
        staging := Function.update e.staging x (some (e₀.layerBlob 0 x))
        prefetcher := (s.copies.prefetch ⟨layer, x⟩ (Engine.blobPtr env x (e₀.layerBlob 0 x))
          e₀.blobBytes pr).2.host }) h.engine,
      (h.host.prefetch ⟨layer, x⟩ (env.blobAddr_ne x) e₀.blobBytes pr).2, htracks⟩
  · have hr₀ : ¬ s.engine.Resolves 0 x := fun hx =>
      hr ((h.ready.reached.setup.resolves 0 x).mpr ((h.setup.resolves 0 x).mp hx))
    have hstage : s.stageExpert env layer x pr = s := by
      rw [StreamedEngine.stageExpert, Engine.getStaging_of_not_resolves h.staging hr₀]
    rw [he, hstage]
    exact ⟨log, h⟩

/-- Staging leaves the compute stream and what is left to do alone. -/
theorem stageExpert_keeps (env : Platform F) (s : StreamedEngine F) (layer x : Int32) (pr : ℤ) :
    let s' := s.stageExpert env layer x pr
    s'.kernels = s.kernels ∧ s'.scratch = s.scratch ∧ s'.todo = s.todo := by
  unfold StreamedEngine.stageExpert
  rcases s.engine.getStaging env x with ⟨_ | blob, e⟩
  · exact ⟨rfl, rfl, rfl⟩
  · exact ⟨rfl, rfl, rfl⟩

theorem hostStep_todo (layer : Int32) (s : StreamedEngine F) (op : HostStep) :
    (hostStep env layer s op).todo = s.todo := by
  cases op with
  | stage x pr => exact (stageExpert_keeps env s layer x pr).2.2
  | launch row x =>
    simp only [hostStep, launchExpert]
    split_ifs
    · rfl
    · rfl
  | combine count => rfl
  | sync => rfl

/-- A staged expert is queued, and the others stay queued. -/
theorem queued_stageExpert (h : CudaEngine.Ready env e₀ B e)
    (hs : 0 < e₀.blobBytes) (hle : e₀.blobBytes ≤ B) {layer x y : Int32} (pr : ℤ)
    (hq : e.prefetcher.Queued ⟨layer, y⟩ ∨ e₀.Resolves 0 y ∧ x = y) :
    (e.stageExpert env layer x pr).prefetcher.Queued ⟨layer, y⟩ := by
  rcases Engine.stageExpert_cases env h.reached.staging h.reached.elems_ne layer x pr with
    ⟨-, he⟩ | ⟨hx, he⟩
  · rw [he]
    rcases hq with hq | ⟨-, rfl⟩
    · exact hq.prefetch ..
    · have hcap : e₀.blobBytes ≤ e.prefetcher.cache.arena.cap := by
        rwa [h.reached.prefetcher.cap]
      apply AsyncPrefetcher.prefetch_queued h.reached.prefetcher.bytes.slot
      rw [h.reached.setup.blobBytes]
      exact h.reached.prefetcher.uniform.ensure_succeeds hs hcap _ _
  · rw [he]
    rcases hq with hq | ⟨hy, rfl⟩
    · exact hq
    · exact absurd ((h.reached.setup.resolves 0 x).mpr hy) hx

/-- Behind the address of an arrived expert are the floats of its blob, whatever is copied
after it. -/
theorem Follows.read_blob (h : Follows env e₀ B a log s e) {k : ExpertKey}
    (ha : Arrived log s.copies k) (hres : e.cache.isResident k = true) {j : ℕ}
    (hj : 4 * j + 4 ≤ e₀.blobBytes) :
    Engine.readFloats env s.engine.prefetcher.vram (e.cache.data k) j =
      env.ofBits (e₀.layerBlob 0 k.expert j) := by
  have hcache : s.copies.host.cache = e.cache := h.host.cache.symm
  have hbytes := h.tracks.holds ha (by rw [hcache]; exact hres)
  rw [hcache] at hbytes
  have hword : readWord s.engine.prefetcher.vram (e.cache.data k + 4 * j) =
      readWord (wordBytes (e₀.layerBlob 0 k.expert)) (4 * j) := by
    apply readWord_congr
    intro i hi
    rw [Nat.add_assoc]
    exact hbytes _ (show 4 * j + i < e₀.blobBytes by omega)
  rw [Engine.readFloats, hword, readWord_wordBytes]

section Programs

theorem isStage_stageSteps {topk : ℤ} {k : ℕ} {xs : List Int32} {op : HostStep}
    (h : op ∈ stageSteps topk k xs) : op.isStage = true := by
  induction xs generalizing k with
  | nil => cases h
  | cons x xs ih =>
    rcases List.mem_cons.mp h with rfl | h
    · rfl
    · exact ih h

theorem isStage_launchSteps {k : ℕ} {xs : List Int32} {op : HostStep}
    (h : op ∈ launchSteps k xs) : op.isStage = false := by
  induction xs generalizing k with
  | nil => cases h
  | cons x xs ih =>
    rcases List.mem_cons.mp h with rfl | h
    · rfl
    · exact ih h

theorem mem_of_launchSteps {k row : ℕ} {x : Int32} {xs : List Int32}
    (h : .launch row x ∈ launchSteps k xs) : x ∈ xs := by
  induction xs generalizing k with
  | nil => cases h
  | cons y xs ih =>
    rcases List.mem_cons.mp h with hxy | h
    · cases hxy
      exact List.mem_cons_self
    · exact List.mem_cons_of_mem y (ih h)

theorem exists_mem_stageSteps (topk : ℤ) (k : ℕ) {x : Int32} {xs : List Int32} (h : x ∈ xs) :
    ∃ pr, .stage x pr ∈ stageSteps topk k xs := by
  induction xs generalizing k with
  | nil => cases h
  | cons y xs ih =>
    rcases List.mem_cons.mp h with rfl | h
    · exact ⟨_, List.mem_cons_self⟩
    · obtain ⟨pr, hpr⟩ := ih (k + 1) h
      exact ⟨pr, List.mem_cons_of_mem _ hpr⟩

/-- The program after its staging loop. -/
theorem isStage_program_rest {n : ℕ} {xs : List Int32} {op : HostStep}
    (h : op ∈ launchSteps 0 xs ++ [.combine n, .sync]) : op.isStage = false := by
  rcases List.mem_append.mp h with h | h
  · exact isStage_launchSteps h
  · rcases List.mem_pair.mp h with rfl | rfl
    · rfl
    · rfl

theorem program_stages_first (topk : ℤ) (xs : List Int32) :
    (program topk xs).Pairwise fun op op' => op'.isStage = true → op.isStage = true := by
  cases xs with
  | nil => exact List.Pairwise.nil
  | cons x xs =>
    refine List.pairwise_append.mpr ⟨?_, ?_, ?_⟩
    · exact List.pairwise_of_forall_mem_list fun op hop _ _ _ => isStage_stageSteps hop
    · apply List.pairwise_of_forall_mem_list
      intro op _ op' hop' hstage
      rw [isStage_program_rest hop'] at hstage
      cases hstage
    · exact fun op hop _ _ _ => isStage_stageSteps hop

theorem countP_program (topk : ℤ) (xs : List Int32) :
    (program topk xs).countP HostStep.isStage = xs.length := by
  have hstages : ∀ k, (stageSteps topk k xs).countP HostStep.isStage = xs.length := by
    induction xs with
    | nil => exact fun _ => rfl
    | cons x xs ih =>
      intro k
      rw [stageSteps, List.countP_cons_of_pos rfl, ih, List.length_cons]
  cases xs with
  | nil => rfl
  | cons x xs =>
    have hrest : (launchSteps 0 (x :: xs) ++ [HostStep.combine (x :: xs).length, .sync]).countP
        HostStep.isStage = 0 := by
      refine List.countP_eq_zero.mpr fun op hop => ?_
      rw [isStage_program_rest hop]
      exact Bool.false_ne_true
    rw [program, List.countP_append, hstages, hrest, Nat.add_zero]

theorem program_ends (topk : ℤ) (xs : List Int32) :
    (program topk xs).getLast? = some .sync ∨ program topk xs = [] := by
  cases xs with
  | nil => exact Or.inr rfl
  | cons x xs => exact Or.inl (by simp [program])

theorem program_staged {topk : ℤ} {row : ℕ} {x : Int32} {xs : List Int32}
    (h : .launch row x ∈ program topk xs) : ∃ pr, .stage x pr ∈ program topk xs := by
  cases xs with
  | nil => cases h
  | cons y ys =>
    rcases List.mem_append.mp h with h | h
    · cases isStage_stageSteps h
    · rcases List.mem_append.mp h with h | h
      · obtain ⟨pr, hpr⟩ := exists_mem_stageSteps topk 0 (mem_of_launchSteps h)
        exact ⟨pr, List.mem_append_left _ hpr⟩
      · simp at h

theorem getLast?_tail {op : HostStep} {ops : List HostStep}
    (h : (op :: ops).getLast? = some .sync) :
    ops.getLast? = some .sync ∨ ops = [] ∧ op = .sync := by
  cases ops with
  | nil => exact Or.inr ⟨rfl, by simpa using h⟩
  | cons op' ops => exact Or.inl (by rwa [List.getLast?_cons_cons] at h)

end Programs

end StreamedEngine
end Dee
