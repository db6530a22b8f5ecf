import Dee.StreamedEngine

/-! Every interleaving of a layer with its streams simulates the engine that does everything at
once. That engine is ahead by the kernels that have been launched; their blobs have arrived and
stay where they are, whatever is copied after them. -/
namespace Dee.StreamedEngine
open GuardedRuns VramCacheManager CudaPrefetcher ThreadLaunch
variable {F : Type*} [Field F] {env : Platform F} {e₀ : Engine F} {B : ℕ} {a : Arena}
  {log : AsyncPrefetcher} {s : StreamedEngine F} {g : SyncEngine F} {req : LayerRequest F}
  {G : SyncEngine F}

/-- What a kernel leaves when the blob of its expert is behind the address. -/
def ideal (env : Platform F) (e₀ : Engine F) (hIn : ℕ → F) (d : Scratch F) (ker : Kernel) :
    Scratch F :=
  let inter := e₀.inter.toNat
  let hidden := e₀.hidden.toNat
  ker.launch env.exp inter hidden hIn (fun x _ j => env.ofBits (e₀.layerBlob 0 x j))
    (ker.grid inter hidden) d

/-- The simulation within a call. The engine that does everything at once is ahead by the launched
kernels, whose blobs have arrived, and the program that is left takes it to `G`. -/
structure InStep (env : Platform F) (e₀ : Engine F) (B : ℕ) (a : Arena) (req : LayerRequest F)
    (G : SyncEngine F) (log : AsyncPrefetcher) (s : StreamedEngine F) (g : SyncEngine F) : Prop
    extends Follows env e₀ B a log s g.engine where
  launched : ∀ ker ∈ s.kernels, ∀ x p, ker.blob? = some (x, p) →
    g.engine.cache.isResident ⟨req.layer, x⟩ = true ∧
      p = g.engine.cache.data ⟨req.layer, x⟩ ∧ Arrived log s.copies ⟨req.layer, x⟩
  scratch : run (ideal env e₀ req.hIn) s.scratch s.kernels = g.scratch
  stages_first : s.todo.Pairwise fun op op' => op'.isStage = true → op.isStage = true
  no_stage : s.kernels ≠ [] → ∀ op ∈ s.todo, op.isStage = false
  ends : s.todo.getLast? = some .sync ∨ s.todo = [] ∧ s.kernels = []
  staged : ∀ row x, .launch row x ∈ s.todo → e₀.Resolves 0 x →
    g.engine.prefetcher.Queued ⟨req.layer, x⟩ ∨ ∃ pr, .stage x pr ∈ s.todo
  finish : g.finish env req s.todo = G
  room : g.engine.queued + s.todo.countP HostStep.isStage < 2 ^ 31

section Kernels
variable (hw : e₀.blobBytes = 12 * e₀.weights) (hinter : e₀.inter.toNat + 255 < 2 ^ 31)
  (hhidden : e₀.hidden.toNat + 255 < 2 ^ 31)
include hw hinter hhidden

/-- A launch on memory that holds the blob of its expert. -/
theorem launch_eq_ideal (ker : Kernel) {order : List (ℕ × ℕ)}
    (horder : order.Perm (ker.grid e₀.inter.toNat e₀.hidden.toNat)) {hIn : ℕ → F}
    {vram : ℕ → UInt8}
    (hblob : ∀ x p, ker.blob? = some (x, p) → ∀ j, 4 * j + 4 ≤ e₀.blobBytes →
      Engine.readFloats env vram p j = env.ofBits (e₀.layerBlob 0 x j)) (d : Scratch F) :
    ker.launch env.exp e₀.inter.toNat e₀.hidden.toNat hIn
      (fun _ p => Engine.readFloats env vram p) order d = ideal env e₀ hIn d ker := by
  apply Kernel.launch_congr ker hinter hhidden horder (.refl _)
  intro x p hker j hj
  apply hblob x p hker
  rw [hw, Engine.weights]
  omega

/-- The compute stream runs a kernel: whatever has been copied since, and in whatever order the
threads run, it leaves what it was launched for. -/
theorem InStep.runKernel (h : InStep env e₀ B a req G log s g) {order : List (ℕ × ℕ)}
    (hen : s.Enabled req (.kernel order)) :
    InStep env e₀ B a req G log (s.runKernel env req.hIn order) g := by
  obtain ⟨ker, ks, hks, horder⟩ := hen
  rw [h.setup.inter, h.setup.hidden] at horder
  have hideal : ker.launch env.exp e₀.inter.toNat e₀.hidden.toNat req.hIn
      (fun _ p => Engine.readFloats env s.engine.prefetcher.vram p) order s.scratch =
        ideal env e₀ req.hIn s.scratch ker := by
    apply launch_eq_ideal hw hinter hhidden ker horder
    intro x p hker j hj
    have hmem : ker ∈ s.kernels := by
      rw [hks]
      exact List.mem_cons_self
    obtain ⟨hres, rfl, ha⟩ := h.launched ker hmem x p hker
    exact h.read_blob ha hres hj
  have hrun : s.runKernel env req.hIn order =
      { s with kernels := ks, scratch := ideal env e₀ req.hIn s.scratch ker } := by
    rw [← hideal, ← h.setup.inter, ← h.setup.hidden]
    simp only [StreamedEngine.runKernel, hks]
  have hscratch := h.scratch
  rw [hks, run_cons] at hscratch
  rw [hrun]
  refine ⟨h.toFollows.of_same rfl rfl, ?_, hscratch, h.stages_first, ?_, ?_, h.staged, h.finish,
    h.room⟩
  · intro ker' hker'
    apply h.launched ker'
    rw [hks]
    exact List.mem_cons_of_mem ker hker'
  · intro _
    apply h.no_stage
    rw [hks]
    exact List.cons_ne_nil ker ks
  · rcases h.ends with hlast | ⟨-, hnil⟩
    · exact Or.inl hlast
    · rw [hks] at hnil
      cases hnil

/-- The kernels of a resident expert at once, after the wait. -/
theorem sync_launch_fill (h : CudaEngine.Ready env e₀ B g.engine) (row : ℕ) {x : Int32}
    (hres : g.engine.cache.isResident ⟨req.layer, x⟩ = true)
    (hq : g.engine.prefetcher.Queued ⟨req.layer, x⟩) :
    let p := g.engine.cache.data ⟨req.layer, x⟩
    g.hostStep env req (.launch row x) = ⟨g.engine.waitFor ⟨req.layer, x⟩,
      run (ideal env e₀ req.hIn) g.scratch [.swigluH x p, .swigluY row x p]⟩ := by
  intro p
  have hptr : p ≠ 0 := h.reached.prefetcher.bytes.slot.data_ne_zero.mpr hres
  have hready := (h.reached.prefetcher.bytes.queue.wait_eq_true_iff (k := ⟨req.layer, x⟩)).mpr hq
  have hread : ∀ j, 4 * j + 4 ≤ e₀.blobBytes →
      Engine.readFloats env (g.engine.waitFor ⟨req.layer, x⟩).prefetcher.vram p j =
        env.ofBits (e₀.layerBlob 0 x j) := fun j hj =>
    h.reached.prefetcher.read_blob hready hptr hj
  have hinter' : (g.engine.waitFor ⟨req.layer, x⟩).inter = e₀.inter := h.reached.setup.inter
  have hhidden' : (g.engine.waitFor ⟨req.layer, x⟩).hidden = e₀.hidden := h.reached.setup.hidden
  simp only [SyncEngine.hostStep, CudaEngine.waitFor_cache]
  rw [if_neg hptr]
  simp only [SyncEngine.launch, hinter', hhidden', run_cons, run_nil]
  rw [launch_eq_ideal hw hinter hhidden (.swigluH x p) (.refl _) (fun y q hker j hj => by
      cases hker
      exact hread j hj),
    launch_eq_ideal hw hinter hhidden (.swigluY row x p) (.refl _) (fun y q hker j hj => by
      cases hker
      exact hread j hj)]

end Kernels

section Host
variable {op : HostStep} {ops : List HostStep}

theorem InStep.ends_tail (h : InStep env e₀ B a req G log s g) (htodo : s.todo = op :: ops)
    (hop : op ≠ .sync) : ops.getLast? = some .sync := by
  rcases h.ends with hlast | ⟨hnil, -⟩
  · rw [htodo] at hlast
    rcases getLast?_tail hlast with hlast | ⟨-, hsync⟩
    · exact hlast
    · exact absurd hsync hop
  · rw [htodo] at hnil
    cases hnil

/-- The queue has room for what is left to do. -/
theorem InStep.short (h : InStep env e₀ B a req G log s g) : g.engine.queued < 2 ^ 31 :=
  (Nat.le_add_right _ _).trans_lt h.room

theorem InStep.room_tail (h : InStep env e₀ B a req G log s g) (htodo : s.todo = op :: ops) :
    g.engine.queued + ops.countP HostStep.isStage < 2 ^ 31 := by
  have hroom := h.room
  rw [htodo, List.countP_cons] at hroom
  omega

theorem InStep.stages_tail (h : InStep env e₀ B a req G log s g) (htodo : s.todo = op :: ops) :
    ops.Pairwise fun op op' => op'.isStage = true → op.isStage = true := by
  have hfirst := h.stages_first
  rw [htodo] at hfirst
  exact hfirst.of_cons

/-- The staging loop is over once another step comes next. -/
theorem InStep.no_stage_tail (h : InStep env e₀ B a req G log s g) (htodo : s.todo = op :: ops)
    (hop : op.isStage = false) : ∀ op' ∈ ops, op'.isStage = false := by
  have hfirst := h.stages_first
  rw [htodo] at hfirst
  intro op' hop'
  by_contra hstage
  have hhead := List.rel_of_pairwise_cons hfirst hop' (by simpa using hstage)
  rw [hop] at hhead
  cases hhead

/-- From then on the experts to be launched are queued. -/
theorem InStep.queued (h : InStep env e₀ B a req G log s g) (htodo : s.todo = op :: ops)
    (hop : op.isStage = false) {row : ℕ} {x : Int32} (hx : .launch row x ∈ op :: ops)
    (hr : e₀.Resolves 0 x) : g.engine.prefetcher.Queued ⟨req.layer, x⟩ := by
  rw [← htodo] at hx
  rcases h.staged row x hx hr with hq | ⟨pr, hpr⟩
  · exact hq
  · rw [htodo] at hpr
    rcases List.mem_cons.mp hpr with rfl | hpr
    · cases hop
    · cases h.no_stage_tail htodo hop _ hpr

/-- The host stages an expert. -/
theorem InStep.stage (h : InStep env e₀ B a req G log s g) (hs : 0 < e₀.blobBytes)
    (hle : e₀.blobBytes ≤ B) {x : Int32} {pr : ℤ} (htodo : s.todo = .stage x pr :: ops) :
    ∃ log', InStep env e₀ B a req G log'
      (StreamedEngine.stageExpert env { s with todo := ops } req.layer x pr)
      { g with engine := g.engine.stageExpert env req.layer x pr } := by
  have hbefore : Follows env e₀ B a log { s with todo := ops } g.engine :=
    h.toFollows.of_same rfl rfl
  obtain ⟨log', hfollows⟩ := hbefore.stageExpert hs hle req.layer x pr
  obtain ⟨hkernels, hscratch, hops⟩ :=
    stageExpert_keeps env { s with todo := ops } req.layer x pr
  have hnone : s.kernels = [] := by
    by_contra hne
    have hstage := h.no_stage hne (.stage x pr) (by
      rw [htodo]
      exact List.mem_cons_self)
    cases hstage
  have hrows := h.scratch
  have hfinish := h.finish
  rw [hnone] at hrows
  rw [htodo] at hfinish
  refine ⟨log', ⟨hfollows, ?_, ?_, ?_, ?_, ?_, ?_, ?_, ?_⟩⟩
  · intro ker hker
    rw [hkernels, hnone] at hker
    cases hker
  · rw [hkernels, hscratch, hnone]
    exact hrows
  · rw [hops]
    exact h.stages_tail htodo
  · intro hne
    exact absurd (hkernels.trans hnone) hne
  · rw [hops]
    exact Or.inl (h.ends_tail htodo fun hsync => by cases hsync)
  · intro row y hy hr
    rw [hops] at hy ⊢
    rcases h.staged row y (by rw [htodo]; exact List.mem_cons_of_mem _ hy) hr with hq | ⟨pr', hpr⟩
    · exact Or.inl (queued_stageExpert h.ready hs hle pr (Or.inl hq))
    · rw [htodo] at hpr
      rcases List.mem_cons.mp hpr with heq | hpr
      · cases heq
        exact Or.inl (queued_stageExpert h.ready hs hle pr (Or.inr ⟨hr, rfl⟩))
      · exact Or.inr ⟨pr', hpr⟩
  · rw [hops]
    exact hfinish
  · have hqueue := (Engine.queued_stageExpert env req.layer x pr g.engine).2
    have hroom := h.room
    rw [htodo, List.countP_cons_of_pos rfl] at hroom
    rw [hops]
    dsimp only
    omega

/-- Only staging queues transfers. -/
theorem hostStep_queued (g : SyncEngine F) (hop : op.isStage = false) :
    (g.hostStep env req op).engine.queued = g.engine.queued := by
  cases op with
  | stage x pr => cases hop
  | launch row x =>
    simp only [SyncEngine.hostStep]
    split_ifs
    · exact CudaEngine.queued_waitFor ..
    · exact CudaEngine.queued_waitFor ..
  | combine count => rfl
  | sync => rfl

/-- The host is past its staging loop and takes a step that is not the last one. -/
theorem InStep.advance (h : InStep env e₀ B a req G log s g) (htodo : s.todo = op :: ops)
    (hstage : op.isStage = false) (hop : op ≠ .sync) {s' : StreamedEngine F}
    (hfollows : Follows env e₀ B a log s' (g.hostStep env req op).engine) (hops : s'.todo = ops)
    (hlaunched : ∀ ker ∈ s'.kernels, ∀ x p, ker.blob? = some (x, p) →
      (g.hostStep env req op).engine.cache.isResident ⟨req.layer, x⟩ = true ∧
        p = (g.hostStep env req op).engine.cache.data ⟨req.layer, x⟩ ∧
          Arrived log s'.copies ⟨req.layer, x⟩)
    (hscratch : run (ideal env e₀ req.hIn) s'.scratch s'.kernels =
      (g.hostStep env req op).scratch)
    (hqueued : ∀ k, g.engine.prefetcher.Queued k →
      (g.hostStep env req op).engine.prefetcher.Queued k) :
    InStep env e₀ B a req G log s' (g.hostStep env req op) := by
  have hfinish := h.finish
  rw [htodo] at hfinish
  refine ⟨hfollows, hlaunched, hscratch, ?_, ?_, ?_, ?_, ?_, ?_⟩
  · rw [hops]
    exact h.stages_tail htodo
  · rw [hops]
    exact fun _ => h.no_stage_tail htodo hstage
  · rw [hops]
    exact Or.inl (h.ends_tail htodo hop)
  · intro row x hx hr
    rw [hops] at hx
    exact Or.inl (hqueued _ (h.queued htodo hstage (List.mem_cons_of_mem _ hx) hr))
  · rw [hops]
    exact hfinish
  · rw [hops, hostStep_queued g hstage]
    exact h.room_tail htodo

/-- The host waits for an expert that has been evicted, and skips it. -/
theorem InStep.launch_skip (h : InStep env e₀ B a req G log s g) (hs : 0 < e₀.blobBytes)
    (hle : e₀.blobBytes ≤ B) {row : ℕ} {x : Int32} (htodo : s.todo = .launch row x :: ops)
    (hres : g.engine.cache.isResident ⟨req.layer, x⟩ = false) :
    ∃ g', InStep env e₀ B a req G log
      (StreamedEngine.launchExpert { s with todo := ops } req.layer row x) g' := by
  have hbefore : Follows env e₀ B a log { s with todo := ops } g.engine :=
    h.toFollows.of_same rfl rfl
  have hwait := hbefore.wait hs hle h.short ⟨req.layer, x⟩
  have hnull : (g.engine.waitFor ⟨req.layer, x⟩).cache.data ⟨req.layer, x⟩ = 0 := by
    rw [CudaEngine.waitFor_cache]
    by_contra hp
    have hyes := h.ready.reached.prefetcher.bytes.slot.data_ne_zero.mp hp
    rw [Engine.cache, hyes] at hres
    cases hres
  have hp := (hwait.data ⟨req.layer, x⟩).trans hnull
  have hskip : g.hostStep env req (.launch row x) =
      { g with engine := (g.engine.waitFor ⟨req.layer, x⟩).countFallback } := if_pos hnull
  have hlaunch : StreamedEngine.launchExpert { s with todo := ops } req.layer row x =
      { StreamedEngine.withCopies { s with todo := ops } (s.copies.wait ⟨req.layer, x⟩).2 with
        engine := (StreamedEngine.withCopies { s with todo := ops }
          (s.copies.wait ⟨req.layer, x⟩).2).engine.countFallback } := if_pos hp
  have hsame : (g.engine.waitFor ⟨req.layer, x⟩).countFallback.cache = g.engine.cache :=
    CudaEngine.waitFor_cache g.engine _
  refine ⟨_, h.advance htodo rfl (fun hsync => by cases hsync) ?_ ?_ ?_ ?_ ?_⟩
  · rw [hlaunch, hskip]
    exact hwait.countFallback
  · rw [hlaunch]
    rfl
  · rw [hlaunch, hskip]
    intro ker hker y p hblob
    obtain ⟨hyes, hdata, ha⟩ := h.launched ker hker y p hblob
    dsimp only
    rw [hsame]
    exact ⟨hyes, hdata, ha.wait _⟩
  · rw [hlaunch, hskip]
    exact h.scratch
  · rw [hskip]
    exact fun k hk => hk.wait _

/-- The host launches the kernel that combines the rows. -/
theorem InStep.combine (h : InStep env e₀ B a req G log s g) {count : ℕ}
    (htodo : s.todo = .combine count :: ops) :
    InStep env e₀ B a req G log
      { s with todo := ops, kernels := s.kernels ++ [.combine count] }
      (g.hostStep env req (.combine count)) := by
  refine h.advance htodo rfl (fun hsync => by cases hsync) (h.toFollows.of_same rfl rfl) rfl
    ?_ ?_ fun _ hk => hk
  · intro ker hker x p hblob
    rcases List.mem_append.mp hker with hker | hker
    · exact h.launched ker hker x p hblob
    · rw [List.mem_singleton.mp hker] at hblob
      cases hblob
  · dsimp only
    rw [run_append, h.scratch]
    simp only [SyncEngine.hostStep, SyncEngine.launch, h.ready.reached.setup.inter,
      h.ready.reached.setup.hidden]
    rfl

/-- The host has waited for the compute stream. -/
theorem InStep.sync (h : InStep env e₀ B a req G log s g) (htodo : s.todo = .sync :: ops)
    (hnone : s.kernels = []) : InStep env e₀ B a req G log { s with todo := ops } g := by
  have hfinish := h.finish
  rw [htodo] at hfinish
  refine ⟨h.toFollows.of_same rfl rfl, h.launched, h.scratch, h.stages_tail htodo, ?_, ?_,
    ?_, hfinish, h.room_tail htodo⟩
  · exact fun hne => absurd hnone hne
  · rcases h.ends with hlast | ⟨hnil, -⟩
    · rw [htodo] at hlast
      exact (getLast?_tail hlast).imp_right fun hlast => ⟨hlast.1, hnone⟩
    · rw [htodo] at hnil
      cases hnil
  · intro row x hx hr
    exact Or.inl (h.queued htodo rfl (List.mem_cons_of_mem _ hx) hr)

end Host

section Steps
variable (hs : 0 < e₀.blobBytes) (hle : e₀.blobBytes ≤ B) (hw : e₀.blobBytes = 12 * e₀.weights)
  (hinter : e₀.inter.toNat + 255 < 2 ^ 31) (hhidden : e₀.hidden.toNat + 255 < 2 ^ 31)
include hs hle hw hinter hhidden

/-- The host waits for a resident expert and launches its kernels. -/
theorem InStep.launch_fill (h : InStep env e₀ B a req G log s g) {row : ℕ} {x : Int32}
    {ops : List HostStep} (htodo : s.todo = .launch row x :: ops)
    (hdone : s.copies.EventDone ⟨req.layer, x⟩)
    (hres : g.engine.cache.isResident ⟨req.layer, x⟩ = true) :
    ∃ g', InStep env e₀ B a req G log
      (StreamedEngine.launchExpert { s with todo := ops } req.layer row x) g' := by
  have hbefore : Follows env e₀ B a log { s with todo := ops } g.engine :=
    h.toFollows.of_same rfl rfl
  have hwait := hbefore.wait hs hle h.short ⟨req.layer, x⟩
  have hq : g.engine.prefetcher.Queued ⟨req.layer, x⟩ :=
    h.queued htodo rfl List.mem_cons_self (h.ready.resolves ⟨req.layer, x⟩ hres)
  -- the wait returns true, so the copy has run
  have htrue : (s.copies.wait ⟨req.layer, x⟩).1 = true :=
    (h.host.wait h.short _).1.trans
      (h.ready.reached.prefetcher.bytes.queue.wait_eq_true_iff.mpr hq)
  have harrived : Arrived log s.copies ⟨req.layer, x⟩ :=
    h.tracks.arrived (h.host.length ▸ h.short) hdone htrue
  have hp := hwait.data ⟨req.layer, x⟩
  rw [CudaEngine.waitFor_cache] at hp
  have hptr : g.engine.cache.data ⟨req.layer, x⟩ ≠ 0 :=
    h.ready.reached.prefetcher.bytes.slot.data_ne_zero.mpr hres
  have hfill := sync_launch_fill hw hinter hhidden h.ready row hres hq
  dsimp only at hfill
  have hlaunch : StreamedEngine.launchExpert { s with todo := ops } req.layer row x =
      { StreamedEngine.withCopies { s with todo := ops } (s.copies.wait ⟨req.layer, x⟩).2 with
        kernels := s.kernels ++ [.swigluH x (g.engine.cache.data ⟨req.layer, x⟩),
          .swigluY row x (g.engine.cache.data ⟨req.layer, x⟩)] } := by
    rw [← hp] at hptr ⊢
    exact if_neg hptr
  refine ⟨_, h.advance htodo rfl (fun hsync => by cases hsync) ?_ ?_ ?_ ?_ ?_⟩
  · rw [hlaunch, hfill]
    exact hwait.of_same rfl rfl
  · rw [hlaunch]
    rfl
  · rw [hlaunch, hfill]
    intro ker hker y p hblob
    dsimp only
    rw [CudaEngine.waitFor_cache]
    rcases List.mem_append.mp hker with hker | hker
    · obtain ⟨hyes, hdata, ha⟩ := h.launched ker hker y p hblob
      exact ⟨hyes, hdata, ha.wait _⟩
    · rcases List.mem_pair.mp hker with rfl | rfl
      · cases hblob
        exact ⟨hres, rfl, harrived.wait _⟩
      · cases hblob
        exact ⟨hres, rfl, harrived.wait _⟩
  · rw [hlaunch, hfill]
    dsimp only
    rw [run_append]
    exact congrArg (fun d => GuardedRuns.run (ideal env e₀ req.hIn) d _) h.scratch
  · rw [hfill]
    exact fun k hk => hk.wait _

/-- The step lemma: whoever takes its turn, the simulation goes on. -/
theorem InStep.step (h : InStep env e₀ B a req G log s g) {t : StreamTurn} (hen : s.Enabled req t) :
    ∃ log' g', InStep env e₀ B a req G log' (s.step env req t) g' := by
  cases t with
  | copy =>
    refine ⟨log.drainUntil s.completed, g, ⟨h.toFollows.runCopy hen, ?_, h.scratch, h.stages_first,
      h.no_stage, h.ends, h.staged, h.finish, h.room⟩⟩
    intro ker hker x p hblob
    obtain ⟨hres, hp, ha⟩ := h.launched ker hker x p hblob
    exact ⟨hres, hp, ha.runCopy hen⟩
  | kernel order => exact ⟨log, g, h.runKernel hw hinter hhidden hen⟩
  | host =>
    obtain ⟨op, ops, htodo, hgo⟩ := hen
    simp only [StreamedEngine.step, htodo]
    cases op with
    | stage x pr =>
      obtain ⟨log', h'⟩ := h.stage hs hle htodo
      exact ⟨log', _, h'⟩
    | launch row x =>
      cases hres : g.engine.cache.isResident ⟨req.layer, x⟩ with
      | false =>
        obtain ⟨g', h'⟩ := h.launch_skip hs hle htodo hres
        exact ⟨log, g', h'⟩
      | true =>
        obtain ⟨g', h'⟩ := h.launch_fill hs hle hw hinter hhidden htodo hgo hres
        exact ⟨log, g', h'⟩
    | combine count => exact ⟨log, _, h.combine htodo⟩
    | sync => exact ⟨log, g, h.sync htodo hgo⟩

/-- The run lemma. -/
theorem InStep.run (h : InStep env e₀ B a req G log s g) {turns : List StreamTurn}
    (hen : Guarded (StreamedEngine.step env req) (Enabled req) s turns) :
    ∃ log' g', InStep env e₀ B a req G log'
      (GuardedRuns.run (StreamedEngine.step env req) s turns) g' :=
  invariant_run (P := fun s => ∃ log' g', InStep env e₀ B a req G log' s g')
    (fun _ _ ⟨_, _, hP⟩ hen => hP.step hs hle hw hinter hhidden hen) ⟨log, g, h⟩ hen

end Steps

/-- The streams can always run dry. -/
theorem exists_drained (env : Platform F) (req : LayerRequest F) (s : StreamedEngine F) :
    ∃ turns, Guarded (step env req) (Enabled req) s turns ∧
      (run (step env req) s turns).stream = [] ∧ (run (step env req) s turns).kernels = [] ∧
        (run (step env req) s turns).todo = s.todo := by
  generalize hn : s.stream.length + s.kernels.length = n
  induction n generalizing s with
  | zero =>
    obtain ⟨hstream, hkernels⟩ := Nat.add_eq_zero_iff.mp hn
    exact ⟨[], trivial, List.eq_nil_of_length_eq_zero hstream,
      List.eq_nil_of_length_eq_zero hkernels, rfl⟩
  | succ n ih =>
    by_cases hcopy : s.stream = []
    · rw [hcopy, List.length_nil, Nat.zero_add] at hn
      obtain ⟨ker, ks, hks⟩ := List.exists_cons_of_length_eq_add_one hn
      let t : StreamTurn := .kernel (ker.grid s.engine.inter.toNat s.engine.hidden.toNat)
      have hkeep : (s.step env req t).stream = s.stream ∧
          (s.step env req t).kernels = ks ∧ (s.step env req t).todo = s.todo := by
        simp only [t, step, runKernel, hks, and_self]
      obtain ⟨hstream, hkernels, htodo⟩ := hkeep
      obtain ⟨turns, hen, h1, h2, h3⟩ := ih (s.step env req t) (by
        rw [hstream, hkernels, hcopy, List.length_nil, Nat.zero_add]
        rw [hks, List.length_cons] at hn
        omega)
      exact ⟨t :: turns, ⟨⟨ker, ks, hks, .refl _⟩, hen⟩, h1, h2, h3.trans htodo⟩
    · obtain ⟨c, rest, hcr⟩ := List.exists_cons_of_ne_nil hcopy
      have hkeep : (s.step env req .copy).stream = rest ∧
          (s.step env req .copy).kernels = s.kernels ∧
            (s.step env req .copy).todo = s.todo := by
        simp [step, withCopies, copies, CudaPrefetcher.runCopy, hcr]
      obtain ⟨hstream, hkernels, htodo⟩ := hkeep
      obtain ⟨turns, hen, h1, h2, h3⟩ := ih (s.step env req .copy) (by
        rw [hstream, hkernels]
        rw [hcr, List.length_cons] at hn
        omega)
      exact ⟨.copy :: turns, ⟨hcopy, hen⟩, h1, h2, h3.trans htodo⟩

/-- Whoever takes its turn, no event lies behind a copy that has not been submitted. -/
theorem eventsSubmitted_step (h : s.copies.EventsSubmitted) (t : StreamTurn) :
    (s.step env req t).copies.EventsSubmitted := by
  cases t with
  | copy => exact h.step .copy
  | kernel order =>
    simp only [step, runKernel]
    split
    · exact h
    · exact h
  | host =>
    simp only [step]
    split
    · exact h
    · next op ops _ =>
      cases op with
      | stage x pr =>
        simp only [hostStep, StreamedEngine.stageExpert]
        rcases s.engine.getStaging env x with ⟨_ | blob, e⟩
        · exact h
        · exact EventsSubmitted.step (s := ⟨e.prefetcher, s.events, s.stream, s.completed⟩) h
            (.host (.prefetch ⟨req.layer, x⟩ blob e.blobBytes pr))
      | launch row x =>
        have hwait := h.step (.host (.wait ⟨req.layer, x⟩))
        simp only [hostStep, launchExpert]
        split_ifs
        · exact hwait
        · exact hwait
      | combine count => exact h
      | sync => exact h

theorem eventsSubmitted_run (env : Platform F) (req : LayerRequest F)
    (h : s.copies.EventsSubmitted) (turns : List StreamTurn) :
    (run (step env req) s turns).copies.EventsSubmitted :=
  invariant_run_of_step (P := fun s : StreamedEngine F => s.copies.EventsSubmitted)
    (fun _ t h => eventsSubmitted_step h t) h turns

omit [Field F] in
/-- Nothing blocks the host once the streams have run dry. -/
theorem mayGo_drained (h : s.copies.EventsSubmitted) (hstream : s.stream = [])
    (hkernels : s.kernels = []) (op : HostStep) : s.MayGo req.layer op := by
  cases op with
  | launch row x =>
    intro _ n hn
    have hle := h n (List.mem_of_getElem? hn)
    have hnone : s.copies.stream = [] := hstream
    rwa [hnone] at hle
  | sync => exact hkernels
  | stage x pr => trivial
  | combine count => trivial

/-- Between two calls: no kernel is left, and the device buffers are those of the engine that
does everything at once. -/
structure AtRest (env : Platform F) (e₀ : Engine F) (B : ℕ) (a : Arena) (s : StreamedEngine F)
    (g : SyncEngine F) : Prop where
  follows : ∃ log, Follows env e₀ B a log s g.engine
  kernels : s.kernels = []
  scratch : s.scratch = g.scratch

theorem InStep.atRest (h : InStep env e₀ B a req G log s g) (htodo : s.todo = []) :
    AtRest env e₀ B a s G := by
  have hG := h.finish
  rw [htodo] at hG
  obtain rfl : g = G := hG
  have hnone : s.kernels = [] := by
    rcases h.ends with hlast | ⟨-, hnone⟩
    · rw [htodo] at hlast
      cases hlast
    · exact hnone
  have hscratch := h.scratch
  rw [hnone] at hscratch
  exact ⟨⟨log, h.toFollows⟩, hnone, hscratch⟩

/-- A call begins. -/
theorem AtRest.start (h : AtRest env e₀ B a s g) {req : LayerRequest F} (hroom : s.HasRoom req) :
    ∃ log, InStep env e₀ B a req (g.finish env req
      (program e₀.cfg.topk (e₀.predicted req.layer req.hIn))) log (s.start req) g := by
  obtain ⟨log, hf⟩ := h.follows
  have hsetup := hf.setup
  have htodo : (s.start req).todo = program e₀.cfg.topk (e₀.predicted req.layer req.hIn) := by
    rw [← hsetup.predicted, ← hsetup.cfg]
    rfl
  have hkernels : (s.start req).kernels = [] := h.kernels
  refine ⟨log, ⟨hf.of_same rfl rfl, ?_, ?_, ?_, ?_, ?_, ?_, ?_, ?_⟩⟩
  · intro ker hker
    rw [hkernels] at hker
    cases hker
  · rw [hkernels]
    exact h.scratch
  · rw [htodo]
    exact program_stages_first _ _
  · exact fun hne => absurd hkernels hne
  · rw [htodo]
    exact (program_ends _ _).imp_right fun hnil => ⟨hnil, hkernels⟩
  · intro row x hx _
    rw [htodo] at hx ⊢
    exact Or.inr (program_staged hx)
  · rw [htodo]
  · rw [htodo, countP_program, ← hsetup.predicted]
    have hlen : g.engine.queued = s.engine.queued := hf.host.length
    rw [hlen]
    exact hroom

/-- From every state within a call, some turns end the call. -/
theorem exists_return (h : s.copies.EventsSubmitted) :
    ∃ turns, Guarded (StreamedEngine.step env req) (Enabled req) s turns ∧
      (GuardedRuns.run (StreamedEngine.step env req) s turns).todo = [] := by
  generalize hops : s.todo = ops
  induction ops generalizing s with
  | nil => exact ⟨[], trivial, hops⟩
  | cons op ops ih =>
    obtain ⟨turns, hen, hstream, hkernels, htodo⟩ := exists_drained env req s
    have h₁ := eventsSubmitted_run env req h turns
    rw [hops] at htodo
    generalize hdry : run (step env req) s turns = s₁ at *
    have hhost : s₁.Enabled req .host := ⟨op, ops, htodo, mayGo_drained h₁ hstream hkernels op⟩
    have hleft : (s₁.step env req .host).todo = ops := by
      simp only [StreamedEngine.step, htodo]
      exact hostStep_todo _ _ _
    obtain ⟨rest, hrest, hend⟩ := ih (eventsSubmitted_step h₁ .host) hleft
    refine ⟨turns ++ .host :: rest, guarded_append.mpr ⟨hen, ?_⟩, ?_⟩
    · rw [hdry]
      exact ⟨hhost, hrest⟩
    · rw [run_append, hdry]
      exact hend

section Calls
variable (hs : 0 < e₀.blobBytes) (hle : e₀.blobBytes ≤ B) (hw : e₀.blobBytes = 12 * e₀.weights)
  (hinter : e₀.inter.toNat + 255 < 2 ^ 31) (hhidden : e₀.hidden.toNat + 255 < 2 ^ 31)
include hs hle hw hinter hhidden

variable [LinearOrder F]

/-- The call lemma. -/
theorem AtRest.forwardLayerCuda (h : AtRest env e₀ B a s g) {c : ScheduledCall F}
    (hc : s.Returns env c) (hroom : s.HasRoom c.request) :
    (s.forwardLayerCuda env c).1 = (g.forwardLayerCuda env c.request).1 ∧
      AtRest env e₀ B a (s.next env c) (g.next env c.request) := by
  obtain ⟨log, hf⟩ := h.follows
  obtain ⟨log₀, h₀⟩ := h.start hroom
  obtain ⟨log', g', h'⟩ := h₀.run hs hle hw hinter hhidden hc.1
  have hrest := h'.atRest hc.2
  have hpred : s.engine.predicted c.request.layer c.request.hIn =
      e₀.predicted c.request.layer c.request.hIn := hf.setup.predicted _ _
  have hpred' : g.engine.predicted c.request.layer c.request.hIn =
      e₀.predicted c.request.layer c.request.hIn := hf.ready.reached.setup.predicted _ _
  constructor
  · simp only [StreamedEngine.forwardLayerCuda, SyncEngine.forwardLayerCuda, hpred, hpred',
      hf.setup.hidden, hf.ready.reached.setup.hidden, hf.ready.reached.setup.cfg, hrest.scratch]
  · simp only [SyncEngine.next, SyncEngine.forwardLayerCuda, hpred',
      hf.ready.reached.setup.cfg]
    exact hrest

/-- The run lemma, over any sequence of calls. -/
theorem AtRest.run (h : AtRest env e₀ B a s g) {calls : List (ScheduledCall F)}
    (hcalls : Guarded (next env) (Returns env) s calls)
    (hroom : Guarded (next env) (fun s c => s.HasRoom c.request) s calls) :
    outputs (fun s c => [(s.forwardLayerCuda env c).1]) (next env) s calls =
        outputs (fun g req => [(g.forwardLayerCuda env req).1]) (SyncEngine.next env) g
          (calls.map ScheduledCall.request) := by
  induction calls generalizing s g with
  | nil => rfl
  | cons c calls ih =>
    obtain ⟨hout, hnext⟩ := h.forwardLayerCuda hs hle hw hinter hhidden hcalls.1 hroom.1
    rw [outputs, hout, ih hnext hcalls.2 hroom.2]
    rfl

end Calls

variable [LinearOrder F] {files : EngineFiles F} {order : Order} {vram : ℕ → UInt8}
  {cfg : EngineConfig}

omit [LinearOrder F] in
theorem fresh_atRest (hinit : (Engine.fresh order vram).init env files cfg = (true, e₀))
    (h : CudaEngine.Ready env e₀ B e₀) (scratch : Scratch F) :
    ∃ a, AtRest env e₀ B a (fresh e₀ scratch) ⟨e₀, scratch⟩ := by
  obtain ⟨base, hstart⟩ := Engine.init_started hinit
  generalize (if cfg.budgetBytes ≠ 0 then cfg.budgetBytes else 4 * e₀.blobBytes % 2 ^ 64) = budget
    at hstart
  have hbytes := h.reached.prefetcher.bytes
  rw [hstart.prefetcher] at hbytes
  have htracks := fresh_tracks hbytes
  have hcopies : (fresh e₀ scratch).copies =
      CudaPrefetcher.fresh (started order base budget) vram := by
    rw [copies, fresh, hstart.prefetcher]
    rfl
  rw [← hcopies] at htracks
  exact ⟨_, ⟨_, h, rfl, ⟨h.reached.prefetcher.bytes.queue, rfl, rfl, rfl, rfl, rfl⟩, htracks⟩,
    rfl, rfl⟩

/-- However the copies and the kernels are delayed against the host, and in whatever order their
threads run: every sequence of layers whose ranks fit in the queue returns the vectors of the
engine that does everything at once, with any budget of at least one blob and any contents of the
scratch; and a layer under way can always return. -/
theorem run_interleavings (hinit : (Engine.fresh order vram).init env files cfg = (true, e₀))
    (hinter : 0 < e₀.inter) (hhidden : 0 < e₀.hidden) (hcfg : cfg.budgetBytes < 2 ^ 64)
    (hfit : 12 * (e₀.inter.toNat * e₀.hidden.toNat) ≤ e₀.cache.arena.cap)
    (hgridInter : e₀.inter.toNat + 255 < 2 ^ 31) (hgridHidden : e₀.hidden.toNat + 255 < 2 ^ 31)
    (scratch : Scratch F) (calls : List (ScheduledCall F))
    (hcalls : Guarded (next env) (Returns env) (fresh e₀ scratch) calls) :
    (Guarded (next env) (fun s c => s.HasRoom c.request) (fresh e₀ scratch) calls →
      outputs (fun s c => [(s.forwardLayerCuda env c).1]) (next env) (fresh e₀ scratch) calls =
        outputs (fun g req => [(g.forwardLayerCuda env req).1]) (SyncEngine.next env)
          (⟨e₀, scratch⟩ : SyncEngine F) (calls.map ScheduledCall.request)) ∧
      let s := run (next env) (fresh e₀ scratch) calls
      ∀ (req : LayerRequest F) (turns : List StreamTurn),
        Guarded (step env req) (Enabled req) (s.start req) turns →
          ∃ rest, s.Returns env ⟨req, turns ++ rest⟩ := by
  obtain ⟨hw, hs, hle, hready⟩ := CudaEngine.init_ready hinit hinter hhidden hcfg hfit
  obtain ⟨a, hrest⟩ := fresh_atRest hinit hready scratch
  refine ⟨hrest.run hs hle hw hgridInter hgridHidden hcalls, fun req turns hturns => ?_⟩
  have hend : (run (next env) (fresh e₀ scratch) calls).copies.EventsSubmitted :=
    invariant_run_of_step (P := fun s : StreamedEngine F => s.copies.EventsSubmitted)
      (fun s c h => eventsSubmitted_run (s := s.start c.request) env c.request h c.turns)
      (fun n hn => absurd hn List.not_mem_nil) calls
  obtain ⟨rest, hrest, hdone⟩ := exists_return (eventsSubmitted_run (s := start _ req) env req hend
    turns)
  refine ⟨rest, guarded_append.mpr ⟨hturns, hrest⟩, ?_⟩
  simp only [next, StreamedEngine.forwardLayerCuda, run_append]
  exact hdone

section Tiny
open Engine

/-- With one slot: the copy of expert 0 is still under way when expert 1 takes its place. -/
theorem run_interleavings_one_slot :
    let d : Scratch ℝ := ⟨fun _ => 5, fun _ => 7, fun _ => 9⟩
    let o := threads (grid 1) 256
    let req : LayerRequest ℝ := ⟨0, fun _ => 1⟩
    outputs (fun s c => [(s.forwardLayerCuda hostPlatform c).1]) (next hostPlatform)
        (fresh oneSlot d) [⟨req, [.host, .host, .copy, .host, .copy, .host, .kernel o, .host,
          .kernel o, .kernel o, .host]⟩] =
      outputs (fun g req => [(g.forwardLayerCuda hostPlatform req).1])
        (SyncEngine.next hostPlatform) (⟨oneSlot, d⟩ : SyncEngine ℝ) [req] := by
  intro d o req
  have hinter : oneSlot.inter.toNat = 1 := by
    rw [oneSlot_setup.inter]
    rfl
  have hhidden : oneSlot.hidden.toNat = 1 := by
    rw [oneSlot_setup.hidden]
    rfl
  have hfit := oneSlot_setup.fits Nat.one_pos rfl
  refine (run_interleavings oneSlot_init oneSlot_setup.inter_pos oneSlot_setup.hidden_pos
    (by norm_num) (by omega) (by rw [hinter]; norm_num) (by rw [hhidden]; norm_num) d
    [⟨req, [.host, .host, .copy, .host, .copy, .host, .kernel o, .host, .kernel o, .kernel o,
      .host]⟩] ⟨⟨⟨?_, ?_, ?_, ?_, ?_, ?_, ?_, ?_, ?_, ?_, ?_, trivial⟩, ?_⟩, trivial⟩).1
    ⟨?_, trivial⟩
  all_goals decide +kernel

end Tiny

end Dee.StreamedEngine
