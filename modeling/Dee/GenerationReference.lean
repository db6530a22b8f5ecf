import Dee.Generation

/-! The generator against the plain model. In the plain model every expert is at hand; the
generator asks an Oracle, prefetches, waits and reads the experts out of slots that are used
again and again. As long as the memory keeps its promises both produce the same tokens,
whatever the Oracle predicts and whenever the transfers end. -/
namespace Dee.Generation
open CountedLoops

variable {σ F : Type*} [Field F]

/-- A mixture of experts without any memory management. -/
structure MoeModel (F : Type*) where
  layerIndex : ℤ → ℤ
  embed : ℤ → ℕ → F
  routeIds : ℤ → (ℕ → F) → ℕ → ℤ
  routeScores : ℤ → (ℕ → F) → ℕ → F
  /-- the weights of an expert, gate and up before down -/
  blob : ℤ → ℤ → ℕ → F
  sample : (ℕ → F) → ℤ

namespace MoeModel
variable (M : MoeModel F) (exp : F → F) (cfg : GeneratorConfig)

/-- The hidden state and the routed experts' outputs, weighted by their scores. -/
def layer (L : ℕ) (x : ℕ → F) : ℕ → F :=
  let ml := M.layerIndex L
  fun i => if i < cfg.hiddenDim.toNat then
      x i + ∑ k ∈ Finset.range cfg.topk.toNat, M.routeScores ml x k *
        documentedExpert exp (M.blob ml (M.routeIds ml x k)) x cfg.interDim.toNat
          cfg.hiddenDim.toNat i
    else x i

def embedded (token : ℤ) (x : ℕ → F) : ℕ → F :=
  fun i => if i < cfg.hiddenDim.toNat then M.embed token i else x i

def feed (x : ℕ → F) (token : ℤ) : ℕ → F :=
  forRange cfg.numLayers.toNat (M.layer exp cfg) (M.embedded cfg token x)

def decode : ℕ → (ℕ → F) → List ℤ
  | 0, _ => []
  | n + 1, x =>
    let next := M.sample x
    if next = cfg.eosToken then [next] else next :: decode n (M.feed exp cfg x next)

def generate (prompt : List ℤ) (maxNewTokens : ℤ) : List ℤ :=
  if prompt = [] ∨ maxNewTokens ≤ 0 then []
  else M.decode exp cfg maxNewTokens.toNat (prompt.foldl (M.feed exp cfg) fun _ => 0)

end MoeModel

/-- What the environment promises: its heads are those of the model, a transfer that was asked
for is in flight, an expert that is waited for is ready, and the slot of a ready expert holds
its weights. `Sound` is what the environment keeps of itself. -/
structure Keeps (M : MoeModel F) (cfg : GeneratorConfig) (env : Environment σ F)
    (Sound : σ → Prop) (Queued Ready : σ → ℤ → ℤ → Prop) : Prop where
  layerIndex : ∀ w L, Sound w →
    (env.layerIndex w L).1 = M.layerIndex L ∧ Sound (env.layerIndex w L).2
  predict : ∀ w ml x ids, Sound w → Sound (env.predict w ml x cfg.hiddenDim cfg.topk ids).2
  isReady : ∀ w ml e, Sound w → Sound (env.isReady w ml e).2 ∧
    ((env.isReady w ml e).1 = true → Ready (env.isReady w ml e).2 ml e)
  isInflight : ∀ w ml e, Sound w → Sound (env.isInflight w ml e).2 ∧
    ((env.isInflight w ml e).1 = true → Queued (env.isInflight w ml e).2 ml e)
  prefetchExpert : ∀ w ml e, Sound w →
    Sound (env.prefetchExpert w ml e) ∧ Queued (env.prefetchExpert w ml e) ml e
  synchronizeExpert : ∀ w ml e, Sound w → Queued w ml e →
    Sound (env.synchronizeExpert w ml e) ∧ Ready (env.synchronizeExpert w ml e) ml e
  touch : ∀ w ml e, Sound w → Ready w ml e →
    Sound (env.touch w ml e) ∧ Ready (env.touch w ml e) ml e
  route : ∀ w ml x ids scores, Sound w →
    let r := env.route w ml x cfg.hiddenDim cfg.topk ids scores
    (∀ k < cfg.topk.toNat, r.1 k = M.routeIds ml x k ∧ r.2.1 k = M.routeScores ml x k) ∧
      Sound r.2.2
  expertTensors : ∀ w ml e views, Sound w → Ready w ml e →
    let r := env.expertTensors w ml e views
    let n := cfg.interDim.toNat * cfg.hiddenDim.toNat
    Sound r.2 ∧ (∀ i < 2 * n, env.slotFloats r.2 ml e (r.1 .gateUp) i = M.blob ml e i) ∧
      ∀ i < n, env.slotFloats r.2 ml e (r.1 .down) i = M.blob ml e (2 * n + i)
  embed : ∀ w token x, Sound w → (env.embed w token x cfg.hiddenDim).1 = M.embedded cfg token x ∧
    Sound (env.embed w token x cfg.hiddenDim).2
  sample : ∀ w x, Sound w →
    (env.sample w x cfg.hiddenDim).1 = M.sample x ∧ Sound (env.sample w x cfg.hiddenDim).2

/-- The kernel reads nothing beyond the three blocks. -/
theorem expertMlp_reads (exp : F → F) (x : ℕ → F) {gu dn blob : ℕ → F} {hidden inter : ℕ}
    (b : MlpBuffers F) (hgu : ∀ i < 2 * (inter * hidden), gu i = blob i)
    (hdn : ∀ i < inter * hidden, dn i = blob (2 * (inter * hidden) + i)) {o : ℕ} (ho : o < hidden) :
    (expertMlp exp x hidden inter gu dn b).out o = documentedExpert exp blob x inter hidden o := by
  simp only [expertMlp, matvec_apply _ _ _ _ _ ho, rowDot, documentedExpert]
  refine Finset.sum_congr rfl fun i hi => ?_
  have hi' := Finset.mem_range.mp hi
  have hgate : rowDot gu x hidden i = rowDot blob x hidden i :=
    rowDot_congr (fun j hj => hgu j (by omega)) hi'
  have hup : rowDot (advance gu (inter * hidden)) x hidden i =
      rowDot (advance blob (inter * hidden)) x hidden i :=
    rowDot_congr (fun j hj => hgu (inter * hidden + j) (by omega)) hi'
  have hdown : o * inter + i < inter * hidden := by
    rw [Nat.mul_comm inter]
    exact cell_lt ho hi'
  rw [hdn _ hdown]
  simp only [forRange_fill, hi', if_true, matvec_apply _ _ _ _ _ hi', hiddenUnit, hgate, hup]

namespace Generator
variable {M : MoeModel F} (exp : F → F) {env : Environment σ F} {Sound : σ → Prop}
  {Queued Ready : σ → ℤ → ℤ → Prop} {cfg : GeneratorConfig} {g g' : Generator σ F}

/-- A generator between two calls of the environment. -/
structure Runs (Sound : σ → Prop) (cfg : GeneratorConfig) (g : Generator σ F) : Prop where
  sound : Sound g.world
  cfg_eq : g.cfg = cfg

/-- What waiting for an expert leaves alone. -/
structure SameTask (g g' : Generator σ F) : Prop where
  routeIds : g'.routeIds = g.routeIds
  routeScores : g'.routeScores = g.routeScores

omit [Field F] in
theorem sound_onTokenDecoded (h : Keeps M cfg env Sound Queued Ready) {w : σ} (hw : Sound w)
    (ml : ℤ) (x : ℕ → F) :
    Sound (onTokenDecoded env cfg.topk w ml x cfg.hiddenDim) := by
  unfold onTokenDecoded
  have hpredict := h.predict w ml x (fun _ => 0) hw
  generalize env.predict w ml x cfg.hiddenDim cfg.topk (fun _ => 0) = r at hpredict ⊢
  obtain ⟨pred, w₁⟩ := r
  refine forRange_invariant (P := fun _ w => Sound w) hpredict fun i w _ hw => ?_
  dsimp only
  split_ifs
  · exact hw
  · exact (h.isInflight w ml (pred i) hw).1
  · exact (h.prefetchExpert _ ml (pred i) (h.isInflight w ml (pred i) hw).1).1

omit [Field F] in
/-- Part (3) makes the expert ready, with or without the Oracle. -/
theorem ensureReady_spec (h : Keeps M cfg env Sound Queued Ready) (hg : Runs Sound cfg g)
    (ml e : ℤ) : Runs Sound cfg (g.ensureReady env ml e) ∧
      Ready (g.ensureReady env ml e).world ml e ∧ SameTask g (g.ensureReady env ml e) ∧
      (g.ensureReady env ml e).moeOut = g.moeOut := by
  unfold ensureReady
  obtain ⟨hsound, hready⟩ := h.isReady g.world ml e hg.sound
  generalize env.isReady g.world ml e = r at hsound hready ⊢
  obtain ⟨ready, w⟩ := r
  dsimp only at hsound hready ⊢
  obtain ⟨hsound', hqueued⟩ := h.isInflight w ml e hsound
  split_ifs with hr hi
  · exact ⟨⟨hsound, hg.cfg_eq⟩, hready hr, ⟨rfl, rfl⟩, rfl⟩
  · obtain ⟨hs, hd⟩ := h.synchronizeExpert _ ml e hsound' (hqueued hi)
    exact ⟨⟨hs, hg.cfg_eq⟩, hd, ⟨rfl, rfl⟩, rfl⟩
  · obtain ⟨hp, hq⟩ := h.prefetchExpert _ ml e hsound'
    obtain ⟨hs, hd⟩ := h.synchronizeExpert _ ml e hp hq
    exact ⟨⟨hs, hg.cfg_eq⟩, hd, ⟨rfl, rfl⟩, rfl⟩

/-- The weights are read while they are there. -/
theorem evaluate_spec (h : Keeps M cfg env Sound Queued Ready) (hg : Runs Sound cfg g) {ml e : ℤ}
    (x : ℕ → F) {k : ℕ} (he : g.routeIds k = e) (hready : Ready g.world ml e) :
    Runs Sound cfg (evaluate exp env ml x k g) ∧ SameTask g (evaluate exp env ml x k g) ∧
      (evaluate exp env ml x k g).moeOut = fun i => if i < cfg.hiddenDim.toNat then
        g.moeOut i + g.routeScores k * documentedExpert exp (M.blob ml e) x cfg.interDim.toNat
          cfg.hiddenDim.toNat i else g.moeOut i := by
  subst he
  obtain ⟨hsound, hgu, hdn⟩ := h.expertTensors g.world ml (g.routeIds k) g.views hg.sound hready
  refine ⟨⟨hsound, hg.cfg_eq⟩, ⟨rfl, rfl⟩, ?_⟩
  dsimp only [evaluate]
  rw [hg.cfg_eq, forRange_update cfg.hiddenDim.toNat fun i v => v + _]
  funext i
  split_ifs with hi
  · have hmlp := expertMlp_reads exp x g.mlp hgu hdn hi
    exact congrArg (fun v => g.moeOut i + g.routeScores k * v) hmlp
  · rfl

/-- A round adds the routed expert with its score. -/
theorem expertStep_spec (h : Keeps M cfg env Sound Queued Ready) (hg : Runs Sound cfg g) (ml : ℤ)
    (x : ℕ → F) (k : ℕ) : Runs Sound cfg (expertStep exp env ml x k g) ∧
      SameTask g (expertStep exp env ml x k g) ∧
      (expertStep exp env ml x k g).moeOut = fun i => if i < cfg.hiddenDim.toNat then
        g.moeOut i + g.routeScores k * documentedExpert exp (M.blob ml (g.routeIds k)) x
          cfg.interDim.toNat cfg.hiddenDim.toNat i else g.moeOut i := by
  obtain ⟨hrun, hready, htask, hout⟩ := ensureReady_spec h hg ml (g.routeIds k)
  unfold expertStep
  dsimp only
  generalize he : g.routeIds k = e at hrun hready htask hout ⊢
  generalize g.ensureReady env ml e = g₁ at hrun hready htask hout ⊢
  obtain ⟨hsound, hready⟩ := h.touch _ _ _ hrun.sound hready
  have hid : g₁.routeIds k = e := by rw [htask.routeIds, he]
  obtain ⟨hrun', htask', hout'⟩ := evaluate_spec exp h
    (g := { g₁ with world := env.touch g₁.world ml e }) ⟨hsound, hrun.cfg_eq⟩ x hid hready
  refine ⟨hrun', ⟨htask'.routeIds.trans htask.routeIds,
    htask'.routeScores.trans htask.routeScores⟩, ?_⟩
  rw [← htask.routeScores, ← hout]
  exact hout'

/-- The loop over the routed experts. -/
theorem forRange_expertStep (h : Keeps M cfg env Sound Queued Ready) (hg : Runs Sound cfg g)
    (hzero : g.moeOut = fun _ => 0) (ml : ℤ) (x : ℕ → F) (n : ℕ) :
    Runs Sound cfg (forRange n (expertStep exp env ml x) g) ∧
      SameTask g (forRange n (expertStep exp env ml x) g) ∧
      ∀ i < cfg.hiddenDim.toNat, (forRange n (expertStep exp env ml x) g).moeOut i =
        ∑ k ∈ Finset.range n, g.routeScores k * documentedExpert exp (M.blob ml (g.routeIds k)) x
          cfg.interDim.toNat cfg.hiddenDim.toNat i := by
  induction n with
  | zero => exact ⟨hg, ⟨rfl, rfl⟩, fun i _ => by simp [hzero]⟩
  | succ n ih =>
    obtain ⟨hrun, htask, hout⟩ := ih
    obtain ⟨hrun', htask', hout'⟩ := expertStep_spec exp h hrun ml x n
    refine ⟨hrun', ⟨htask'.routeIds.trans htask.routeIds,
      htask'.routeScores.trans htask.routeScores⟩, fun i hi => ?_⟩
    rw [forRange_succ, hout', Finset.sum_range_succ, ← hout i hi, htask.routeIds,
      htask.routeScores]
    exact if_pos hi

/-- A layer of the generator is the layer of the model. -/
theorem layerStep_spec (h : Keeps M cfg env Sound Queued Ready) (hg : Runs Sound cfg g) (L : ℕ)
    (x : ℕ → F) : (layerStep exp env L (x, g)).1 = M.layer exp cfg L x ∧
      Runs Sound cfg (layerStep exp env L (x, g)).2 := by
  obtain rfl := hg.cfg_eq
  obtain ⟨hml, hsound⟩ := h.layerIndex g.world L hg.sound
  generalize hq : env.layerIndex g.world L = q at hml hsound
  obtain ⟨ml, w⟩ := q
  have hasked := sound_onTokenDecoded h hsound ml x
  obtain ⟨hroute, hsound'⟩ := h.route _ ml x g.routeIds g.routeScores hasked
  generalize hr : env.route (onTokenDecoded env g.cfg.topk w ml x g.cfg.hiddenDim) ml x
    g.cfg.hiddenDim g.cfg.topk g.routeIds g.routeScores = r at hroute hsound'
  obtain ⟨ids, scores, w'⟩ := r
  obtain ⟨hrun, -, hout⟩ := forRange_expertStep exp (g := { g with
    world := w'
    predictionCalls := g.predictionCalls + 1
    routeIds := ids
    routeScores := scores
    moeOut := fun _ => 0 }) h ⟨hsound', rfl⟩ rfl ml x g.cfg.topk.toNat
  dsimp only at hml hroute hout
  unfold layerStep
  dsimp only
  simp only [hq, hr]
  refine ⟨?_, hrun⟩
  rw [forRange_update g.cfg.hiddenDim.toNat fun i v => v + _]
  funext i
  unfold MoeModel.layer
  split_ifs with hi
  · rw [hout i hi, ← hml]
    congr 1
    refine Finset.sum_congr rfl fun k hk => ?_
    obtain ⟨hid, hscore⟩ := hroute k (Finset.mem_range.mp hk)
    rw [hid, hscore]
  · rfl

theorem runLayers_spec (h : Keeps M cfg env Sound Queued Ready) (hg : Runs Sound cfg g)
    (x : ℕ → F) :
    (runLayers exp env (x, g)).1 = forRange cfg.numLayers.toNat (M.layer exp cfg) x ∧
      Runs Sound cfg (runLayers exp env (x, g)).2 := by
  unfold runLayers
  rw [hg.cfg_eq]
  induction cfg.numLayers.toNat with
  | zero => exact ⟨rfl, hg⟩
  | succ n ih =>
    obtain ⟨hx, hrun⟩ := ih
    rw [forRange_succ, forRange_succ]
    generalize forRange n (layerStep exp env) (x, g) = s at hx hrun ⊢
    obtain ⟨y, g'⟩ := s
    obtain rfl : y = forRange n (M.layer exp cfg) x := hx
    exact layerStep_spec exp h hrun n _

/-- A token through the generator is the token through the model. -/
theorem feed_spec (h : Keeps M cfg env Sound Queued Ready) {s : (ℕ → F) × Generator σ F}
    (hg : Runs Sound cfg s.2) (token : ℤ) :
    (feed exp env s token).1 = M.feed exp cfg s.1 token ∧
      Runs Sound cfg (feed exp env s token).2 := by
  unfold feed
  obtain ⟨hembed, hsound⟩ := h.embed s.2.world token s.1 hg.sound
  rw [hg.cfg_eq]
  generalize env.embed s.2.world token s.1 cfg.hiddenDim = r at hembed hsound ⊢
  obtain ⟨x, w⟩ := r
  obtain rfl : x = M.embedded cfg token s.1 := hembed
  exact runLayers_spec exp (g := { s.2 with world := w }) h ⟨hsound, hg.cfg_eq⟩ _

theorem foldl_feed_spec (h : Keeps M cfg env Sound Queued Ready) (tokens : List ℤ)
    {s : (ℕ → F) × Generator σ F} (hg : Runs Sound cfg s.2) :
    (tokens.foldl (feed exp env) s).1 = tokens.foldl (M.feed exp cfg) s.1 ∧
      Runs Sound cfg (tokens.foldl (feed exp env) s).2 := by
  induction tokens generalizing s with
  | nil => exact ⟨rfl, hg⟩
  | cons token tokens ih =>
    obtain ⟨hx, hrun⟩ := feed_spec exp h hg token
    rw [List.foldl_cons, List.foldl_cons, ← hx]
    exact ih hrun

theorem decode_eq (h : Keeps M cfg env Sound Queued Ready) (n : ℕ)
    {s : (ℕ → F) × Generator σ F} (hg : Runs Sound cfg s.2) :
    (decode exp env n s).1 = M.decode exp cfg n s.1 := by
  induction n generalizing s with
  | zero => rfl
  | succ n ih =>
    obtain rfl := hg.cfg_eq
    unfold decode MoeModel.decode
    obtain ⟨hnext, hsound⟩ := h.sample s.2.world s.1 hg.sound
    generalize env.sample s.2.world s.1 s.2.cfg.hiddenDim = r at hnext hsound ⊢
    obtain ⟨next, w⟩ := r
    obtain rfl : next = M.sample s.1 := hnext
    obtain ⟨hx, hfed⟩ := feed_spec exp h (s := (s.1, { s.2 with world := w }))
      ⟨hsound, rfl⟩ (M.sample s.1)
    dsimp only
    split_ifs with heos
    · rfl
    · rw [← hx, ← ih hfed]

/-- With an environment that keeps its promises the generator returns the tokens of the plain
model: the Oracle, the cache and the transfers change the telemetry only. -/
theorem generate_eq_reference (h : Keeps M cfg env Sound Queued Ready)
    (hsound : Sound g.world) (hcfg : g.cfg = cfg) (prompt : List ℤ) (maxNewTokens : ℤ) :
    (g.generate exp env prompt maxNewTokens).1 = M.generate exp cfg prompt maxNewTokens := by
  unfold generate MoeModel.generate
  split_ifs with hnone
  · rfl
  · obtain ⟨hx, hrun⟩ := foldl_feed_spec exp h prompt (s := (fun _ => 0, g))
      ⟨hsound, hcfg⟩
    rw [decode_eq exp h _ hrun, hx]

/-- A model of one neuron; the experts differ in all weights. -/
def oneNeuron : MoeModel ℚ where
  layerIndex L := L + 10
  embed token _ := token
  routeIds _ _ k := k + 1
  routeScores _ _ k := 1 / (k + 2)
  blob ml e i := ml + e * i
  sample x := ⌊x 0⌋

/-- Gate and up take two floats of four bytes. -/
def oneNeuronViews : ExpertTensor → ℕ
  | .gateUp => 0
  | .down => 8

/-- A slot for one expert and a transfer in flight; the Oracle predicts experts that the router
never chooses. -/
def oneSlot : Environment (Option (ℤ × ℤ) × Option (ℤ × ℤ)) ℚ where
  layerIndex w L := (L + 10, w)
  predict w _ _ _ _ _ := (fun i => i + 5, w)
  contains w ml e := w.1 == some (ml, e)
  isReady w ml e := (w.1 == some (ml, e), w)
  isInflight w ml e := (w.2 == some (ml, e), w)
  prefetchExpert w ml e := (w.1, some (ml, e))
  synchronizeExpert w ml e := if w.2 = some (ml, e) then (w.2, none) else w
  touch w _ _ := w
  route w _ _ _ _ _ _ := (fun k => k + 1, fun k => 1 / (k + 2), w)
  expertTensors w _ _ _ := (oneNeuronViews, w)
  slotFloats w _ _ offset i := (w.1.map fun k => oneNeuron.blob k.1 k.2 (offset / 4 + i)).getD 0
  embed w token x hiddenDim := (fun i => if i < hiddenDim.toNat then token else x i, w)
  sample w x _ := (⌊x 0⌋, w)

theorem oneSlot_keeps : Keeps oneNeuron ⟨1, 2, 1, 1, 7⟩ oneSlot (fun _ => True)
    (fun w ml e => w.2 = some (ml, e)) (fun w ml e => w.1 = some (ml, e)) where
  layerIndex _ _ _ := ⟨rfl, trivial⟩
  predict _ _ _ _ _ := trivial
  isReady _ _ _ _ := ⟨trivial, fun h => eq_of_beq h⟩
  isInflight _ _ _ _ := ⟨trivial, fun h => eq_of_beq h⟩
  prefetchExpert _ _ _ _ := ⟨trivial, rfl⟩
  synchronizeExpert w ml e _ h := ⟨trivial, by simp [oneSlot, h]⟩
  touch _ _ _ _ h := ⟨trivial, h⟩
  route _ _ _ _ _ _ := ⟨fun _ _ => ⟨rfl, rfl⟩, trivial⟩
  expertTensors w ml e _ _ h := by
    refine ⟨trivial, fun i _ => ?_, fun i _ => ?_⟩
    · simp [oneSlot, oneNeuronViews, h]
    · simp [oneSlot, oneNeuronViews, h]
  embed _ _ _ _ := ⟨rfl, trivial⟩
  sample _ _ _ := ⟨rfl, trivial⟩

/-- Two experts share the slot, and every token waits for both. -/
theorem generate_eq_reference_one_slot : ∃ g : Generator _ ℚ,
    construct (none, none) ⟨1, 2, 1, 1, 7⟩ = some g ∧
      (g.generate id oneSlot [1, 2] 3).1 = oneNeuron.generate id ⟨1, 2, 1, 1, 7⟩ [1, 2] 3 := by
  have hallocates : (⟨1, 2, 1, 1, 7⟩ : GeneratorConfig).Allocates := by decide
  exact ⟨_, dif_pos hallocates, generate_eq_reference id oneSlot_keeps trivial rfl [1, 2] 3⟩

end Generator
end Dee.Generation
