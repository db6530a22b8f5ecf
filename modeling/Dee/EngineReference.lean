import Dee.EngineCuda
import Dee.EngineFallbacks
import Dee.VramCacheWorkingSet

/-! The engine without its cache. When the budget holds every blob that the Oracle can ask
for, prefetching, waiting and eviction cannot be observed: each call computes what a plain
forward pass over the shard computes, whatever calls came before it. -/
namespace Dee
open GuardedRuns CountedLoops VramCacheManager

namespace LoopState
variable {H σ : Type*} {forward : ℕ → H → σ → H × σ} {trackPeak : σ → σ} {I : σ → Prop}
  {f : ℕ → H → H}

/-- The layers of a token when the engine keeps an invariant. -/
theorem layers_of_invariant {n : ℕ}
    (hf : ∀ L < n, ∀ h e, I e → (forward L h e).1 = f L h ∧ I (forward L h e).2)
    {s : LoopState H σ} (hI : I s.engine) (hne : s.cur ≠ s.nxt) :
    I (forRange n (layerStep forward) s).engine ∧
      (forRange n (layerStep forward) s).cur = s.cur ∧
      (forRange n (layerStep forward) s).nxt = s.nxt ∧
      (forRange n (layerStep forward) s).hiddenBuf s.cur = s.current ∧
      (0 < n → (forRange n (layerStep forward) s).hiddenBuf s.nxt = f (n - 1) s.current) := by
  induction n with
  | zero => exact ⟨hI, rfl, rfl, rfl, fun h => absurd h (lt_irrefl 0)⟩
  | succ n ih =>
    obtain ⟨hI', hcur, hnxt, hin, -⟩ := ih fun L hL => hf L (by omega)
    rw [forRange_succ]
    generalize forRange n (layerStep forward) s = s₁ at hI' hcur hnxt hin ⊢
    obtain ⟨hout, hkeep⟩ := hf n (Nat.lt_succ_self n) (s₁.hiddenBuf s₁.cur) s₁.engine hI'
    refine ⟨hkeep, hcur, hnxt, ?_, fun _ => ?_⟩
    · simp only [layerStep]
      rw [Function.update_of_ne (by rw [hnxt]; exact hne), hin]
    · simp only [layerStep, hout]
      rw [← hnxt, Function.update_self, hcur, hin, Nat.add_sub_cancel]

/-- The loop rule: where the layers compute `f` on the engines of an invariant, `T` tokens
apply the last of them `T` times. -/
theorem tokenLoop_of_invariant {n : ℕ} (hn : 0 < n)
    (hf : ∀ L < n, ∀ h e, I e → (forward L h e).1 = f L h ∧ I (forward L h e).2)
    (hpeak : ∀ e, I e → I (trackPeak e)) {s : LoopState H σ} (hI : I s.engine)
    (hne : s.cur ≠ s.nxt) (T : ℕ) :
    I (tokenLoop forward trackPeak n T s).engine ∧
      (tokenLoop forward trackPeak n T s).cur ≠ (tokenLoop forward trackPeak n T s).nxt ∧
      (tokenLoop forward trackPeak n T s).current = (f (n - 1))^[T] s.current := by
  unfold tokenLoop
  induction T with
  | zero => exact ⟨hI, hne, rfl⟩
  | succ T ih =>
    obtain ⟨hI', hne', hcurrent⟩ := ih
    rw [forRange_succ, Function.iterate_succ_apply', ← hcurrent]
    generalize forRange T (fun _ => tokenStep forward trackPeak n) s = s₁ at hI' hne' ⊢
    obtain ⟨hlast, hcur, hnxt, -, hout⟩ := layers_of_invariant hf hI' hne'
    simp only [tokenStep, current, hcur, hnxt]
    exact ⟨hpeak _ hlast, hne'.symm, hout hn⟩

/-- What holds of the buffers at first and of every layer's output holds in the end. -/
theorem tokenLoop_buffers {n : ℕ} {Q : H → Prop}
    (hf : ∀ L < n, ∀ h e, I e → (forward L h e).1 = f L h ∧ I (forward L h e).2)
    (hpeak : ∀ e, I e → I (trackPeak e)) (hQ : ∀ L < n, ∀ h, Q (f L h)) {s : LoopState H σ}
    (hI : I s.engine) (hs : ∀ b, Q (s.hiddenBuf b)) (T : ℕ) :
    ∀ b, Q ((tokenLoop forward trackPeak n T s).hiddenBuf b) := by
  have hloop : I (tokenLoop forward trackPeak n T s).engine ∧
      ∀ b, Q ((tokenLoop forward trackPeak n T s).hiddenBuf b) := by
    unfold tokenLoop
    apply forRange_invariant
      (P := fun (_ : ℕ) (s : LoopState H σ) => I s.engine ∧ ∀ b, Q (s.hiddenBuf b)) ⟨hI, hs⟩
    intro t s₁ _ h₁
    have hlayers : I (forRange n (layerStep forward) s₁).engine ∧
        ∀ b, Q ((forRange n (layerStep forward) s₁).hiddenBuf b) := by
      apply forRange_invariant
        (P := fun (_ : ℕ) (s : LoopState H σ) => I s.engine ∧ ∀ b, Q (s.hiddenBuf b)) h₁
      intro L s₂ hL h₂
      obtain ⟨hout, hkeep⟩ := hf L hL (s₂.hiddenBuf s₂.cur) s₂.engine h₂.1
      refine ⟨hkeep, fun b => ?_⟩
      simp only [layerStep, Function.update_apply, hout]
      split_ifs
      · exact hQ L hL _
      · exact h₂.2 b
    exact ⟨hpeak _ hlayers.1, hlayers.2⟩
  exact hloop.2

end LoopState

namespace Engine
variable {F : Type*}

/-- The shard has the three projections of the expert. -/
def serves (e : Engine F) (x : Int32) : Bool :=
  (e.view 0 x .gateProj).ok && (e.view 0 x .upProj).ok && (e.view 0 x .downProj).ok

theorem serves_iff {e : Engine F} {x : Int32} : e.serves x = true ↔ e.Resolves 0 x := by
  simp only [serves, Bool.and_eq_true]
  constructor
  · rintro ⟨⟨hg, hu⟩, hd⟩ kind
    cases kind with
    | gateProj => exact hg
    | upProj => exact hu
    | downProj => exact hd
  · exact fun h => ⟨⟨h .gateProj, h .upProj⟩, h .downProj⟩

section Definitions
variable [Field F] [LinearOrder F]

/-- The plain forward pass: the mean over the predicted experts, of which those that the
shard serves contribute their outputs. -/
def referenceLayer (env : Platform F) (e : Engine F) (layer : Int32) (hIn : ℕ → F) : ℕ → F :=
  let experts := e.predicted layer hIn
  combine env e.hidden.toNat experts.length fun o =>
    ((experts.filter e.serves).map fun x => expertOutput env e hIn x o).sum

/-- The embedding of token 0 in a buffer of zeros. -/
def referencePrompt (env : Platform F) (e : Engine F) : ℕ → F :=
  promptEmbedding env { e with hiddenBuf := fun _ _ => 0 }

/-- What a call returns: the output of the layer, or the vector of the last token. -/
def output (env : Platform F) (e : Engine F) : Op F → ℕ → F
  | .forwardLayer layer hIn => (e.forwardLayer env layer hIn).1
  | .generate => (e.generateLoop env).current

/-- The same with the positions of the queue in an `int`. -/
def IntQueue.output (env : Platform F) (e : Engine F) : Op F → ℕ → F
  | .forwardLayer layer hIn => (forwardLayer env e layer hIn).1
  | .generate => (generateLoop env e).current

/-- What the plain forward pass returns: it depends on the setup only. -/
def referenceOutput (env : Platform F) (e : Engine F) : Op F → ℕ → F
  | .forwardLayer layer hIn => e.referenceLayer env layer hIn
  | .generate =>
    (e.referenceLayer env (Int32.ofNat (e.cfg.numLayers.toNat - 1)))^[e.cfg.numTokens.toNat]
      (e.referencePrompt env)

end Definitions

/-- The working set: the blobs that the layers can ask for. -/
def AsksFor (e : Engine F) (layers : Finset Int32) (keys : Finset ExpertKey) : Prop :=
  ∀ layer ∈ layers, ∀ hIn, ∀ x ∈ e.predicted layer hIn, e.Resolves 0 x → ⟨layer, x⟩ ∈ keys

/-- A call that runs the given layers only. -/
def Op.Uses (layers : Finset Int32) : Op F → Prop
  | .forwardLayer layer _ => layer ∈ layers
  | .generate => True

/-- An engine reached with room for its working set. -/
structure Ample (env : Platform F) (e₀ : Engine F) (B : ℕ) (keys : Finset ExpertKey)
    (e : Engine F) : Prop extends CudaEngine.Ready env e₀ B e where
  holding : Holding (fun _ => e₀.blobBytes) keys e.cache

variable {env : Platform F} {e e₀ : Engine F} {B : ℕ} {keys : Finset ExpertKey}
  {layers : Finset Int32}

theorem Ample.with_stats (h : Ample env e₀ B keys e) (st : EngineStats) :
    Ample env e₀ B keys { e with stats := st } :=
  ⟨⟨h.reached.with_stats st, h.resolves⟩, h.holding⟩

section Steps
variable (hs : 0 < e₀.blobBytes) (hle : e₀.blobBytes ≤ B)
include hs hle

theorem Ample.stageExpert (h : Ample env e₀ B keys e) {layer x : Int32}
    (hx : e₀.Resolves 0 x → ⟨layer, x⟩ ∈ keys) (pr : ℤ) :
    Ample env e₀ B keys (e.stageExpert env layer x pr) ∧
      (e.stageExpert env layer x pr).cache.held =
        (if e₀.serves x then {⟨layer, x⟩} else ∅) ∪ e.cache.held := by
  have hready := h.toReady.stageExpert hs hle layer x pr
  rcases stageExpert_cases env h.reached.staging h.reached.elems_ne layer x pr with
    ⟨hres, he⟩ | ⟨hres, he⟩
  · have hres₀ : e₀.Resolves 0 x := (h.reached.setup.resolves 0 x).mp hres
    have hcache : (e.stageExpert env layer x pr).cache =
        e.cache.step (.ensure ⟨layer, x⟩ e₀.blobBytes pr) := by
      simp only [he, cache, AsyncPrefetcher.step, AsyncPrefetcher.prefetch_cache,
        h.reached.setup.blobBytes]
      rfl
    have hop : VramCacheManager.Op.Within (fun _ => e₀.blobBytes) keys
        (.ensure ⟨layer, x⟩ e₀.blobBytes pr) := ⟨hx hres₀, rfl⟩
    obtain ⟨hhold, hheld⟩ := h.holding.step (fun _ _ => hs) hop
    rw [if_pos (serves_iff.mpr hres₀)]
    exact ⟨⟨hready, by rw [hcache]; exact hhold⟩, by rw [hcache]; exact hheld⟩
  · have hno : ¬ e₀.serves x = true := fun hyes =>
      hres ((h.reached.setup.resolves 0 x).mpr (serves_iff.mp hyes))
    rw [he, if_neg hno, Finset.empty_union]
    exact ⟨h, rfl⟩

/-- The staging loop leaves exactly the experts that the shard serves in the cache. -/
theorem Ample.stageAll (h : Ample env e₀ B keys e) {layer : Int32} {xs : List Int32}
    (hxs : ∀ x ∈ xs, e₀.Resolves 0 x → ⟨layer, x⟩ ∈ keys) (k : ℕ) :
    Ample env e₀ B keys (Engine.stageAll env layer k xs e) ∧
      ∀ x, ⟨layer, x⟩ ∈ e.cache.held ∨ x ∈ xs ∧ e₀.serves x = true →
        ⟨layer, x⟩ ∈ (Engine.stageAll env layer k xs e).cache.held := by
  induction xs generalizing e k with
  | nil => exact ⟨h, fun x hx => hx.resolve_right fun hx => absurd hx.1 List.not_mem_nil⟩
  | cons y xs ih =>
    obtain ⟨hy, hrest⟩ := List.forall_mem_cons.mp hxs
    obtain ⟨h1, hheld⟩ := h.stageExpert hs hle hy (toInt (e.cfg.topk - k))
    obtain ⟨h2, hall⟩ := ih h1 hrest (k + 1)
    refine ⟨h2, fun x hx => hall x ?_⟩
    rw [hheld, Finset.mem_union]
    rcases hx with hx | ⟨hx, hserves⟩
    · exact Or.inl (Or.inr hx)
    · rcases List.mem_cons.mp hx with rfl | hx
      · rw [if_pos hserves]
        exact Or.inl (Or.inl (Finset.mem_singleton_self _))
      · exact Or.inr ⟨hx, hserves⟩

/-- After the staging loop a predicted expert is resident exactly when it is served. -/
theorem Ample.stays (h : Ample env e₀ B keys e) {layer : Int32} {xs : List Int32}
    (hxs : ∀ x ∈ xs, e₀.Resolves 0 x → ⟨layer, x⟩ ∈ keys) {x : Int32} (hx : x ∈ xs) :
    CudaEngine.Stays env e layer xs x = e₀.serves x := by
  obtain ⟨hstaged, hall⟩ := h.stageAll hs hle hxs 0
  rw [Bool.eq_iff_iff]
  constructor
  · exact fun hres => serves_iff.mpr (hstaged.resolves ⟨layer, x⟩ hres)
  · exact fun hserves =>
      hstaged.holding.toMapInv.mem_held_iff.mp (hall x (Or.inr ⟨hx, hserves⟩))

theorem Ample.waitFor (h : Ample env e₀ B keys e) (k : ExpertKey) :
    Ample env e₀ B keys (e.waitFor k) := by
  refine ⟨h.toReady.waitFor hs hle k, ?_⟩
  rw [CudaEngine.waitFor_cache]
  exact h.holding

variable [Field F]

theorem Ample.accumulate (h : Ample env e₀ B keys e) (layer : Int32) (hIn : ℕ → F)
    (xs : List Int32) (acc : ℕ → F) :
    Ample env e₀ B keys (Engine.accumulate env layer hIn xs acc e).2 := by
  induction xs generalizing e acc with
  | nil => exact h
  | cons x xs ih =>
    have hwait := h.waitFor hs hle ⟨layer, x⟩
    simp only [Engine.accumulate]
    split_ifs
    · exact ih ⟨hwait.toReady.countFallback, hwait.holding⟩ acc
    · have hop : VramCacheManager.Op.Within (fun _ => e₀.blobBytes) keys (.touch ⟨layer, x⟩) :=
        trivial
      have htouch := (hwait.holding.step (fun _ _ => hs) hop).1
      refine ih ⟨⟨hwait.reached.touch (Streams.step env hs hle) ⟨layer, x⟩, fun q hq => ?_⟩,
        htouch⟩ _
      apply hwait.resolves q
      rw [← hq]
      exact (touch_isResident hwait.reached.prefetcher.uniform.toMapInv _ _).symm

end Steps

theorem stageExpert_hiddenBuf (layer x : Int32) (pr : ℤ) (e : Engine F) :
    (e.stageExpert env layer x pr).hiddenBuf = e.hiddenBuf := by
  have hget : (e.getStaging env x).2.hiddenBuf = e.hiddenBuf := by
    unfold getStaging
    cases e.staging x with
    | some blob => rfl
    | none => simp only [apply_ite Prod.snd, apply_ite Engine.hiddenBuf, ite_self]
  unfold stageExpert
  rcases hres : e.getStaging env x with ⟨_ | blob, e₁⟩
  · rw [hres] at hget
    exact hget
  · rw [hres] at hget
    exact hget

theorem stageAll_hiddenBuf (layer : Int32) (k : ℕ) (xs : List Int32) (e : Engine F) :
    (stageAll env layer k xs e).hiddenBuf = e.hiddenBuf := by
  induction xs generalizing e k with
  | nil => rfl
  | cons x xs ih => rw [stageAll, ih, stageExpert_hiddenBuf]

variable [Field F]

theorem accumulate_hiddenBuf (layer : Int32) (hIn : ℕ → F) (xs : List Int32) (acc : ℕ → F)
    (e : Engine F) : (accumulate env layer hIn xs acc e).2.hiddenBuf = e.hiddenBuf := by
  induction xs generalizing e acc with
  | nil => rfl
  | cons x xs ih =>
    simp only [accumulate]
    split_ifs
    · rw [ih]
    · rw [ih]

variable [LinearOrder F]

/-- A layer leaves the buffers of the engine to its caller. -/
theorem forwardLayer_hiddenBuf (layer : Int32) (hIn : ℕ → F) (e : Engine F) :
    (e.forwardLayer env layer hIn).2.hiddenBuf = e.hiddenBuf :=
  (accumulate_hiddenBuf layer hIn _ _ _).trans (stageAll_hiddenBuf layer 0 _ e)

omit [LinearOrder F] in
/-- What a layer adds up. -/
theorem Ample.accumulate_eq (h : Ample env e₀ B keys e) (hs : 0 < e₀.blobBytes)
    (hle : e₀.blobBytes ≤ B) (hw : e₀.blobBytes = 12 * e₀.weights) {layer : Int32}
    {xs : List Int32} (hxs : ∀ x ∈ xs, e₀.Resolves 0 x → ⟨layer, x⟩ ∈ keys) (hIn : ℕ → F) :
    (Engine.accumulate env layer hIn xs (fun _ => 0) (Engine.stageAll env layer 0 xs e)).1 =
      fun o => ((xs.filter e₀.serves).map fun x => expertOutput env e₀ hIn x o).sum := by
  obtain ⟨hstaged, -⟩ := h.stageAll hs hle hxs 0
  funext o
  have hsum := hstaged.reached.accumulate_sum hs hle hw
    (h.toReady.queued hs hle layer xs) hIn (fun _ => 0) o
  have hfilter : xs.filter (fun x =>
      (Engine.stageAll env layer 0 xs e).cache.isResident ⟨layer, x⟩) = xs.filter e₀.serves :=
    List.filter_congr fun x hx => h.stays hs hle hxs hx
  rw [hsum, hfilter, zero_add]

/-- The step lemma: a layer computes the plain forward pass. -/
theorem Ample.forwardLayer (h : Ample env e₀ B keys e) (hs : 0 < e₀.blobBytes)
    (hle : e₀.blobBytes ≤ B) (hw : e₀.blobBytes = 12 * e₀.weights)
    (hasks : e₀.AsksFor layers keys) {layer : Int32} (hlayer : layer ∈ layers) (hIn : ℕ → F) :
    (e.forwardLayer env layer hIn).1 = e₀.referenceLayer env layer hIn ∧
      Ample env e₀ B keys (e.forwardLayer env layer hIn).2 := by
  have hxs : e.predicted layer hIn = e₀.predicted layer hIn := h.reached.setup.predicted layer hIn
  have hkeys : ∀ x ∈ e₀.predicted layer hIn, e₀.Resolves 0 x → ⟨layer, x⟩ ∈ keys :=
    hasks layer hlayer hIn
  obtain ⟨hstaged, -⟩ := h.stageAll hs hle hkeys 0
  have hdone := hstaged.accumulate hs hle layer hIn (e₀.predicted layer hIn) fun _ => 0
  simp only [Engine.forwardLayer, hxs]
  refine ⟨?_, hdone⟩
  rw [h.accumulate_eq hs hle hw hkeys hIn, hdone.reached.setup.hidden]
  rfl

/-- The buffers are zero behind the hidden vector. -/
def Padded (e₀ : Engine F) (v : ℕ → F) : Prop := ∀ i, e₀.hidden.toNat ≤ i → v i = 0

theorem padded_referenceLayer (env : Platform F) (e₀ : Engine F) (layer : Int32) (hIn : ℕ → F) :
    e₀.Padded (e₀.referenceLayer env layer hIn) := by
  intro i hi
  simp only [referenceLayer, combine]
  exact if_neg (by omega)

/-- An ample engine whose buffers are zero behind the hidden vector. -/
structure Plain (env : Platform F) (e₀ : Engine F) (B : ℕ) (keys : Finset ExpertKey)
    (e : Engine F) : Prop extends Ample env e₀ B keys e where
  padded : ∀ b, e₀.Padded (e.hiddenBuf b)

section Run
variable (hs : 0 < e₀.blobBytes) (hle : e₀.blobBytes ≤ B) (hw : e₀.blobBytes = 12 * e₀.weights)
  (hasks : e₀.AsksFor layers keys) (hnum : 0 < e₀.cfg.numLayers)
  (hlayers : ∀ L < e₀.cfg.numLayers.toNat, Int32.ofNat L ∈ layers)
include hs hle hw hasks hlayers

/-- On an ample engine each layer of the token loop is the plain forward pass. -/
theorem Ample.loop_layer (L : ℕ) (hL : L < e₀.cfg.numLayers.toNat) (hIn : ℕ → F) (e : Engine F)
    (h : Ample env e₀ B keys e) :
    (e.forwardLayer env (Int32.ofNat L) hIn).1 = e₀.referenceLayer env (Int32.ofNat L) hIn ∧
      Ample env e₀ B keys (e.forwardLayer env (Int32.ofNat L) hIn).2 :=
  h.forwardLayer hs hle hw hasks (hlayers L hL) hIn

include hnum

theorem Plain.generateLoop (h : Plain env e₀ B keys e) :
    Ample env e₀ B keys (e.generateLoop env).engine ∧
      (e.generateLoop env).current = e₀.referenceOutput env .generate ∧
      ∀ b, e₀.Padded ((e.generateLoop env).hiddenBuf b) := by
  have hprompt : e.promptEmbedding env = e₀.referencePrompt env := by
    funext i
    simp only [promptEmbedding, referencePrompt, h.reached.setup.hidden]
    split_ifs with hi
    · rfl
    · exact h.padded 0 i (not_lt.mp hi)
  have hbuf : ∀ b, e₀.Padded (Function.update e.hiddenBuf 0 (e₀.referencePrompt env) b) := by
    intro b
    rw [Function.update_apply]
    split_ifs
    · exact fun i hi => if_neg (not_lt.mpr hi)
    · exact h.padded b
  have hpeak : ∀ e, Ample env e₀ B keys e → Ample env e₀ B keys (trackPeak e) :=
    fun e he => he.with_stats _
  have hloop : ∀ L < e₀.cfg.numLayers.toNat, ∀ hIn e, Ample env e₀ B keys e →
      (e.forwardLayer env (Int32.ofNat L) hIn).1 = e₀.referenceLayer env (Int32.ofNat L) hIn ∧
        Ample env e₀ B keys (e.forwardLayer env (Int32.ofNat L) hIn).2 :=
    Ample.loop_layer hs hle hw hasks hlayers
  unfold Engine.generateLoop
  rw [hprompt, h.reached.setup.cfg]
  obtain ⟨hend, -, hcurrent⟩ := LoopState.tokenLoop_of_invariant
    (f := fun L => e₀.referenceLayer env (Int32.ofNat L)) (by omega) hloop hpeak
    (s := ⟨e, Function.update e.hiddenBuf 0 (e₀.referencePrompt env), 0, 1⟩) h.toAmple
    (by simp) e₀.cfg.numTokens.toNat
  refine ⟨hend, ?_, ?_⟩
  · rw [hcurrent]
    simp [LoopState.current, referenceOutput]
  · exact LoopState.tokenLoop_buffers hloop hpeak
      (fun L _ hIn => padded_referenceLayer env e₀ (Int32.ofNat L) hIn) h.toAmple hbuf _

/-- The step lemma: a call returns what the plain forward pass returns. -/
theorem Plain.step (h : Plain env e₀ B keys e) {op : Op F} (hop : op.Uses layers) :
    e.output env op = e₀.referenceOutput env op ∧ Plain env e₀ B keys (e.step env op) := by
  cases op with
  | forwardLayer layer hIn =>
    obtain ⟨hout, hnext⟩ := h.forwardLayer hs hle hw hasks hop hIn
    refine ⟨hout, hnext, ?_⟩
    rw [Engine.step, forwardLayer_hiddenBuf]
    exact h.padded
  | generate =>
    obtain ⟨hend, hout, hbuf⟩ := h.generateLoop hs hle hw hasks hnum hlayers
    have hreached := h.reached.step (Streams.step env hs hle) .generate
    exact ⟨hout, ⟨⟨hreached, hend.resolves⟩, hend.holding⟩, hbuf⟩

/-- The run lemma: every call of a run returns what the plain forward pass returns. -/
theorem Plain.run (h : Plain env e₀ B keys e) {ops : List (Op F)}
    (hops : ∀ op ∈ ops, op.Uses layers) :
    outputs (fun e op => [e.output env op]) (Engine.step env) e ops =
      ops.map (e₀.referenceOutput env) ∧ Plain env e₀ B keys (run (Engine.step env) e ops) := by
  induction ops generalizing e with
  | nil => exact ⟨rfl, h⟩
  | cons op ops ih =>
    obtain ⟨hop, hrest⟩ := List.forall_mem_cons.mp hops
    obtain ⟨hout, hnext⟩ := h.step hs hle hw hasks hnum hlayers hop
    obtain ⟨hrun, hend⟩ := ih hnext hrest
    refine ⟨?_, hend⟩
    rw [outputs, hrun, hout, List.singleton_append, List.map_cons]

end Run

section Init
variable {files : EngineFiles F} {order : Order} {vram : ℕ → UInt8} {cfg : EngineConfig}

omit [LinearOrder F] in
/-- A successful `init` zeroes the buffers and leaves the statistics alone. -/
theorem init_untouched (h : (Engine.fresh order vram).init env files cfg = (true, e)) :
    (e.hiddenBuf = fun _ _ => 0) ∧ e.stats.peakVram = 0 := by
  unfold init at h
  dsimp only at h
  split at h
  · cases h
  · unfold initDims at h
    dsimp only at h
    split_ifs at h
    · split at h
      · split_ifs at h
        · cases h
        · unfold initOracle at h
          split at h
          · cases h
          · obtain ⟨base, -, rfl⟩ := initCache_eq_true h rfl
            exact ⟨rfl, rfl⟩
      · cases h
    · cases h

theorem init_plain (hinit : (Engine.fresh order vram).init env files cfg = (true, e₀))
    (hinter : 0 < e₀.inter) (hhidden : 0 < e₀.hidden) (hcfg : cfg.budgetBytes < 2 ^ 64)
    (hne : keys.Nonempty)
    (hroom : keys.card * (12 * (e₀.inter.toNat * e₀.hidden.toNat)) ≤ e₀.cache.arena.cap) :
    e₀.blobBytes = 12 * e₀.weights ∧ 0 < e₀.blobBytes ∧ e₀.blobBytes ≤ e₀.cache.arena.cap ∧
      Plain env e₀ e₀.cache.arena.cap keys e₀ := by
  have hfit : 12 * (e₀.inter.toNat * e₀.hidden.toNat) ≤ e₀.cache.arena.cap :=
    (Nat.le_mul_of_pos_left _ hne.card_pos).trans hroom
  obtain ⟨hw, hs, hle, hready⟩ := CudaEngine.init_ready hinit hinter hhidden hcfg hfit
  obtain ⟨base, hstart⟩ := init_started hinit
  have hsum : ∑ _k ∈ keys, e₀.blobBytes ≤ e₀.cache.arena.cap := by
    rw [Finset.sum_const, smul_eq_mul, hw]
    exact hroom
  refine ⟨hw, hs, hle, ⟨hready, ?_⟩, fun b i _ => ?_⟩
  · have hlt := hready.reached.prefetcher.bytes.cache.tiled.cap_lt
    rw [cache, hstart.prefetcher] at hsum ⊢
    rw [hstart.prefetcher] at hlt
    exact started_holding order base hlt hsum
  · rw [(init_untouched hinit).1]

/-- Below `2 ^ 31` queued transfers the calls return the same in both queues. -/
theorem IntQueue.outputs_eq (hs : 0 < e₀.blobBytes) (hle : e₀.blobBytes ≤ B)
    (h : Reached (Streams env e₀ B) e₀ e) {ops : List (Op F)}
    (hroom : Guarded (IntQueue.step env) (IntQueue.HasRoom env) e ops) :
    outputs (fun e op => [IntQueue.output env e op]) (IntQueue.step env) e ops =
      outputs (fun e op => [e.output env op]) (Engine.step env) e ops := by
  refine outputs_congr (IntQueue.reached_step hs hle) (fun e op he hop => ⟨?_, ?_⟩) h hroom
  · cases op with
    | forwardLayer layer hIn =>
      simp only [IntQueue.output, Engine.output, (IntQueue.forwardLayer_eq hs hle he hop).1]
    | generate => simp only [IntQueue.output, Engine.output, IntQueue.generateLoop_eq hs hle he hop]
  · exact IntQueue.step_eq hs hle he hop

/-- After every run of an engine whose budget holds its working set: each call has returned
what the plain forward pass returns, nothing has been evicted, and every blob has been
transferred at most once for each layer. The positions of the queue fit an `int` while no
call leaves `2 ^ 31` transfers in it. -/
theorem run_refines_reference (hinit : (Engine.fresh order vram).init env files cfg = (true, e₀))
    (hinter : 0 < e₀.inter) (hhidden : 0 < e₀.hidden) (hcfg : cfg.budgetBytes < 2 ^ 64)
    (hne : keys.Nonempty) (hasks : e₀.AsksFor layers keys)
    (hroom : keys.card * (12 * (e₀.inter.toNat * e₀.hidden.toNat)) ≤ e₀.cache.arena.cap)
    (hnum : 0 < e₀.cfg.numLayers)
    (hlayers : ∀ L < e₀.cfg.numLayers.toNat, Int32.ofNat L ∈ layers) (ops : List (Op F))
    (hops : ∀ op ∈ ops, op.Uses layers) :
    outputs (fun e op => [e.output env op]) (step env) e₀ ops =
        ops.map (e₀.referenceOutput env) ∧
      (run (step env) e₀ ops).cache.stats.evictions = 0 ∧
      (run (step env) e₀ ops).cache.stats.loads ≤ keys.card ∧
      (Guarded (IntQueue.step env) (IntQueue.HasRoom env) e₀ ops →
        outputs (fun e op => [IntQueue.output env e op]) (IntQueue.step env) e₀ ops =
            ops.map (e₀.referenceOutput env) ∧
          run (IntQueue.step env) e₀ ops = run (step env) e₀ ops) := by
  obtain ⟨hw, hs, hle, hplain⟩ := init_plain hinit hinter hhidden hcfg hne hroom
  obtain ⟨hout, hend⟩ := hplain.run hs hle hw hasks hnum hlayers hops
  refine ⟨hout, hend.holding.evictions_eq, ?_, fun hqueue => ⟨?_, ?_⟩⟩
  · rw [hend.holding.loads_eq]
    exact Finset.card_le_card hend.holding.held_subset
  · rw [IntQueue.outputs_eq hs hle hplain.reached hqueue, hout]
  · exact IntQueue.run_eq hs hle hplain.reached hqueue

end Init

section Tiny

/-- Two experts, two layers, and room for four blobs. -/
noncomputable def fourSlots : Engine ℝ :=
  (tinyInit (expertNames 0 [0, 1]) (fun _ => [0, 1]) 2 48).2

theorem fourSlots_init : (Engine.fresh (.newestFirst _ _) fun _ => 0).init hostPlatform
    (tinyFiles (expertNames 0 [0, 1]) fun _ => [0, 1]) ⟨1, 2, 2, 48, false, 1⟩ =
    (true, fourSlots) := tinyInit_eq (gate_expertNames (by decide))

theorem fourSlots_setup : TinySetup (expertNames 0 [0, 1]) (fun _ => [0, 1]) 2 48 fourSlots :=
  tinyInit_setup (gate_expertNames (by decide))

/-- The two experts in both layers. -/
def fourKeys : Finset ExpertKey := {⟨0, 0⟩, ⟨0, 1⟩, ⟨1, 0⟩, ⟨1, 1⟩}

theorem fourSlots_asksFor : fourSlots.AsksFor {0, 1} fourKeys := by
  intro layer hlayer hIn x hx _
  rw [fourSlots_setup.predicted] at hx
  simp only [Finset.mem_insert, Finset.mem_singleton] at hlayer
  simp only [List.mem_cons, List.not_mem_nil, or_false] at hx
  rcases hlayer with rfl | rfl <;> rcases hx with rfl | rfl <;> decide

/-- Two generations with a layer in between. -/
theorem run_refines_reference_four_slots :
    let ops : List (Op ℝ) := [.generate, .forwardLayer 1 fun _ => 1, .generate]
    outputs (fun e op => [IntQueue.output hostPlatform e op]) (IntQueue.step hostPlatform) fourSlots
        ops = ops.map (fourSlots.referenceOutput hostPlatform) ∧
      (run (IntQueue.step hostPlatform) fourSlots ops).cache.stats.evictions = 0 := by
  have hcfg := fourSlots_setup.cfg
  have hlayers : ∀ L < fourSlots.cfg.numLayers.toNat, Int32.ofNat L ∈ ({0, 1} : Finset Int32) := by
    rw [hcfg]
    intro L hL
    have hL2 : L < 2 := hL
    interval_cases L <;> decide
  have hcard : fourKeys.card = 4 := by decide
  have hroom := fourSlots_setup.fits (by decide : 0 < 4) rfl
  rw [← hcard] at hroom
  obtain ⟨-, hev, -, hint⟩ := run_refines_reference fourSlots_init fourSlots_setup.inter_pos
    fourSlots_setup.hidden_pos (by norm_num) (Finset.card_pos.mp (by decide)) fourSlots_asksFor hroom
    (by rw [hcfg]; decide) hlayers [.generate, .forwardLayer 1 fun _ => 1, .generate]
    (by simp [Op.Uses])
  have hqueue : Guarded (IntQueue.step hostPlatform) (IntQueue.HasRoom hostPlatform) fourSlots
      [.generate, .forwardLayer 1 fun _ => 1, .generate] := by
    simp only [Guarded, IntQueue.HasRoom, and_true]
    refine ⟨?_, ?_, ?_⟩ <;> decide +kernel
  obtain ⟨hout, hrun⟩ := hint hqueue
  rw [← hrun] at hev
  exact ⟨hout, hev⟩

end Tiny

end Engine
end Dee
