import Dee.Engine
import Dee.PrefetchBytes

/-! Runs of an initialised engine. Its calls leave the setup alone, keep the staging
table equal to the decoded layer-0 blobs, and drive the prefetcher only through
prefetches of these blobs, waits, touches and resets. -/
namespace Dee.Engine
open TensorResolver GuardedRuns CountedLoops
variable {F : Type*} {env : Platform F}

/-- What no call of an initialised engine changes. -/
structure SameSetup (e e' : Engine F) : Prop where
  cfg : e'.cfg = e.cfg
  shards : e'.shards = e.shards
  oracle : e'.oracle = e.oracle
  hidden : e'.hidden = e.hidden
  inter : e'.inter = e.inter
  blobElems : e'.blobElems = e.blobElems
  blobBytes : e'.blobBytes = e.blobBytes

/-- The three projections of an expert are found. -/
def Resolves (e : Engine F) (layer expert : Int32) : Prop :=
  ∀ kind, (e.view layer expert kind).ok = true

/-- The blob decoded from the tensors named for `(layer, expert)`. -/
def layerBlob (e : Engine F) (layer expert : Int32) : ℕ → UInt32 :=
  e.decodeBlob (e.view layer expert .gateProj) (e.view layer expert .upProj)
    (e.view layer expert .downProj)

/-- The staging table holds blobs of layer 0. -/
def StagingInv (e : Engine F) : Prop :=
  ∀ x blob, e.staging x = some blob → e.Resolves 0 x ∧ blob = e.layerBlob 0 x

/-- The calls that an engine makes to its prefetcher. -/
def Calls (env : Platform F) (e : Engine F) : AsyncPrefetcher.Op → Prop
  | .prefetch k src n _ => src = blobPtr env k.expert (e.layerBlob 0 k.expert) ∧ n = e.blobBytes
  | _ => True

theorem SameSetup.refl (e : Engine F) : SameSetup e e := ⟨rfl, rfl, rfl, rfl, rfl, rfl, rfl⟩

theorem SameSetup.trans {e e' e'' : Engine F} (h : SameSetup e e') (h' : SameSetup e' e'') :
    SameSetup e e'' :=
  ⟨h'.cfg.trans h.cfg, h'.shards.trans h.shards, h'.oracle.trans h.oracle,
    h'.hidden.trans h.hidden, h'.inter.trans h.inter, h'.blobElems.trans h.blobElems,
    h'.blobBytes.trans h.blobBytes⟩

theorem SameSetup.view {e e' : Engine F} (h : SameSetup e e') (layer expert : Int32)
    (kind : Kind) : e'.view layer expert kind = e.view layer expert kind := by
  rw [Engine.view, Engine.view, h.shards]

theorem SameSetup.resolves {e e' : Engine F} (h : SameSetup e e') (layer expert : Int32) :
    e'.Resolves layer expert ↔ e.Resolves layer expert := by
  simp only [Resolves, h.view]

theorem SameSetup.layerBlob {e e' : Engine F} (h : SameSetup e e') (layer expert : Int32) :
    e'.layerBlob layer expert = e.layerBlob layer expert := by
  simp only [Engine.layerBlob, decodeBlob, h.view, h.inter, h.hidden]

theorem SameSetup.predicted {e e' : Engine F} (h : SameSetup e e') (layer : Int32) (hIn : ℕ → F) :
    e'.predicted layer hIn = e.predicted layer hIn := by
  rw [Engine.predicted, Engine.predicted, h.oracle, h.cfg]

/-- Layer 0 is mapped to itself, whatever the shard contains. -/
@[simp] theorem availLayer_zero (e : Engine F) : e.availLayer 0 = 0 := by
  unfold availLayer
  split_ifs <;> rfl

theorem getStaging_of_resolves {e : Engine F} (h : e.StagingInv) {x : Int32}
    (hr : e.Resolves 0 x) :
    e.getStaging env x = (e.blobData env x (e.layerBlob 0 x),
      { e with staging := Function.update e.staging x (some (e.layerBlob 0 x)) }) := by
  cases hs : e.staging x with
  | some blob =>
    obtain ⟨-, rfl⟩ := h x blob hs
    rw [← hs, Function.update_eq_self]
    simp [getStaging, hs]
  | none => simp [getStaging, hs, hr .gateProj, hr .upProj, hr .downProj, layerBlob]

theorem getStaging_of_not_resolves {e : Engine F} (h : e.StagingInv) {x : Int32}
    (hr : ¬ e.Resolves 0 x) : e.getStaging env x = (none, e) := by
  have hs : e.staging x = none := by
    cases hs : e.staging x with
    | none => rfl
    | some blob => exact absurd (h x blob hs).1 hr
  have hmiss : (!(e.view 0 x .gateProj).ok || !(e.view 0 x .upProj).ok ||
      !(e.view 0 x .downProj).ok) = true := by
    by_contra hne
    simp only [Bool.or_eq_true, Bool.not_eq_true', not_or, Bool.not_eq_false] at hne
    apply hr
    intro kind
    cases kind with
    | gateProj => exact hne.1.1
    | upProj => exact hne.1.2
    | downProj => exact hne.2
  simp only [getStaging, hs, availLayer_zero, hmiss, if_true]

/-- An engine reached from `e₀`, with a property `P` of its prefetcher. -/
structure Reached (P : AsyncPrefetcher → Prop) (e₀ e : Engine F) : Prop where
  setup : SameSetup e₀ e
  staging : e.StagingInv
  prefetcher : P e.prefetcher

variable {P : AsyncPrefetcher → Prop} {e₀ e : Engine F}

theorem Reached.calls {p : AsyncPrefetcher} (h : Reached P e₀ e)
    (hP : ∀ p op, P p → Calls env e₀ op → P (p.step op)) (hp : P p) {op : AsyncPrefetcher.Op}
    (hop : Calls env e op) : P (p.step op) := by
  apply hP p op hp
  cases op with
  | prefetch k src n pr =>
    simp only [Calls, h.setup.layerBlob, h.setup.blobBytes] at hop
    exact hop
  | _ => trivial

/-- Staging an expert that is found is one call of `prefetch`. -/
theorem stageExpert_cases (env : Platform F) (h : e.StagingInv) (hne : e.blobElems ≠ 0)
    (layer x : Int32) (pr : ℤ) :
    (e.Resolves 0 x ∧ e.stageExpert env layer x pr = { e with
      staging := Function.update e.staging x (some (e.layerBlob 0 x))
      prefetcher := e.prefetcher.step (.prefetch ⟨layer, x⟩
        (blobPtr env x (e.layerBlob 0 x)) e.blobBytes pr) }) ∨
    (¬ e.Resolves 0 x ∧ e.stageExpert env layer x pr = e) := by
  by_cases hr : e.Resolves 0 x
  · left
    refine ⟨hr, ?_⟩
    rw [stageExpert, getStaging_of_resolves h hr, blobData, if_neg hne]
    rfl
  · right
    refine ⟨hr, ?_⟩
    rw [stageExpert, getStaging_of_not_resolves h hr]

/-- An empty blob is stored, and no prefetch is made of it. -/
theorem stageExpert_empty (env : Platform F) (h : e.StagingInv) (hzero : e.blobElems = 0)
    {x : Int32} (hr : e.Resolves 0 x) (layer : Int32) (pr : ℤ) :
    e.stageExpert env layer x pr =
      { e with staging := Function.update e.staging x (some (e.layerBlob 0 x)) } := by
  rw [stageExpert, getStaging_of_resolves h hr, blobData, if_pos hzero]

theorem StagingInv.update (h : e.StagingInv) {x : Int32} (hr : e.Resolves 0 x)
    (p : AsyncPrefetcher) :
    StagingInv { e with
      staging := Function.update e.staging x (some (e.layerBlob 0 x)), prefetcher := p } := by
  intro y blob hy
  by_cases hyx : y = x
  · subst hyx
    simp only [Function.update_self, Option.some.injEq] at hy
    exact ⟨hr, hy.symm⟩
  · simp only [Function.update_of_ne hyx] at hy
    exact h y blob hy

theorem Reached.with_stats (h : Reached P e₀ e) (st : EngineStats) :
    Reached P e₀ { e with stats := st } :=
  ⟨h.setup.trans ⟨rfl, rfl, rfl, rfl, rfl, rfl, rfl⟩, h.staging, h.prefetcher⟩

section Steps
variable (hP : ∀ p op, P p → Calls env e₀ op → P (p.step op))
include hP

theorem Reached.stageExpert (h : Reached P e₀ e) (layer x : Int32) (pr : ℤ) :
    Reached P e₀ (e.stageExpert env layer x pr) := by
  by_cases hzero : e.blobElems = 0
  · by_cases hr : e.Resolves 0 x
    · rw [stageExpert_empty env h.staging hzero hr]
      exact ⟨h.setup.trans ⟨rfl, rfl, rfl, rfl, rfl, rfl, rfl⟩, h.staging.update hr e.prefetcher,
        h.prefetcher⟩
    · rw [Engine.stageExpert, getStaging_of_not_resolves h.staging hr]
      exact h
  · rcases stageExpert_cases env h.staging hzero layer x pr with ⟨hr, he⟩ | ⟨-, he⟩
    · rw [he]
      refine ⟨h.setup.trans ⟨rfl, rfl, rfl, rfl, rfl, rfl, rfl⟩, h.staging.update hr _, ?_⟩
      have hc : Calls env e
          (.prefetch ⟨layer, x⟩ (blobPtr env x (e.layerBlob 0 x)) e.blobBytes pr) := ⟨rfl, rfl⟩
      exact h.calls hP h.prefetcher hc
    · rw [he]
      exact h

theorem Reached.stageAll (h : Reached P e₀ e) (layer : Int32) (k : ℕ) (xs : List Int32) :
    Reached P e₀ (stageAll env layer k xs e) := by
  induction xs generalizing e k with
  | nil => exact h
  | cons x xs ih => exact ih (h.stageExpert hP layer x _) (k + 1)

theorem Reached.wait (h : Reached P e₀ e) (k : ExpertKey) :
    Reached P e₀ { e with prefetcher := (e.prefetcher.wait k).2 } := by
  have hc : Calls env e (.wait k) := trivial
  exact ⟨h.setup.trans ⟨rfl, rfl, rfl, rfl, rfl, rfl, rfl⟩, h.staging, h.calls hP h.prefetcher hc⟩

theorem Reached.touch (h : Reached P e₀ e) (k : ExpertKey) :
    Reached P e₀ { e with prefetcher := e.prefetcher.touch k } := by
  have hc : Calls env e (.touch k) := trivial
  exact ⟨h.setup.trans ⟨rfl, rfl, rfl, rfl, rfl, rfl, rfl⟩, h.staging, h.calls hP h.prefetcher hc⟩

variable [Field F] [LinearOrder F]

omit [LinearOrder F] in
theorem Reached.accumulate (h : Reached P e₀ e) (layer : Int32) (hIn : ℕ → F) (xs : List Int32)
    (acc : ℕ → F) : Reached P e₀ (accumulate env layer hIn xs acc e).2 := by
  induction xs generalizing e acc with
  | nil => exact h
  | cons x xs ih =>
    simp only [Engine.accumulate]
    split_ifs
    · exact ih ((h.wait hP ⟨layer, x⟩).with_stats _) acc
    · exact ih ((h.wait hP ⟨layer, x⟩).touch hP ⟨layer, x⟩) _

theorem Reached.forwardLayer (h : Reached P e₀ e) (layer : Int32) (hIn : ℕ → F) :
    Reached P e₀ (e.forwardLayer env layer hIn).2 :=
  (h.stageAll hP layer 0 _).accumulate hP layer hIn _ _

theorem Reached.generateLoop (h : Reached P e₀ e) : Reached P e₀ (e.generateLoop env).engine := by
  unfold Engine.generateLoop LoopState.tokenLoop
  apply forRange_invariant
    (P := fun (_ : ℕ) (s : LoopState (ℕ → F) (Engine F)) => Reached P e₀ s.engine)
  · exact h
  · intro t s _ hs
    have hlayers : Reached P e₀ (forRange e.cfg.numLayers.toNat
        (LoopState.layerStep fun L h e => e.forwardLayer env (Int32.ofNat L) h) s).engine := by
      apply forRange_invariant
        (P := fun (_ : ℕ) (s : LoopState (ℕ → F) (Engine F)) => Reached P e₀ s.engine)
      · exact hs
      · exact fun L s _ hs => hs.forwardLayer hP _ _
    exact hlayers.with_stats _

/-- The step lemma of an engine run. -/
theorem Reached.step (h : Reached P e₀ e) (op : Op F) : Reached P e₀ (e.step env op) := by
  cases op with
  | forwardLayer layer hIn => exact h.forwardLayer hP layer hIn
  | generate =>
    have hl := h.generateLoop hP
    have hc : Calls env (e.generateLoop env).engine .reset := trivial
    exact ⟨hl.setup.trans ⟨rfl, rfl, rfl, rfl, rfl, rfl, rfl⟩, hl.staging,
      hl.calls hP hl.prefetcher hc⟩

/-- The run lemma. -/
theorem Reached.run (h : Reached P e₀ e) (ops : List (Op F)) :
    Reached P e₀ (GuardedRuns.run (Engine.step env) e ops) :=
  invariant_run_of_step (fun _ op hs => hs.step hP op) h ops

end Steps

/-- What a successful `init` leaves behind. -/
structure Started (order : VramCacheManager.Order) (vram : ℕ → UInt8) (base budget : ℕ)
    (e : Engine F) : Prop where
  base_ne : base ≠ 0
  prefetcher : e.prefetcher = .fresh (.started order base budget) vram
  staging : e.staging = fun _ => none
  blobElems : e.blobElems = toSize (3 * e.inter * e.hidden)
  blobBytes : e.blobBytes = toSize (3 * e.inter * e.hidden * 4)
  inter_lt : e.inter < 2 ^ 31
  hidden_lt : e.hidden < 2 ^ 31

theorem toInt_lt (x : ℤ) : toInt x < 2 ^ 31 := by
  have := Int.bmod_lt (x := x) (m := 2 ^ 32) (by decide)
  simpa [toInt] using this

section Init
variable [Field F] {order : VramCacheManager.Order} {vram : ℕ → UInt8} {files : EngineFiles F}
  {cfg : EngineConfig} {e e' : Engine F}

theorem initCache_eq_true (h : e.initCache env cfg = (true, e'))
    (hp : e.prefetcher = .fresh (.fresh order) vram) :
    ∃ base, base ≠ 0 ∧ e' = { e with
      prefetcher := .fresh (.started order base (if cfg.budgetBytes ≠ 0 then cfg.budgetBytes
        else 4 * e.blobBytes % 2 ^ 64)) vram
      hiddenBuf := fun _ _ => 0 } := by
  unfold initCache at h
  dsimp only at h
  generalize (if cfg.budgetBytes ≠ 0 then cfg.budgetBytes else 4 * e.blobBytes % 2 ^ 64) = budget
    at h ⊢
  split_ifs at h with hcuda hinit
  · cases h
  · have hc : e.cache = .fresh order := by rw [cache, hp]; rfl
    rw [hc] at h hinit
    cases hr : (VramCacheManager.fresh order).init budget ⟨some env.malloc⟩ with
    | mk done c =>
      rw [hr] at h hinit
      dsimp only at h hinit
      rw [hinit] at hr
      obtain ⟨base, hb, rfl⟩ := VramCacheManager.init_eq_true hr
      refine ⟨base, hb, ?_⟩
      rw [← (Prod.mk.inj h).2, hp]
      rfl
  · cases h

/-- A successful `init` of a default-constructed engine. -/
theorem init_started (h : (Engine.fresh order vram).init env files cfg = (true, e)) :
    ∃ base, Started order vram base
      (if cfg.budgetBytes ≠ 0 then cfg.budgetBytes else 4 * e.blobBytes % 2 ^ 64) e := by
  unfold init at h
  dsimp only at h
  split at h
  · cases h
  · unfold initDims at h
    dsimp only at h
    split_ifs at h
    · split at h
      · split_ifs at h
        · cases h
        · unfold initOracle at h
          split at h
          · cases h
          · obtain ⟨base, hb, rfl⟩ := initCache_eq_true h rfl
            exact ⟨base, hb, rfl, rfl, rfl, rfl, toInt_lt _, toInt_lt _⟩
      · cases h
    · cases h

end Init

end Dee.Engine
