import Dee.EngineResidency
import Dee.TransferQueue

/-! The engine over the transfer queue with its positions in an `int`, as the source has
them. While no call leaves `2 ^ 31` transfers queued since the last reset, it is the engine
over the queue of natural positions. -/
namespace Dee
open CountedLoops GuardedRuns

/-- Two layer passes that agree, on the engines of an invariant, when they end below a bound:
so do the token loops. -/
theorem LoopState.tokenLoop_congr {H σ : Type*} {forward forward' : ℕ → H → σ → H × σ}
    {trackPeak : σ → σ} {I : σ → Prop} (len : σ → ℕ) {bound : ℕ}
    (hmono : ∀ L h e, len e ≤ len (forward L h e).2)
    (hpeak : ∀ e, len (trackPeak e) = len e ∧ (I e → I (trackPeak e)))
    (heq : ∀ L h e, I e → len (forward L h e).2 < bound →
      forward L h e = forward' L h e ∧ I (forward L h e).2) {n T : ℕ} {s : LoopState H σ}
    (hI : I s.engine) (hend : len (tokenLoop forward trackPeak n T s).engine < bound) :
    tokenLoop forward trackPeak n T s = tokenLoop forward' trackPeak n T s ∧
      I (tokenLoop forward trackPeak n T s).engine := by
  have hlayer : ∀ L (s : LoopState H σ), len s.engine ≤ len (layerStep forward L s).engine :=
    fun L s => hmono L _ _
  have hlayers : ∀ L (s : LoopState H σ), I s.engine → len (layerStep forward L s).engine < bound →
      layerStep forward L s = layerStep forward' L s ∧ I (layerStep forward L s).engine := by
    intro L s hs hend
    obtain ⟨hforward, hnext⟩ := heq L _ _ hs hend
    refine ⟨?_, hnext⟩
    simp only [layerStep, hforward]
  have htoken : ∀ s : LoopState H σ,
      len s.engine ≤ len (tokenStep forward trackPeak n s).engine := by
    intro s
    simp only [tokenStep, (hpeak _).1]
    exact le_forRange (fun s : LoopState H σ => len s.engine) hlayer n s
  refine forRange_congr_of_lt (P := fun s : LoopState H σ => I s.engine)
    (fun s : LoopState H σ => len s.engine) (fun _ => htoken) (fun _ s hs hend => ?_) hI hend
  simp only [tokenStep, (hpeak _).1] at hend
  obtain ⟨hsame, hkeep⟩ := forRange_congr_of_lt (P := fun s : LoopState H σ => I s.engine)
    (fun s : LoopState H σ => len s.engine) hlayer hlayers hs hend
  simp only [tokenStep]
  rw [← hsame]
  exact ⟨rfl, (hpeak _).2 hkeep⟩

namespace AsyncPrefetcher

/-- A prefetch queues one transfer at most. -/
theorem prefetch_length (p : AsyncPrefetcher) (k : ExpertKey) (src : HostPtr) (n : ℕ) (pr : ℤ) :
    p.inflight.length ≤ (p.prefetch k src n pr).2.inflight.length ∧
      (p.prefetch k src n pr).2.inflight.length ≤ p.inflight.length + 1 := by
  rcases p.prefetch_cases k src n pr with ⟨-, he⟩ | ⟨-, -, he⟩
  · rw [he]
    exact ⟨le_rfl, Nat.le_succ _⟩
  · rw [he, push, List.length_append]
    exact ⟨Nat.le_add_right _ _, le_rfl⟩

end AsyncPrefetcher

namespace Engine
variable {F : Type*} {env : Platform F} {e e₀ : Engine F} {B : ℕ}

/-- How many transfers are queued. -/
def queued (e : Engine F) : ℕ := e.prefetcher.inflight.length

theorem queued_stageExpert (env : Platform F) (layer x : Int32) (pr : ℤ) (e : Engine F) :
    e.queued ≤ (e.stageExpert env layer x pr).queued ∧
      (e.stageExpert env layer x pr).queued ≤ e.queued + 1 := by
  have hget : (e.getStaging env x).2.prefetcher = e.prefetcher := by
    unfold getStaging
    cases e.staging x with
    | some blob => rfl
    | none => simp only [apply_ite Prod.snd, apply_ite Engine.prefetcher, ite_self]
  unfold stageExpert
  rcases hres : e.getStaging env x with ⟨_ | blob, e₁⟩
  · rw [hres] at hget
    dsimp only at hget
    simp only [queued, hget]
    exact ⟨le_rfl, Nat.le_succ _⟩
  · rw [hres] at hget
    dsimp only at hget
    simp only [queued, hget]
    exact AsyncPrefetcher.prefetch_length ..

theorem queued_stageAll (env : Platform F) (layer : Int32) (k : ℕ) (xs : List Int32)
    (e : Engine F) :
    e.queued ≤ (stageAll env layer k xs e).queued ∧
      (stageAll env layer k xs e).queued ≤ e.queued + xs.length := by
  induction xs generalizing e k with
  | nil => exact ⟨le_rfl, le_rfl⟩
  | cons x xs ih =>
    obtain ⟨hge, hle⟩ := queued_stageExpert env layer x (toInt (e.cfg.topk - k)) e
    obtain ⟨hge', hle'⟩ := ih (k + 1) (e.stageExpert env layer x (toInt (e.cfg.topk - k)))
    rw [List.length_cons]
    exact ⟨hge.trans hge', by rw [stageAll]; omega⟩

namespace IntQueue
open AsyncPrefetcher.IntQueue (wait)
variable [Field F]

/-- The loop of `forward_layer` that waits for the experts and adds up their outputs. -/
def accumulate (env : Platform F) (layer : Int32) (hIn : ℕ → F) :
    List Int32 → (ℕ → F) → Engine F → (ℕ → F) × Engine F
  | [], acc, e => (acc, e)
  | x :: xs, acc, e =>
    let e₁ := { e with prefetcher := (wait e.prefetcher ⟨layer, x⟩).2 }
    let p := e₁.cache.data ⟨layer, x⟩
    if p = 0 then
      accumulate env layer hIn xs acc
        { e₁ with stats := { e₁.stats with fallbacks := e₁.stats.fallbacks + 1 } }
    else
      let blob := readFloats env e₁.prefetcher.vram p
      accumulate env layer hIn xs
        (swiglu env.exp blob hIn e₁.inter.toNat e₁.hidden.toNat acc)
        { e₁ with prefetcher := e₁.prefetcher.touch ⟨layer, x⟩ }

variable [LinearOrder F]

def forwardLayer (env : Platform F) (e : Engine F) (layer : Int32) (hIn : ℕ → F) :
    (ℕ → F) × Engine F :=
  let experts := e.predicted layer hIn
  let r := accumulate env layer hIn experts (fun _ => 0) (stageAll env layer 0 experts e)
  (combine env r.2.hidden.toNat experts.length r.1, r.2)

def generateLoop (env : Platform F) (e : Engine F) : LoopState (ℕ → F) (Engine F) :=
  LoopState.tokenLoop (fun L h e => forwardLayer env e (Int32.ofNat L) h) trackPeak
    e.cfg.numLayers.toNat e.cfg.numTokens.toNat (e.loopStart env)

def generate (env : Platform F) (e : Engine F) : Bool × Engine F := report env (generateLoop env e)

def step (env : Platform F) (e : Engine F) : Op F → Engine F
  | .forwardLayer layer hIn => (forwardLayer env e layer hIn).2
  | .generate => (generate env e).2

/-- The call leaves fewer than `2 ^ 31` transfers queued; `generate`, before its reset. -/
def HasRoom (env : Platform F) (e : Engine F) : Op F → Prop
  | .forwardLayer layer hIn => (forwardLayer env e layer hIn).2.queued < 2 ^ 31
  | .generate => (generateLoop env e).engine.queued < 2 ^ 31

omit [LinearOrder F] in
theorem accumulate_queued (layer : Int32) (hIn : ℕ → F) (xs : List Int32) (acc : ℕ → F)
    (e : Engine F) : (accumulate env layer hIn xs acc e).2.queued = e.queued := by
  induction xs generalizing e acc with
  | nil => rfl
  | cons x xs ih =>
    simp only [accumulate]
    split_ifs
    · rw [ih]
      exact AsyncPrefetcher.IntQueue.wait_length ..
    · rw [ih]
      exact AsyncPrefetcher.IntQueue.wait_length ..

theorem queued_le_forwardLayer (layer : Int32) (hIn : ℕ → F) (e : Engine F) :
    e.queued ≤ (forwardLayer env e layer hIn).2.queued :=
  (queued_stageAll env layer 0 _ e).1.trans (accumulate_queued layer hIn _ _ _).ge

theorem queued_forwardLayer (env : Platform F) (layer : Int32) (hIn : ℕ → F) (e : Engine F) :
    (forwardLayer env e layer hIn).2.queued ≤ e.queued + (e.predicted layer hIn).length :=
  (accumulate_queued layer hIn _ _ _).trans_le (queued_stageAll env layer 0 _ e).2

section Steps
variable (hs : 0 < e₀.blobBytes) (hle : e₀.blobBytes ≤ B)
include hs hle

omit [LinearOrder F] in
/-- The waits of a layer find the same positions. -/
theorem accumulate_eq (h : Reached (Streams env e₀ B) e₀ e) (hroom : e.queued < 2 ^ 31)
    (layer : Int32) (hIn : ℕ → F) (xs : List Int32) (acc : ℕ → F) :
    accumulate env layer hIn xs acc e = Engine.accumulate env layer hIn xs acc e := by
  induction xs generalizing e acc with
  | nil => rfl
  | cons x xs ih =>
    have hP := Streams.step env hs hle
    have hwait := h.wait hP ⟨layer, x⟩
    have hsame := AsyncPrefetcher.IntQueue.wait_eq h.prefetcher.bytes.queue hroom ⟨layer, x⟩
    have hlen : (e.prefetcher.wait ⟨layer, x⟩).2.inflight.length < 2 ^ 31 := by
      rw [← hsame, AsyncPrefetcher.IntQueue.wait_length]
      exact hroom
    simp only [accumulate, Engine.accumulate, hsame]
    split_ifs
    · exact ih (hwait.with_stats _) hlen acc
    · exact ih (hwait.touch hP _) hlen _

theorem forwardLayer_eq (h : Reached (Streams env e₀ B) e₀ e) {layer : Int32} {hIn : ℕ → F}
    (hroom : (forwardLayer env e layer hIn).2.queued < 2 ^ 31) :
    forwardLayer env e layer hIn = e.forwardLayer env layer hIn ∧
      Reached (Streams env e₀ B) e₀ (forwardLayer env e layer hIn).2 := by
  have hstaged := h.stageAll (Streams.step env hs hle) layer 0 (e.predicted layer hIn)
  have hlen := hroom
  simp only [forwardLayer, accumulate_queued] at hlen
  have hsame : forwardLayer env e layer hIn = e.forwardLayer env layer hIn := by
    simp only [forwardLayer, Engine.forwardLayer, accumulate_eq hs hle hstaged hlen]
  refine ⟨hsame, ?_⟩
  rw [hsame]
  exact h.forwardLayer (Streams.step env hs hle) layer hIn

theorem generateLoop_eq (h : Reached (Streams env e₀ B) e₀ e)
    (hroom : (generateLoop env e).engine.queued < 2 ^ 31) :
    generateLoop env e = e.generateLoop env := by
  have hpeak : ∀ e : Engine F, queued (trackPeak e) = queued e ∧
      (Reached (Streams env e₀ B) e₀ e → Reached (Streams env e₀ B) e₀ (trackPeak e)) :=
    fun _ => ⟨rfl, fun h => h.with_stats _⟩
  exact (LoopState.tokenLoop_congr queued
    (fun L hIn e => queued_le_forwardLayer (Int32.ofNat L) hIn e) hpeak
    (fun _ _ _ h => forwardLayer_eq hs hle h) h hroom).1

/-- The step lemma. -/
theorem step_eq (h : Reached (Streams env e₀ B) e₀ e) {op : Op F} (hroom : HasRoom env e op) :
    step env e op = e.step env op := by
  cases op with
  | forwardLayer layer hIn => exact congrArg Prod.snd (forwardLayer_eq hs hle h hroom).1
  | generate =>
    simp only [step, generate, Engine.step, Engine.generate, generateLoop_eq hs hle h hroom]

theorem reached_step (e : Engine F) (op : Op F) (h : Reached (Streams env e₀ B) e₀ e)
    (hroom : HasRoom env e op) : Reached (Streams env e₀ B) e₀ (step env e op) := by
  rw [step_eq hs hle h hroom]
  exact h.step (Streams.step env hs hle) op

/-- The run lemma: what holds along the runs with natural positions holds along these. -/
theorem run_eq (h : Reached (Streams env e₀ B) e₀ e) {ops : List (Op F)}
    (hroom : Guarded (step env) (HasRoom env) e ops) :
    run (step env) e ops = run (Engine.step env) e ops :=
  run_congr (reached_step hs hle) (fun _ _ h hop => step_eq hs hle h hop) h hroom

end Steps

end IntQueue
end Engine
end Dee
