import Dee.SwiGlu

/-! The autoregressive generator over an arbitrary environment. Whatever embedder, sampler,
router, Oracle and prefetcher answer, the length of the output fixes how often the Oracle is
asked and how many experts are evaluated. -/
namespace Dee.Generation
open CountedLoops

inductive ExpertTensor
  | gateUp
  | down

/-- What the generator calls, over a state of its own; queries may change it, since a
transfer can end at any time. -/
structure Environment (σ F : Type*) where
  layerIndex : σ → ℤ → ℤ × σ
  predict : σ → ℤ → (ℕ → F) → ℤ → ℤ → (ℕ → ℤ) → (ℕ → ℤ) × σ
  contains : σ → ℤ → ℤ → Bool
  isReady : σ → ℤ → ℤ → Bool × σ
  isInflight : σ → ℤ → ℤ → Bool × σ
  prefetchExpert : σ → ℤ → ℤ → σ
  synchronizeExpert : σ → ℤ → ℤ → σ
  touch : σ → ℤ → ℤ → σ
  route : σ → ℤ → (ℕ → F) → ℤ → ℤ → (ℕ → ℤ) → (ℕ → F) → (ℕ → ℤ) × (ℕ → F) × σ
  /-- The slot offsets of the views. -/
  expertTensors : σ → ℤ → ℤ → (ExpertTensor → ℕ) → (ExpertTensor → ℕ) × σ
  /-- The floats from a byte offset on in the slot that `ptr_of` returns. -/
  slotFloats : σ → ℤ → ℤ → ℕ → ℕ → F
  embed : σ → ℤ → (ℕ → F) → ℤ → (ℕ → F) × σ
  sample : σ → (ℕ → F) → ℤ → ℤ × σ

structure GeneratorConfig where
  numLayers : ℤ
  topk : ℤ
  hiddenDim : ℤ
  interDim : ℤ
  eosToken : ℤ

/-- The sizes of the vectors that the constructor allocates. -/
structure GeneratorConfig.Allocates (cfg : GeneratorConfig) : Prop where
  hiddenDim : 0 ≤ cfg.hiddenDim
  interDim : 0 ≤ cfg.interDim
  topk : 0 ≤ cfg.topk

instance (cfg : GeneratorConfig) : Decidable cfg.Allocates :=
  decidable_of_iff (0 ≤ cfg.hiddenDim ∧ 0 ≤ cfg.interDim ∧ 0 ≤ cfg.topk)
    ⟨fun h => ⟨h.1, h.2.1, h.2.2⟩, fun h => ⟨h.hiddenDim, h.interDim, h.topk⟩⟩

structure Generator (σ F : Type*) where
  world : σ
  cfg : GeneratorConfig
  allocates : cfg.Allocates
  cacheHits : ℤ
  cacheMisses : ℤ
  reactivePrefetches : ℤ
  predictionCalls : ℤ
  moeOut : ℕ → F
  mlp : MlpBuffers F
  routeIds : ℕ → ℤ
  routeScores : ℕ → F
  views : ExpertTensor → ℕ

variable {σ F : Type*} [Field F]

/-- The constructor; a vector of negative size is a `length_error`. -/
def construct (world : σ) (cfg : GeneratorConfig) : Option (Generator σ F) :=
  if h : cfg.Allocates then
    some ⟨world, cfg, h, 0, 0, 0, 0, fun _ => 0,
      ⟨fun _ => 0, fun _ => 0, fun _ => 0, fun _ => 0⟩, fun _ => 0, fun _ => 0, fun _ => 0⟩
  else none

/-- `OracleScheduler::on_token_decoded`. -/
def onTokenDecoded (env : Environment σ F) (topk : ℤ) (w : σ) (layer : ℤ) (hiddenState : ℕ → F)
    (hiddenDim : ℤ) : σ :=
  let (pred, w) := env.predict w layer hiddenState hiddenDim topk fun _ => 0
  forRange topk.toNat (fun i w =>
    let e := pred i
    if env.contains w layer e then w
    else
      let (inflight, w) := env.isInflight w layer e
      if inflight then w else env.prefetchExpert w layer e) w

namespace Generator

/-- Part (3) of the expert loop: a hit, or a synchronisation after at most one prefetch. -/
def ensureReady (env : Environment σ F) (ml e : ℤ) (g : Generator σ F) : Generator σ F :=
  let (ready, w) := env.isReady g.world ml e
  if ready then { g with world := w, cacheHits := g.cacheHits + 1 }
  else
    let (inflight, w) := env.isInflight w ml e
    let g :=
      if inflight then { g with world := w }
      else { g with
        world := env.prefetchExpert w ml e
        reactivePrefetches := g.reactivePrefetches + 1 }
    { g with world := env.synchronizeExpert g.world ml e, cacheMisses := g.cacheMisses + 1 }

/-- Parts (4) and (5): the expert on the weights of its slot, added with its score. -/
def evaluate (exp : F → F) (env : Environment σ F) (ml : ℤ) (x : ℕ → F) (k : ℕ)
    (g : Generator σ F) : Generator σ F :=
  let e := g.routeIds k
  let (views, w) := env.expertTensors g.world ml e g.views
  let gu := env.slotFloats w ml e (views .gateUp)
  let dn := env.slotFloats w ml e (views .down)
  let mlp := expertMlp exp x g.cfg.hiddenDim.toNat g.cfg.interDim.toNat gu dn g.mlp
  let s := g.routeScores k
  { g with
    world := w
    views := views
    mlp := mlp
    moeOut := forRange g.cfg.hiddenDim.toNat
      (fun i v => Function.update v i (v i + s * mlp.out i)) g.moeOut }

/-- One round of the expert loop. -/
def expertStep (exp : F → F) (env : Environment σ F) (ml : ℤ) (x : ℕ → F) (k : ℕ)
    (g : Generator σ F) : Generator σ F :=
  let e := g.routeIds k
  let g := g.ensureReady env ml e
  evaluate exp env ml x k { g with world := env.touch g.world ml e }

/-- One layer; the second component is the generator after it. -/
def layerStep (exp : F → F) (env : Environment σ F) (layer : ℕ) (s : (ℕ → F) × Generator σ F) :
    (ℕ → F) × Generator σ F :=
  let (x, g) := s
  let H := g.cfg.hiddenDim
  let (ml, w) := env.layerIndex g.world layer
  let w := onTokenDecoded env g.cfg.topk w ml x H
  let (ids, scores, w) := env.route w ml x H g.cfg.topk g.routeIds g.routeScores
  let g := forRange g.cfg.topk.toNat (expertStep exp env ml x) { g with
    world := w
    predictionCalls := g.predictionCalls + 1
    routeIds := ids
    routeScores := scores
    moeOut := fun _ => 0 }
  (forRange H.toNat (fun i x => Function.update x i (x i + g.moeOut i)) x, g)

def runLayers (exp : F → F) (env : Environment σ F) (s : (ℕ → F) × Generator σ F) :
    (ℕ → F) × Generator σ F :=
  forRange s.2.cfg.numLayers.toNat (layerStep exp env) s

/-- A token is embedded into the hidden vector and runs through the layers. -/
def feed (exp : F → F) (env : Environment σ F) (s : (ℕ → F) × Generator σ F) (token : ℤ) :
    (ℕ → F) × Generator σ F :=
  let (x, w) := env.embed s.2.world token s.1 s.2.cfg.hiddenDim
  runLayers exp env (x, { s.2 with world := w })

/-- The decode loop, for the steps that are left. -/
def decode (exp : F → F) (env : Environment σ F) :
    ℕ → (ℕ → F) × Generator σ F → List ℤ × Generator σ F
  | 0, s => ([], s.2)
  | n + 1, s =>
    let (next, w) := env.sample s.2.world s.1 s.2.cfg.hiddenDim
    let g := { s.2 with world := w }
    if next = g.cfg.eosToken then ([next], g)
    else
      let (out, g) := decode exp env n (feed exp env (s.1, g) next)
      (next :: out, g)

def generate (exp : F → F) (env : Environment σ F) (g : Generator σ F) (prompt : List ℤ)
    (maxNewTokens : ℤ) : List ℤ × Generator σ F :=
  if prompt = [] ∨ maxNewTokens ≤ 0 then ([], g)
  else decode exp env maxNewTokens.toNat (prompt.foldl (feed exp env) (fun _ => 0, g))

/-! Accounting -/

/-- From `g` to `g'` the Oracle is asked `calls` times and `evals` experts are evaluated; each
prefetch of the generator belongs to a miss. -/
structure Progress (g g' : Generator σ F) (calls evals : ℤ) : Prop where
  cfg_eq : g'.cfg = g.cfg
  predictionCalls_eq : g'.predictionCalls = g.predictionCalls + calls
  evaluations_eq : g'.cacheHits + g'.cacheMisses = g.cacheHits + g.cacheMisses + evals
  reactive_le : g'.reactivePrefetches - g.reactivePrefetches ≤ g'.cacheMisses - g.cacheMisses

variable {exp : F → F} {env : Environment σ F} {g g' g'' : Generator σ F}
  {calls evals calls' evals' : ℤ}

omit [Field F] in
theorem Progress.refl (g : Generator σ F) : Progress g g 0 0 :=
  ⟨rfl, (add_zero _).symm, (add_zero _).symm, by omega⟩

omit [Field F] in
theorem Progress.trans (h : Progress g g' calls evals) (h' : Progress g' g'' calls' evals') :
    Progress g g'' (calls + calls') (evals + evals') where
  cfg_eq := h'.cfg_eq.trans h.cfg_eq
  predictionCalls_eq := by
    have := h.predictionCalls_eq
    have := h'.predictionCalls_eq
    omega
  evaluations_eq := by
    have := h.evaluations_eq
    have := h'.evaluations_eq
    omega
  reactive_le := by
    have := h.reactive_le
    have := h'.reactive_le
    omega

omit [Field F] in
/-- A loop whose rounds all make the same progress. -/
theorem Progress.forRange {τ : Type*} {f : τ → Generator σ F} {body : ℕ → τ → τ}
    {cfg : GeneratorConfig}
    (hbody : ∀ i t, (f t).cfg = cfg → Progress (f t) (f (body i t)) calls evals) (n : ℕ) (t : τ)
    (hcfg : (f t).cfg = cfg) :
    Progress (f t) (f (CountedLoops.forRange n body t)) (n * calls) (n * evals) := by
  induction n with
  | zero => simpa using Progress.refl (f t)
  | succ n ih =>
    have hround := hbody n _ (ih.cfg_eq.trans hcfg)
    rw [forRange_succ]
    push_cast
    rw [add_one_mul, add_one_mul]
    exact ih.trans hround

omit [Field F] in
/-- An expert counts as one hit or one miss, and only a miss prefetches. -/
theorem progress_ensureReady (ml e : ℤ) : Progress g (g.ensureReady env ml e) 0 1 := by
  unfold ensureReady
  rcases env.isReady g.world ml e with ⟨ready, w⟩
  dsimp only
  split_ifs
  · exact ⟨rfl, by simp, by dsimp only; omega, by dsimp only; omega⟩
  · exact ⟨rfl, by simp, by dsimp only; omega, by dsimp only; omega⟩
  · exact ⟨rfl, by simp, by dsimp only; omega, by dsimp only; omega⟩

theorem progress_expertStep (ml : ℤ) (x : ℕ → F) (k : ℕ) :
    Progress g (expertStep exp env ml x k g) 0 1 := by
  have hready := @progress_ensureReady σ F env g ml (g.routeIds k)
  exact ⟨hready.cfg_eq, hready.predictionCalls_eq, hready.evaluations_eq, hready.reactive_le⟩

/-- A layer asks the Oracle once and evaluates `topk` experts. -/
theorem progress_layerStep (layer : ℕ) (s : (ℕ → F) × Generator σ F) :
    Progress s.2 (layerStep exp env layer s).2 1 s.2.cfg.topk := by
  obtain ⟨x, g⟩ := s
  have hlayer : ∀ (ml : ℤ) (w : σ) (ids : ℕ → ℤ) (scores : ℕ → F),
      Progress g (CountedLoops.forRange g.cfg.topk.toNat (expertStep exp env ml x) { g with
        world := w
        predictionCalls := g.predictionCalls + 1
        routeIds := ids
        routeScores := scores
        moeOut := fun _ => 0 }) 1 g.cfg.topk := by
    intro ml w ids scores
    generalize hg : ({ g with
      world := w
      predictionCalls := g.predictionCalls + 1
      routeIds := ids
      routeScores := scores
      moeOut := fun _ => 0 } : Generator σ F) = g₁
    have hasked : Progress g g₁ 1 0 := by
      subst hg
      exact ⟨rfl, rfl, (add_zero _).symm, by dsimp only; omega⟩
    have hexperts := @Progress.forRange σ F 0 1 _ id (expertStep exp env ml x) g₁.cfg
      (fun k g _ => progress_expertStep ml x k) g.cfg.topk.toNat g₁ rfl
    rw [mul_zero, mul_one, Int.toNat_of_nonneg g.allocates.topk] at hexperts
    have h := hasked.trans hexperts
    rwa [add_zero, zero_add] at h
  exact hlayer _ _ _ _

/-- A token asks the Oracle once for each layer. -/
theorem progress_runLayers (s : (ℕ → F) × Generator σ F) :
    Progress s.2 (runLayers exp env s).2 s.2.cfg.numLayers.toNat
      (s.2.cfg.numLayers.toNat * s.2.cfg.topk) := by
  have hround : ∀ i (t : (ℕ → F) × Generator σ F), t.2.cfg = s.2.cfg →
      Progress t.2 (layerStep exp env i t).2 1 s.2.cfg.topk := by
    intro i t ht
    rw [← ht]
    exact progress_layerStep i t
  have hloop := @Progress.forRange σ F 1 s.2.cfg.topk _ Prod.snd (layerStep exp env) s.2.cfg
    hround s.2.cfg.numLayers.toNat s rfl
  rwa [mul_one] at hloop

/-- `tokens` tokens have run through the layers. -/
def Ran (g g' : Generator σ F) (tokens : ℤ) : Prop :=
  Progress g g' (max g.cfg.numLayers 0 * tokens) (max g.cfg.numLayers 0 * g.cfg.topk * tokens)

omit [Field F] in
theorem Ran.refl (g : Generator σ F) : Ran g g 0 := by
  unfold Ran
  rw [mul_zero, mul_zero]
  exact Progress.refl g

omit [Field F] in
theorem Ran.trans {m n : ℤ} (h : Ran g g' m) (h' : Ran g' g'' n) : Ran g g'' (m + n) := by
  unfold Ran at *
  rw [h.cfg_eq] at h'
  rw [mul_add, mul_add]
  exact Progress.trans h h'

omit [Field F] in
/-- The state of the environment does not count. -/
theorem Ran.of_world {w : σ} {n : ℤ} (h : Ran { g with world := w } g' n) : Ran g g' n :=
  ⟨h.cfg_eq, h.predictionCalls_eq, h.evaluations_eq, h.reactive_le⟩

theorem ran_feed (s : (ℕ → F) × Generator σ F) (token : ℤ) :
    Ran s.2 (feed exp env s token).2 1 := by
  unfold feed
  rcases env.embed s.2.world token s.1 s.2.cfg.hiddenDim with ⟨x, w⟩
  have hlayers := @progress_runLayers σ F _ exp env (x, { s.2 with world := w })
  rw [Int.toNat_eq_max] at hlayers
  refine Ran.of_world (w := w) ?_
  rw [Ran, mul_one, mul_one]
  exact hlayers

theorem ran_foldl_feed (tokens : List ℤ) (s : (ℕ → F) × Generator σ F) :
    Ran s.2 (tokens.foldl (feed exp env) s).2 tokens.length := by
  induction tokens generalizing s with
  | nil => exact Ran.refl s.2
  | cons token tokens ih =>
    have h := (ran_feed s token).trans (ih (feed exp env s token))
    rw [List.foldl_cons, List.length_cons, Nat.cast_add_one, add_comm]
    exact h

/-- The sampled tokens that are fed back: all but a final end token. -/
def fedBack (eos : ℤ) (out : List ℤ) : ℤ :=
  out.length - if out.getLast? = some eos then 1 else 0

theorem fedBack_cons {eos next : ℤ} (h : next ≠ eos) (out : List ℤ) :
    fedBack eos (next :: out) = 1 + fedBack eos out := by
  unfold fedBack
  rw [List.getLast?_cons, List.length_cons, Nat.cast_add_one]
  cases hlast : out.getLast? with
  | none => simp [h, List.getLast?_eq_none_iff.mp hlast]
  | some last => simp; ring

/-- The output is as long as there are steps, or it ends at the end token, which occurs nowhere
else; all tokens before it are fed back. -/
theorem decode_spec (n : ℕ) (s : (ℕ → F) × Generator σ F) :
    let r := decode exp env n s
    let eos := s.2.cfg.eosToken
    (0 < n → r.1 ≠ []) ∧ r.1.length ≤ n ∧ eos ∉ r.1.dropLast ∧
      (r.1.length < n → r.1.getLast? = some eos) ∧ Ran s.2 r.2 (fedBack eos r.1) := by
  induction n generalizing s with
  | zero => exact ⟨by simp, le_rfl, by simp [decode], by simp [decode], Ran.refl s.2⟩
  | succ n ih =>
    unfold decode
    rcases env.sample s.2.world s.1 s.2.cfg.hiddenDim with ⟨next, w⟩
    dsimp only
    split_ifs with hnext
    · refine ⟨by simp, by simp, by simp, by simp [hnext], ?_⟩
      have hnone : fedBack s.2.cfg.eosToken [next] = 0 := by simp [fedBack, hnext]
      rw [hnone]
      exact (Ran.refl _).of_world
    · have hfeed := @ran_feed σ F _ exp env (s.1, { s.2 with world := w }) next
      obtain ⟨-, hlen, hdrop, hshort, hran⟩ :=
        ih (feed exp env (s.1, { s.2 with world := w }) next)
      rw [hfeed.cfg_eq] at hdrop hshort hran
      generalize decode exp env n (feed exp env (s.1, { s.2 with world := w }) next) = r at *
      refine ⟨by simp, by simpa using hlen, ?_, fun hlt => ?_, ?_⟩
      · cases hout : r.1 with
        | nil => simp
        | cons t ts =>
          rw [hout] at hdrop
          rw [List.dropLast_cons_of_ne_nil (List.cons_ne_nil t ts), List.mem_cons, not_or]
          exact ⟨Ne.symm hnext, hdrop⟩
      · have hlast := hshort (by simpa using hlt)
        rw [List.getLast?_cons, hlast]
        rfl
      · rw [fedBack_cons hnext]
        exact (hfeed.trans hran).of_world

/-- Whatever the environment answers: the output is not empty, it is shorter than asked for
only when it ends at the end token, and its length accounts for the telemetry. -/
theorem generate_accounting (exp : F → F) (env : Environment σ F) (g : Generator σ F)
    {prompt : List ℤ} {maxNewTokens : ℤ} (hprompt : prompt ≠ []) (hmax : 1 ≤ maxNewTokens) :
    let out := (g.generate exp env prompt maxNewTokens).1
    let g' := (g.generate exp env prompt maxNewTokens).2
    let eos := g.cfg.eosToken
    let passes : ℤ := prompt.length + out.length - if out.getLast? = some eos then 1 else 0
    (1 ≤ out.length ∧ (out.length : ℤ) ≤ maxNewTokens) ∧
      (out.count eos ≤ 1 ∧ eos ∉ out.dropLast) ∧
      ((out.length : ℤ) < maxNewTokens → out.getLast? = some eos) ∧
      g'.predictionCalls = g.predictionCalls + max g.cfg.numLayers 0 * passes ∧
      g'.cacheHits + g'.cacheMisses =
        g.cacheHits + g.cacheMisses + max g.cfg.numLayers 0 * g.cfg.topk * passes ∧
      g'.reactivePrefetches - g.reactivePrefetches ≤ g'.cacheMisses - g.cacheMisses := by
  have hgen : g.generate exp env prompt maxNewTokens = decode exp env maxNewTokens.toNat
      (prompt.foldl (feed exp env) (fun _ => 0, g)) :=
    if_neg (not_or.mpr ⟨hprompt, by omega⟩)
  have hprefill := @ran_foldl_feed σ F _ exp env prompt (fun _ => 0, g)
  obtain ⟨hne, hlen, hdrop, hshort, hran⟩ := @decode_spec σ F _ exp env maxNewTokens.toNat
    (prompt.foldl (feed exp env) (fun _ => 0, g))
  rw [hprefill.cfg_eq] at hdrop hshort hran
  rw [← hgen] at hne hlen hdrop hshort hran
  intro out g' eos passes
  have hout : out ≠ [] := hne (by omega)
  have hle : out.length ≤ maxNewTokens.toNat := hlen
  have hlast : out.length < maxNewTokens.toNat → out.getLast? = some eos := hshort
  have hall := hprefill.trans hran
  have hpasses : (prompt.length : ℤ) + fedBack eos out = passes := by
    rw [fedBack, ← add_sub_assoc]
  refine ⟨⟨List.length_pos_of_ne_nil hout, by omega⟩, ⟨?_, hdrop⟩, fun hlt => hlast (by omega),
    ?_, ?_, hall.reactive_le⟩
  · rw [← List.dropLast_append_getLast hout, List.count_append, List.count_eq_zero.mpr hdrop,
      zero_add]
    exact List.count_le_length
  · rw [← hpasses]
    exact hall.predictionCalls_eq
  · rw [← hpasses]
    exact hall.evaluations_eq

/-- An environment without experts in memory and with one token. -/
def coldEnvironment : Environment Unit ℚ where
  layerIndex w i := (i, w)
  predict w _ _ _ _ ids := (ids, w)
  contains _ _ _ := false
  isReady w _ _ := (false, w)
  isInflight w _ _ := (false, w)
  prefetchExpert w _ _ := w
  synchronizeExpert w _ _ := w
  touch w _ _ := w
  route w _ _ _ _ ids scores := (ids, scores, w)
  expertTensors w _ _ views := (views, w)
  slotFloats _ _ _ _ _ := 0
  embed w _ x _ := (x, w)
  sample w _ _ := (7, w)

/-- Two layers of one expert; the first sampled token ends the output. -/
theorem generate_accounting_cold : ∃ g : Generator Unit ℚ, construct () ⟨2, 1, 1, 1, 7⟩ = some g ∧
    let out := (g.generate id coldEnvironment [1, 2] 3).1
    let g' := (g.generate id coldEnvironment [1, 2] 3).2
    (1 ≤ out.length ∧ (out.length : ℤ) ≤ 3) ∧
      g'.predictionCalls = g.predictionCalls + max 2 0 *
        (2 + out.length - if out.getLast? = some 7 then 1 else 0) := by
  have hallocates : (⟨2, 1, 1, 1, 7⟩ : GeneratorConfig).Allocates := by decide
  refine ⟨_, dif_pos hallocates, ?_⟩
  obtain ⟨hlen, -, -, hcalls, -⟩ := @generate_accounting Unit ℚ _ id coldEnvironment
    ⟨(), ⟨2, 1, 1, 1, 7⟩, hallocates, 0, 0, 0, 0, fun _ => 0,
      ⟨fun _ => 0, fun _ => 0, fun _ => 0, fun _ => 0⟩, fun _ => 0, fun _ => 0, fun _ => 0⟩
    [1, 2] 3 (by decide) (by decide)
  exact ⟨hlen, hcalls⟩

end Generator
end Dee.Generation
