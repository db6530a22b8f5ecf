import Dee.DeltaPrefetch
import Dee.RoutingReplay

/-! How many misses the replay can count. With room for one expert more than is predicted, a
round never evicts its own prediction, so whatever it misses was not predicted: the hit rate
is at least the recall of the Oracle, for every routing and every Oracle. -/
namespace Dee
open GuardedRuns

namespace ExpertCache
variable {α : Type*} [DecidableEq α]

theorem Ranks.prefetchDelta_mem {c : ExpertCache α} {ids : List α} (h : c.Ranks ids)
    (hcap : (ids.length : ℤ) ≤ c.capacity) (token : ℤ) :
    ∀ e ∈ ids, e ∈ (c.prefetchDelta ids token).2.vram.members := by
  intro e he
  have hmissing : ∀ e ∈ ids.filter fun e => e ∉ c.vram.members, e ∈ ids ∧ e ∉ c.vram.members :=
    fun e he => ⟨(List.mem_filter.mp he).1, of_decide_eq_true (List.mem_filter.mp he).2⟩
  obtain ⟨hspares, hmem⟩ := h.prefetchAll hcap (h.nodup.filter _) (fun e he => (hmissing e he).1)
    (fun e he => (hmissing e he).2) token
  by_cases hold : e ∈ c.vram.members
  · exact hspares.kept e he hold
  · exact hmem e (List.mem_filter.mpr ⟨he, by simpa using hold⟩)

/-- The whole prediction is resident, and there is room for more. -/
structure Covers (ids : List α) (c : ExpertCache α) : Prop extends Ranks c ids where
  resident : ∀ e ∈ ids, e ∈ c.vram.members
  roomy : (ids.length : ℤ) < c.capacity

/-- More residents than predicted experts: one of them is unpredicted. -/
theorem exists_extra {ids residents : List α} (hnd : residents.Nodup)
    (hlen : ids.length < residents.length) : ∃ u ∈ residents, u ∉ ids := by
  by_contra hall
  push Not at hall
  have hle := (List.subperm_of_subset hnd hall).length_le
  omega

/-- A request leaves the prediction in the cache, and hits if it asks for a member. -/
theorem Covers.requestExpert {c : ExpertCache α} {ids : List α} (h : Covers ids c) (e : α)
    (token : ℤ) : Covers ids (c.requestExpert e token).2 ∧
      (e ∈ ids → (c.requestExpert e token).1 = true) := by
  have hconf := c.config_requestExpert e token
  have hranks : (c.requestExpert e token).2.Ranks ids := h.toRanks.of_config hconf
  have hroomy : (ids.length : ℤ) < (c.requestExpert e token).2.capacity := by
    rw [show (c.requestExpert e token).2.capacity = c.capacity from congrArg Prod.fst hconf]
    exact h.roomy
  rcases c.requestExpert_cases e token with ⟨-, hr⟩ | ⟨hno, hr⟩
  · refine ⟨⟨hranks, fun u hu => ?_, hroomy⟩, fun _ => by rw [hr]⟩
    rw [hr]
    exact h.resident u hu
  · refine ⟨⟨hranks, fun u hu => ?_, hroomy⟩, fun he => absurd (h.resident e he) hno⟩
    rw [hr]
    refine UnorderedSet.mem_add.mpr (Or.inr ?_)
    have hadvance : c.advance.Ranks ids := ⟨h.nodup, h.length_le, h.rank⟩
    rcases c.advance.makeRoom_cases token with ⟨-, hm⟩ | ⟨hfull, hm⟩
    · rw [hm]
      exact h.resident u hu
    · rw [hm]
      rcases hadvance.evict_cases token with ⟨-, hev⟩ | ⟨v, hv, hev⟩
      · rw [hev]
        exact h.resident u hu
      · have hmore : ids.length < c.vram.members.length := by
          have hfull' : c.capacity ≤ c.vram.members.length := hfull
          have hroom := h.roomy
          exact_mod_cast hroom.trans_le hfull'
        have hvids := hv.unpredicted (exists_extra c.vram.members_nodup hmore)
        rw [hev]
        exact UnorderedSet.mem_discard.mpr ⟨h.resident u hu, fun huv => hvids (huv ▸ hu)⟩

end ExpertCache

namespace Replay
open ExpertCache
variable {η : Type}

theorem config_foldl_serve (token : ℤ) (r : Replay) (es : List ℤ) :
    (es.foldl (serve token) r).cache.config = r.cache.config := by
  induction es generalizing r with
  | nil => rfl
  | cons e es ih =>
    have hserve : (serve token r e).cache.config = r.cache.config := by
      have hconf := r.cache.config_requestExpert e token
      simp only [serve]
      split_ifs <;> exact hconf
    exact (ih _).trans hserve

theorem foldl_serve_total (token : ℤ) (r : Replay) (es : List ℤ) :
    (es.foldl (serve token) r).hits + (es.foldl (serve token) r).miss =
      r.hits + r.miss + es.length := by
  induction es generalizing r with
  | nil => rfl
  | cons e es ih =>
    have hserve : (serve token r e).hits + (serve token r e).miss = r.hits + r.miss + 1 := by
      simp only [serve]
      split_ifs
      · exact Nat.succ_add _ _
      · rfl
    rw [List.foldl_cons, ih, hserve, List.length_cons]
    omega

/-- A request of a member of the prediction is no miss. -/
theorem serve_miss {ids : List ℤ} {r : Replay} (h : Covers ids r.cache) (token e : ℤ) :
    Covers ids (serve token r e).cache ∧
      (serve token r e).miss ≤ r.miss + if e ∈ ids then 0 else 1 := by
  obtain ⟨hcov, hhit⟩ := h.requestExpert e token
  simp only [serve]
  by_cases hq : (r.cache.requestExpert e token).1 = true
  · simp only [hq, if_true]
    exact ⟨hcov, Nat.le_add_right _ _⟩
  · have he : e ∉ ids := fun he => hq (hhit he)
    simp only [hq, if_false, he]
    exact ⟨hcov, le_rfl⟩

theorem foldl_serve_miss {ids : List ℤ} {r : Replay} (h : Covers ids r.cache) (token : ℤ)
    (es : List ℤ) :
    Covers ids (es.foldl (serve token) r).cache ∧
      (es.foldl (serve token) r).miss ≤ r.miss + es.countP fun e => e ∉ ids := by
  induction es generalizing r with
  | nil => exact ⟨h, le_rfl⟩
  | cons e es ih =>
    obtain ⟨hcov, hmiss⟩ := serve_miss h token e
    obtain ⟨hcov', hmiss'⟩ := ih hcov
    refine ⟨hcov', hmiss'.trans ?_⟩
    by_cases he : e ∈ ids
    · rw [List.countP_cons_of_neg (by simpa using he)]
      rw [if_pos he] at hmiss
      omega
    · rw [List.countP_cons_of_pos (by simpa using he)]
      rw [if_neg he] at hmiss
      omega

/-- The three columns of a layer file have one row for each pair. -/
structure Rectangular (d : LayerData η) : Prop where
  n1 : d.nextExpertsN1.length = d.hiddenStates.length
  n2 : d.nextExpertsN2.length = d.hiddenStates.length

/-- The experts that round `t` asks for. -/
def roundRequests (d : LayerData η) (t : ℕ) : List ℤ :=
  d.nextExpertsN1.getD (t + 1) [] ++ d.nextExpertsN2.getD (t + 2) []

/-- The prediction of round `t`. -/
def roundPrediction (predict : η → List ℤ) (d : LayerData η) (t : ℕ) : List ℤ :=
  ((d.hiddenStates[t]?).map predict).getD []

/-- The requests of round `t` that the Oracle has not predicted. -/
def unpredicted (predict : η → List ℤ) (d : LayerData η) (t : ℕ) : ℕ :=
  (roundRequests d t).countP fun e => e ∉ roundPrediction predict d t

/-- The rows that round `t` reads. -/
theorem Rectangular.rows {d : LayerData η} (hd : Rectangular d) {t : ℕ}
    (ht : t + 2 < d.hiddenStates.length) :
    ∃ h a b, d.hiddenStates[t]? = some h ∧ trueExperts d.nextExpertsN1 t 1 = some a ∧
      trueExperts d.nextExpertsN2 t 2 = some b ∧ roundRequests d t = a ++ b := by
  have hn1 := hd.n1
  have hn2 := hd.n2
  have ha : d.nextExpertsN1[t + 1]? = some d.nextExpertsN1[t + 1] :=
    List.getElem?_eq_getElem (by omega)
  have hb : d.nextExpertsN2[t + 2]? = some d.nextExpertsN2[t + 2] :=
    List.getElem?_eq_getElem (by omega)
  refine ⟨_, _, _, List.getElem?_eq_getElem (by omega), ha, hb, ?_⟩
  simp [roundRequests, List.getD_eq_getElem?_getD, ha, hb]

theorem replayToken_total (predict : η → List ℤ) {d : LayerData η} (hd : Rectangular d)
    (r : Replay) {t : ℕ} (ht : t + 2 < d.hiddenStates.length) :
    ∃ r', replayToken predict d r t = some r' ∧
      r'.hits + r'.miss = r.hits + r.miss + (roundRequests d t).length := by
  obtain ⟨h, a, b, hh, ha, hb, hreq⟩ := hd.rows ht
  refine ⟨_, replayToken_eq hh ha hb, ?_⟩
  rw [foldl_serve_total, foldl_serve_total, hreq, List.length_append]
  exact Nat.add_assoc _ _ _

/-- Every round of a replay serves all of its requests, with any capacity and prediction. -/
theorem foldlM_replayToken_total (predict : η → List ℤ) {d : LayerData η} (hd : Rectangular d)
    (r : Replay) {rounds : ℕ} (hrounds : rounds ≤ d.hiddenStates.length - 2) :
    ∃ r', (List.range rounds).foldlM (replayToken predict d) r = some r' ∧
      r'.hits + r'.miss =
        r.hits + r.miss + ∑ t ∈ Finset.range rounds, (roundRequests d t).length := by
  induction rounds with
  | zero => exact ⟨r, rfl, rfl⟩
  | succ n ih =>
    obtain ⟨r₁, hr₁, htotal₁⟩ := ih (by omega)
    obtain ⟨r₂, hr₂, htotal₂⟩ := replayToken_total predict hd r₁ (t := n) (by omega)
    refine ⟨r₂, ?_, ?_⟩
    · rw [List.range_succ, List.foldlM_append, hr₁]
      simp [hr₂]
    · rw [htotal₂, htotal₁, Finset.sum_range_succ, Nat.add_assoc]

/-- The Oracle lists distinct experts, at most `k` of them. -/
structure TopK (k : ℤ) (predict : η → List ℤ) : Prop where
  nodup : ∀ h, (predict h).Nodup
  length_le : ∀ h, ((predict h).length : ℤ) ≤ k

/-- What the rounds of a replay keep. -/
structure Counted (capacity k : ℤ) (bad : ℕ) (r : Replay) : Prop where
  capacity_eq : r.cache.capacity = capacity
  topKPred_eq : r.cache.topKPred = k
  miss_le : r.miss ≤ bad

/-- The step lemma: a round misses unpredicted requests only. -/
theorem Counted.replayToken {predict : η → List ℤ} {d : LayerData η} {capacity k : ℤ}
    (hk : TopK k predict) (hcap : k < capacity) (hd : Rectangular d) {bad : ℕ} {r r' : Replay}
    (h : Counted capacity k bad r) {t : ℕ} (ht : t + 2 < d.hiddenStates.length)
    (hr' : replayToken predict d r t = some r') :
    Counted capacity k (bad + unpredicted predict d t) r' := by
  obtain ⟨s, a, b, hh, ha, hb, hreq⟩ := hd.rows ht
  have hpred : roundPrediction predict d t = predict s := by
    simp [roundPrediction, hh]
  have hlen := hk.length_le s
  have hranks : (r.cache.setLookaheadRanked (predict s)).Ranks (predict s) :=
    ⟨hk.nodup s, hlen.trans_eq h.topKPred_eq.symm, rfl⟩
  have hconf := (r.cache.setLookaheadRanked (predict s)).config_prefetchDelta (predict s) t
  have hcapacity : ((r.cache.setLookaheadRanked (predict s)).prefetchDelta (predict s) t).2.capacity =
      capacity := (congrArg Prod.fst hconf).trans h.capacity_eq
  obtain ⟨r₀, hr₀⟩ : ∃ r₀ : Replay, r₀ = { r with cache :=
    ((r.cache.setLookaheadRanked (predict s)).prefetchDelta (predict s) t).2 } := ⟨_, rfl⟩
  have hcov : Covers (predict s) r₀.cache := by
    rw [hr₀]
    refine ⟨hranks.of_config hconf, hranks.prefetchDelta_mem ?_ t, hlen.trans_lt ?_⟩
    · exact (hlen.trans hcap.le).trans_eq h.capacity_eq.symm
    · exact hcap.trans_eq hcapacity.symm
  rw [replayToken_eq hh ha hb, ← hr₀, Option.some.injEq] at hr'
  subst hr'
  obtain ⟨hcov₁, hmiss₁⟩ := foldl_serve_miss hcov (t + 1 : ℕ) a
  obtain ⟨-, hmiss₂⟩ := foldl_serve_miss hcov₁ (t + 2 : ℕ) b
  have hkeep : (b.foldl (serve (t + 2 : ℕ)) (a.foldl (serve (t + 1 : ℕ)) r₀)).cache.config =
      (r.cache.setLookaheadRanked (predict s)).config := by
    rw [config_foldl_serve, config_foldl_serve, hr₀]
    exact hconf
  refine ⟨(congrArg Prod.fst hkeep).trans h.capacity_eq,
    (congrArg (fun x => x.2.1) hkeep).trans h.topKPred_eq, ?_⟩
  have hmiss : r₀.miss ≤ bad := by
    rw [hr₀]
    exact h.miss_le
  have hbad : unpredicted predict d t =
      (a.countP fun e => e ∉ predict s) + b.countP fun e => e ∉ predict s := by
    rw [unpredicted, hreq, hpred, List.countP_append]
  omega

/-- The run lemma, over the rounds of the replay. -/
theorem Counted.foldlM_replayToken {predict : η → List ℤ} {d : LayerData η} {capacity k : ℤ}
    (hk : TopK k predict) (hcap : k < capacity) (hd : Rectangular d) {bad : ℕ} {r r' : Replay}
    (h : Counted capacity k bad r) {rounds : ℕ} (hrounds : rounds ≤ d.hiddenStates.length - 2)
    (hr' : (List.range rounds).foldlM (Replay.replayToken predict d) r = some r') :
    Counted capacity k (bad + ∑ t ∈ Finset.range rounds, unpredicted predict d t) r' := by
  induction rounds generalizing r' with
  | zero =>
    cases hr'
    exact h
  | succ n ih =>
    obtain ⟨r₁, hr₁, -⟩ :=
      foldlM_replayToken_total predict hd r ((Nat.le_succ n).trans hrounds)
    rw [List.range_succ, List.foldlM_append, hr₁] at hr'
    simp only [List.foldlM_cons, List.foldlM_nil, Option.bind_eq_bind, Option.bind_some,
      Option.pure_def, Option.bind_fun_some] at hr'
    rw [Finset.sum_range_succ, ← Nat.add_assoc]
    exact (ih (by omega) hr₁).replayToken hk hcap hd (by omega) hr'

/-- The three columns of a collected layer file have one row for each pair. -/
theorem rectangular_of_collectData {prompts : List (List η × List (List ℤ))} {d : LayerData η}
    (h : collectData prompts = some d) : Rectangular d := by
  unfold collectData at h
  cases hp : prompts.mapM fun p => pairWindow p.1 p.2 with
  | none => simp [hp] at h
  | some plist =>
    simp only [hp, Option.bind_eq_bind, Option.bind_some] at h
    split_ifs at h with hnil
    cases h
    exact ⟨by simp only [List.length_map], by simp only [List.length_map]⟩

/-- The replay of a collected layer, for every routing, Oracle and capacity: it serves every
request of its rounds. With room for one expert more than is predicted it misses at most as
often as an expert is asked for that its round has not predicted. -/
theorem runSimulation_miss_le_unpredicted {prompts : List (List η × List (List ℤ))}
    {d : LayerData η} (hd : collectData prompts = some d) (predict : η → List ℤ) (capacity k : ℤ)
    (order : IterationOrder ℤ Unit) (maxTokens : ℤ) :
    ∃ r, runSimulation predict order capacity k maxTokens d = some r ∧
      r.hits + r.miss =
        ∑ t ∈ Finset.range (replayLength d.hiddenStates.length maxTokens - 2),
          (roundRequests d t).length ∧
      (TopK k predict → k < capacity →
        r.miss ≤ ∑ t ∈ Finset.range (replayLength d.hiddenStates.length maxTokens - 2),
          unpredicted predict d t) := by
  have hrect := rectangular_of_collectData hd
  have hlen := Nat.sub_le_sub_right (replayLength_le d.hiddenStates.length maxTokens) 2
  have hstart : Counted capacity k 0 ⟨.init order capacity k, 0, 0, []⟩ := ⟨rfl, rfl, le_rfl⟩
  obtain ⟨r, hr, htotal⟩ := foldlM_replayToken_total predict hrect
    ⟨.init order capacity k, 0, 0, []⟩ hlen
  refine ⟨r, hr, htotal.trans (Nat.zero_add _), fun hk hcap => ?_⟩
  exact (hstart.foldlM_replayToken hk hcap hrect hlen hr).miss_le.trans_eq (Nat.zero_add _)

/-- A prediction of one expert and room for two: of the four requests two can miss. -/
theorem runSimulation_miss_le_unpredicted_five :
    ∃ d r, collectData [([(), (), (), (), ()], [[1, 2], [2, 1], [1, 2], [1, 2], [2, 1]])] = some d ∧
      runSimulation (fun _ => [2]) (.newestFirst ℤ Unit) 2 1 0 d = some r ∧
      r.hits + r.miss = ∑ t ∈ Finset.range (replayLength d.hiddenStates.length 0 - 2),
        (roundRequests d t).length ∧
      r.miss ≤ ∑ t ∈ Finset.range (replayLength d.hiddenStates.length 0 - 2),
        unpredicted (fun _ => [2]) d t := by
  obtain ⟨d, hd, -⟩ := @collectData_single Unit [(), (), (), (), ()]
    [[1, 2], [2, 1], [1, 2], [1, 2], [2, 1]] rfl (by decide)
  have hk : TopK 1 fun _ : Unit => [(2 : ℤ)] := ⟨fun _ => by simp, fun _ => le_rfl⟩
  obtain ⟨r, hr, htotal, hmiss⟩ := runSimulation_miss_le_unpredicted hd (fun _ => [2]) 2 1
    (.newestFirst ℤ Unit) 0
  exact ⟨d, r, hd, hr, htotal, hmiss hk one_lt_two⟩

end Replay
end Dee
