import Dee.ReplayRecall

/-! The sweep over capacities and prediction widths. Every admissible configuration replays
the same requests; the best one is the first of least capacity among those with a high hit
rate, and a high recall of the Oracle makes sure that there is one. -/
namespace Dee.Replay
variable {η ρ : Type}

/-- Rates of counts and the test `hr > 0.95`. A rounded quotient is monotone in its numerator. -/
structure HitRates (ρ : Type) where
  zero : ρ
  div : ℕ → ℕ → ρ
  oneSub : ρ → ρ
  high : ρ → Bool
  high_mono : ∀ {h h' total : ℕ}, h ≤ h' → high (div h total) → high (div h' total)

/-- Rates without rounding. -/
def HitRates.exact : HitRates ℚ where
  zero := 0
  div h total := h / total
  oneSub r := 1 - r
  high r := decide (19 / 20 < r)
  high_mono := by
    intro h h' total hle hhigh
    have hcast : (h : ℚ) ≤ h' := by exact_mod_cast hle
    exact decide_eq_true ((of_decide_eq_true hhigh).trans_le (by gcongr))

/-- A layer with its recorded data and the `tk` best experts that its Oracle names. -/
structure SweepLayer (η : Type) where
  data : LayerData η
  topk : ℤ → η → List ℤ

structure SweepRecord (ρ : Type) where
  capacity : ℤ
  topKPred : ℤ
  hitRate : ρ
  missRate : ρ
  hits : ℕ
  miss : ℕ

/-- The replay of one layer, on top of the counts of the layers before it. -/
def sweepLayer (order : IterationOrder ℤ Unit) (maxTokens cap tk : ℤ) (agg : ℕ × ℕ)
    (l : SweepLayer η) : Option (ℕ × ℕ) := do
  let T := replayLength l.data.hiddenStates.length maxTokens
  let r ← (List.range (T - 2)).foldlM (replayToken (l.topk tk) l.data)
    ⟨.init order cap tk, agg.1, agg.2, []⟩
  pure (r.hits, r.miss)

/-- One configuration over all layers, each with a cache of its own. -/
def sweepConfig (R : HitRates ρ) (order : ℕ → IterationOrder ℤ Unit) (layers : List (SweepLayer η))
    (maxTokens cap tk : ℤ) : Option (SweepRecord ρ) := do
  let agg ← layers.zipIdx.foldlM (fun agg l => sweepLayer (order l.2) maxTokens cap tk agg l.1)
    (0, 0)
  let total := agg.1 + agg.2
  let hr := if total = 0 then R.zero else R.div agg.1 total
  pure ⟨cap, tk, hr, R.oneSub hr, agg.1, agg.2⟩

/-- The lowest capacity with a high hit rate so far. -/
def updateBest (R : HitRates ρ) (best : Option (SweepRecord ρ)) (r : SweepRecord ρ) :
    Option (SweepRecord ρ) :=
  if R.high r.hitRate then
    match best with
    | none => some r
    | some b => if r.capacity < b.capacity then some r else some b
  else best

/-- The body of the two loops: the width may not exceed the capacity. -/
def sweepStep (R : HitRates ρ) (order : ℕ → ℕ → IterationOrder ℤ Unit)
    (layers : List (SweepLayer η)) (maxTokens cap : ℤ)
    (s : List (SweepRecord ρ) × Option (SweepRecord ρ)) (tk : ℤ) :
    Option (List (SweepRecord ρ) × Option (SweepRecord ρ)) :=
  if cap < tk then some s
  else (sweepConfig R (order s.1.length) layers maxTokens cap tk).map fun r =>
    (s.1 ++ [r], updateBest R s.2 r)

/-- The set of the cache for record `n` and layer `i` is listed in `order n i`. -/
def runSweep (R : HitRates ρ) (order : ℕ → ℕ → IterationOrder ℤ Unit)
    (layers : List (SweepLayer η)) (capacities topKPreds : List ℤ) (maxTokens : ℤ) :
    Option (List (SweepRecord ρ) × Option (SweepRecord ρ)) :=
  capacities.foldlM (fun s cap => topKPreds.foldlM (sweepStep R order layers maxTokens cap) s)
    ([], none)

/-- The configurations in their order, less those that predict more than they can hold. -/
def admissible (capacities topKPreds : List ℤ) : List (ℤ × ℤ) :=
  capacities.flatMap fun cap => (topKPreds.filter fun tk => tk ≤ cap).map fun tk => (cap, tk)

/-- The requests of the rounds of all layers. -/
def requestCount (layers : List (SweepLayer η)) (maxTokens : ℤ) : ℕ :=
  (layers.map fun l => ∑ t ∈ Finset.range (replayLength l.data.hiddenStates.length maxTokens - 2),
    (roundRequests l.data t).length).sum

/-- The requests that a prediction of width `tk` does not foresee. -/
def unpredictedCount (layers : List (SweepLayer η)) (maxTokens tk : ℤ) : ℕ :=
  (layers.map fun l => ∑ t ∈ Finset.range (replayLength l.data.hiddenStates.length maxTokens - 2),
    unpredicted (l.topk tk) l.data t).sum

section Layers
variable (maxTokens cap tk : ℤ)

theorem sweepLayer_total (order : IterationOrder ℤ Unit) {l : SweepLayer η}
    (hl : Rectangular l.data) (agg : ℕ × ℕ) :
    ∃ agg', sweepLayer order maxTokens cap tk agg l = some agg' ∧
      agg'.1 + agg'.2 = agg.1 + agg.2 + requestCount [l] maxTokens := by
  obtain ⟨r, hr, htotal⟩ := foldlM_replayToken_total (l.topk tk) hl
    ⟨.init order cap tk, agg.1, agg.2, []⟩
    (Nat.sub_le_sub_right (replayLength_le l.data.hiddenStates.length maxTokens) 2)
  refine ⟨(r.hits, r.miss), ?_, ?_⟩
  · simp only [sweepLayer, hr]
    rfl
  · simpa [requestCount] using htotal

theorem sweepLayer_miss (order : IterationOrder ℤ Unit) {l : SweepLayer η}
    (hl : Rectangular l.data) (hk : TopK tk (l.topk tk)) (hcap : tk < cap) {agg agg' : ℕ × ℕ}
    (h : sweepLayer order maxTokens cap tk agg l = some agg') :
    agg'.2 ≤ agg.2 + unpredictedCount [l] maxTokens tk := by
  have hlen := Nat.sub_le_sub_right (replayLength_le l.data.hiddenStates.length maxTokens) 2
  obtain ⟨r, hr, -⟩ := foldlM_replayToken_total (l.topk tk) hl
    ⟨.init order cap tk, agg.1, agg.2, []⟩ hlen
  have hstart : Counted cap tk agg.2 ⟨.init order cap tk, agg.1, agg.2, []⟩ := ⟨rfl, rfl, le_rfl⟩
  have hmiss := (hstart.foldlM_replayToken hk hcap hl hlen hr).miss_le
  simp only [sweepLayer, hr, Option.bind_eq_bind, Option.bind_some, Option.pure_def,
    Option.some.injEq] at h
  subst h
  simpa [unpredictedCount] using hmiss

theorem foldlM_sweepLayer (order : ℕ → IterationOrder ℤ Unit) {layers : List (SweepLayer η)}
    (hl : ∀ l ∈ layers, Rectangular l.data) (i : ℕ) (agg : ℕ × ℕ) :
    ∃ agg', (layers.zipIdx i).foldlM
        (fun agg l => sweepLayer (order l.2) maxTokens cap tk agg l.1) agg = some agg' ∧
      agg'.1 + agg'.2 = agg.1 + agg.2 + requestCount layers maxTokens ∧
      (tk < cap → (∀ l ∈ layers, TopK tk (l.topk tk)) →
        agg'.2 ≤ agg.2 + unpredictedCount layers maxTokens tk) := by
  induction layers generalizing agg i with
  | nil => exact ⟨agg, rfl, rfl, fun _ _ => le_rfl⟩
  | cons l layers ih =>
    obtain ⟨hl₁, hl⟩ := List.forall_mem_cons.mp hl
    obtain ⟨agg₁, h₁, htotal₁⟩ := sweepLayer_total maxTokens cap tk (order i) hl₁ agg
    obtain ⟨agg₂, h₂, htotal₂, hmiss₂⟩ := ih hl (i + 1) agg₁
    refine ⟨agg₂, ?_, ?_, fun hcap hk => ?_⟩
    · rw [List.zipIdx_cons, List.foldlM_cons, h₁]
      exact h₂
    · rw [htotal₂, htotal₁]
      simp only [requestCount, List.map_cons, List.sum_cons, List.map_nil, List.sum_nil]
      omega
    · obtain ⟨hk₁, hk⟩ := List.forall_mem_cons.mp hk
      have hmiss₁ := sweepLayer_miss maxTokens cap tk (order i) hl₁ hk₁ hcap h₁
      have hmiss := hmiss₂ hcap hk
      simp only [unpredictedCount, List.map_cons, List.sum_cons, List.map_nil,
        List.sum_nil] at hmiss₁ hmiss ⊢
      omega

end Layers

/-- What the record of a configuration says. -/
structure Sound (R : HitRates ρ) (layers : List (SweepLayer η)) (maxTokens : ℤ)
    (r : SweepRecord ρ) : Prop where
  total : r.hits + r.miss = requestCount layers maxTokens
  rate : 0 < requestCount layers maxTokens →
    r.hitRate = R.div r.hits (requestCount layers maxTokens)
  miss_le : r.topKPred < r.capacity → (∀ l ∈ layers, TopK r.topKPred (l.topk r.topKPred)) →
    r.miss ≤ unpredictedCount layers maxTokens r.topKPred

theorem sweepConfig_sound (R : HitRates ρ) (order : ℕ → IterationOrder ℤ Unit)
    {layers : List (SweepLayer η)} (hl : ∀ l ∈ layers, Rectangular l.data) (maxTokens cap tk : ℤ) :
    ∃ r, sweepConfig R order layers maxTokens cap tk = some r ∧ r.capacity = cap ∧
      r.topKPred = tk ∧ Sound R layers maxTokens r := by
  obtain ⟨agg, hagg, htotal, hmiss⟩ := foldlM_sweepLayer maxTokens cap tk order hl 0 (0, 0)
  rw [Nat.zero_add, Nat.zero_add] at htotal
  obtain ⟨hr, hhr⟩ : ∃ hr, hr = if requestCount layers maxTokens = 0 then R.zero
      else R.div agg.1 (requestCount layers maxTokens) := ⟨_, rfl⟩
  refine ⟨⟨cap, tk, hr, R.oneSub hr, agg.1, agg.2⟩, ?_, rfl, rfl, htotal, fun hpos => ?_, ?_⟩
  · simp only [sweepConfig, hagg, Option.bind_eq_bind, Option.bind_some, htotal, ← hhr]
    rfl
  · exact hhr.trans (if_neg hpos.ne')
  · intro hcap hk
    exact (hmiss hcap hk).trans_eq (Nat.zero_add _)

/-- A configuration is high where the Oracle foresees enough of its requests. -/
theorem Sound.high {R : HitRates ρ} {layers : List (SweepLayer η)} {maxTokens : ℤ}
    {r : SweepRecord ρ} (h : Sound R layers maxTokens r) (hlt : r.topKPred < r.capacity)
    (hk : ∀ l ∈ layers, TopK r.topKPred (l.topk r.topKPred))
    (hpos : 0 < requestCount layers maxTokens)
    (hhigh : R.high (R.div
      (requestCount layers maxTokens - unpredictedCount layers maxTokens r.topKPred)
      (requestCount layers maxTokens))) : R.high r.hitRate := by
  have hhits : requestCount layers maxTokens - unpredictedCount layers maxTokens r.topKPred ≤
      r.hits := by
    have hmiss := h.miss_le hlt hk
    have htotal := h.total
    omega
  rw [h.rate hpos]
  exact R.high_mono hhits hhigh

/-- The running best is the first record of least capacity among the high ones. -/
theorem foldl_updateBest (R : HitRates ρ) (results : List (SweepRecord ρ)) :
    results.foldl (updateBest R) none =
      (results.filter fun r => R.high r.hitRate).argmin SweepRecord.capacity := by
  rw [List.argmin, List.foldl_filter]
  congr 1
  funext best r
  cases best <;> rfl

section Loops
variable {R : HitRates ρ} {order : ℕ → ℕ → IterationOrder ℤ Unit} {layers : List (SweepLayer η)}
  {maxTokens : ℤ}

/-- The records of some configurations, from number `n` on. -/
def numbered (record : ℕ → ℤ → ℤ → SweepRecord ρ) (n : ℕ) (configs : List (ℤ × ℤ)) :
    List (SweepRecord ρ) :=
  (configs.zipIdx n).map fun p => record p.2 p.1.1 p.1.2

variable {record : ℕ → ℤ → ℤ → SweepRecord ρ}

theorem length_numbered (n : ℕ) (configs : List (ℤ × ℤ)) :
    (numbered record n configs).length = configs.length := by
  rw [numbered, List.length_map, List.length_zipIdx]

theorem numbered_append (n : ℕ) (configs configs' : List (ℤ × ℤ)) :
    numbered record n (configs ++ configs') =
      numbered record n configs ++ numbered record (n + configs.length) configs' := by
  rw [numbered, List.zipIdx_append, List.map_append]
  rfl

/-- Every configuration has a record. -/
theorem exists_mem_numbered (record : ℕ → ℤ → ℤ → SweepRecord ρ) {p : ℤ × ℤ}
    {configs : List (ℤ × ℤ)} (h : p ∈ configs) (m : ℕ) :
    ∃ n, record n p.1 p.2 ∈ numbered record m configs := by
  rw [← List.zipIdx_map_fst m configs] at h
  obtain ⟨⟨p, n⟩, hp, rfl⟩ := List.mem_map.mp h
  exact ⟨n, List.mem_map.mpr ⟨(p, n), hp, rfl⟩⟩

/-- The loop over the prediction widths of one capacity. -/
theorem foldlM_topKPreds
    (h : ∀ n cap tk, sweepConfig R (order n) layers maxTokens cap tk = some (record n cap tk))
    (cap : ℤ) (topKPreds : List ℤ) (s : List (SweepRecord ρ) × Option (SweepRecord ρ)) :
    let new := numbered record s.1.length
      ((topKPreds.filter fun tk => tk ≤ cap).map fun tk => (cap, tk))
    topKPreds.foldlM (sweepStep R order layers maxTokens cap) s =
      some (s.1 ++ new, new.foldl (updateBest R) s.2) := by
  induction topKPreds generalizing s with
  | nil => simp [numbered]
  | cons tk topKPreds ih =>
    rw [List.foldlM_cons]
    by_cases hle : tk ≤ cap
    · rw [sweepStep, if_neg (not_lt.mpr hle), h]
      simp [ih, hle, numbered]
    · rw [sweepStep, if_pos (not_le.mp hle)]
      simp [ih, hle]

/-- The loop over the capacities. -/
theorem runSweep_eq
    (h : ∀ n cap tk, sweepConfig R (order n) layers maxTokens cap tk = some (record n cap tk))
    (capacities topKPreds : List ℤ) :
    let results := numbered record 0 (admissible capacities topKPreds)
    runSweep R order layers capacities topKPreds maxTokens =
      some (results, results.foldl (updateBest R) none) := by
  have hloop : ∀ s : List (SweepRecord ρ) × Option (SweepRecord ρ),
      capacities.foldlM (fun s cap =>
          topKPreds.foldlM (sweepStep R order layers maxTokens cap) s) s =
        some (s.1 ++ numbered record s.1.length (admissible capacities topKPreds),
          (numbered record s.1.length (admissible capacities topKPreds)).foldl
            (updateBest R) s.2) := by
    induction capacities with
    | nil => simp [admissible, numbered]
    | cons cap capacities ih =>
      intro s
      rw [List.foldlM_cons, foldlM_topKPreds h]
      simp only [Option.bind_eq_bind, Option.bind_some, ih, admissible, List.flatMap_cons,
        numbered_append, List.length_append, length_numbered, List.foldl_append, List.append_assoc]
  exact hloop ([], none)

end Loops

/-- The sweep over collected layers. Every admissible configuration is tested, in order, on the
same requests; the best one is the first of least capacity among those with a high hit rate.
Where the Oracle foresees a high share of the requests at a width below some capacity of the
sweep, the best configuration exists and needs no more than this capacity. -/
theorem runSweep_best {layers : List (SweepLayer η)}
    (hl : ∀ l ∈ layers, ∃ prompts, collectData prompts = some l.data) (R : HitRates ρ)
    (order : ℕ → ℕ → IterationOrder ℤ Unit) (capacities topKPreds : List ℤ) (maxTokens : ℤ) :
    ∃ results best,
      runSweep R order layers capacities topKPreds maxTokens = some (results, best) ∧
      results.map (fun r => (r.capacity, r.topKPred)) = admissible capacities topKPreds ∧
      (∀ r ∈ results, r.hits + r.miss = requestCount layers maxTokens) ∧
      best = (results.filter fun r => R.high r.hitRate).argmin SweepRecord.capacity ∧
      ∀ cap ∈ capacities, ∀ tk ∈ topKPreds, tk < cap → (∀ l ∈ layers, TopK tk (l.topk tk)) →
        0 < requestCount layers maxTokens →
        R.high (R.div (requestCount layers maxTokens - unpredictedCount layers maxTokens tk)
          (requestCount layers maxTokens)) →
        ∃ b, best = some b ∧ b.capacity ≤ cap := by
  have hrect : ∀ l ∈ layers, Rectangular l.data := by
    intro l hmem
    obtain ⟨prompts, hcollect⟩ := hl l hmem
    exact rectangular_of_collectData hcollect
  choose record hrecord hcapacity htopk hsound using
    fun n cap tk => sweepConfig_sound R (order n) hrect maxTokens cap tk
  refine ⟨_, _, runSweep_eq hrecord capacities topKPreds, ?_, ?_, foldl_updateBest R _, ?_⟩
  · simp only [numbered, List.map_map, Function.comp_def, hcapacity, htopk]
    exact List.zipIdx_map_fst _ _
  · intro r hr
    obtain ⟨p, -, rfl⟩ := List.mem_map.mp hr
    exact (hsound p.2 p.1.1 p.1.2).total
  · intro cap hcap tk htk hlt hk hpos hhigh
    have hmem : (cap, tk) ∈ admissible capacities topKPreds := by
      refine List.mem_flatMap.mpr ⟨cap, hcap, List.mem_map.mpr ⟨tk, ?_, rfl⟩⟩
      exact List.mem_filter.mpr ⟨htk, decide_eq_true hlt.le⟩
    obtain ⟨n, hn⟩ := exists_mem_numbered record hmem 0
    have hrate : R.high (record n cap tk).hitRate := by
      apply (hsound n cap tk).high
      · rwa [hcapacity, htopk]
      · rwa [htopk]
      · exact hpos
      · rwa [htopk]
    have hfound : record n cap tk ∈
        (numbered record 0 (admissible capacities topKPreds)).filter fun r => R.high r.hitRate :=
      List.mem_filter.mpr ⟨hn, hrate⟩
    rw [foldl_updateBest]
    cases hb : ((numbered record 0 (admissible capacities topKPreds)).filter
        fun r => R.high r.hitRate).argmin SweepRecord.capacity with
    | none =>
      rw [List.argmin_eq_none.mp hb] at hfound
      cases hfound
    | some b =>
      exact ⟨b, rfl, (List.le_of_mem_argmin hfound hb).trans_eq (hcapacity n cap tk)⟩

/-- A layer collected from five tokens with the same two experts; the Oracle names both. -/
def fiveTokens : SweepLayer Unit :=
  ⟨⟨[(), (), ()], [[2, 1], [1, 2], [1, 2]], [[1, 2], [1, 2], [2, 1]]⟩, fun _ _ => [1, 2]⟩

/-- Two capacities and one width: of the two high configurations the later one is smaller. -/
theorem runSweep_best_five :
    ∃ results best, runSweep .exact (fun _ _ => .newestFirst ℤ Unit) [fiveTokens] [3, 2] [2] 0 =
        some (results, best) ∧
      best = (results.filter fun r => HitRates.exact.high r.hitRate).argmin
        SweepRecord.capacity ∧ ∃ b, best = some b ∧ b.capacity ≤ 3 := by
  have hl : ∀ l ∈ [fiveTokens], ∃ prompts, collectData prompts = some l.data := by
    intro l hl
    rw [List.mem_singleton.mp hl]
    exact ⟨[([(), (), (), (), ()], [[1, 2], [2, 1], [1, 2], [1, 2], [2, 1]])], rfl⟩
  have hk : ∀ l ∈ [fiveTokens], TopK 2 (l.topk 2) := by
    intro l hl
    rw [List.mem_singleton.mp hl]
    exact ⟨fun _ => by simp [fiveTokens], fun _ => by simp [fiveTokens]⟩
  have hcount : requestCount [fiveTokens] 0 = 4 := by decide
  have hmissed : unpredictedCount [fiveTokens] 0 2 = 0 := by decide
  obtain ⟨results, best, hrun, -, -, hbest, hrecall⟩ :=
    runSweep_best hl .exact (fun _ _ => .newestFirst ℤ Unit) [3, 2] [2] 0
  refine ⟨results, best, hrun, hbest, hrecall 3 (by simp) 2 (by simp) (by decide) hk ?_ ?_⟩
  · rw [hcount]
    decide
  · rw [hcount, hmissed]
    norm_num [HitRates.exact]

end Dee.Replay
