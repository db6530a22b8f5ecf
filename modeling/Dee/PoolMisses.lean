import Dee.PoolPipeline

/-! The counters of the pipeline. When a whole prediction fits into the pool, its members are
loaded at the cost of unpredicted experts only, so a served token never misses. -/
namespace Dee.Pipeline
open DeviceStreams GuardedRuns
variable {numExperts capacity : ℕ} {p p' : Pipeline} {e : ℤ}

/-- The number of copies to the staging buffer. -/
def loads (p : Pipeline) : ℕ := (issued p.events).countP Work.isStage

/-- The counters and the residents after the experts `seen` were predicted. -/
structure Accounts (numExperts capacity : ℕ) (topKPred : ℤ) (seen : List ℤ) (p : Pipeline) :
    Prop where
  lockstep : p.table.Lockstep capacity
  valid : ∀ e ∈ p.table.cache.vram.members, 0 ≤ e ∧ e < (numExperts : ℤ)
  width : p.table.cache.topKPred = topKPred
  misses : p.missesTotal = 0
  mem_seen : ∀ e ∈ p.table.cache.vram.members, e ∈ seen
  full : p.table.cache.vram.members.length = capacity ∨ ∀ e ∈ seen, e ∈ p.table.cache.vram.members
  loads : p.loads = p.table.evictionsTotal + p.table.cache.vram.members.length

variable {topKPred : ℤ} {seen pred : List ℤ}

theorem loads_emit (p : Pipeline) (es : List (Event StreamName Work)) :
    (p.emit es).loads = p.loads + (issued es).countP Work.isStage := by
  rw [loads, emit, issued_append, List.countP_append]
  rfl

/-- What loads nothing leaves the counters and the residents as they are. -/
theorem Accounts.of_vram (h : Accounts numExperts capacity topKPred seen p)
    (hlock : p'.table.Lockstep capacity) (hvram : p'.table.cache.vram = p.table.cache.vram)
    (hwidth : p'.table.cache.topKPred = p.table.cache.topKPred)
    (hevictions : p'.table.evictionsTotal = p.table.evictionsTotal)
    (hmisses : p'.missesTotal = p.missesTotal) (hloads : p'.loads = p.loads) :
    Accounts numExperts capacity topKPred seen p' := by
  refine ⟨hlock, ?_, hwidth.trans h.width, hmisses.trans h.misses, ?_, ?_, ?_⟩
  · rw [hvram]
    exact h.valid
  · rw [hvram]
    exact h.mem_seen
  · rw [hvram]
    exact h.full
  · rw [hloads, hevictions, hvram]
    exact h.loads

/-- The step lemma of a prefetch. -/
theorem Accounts.load (h : Accounts numExperts capacity topKPred seen p)
    (hone : LoadsOne numExperts capacity .prefetch e p p') :
    Accounts numExperts capacity topKPred (seen ++ [e]) p' := by
  obtain ⟨victims, hloads⟩ := hone.loads
  have hlen := hloads.length_eq hone.missing
  have hcount : p'.loads = p.loads + 1 := by
    rw [Pipeline.loads, hone.events, issued_append, List.countP_append]
    rfl
  refine ⟨hone.lockstep, fun f hf => ?_, ?_, ?_, fun f hf => ?_, ?_, ?_⟩
  · rcases (hloads.mem f).mp hf with rfl | ⟨hold, -⟩
    · exact hone.valid
    · exact h.valid f hold
  · exact (congrArg (fun c => c.2.1) hloads.config).trans h.width
  · rw [hone.misses, h.misses]
    rfl
  · rcases (hloads.mem f).mp hf with rfl | ⟨hold, -⟩
    · exact List.mem_append_right _ (List.mem_singleton_self _)
    · exact List.mem_append_left _ (h.mem_seen f hold)
  · rcases hloads.victim with ⟨hfree, rfl⟩ | ⟨hfree, v, hv, rfl, -⟩
    · -- a free slot: the cache is not full, so nothing was ever evicted
      have hroom := h.lockstep.length_add
      have hpos := List.length_pos_of_ne_nil hfree
      have hall := h.full.resolve_left (by omega)
      refine Or.inr fun f hf => (hloads.mem f).mpr ?_
      rcases List.mem_append.mp hf with hf | hf
      · exact Or.inr ⟨hall f hf, List.not_mem_nil⟩
      · exact Or.inl (List.mem_singleton.mp hf)
    · have hfull := h.lockstep.length_add
      rw [hfree] at hfull
      simp only [List.length_nil, List.length_singleton] at hfull hlen
      exact Or.inl (by omega)
  · rw [hcount, h.loads, hloads.evictions]
    omega

/-- During the prefetch of a prediction: what was resident of it stays, and what was loaded. -/
structure Prefetched (numExperts capacity : ℕ) (topKPred : ℤ) (seen pred : List ℤ) (p₀ : Pipeline)
    (pre : List ℤ) (p : Pipeline) : Prop where
  accounts : Accounts numExperts capacity topKPred (seen ++ pre) p
  ranks : p.table.cache.Ranks pred
  kept : ∀ f ∈ pred, f ∈ p₀.table.cache.vram.members ∨ f ∈ pre → f ∈ p.table.cache.vram.members
  served : p.served = p₀.served

theorem Prefetched.load {p₀ : Pipeline} {pre : List ℤ}
    (h : Prefetched numExperts capacity topKPred seen pred p₀ pre p)
    (hfits : pred.length ≤ capacity) (he : e ∈ pred)
    (hone : LoadsOne numExperts capacity .prefetch e p p') :
    Prefetched numExperts capacity topKPred seen pred p₀ (pre ++ [e]) p' := by
  obtain ⟨victims, hloads⟩ := hone.loads
  have hspared := hloads.spares h.accounts.lockstep h.ranks hfits he hone.missing
  refine ⟨?_, h.ranks.of_config hloads.config, fun f hf hold => ?_, hone.served.trans h.served⟩
  · rw [← List.append_assoc]
    exact h.accounts.load hone
  · rw [List.mem_append, List.mem_singleton, ← or_assoc] at hold
    rw [hloads.mem]
    rcases hold with hold | rfl
    · exact Or.inr ⟨h.kept f hf hold, fun hv => hspared f hv hf⟩
    · exact Or.inl rfl

/-- The loop over the missing members of a prediction that fits. -/
theorem Prefetched.foldlM {p₀ : Pipeline} (hpos : 1 ≤ capacity) {es : List ℤ}
    (h : Prefetched numExperts capacity topKPred seen pred p₀ [] p) (hfits : pred.length ≤ capacity)
    (hpred : ∀ e ∈ pred, 0 ≤ e ∧ e < (numExperts : ℤ)) (hsub : ∀ e ∈ es, e ∈ pred) (token : ℤ) :
    ∃ p', es.foldlM (prefetchMissing numExperts capacity token) p = .ok p' ∧
      Prefetched numExperts capacity topKPred seen pred p₀ es p' := by
  refine (turns_prefetchMissing hpos token).foldlM (fun e he => hpred e (hsub e he))
    (fun pre p hP => hP.accounts.lockstep) (fun pre p e he hmem hP => ?_)
    (fun pre p p' e he hone hP => hP.load hfits (hsub e he) hone) h
  have hacc := hP.accounts
  refine ⟨⟨hacc.lockstep, hacc.valid, hacc.width, hacc.misses, fun f hf => ?_, ?_, hacc.loads⟩,
    hP.ranks, fun f hf hold => ?_, hP.served⟩
  · rw [← List.append_assoc]
    exact List.mem_append_left _ (hacc.mem_seen f hf)
  · refine hacc.full.imp_right fun hall f hf => ?_
    rw [← List.append_assoc, List.mem_append, List.mem_singleton] at hf
    rcases hf with hf | rfl
    · exact hall f hf
    · exact hmem
  · rw [List.mem_append, List.mem_singleton, ← or_assoc] at hold
    rcases hold with hold | rfl
    · exact hP.kept f hf hold
    · exact hmem

/-- Nothing is loaded for experts that are all resident. -/
theorem foldlM_request_of_mem {es : List ℤ} (h : ∀ e ∈ es, e ∈ p.table.cache.vram.members)
    (token : ℤ) : es.foldlM (request numExperts capacity token) p = .ok p := by
  induction es with
  | nil => rfl
  | cons e es ih =>
    obtain ⟨he, hes⟩ := List.forall_mem_cons.mp h
    rw [List.foldlM_cons, request, ensureResident_of_mem he]
    exact ih hes

/-- The prediction of a token: `top_k_pred` different experts. -/
structure TopK (numExperts : ℕ) (topKPred : ℤ) (pred : List ℤ) : Prop where
  length_eq : (pred.length : ℤ) = topKPred
  nodup : pred.Nodup
  valid : ∀ e ∈ pred, 0 ≤ e ∧ e < (numExperts : ℤ)

/-- The step lemma: a token whose prediction fits is served without a miss, and with all the
experts that were predicted for it. -/
theorem Accounts.serveToken (h : Accounts numExperts capacity topKPred seen p)
    (hk : 1 ≤ topKPred) (hfits : topKPred ≤ capacity) (hpred : TopK numExperts topKPred pred)
    (t : ℕ) : ∃ p' es, p.serveToken numExperts capacity pred t = .ok p' ∧
      Accounts numExperts capacity topKPred (seen ++ pred) p' ∧ p'.served = p.served ++ [es] ∧
      pred ⊆ es := by
  have hlen := hpred.length_eq
  have hpos : 1 ≤ capacity := by omega
  have hpredict : Accounts numExperts capacity topKPred seen (p.predict pred) :=
    h.of_vram ⟨h.lockstep.capacity_eq, h.lockstep.resident_iff, h.lockstep.shared⟩ rfl rfl rfl rfl
      (loads_emit _ _)
  have hstart : Prefetched numExperts capacity topKPred seen pred p [] (p.predict pred) := by
    refine ⟨by rwa [List.append_nil], ⟨hpred.nodup, hlen.trans_le h.width.ge, rfl⟩,
      fun f hf hold => ?_, rfl⟩
    exact hold.resolve_right List.not_mem_nil
  generalize hmissing : pred.filter (fun e => e ∉ p.table.cache.vram.members) = missing
  have hsub : ∀ e ∈ missing, e ∈ pred := by
    rw [← hmissing]
    exact fun e he => (List.mem_filter.mp he).1
  obtain ⟨p₁, hp₁, hdone⟩ := hstart.foldlM hpos (by omega) hpred.valid hsub t
  have hall : ∀ e ∈ pred, e ∈ p₁.table.cache.vram.members := by
    intro e he
    refine hdone.kept e he ?_
    by_cases hmem : e ∈ p.table.cache.vram.members
    · exact Or.inl hmem
    · rw [← hmissing]
      exact Or.inr (List.mem_filter.mpr ⟨he, decide_eq_true hmem⟩)
  have hacc : Accounts numExperts capacity topKPred (seen ++ pred) p₁ := by
    have hdone := hdone.accounts
    refine ⟨hdone.lockstep, hdone.valid, hdone.width, hdone.misses, fun e he => ?_, ?_, hdone.loads⟩
    · exact List.mem_append.mpr ((List.mem_append.mp (hdone.mem_seen e he)).imp_right (hsub e))
    · refine hdone.full.imp_right fun hold e he => ?_
      exact (List.mem_append.mp he).elim (fun he => hold e (List.mem_append_left _ he)) (hall e)
  obtain ⟨p₂, hp₂, htable, hserved, hmisses, hloads⟩ : ∃ p₂,
      (p.predict pred).prefetchAll numExperts capacity pred t = .ok p₂ ∧ p₂.table = p₁.table ∧
        p₂.served = p.served ∧ p₂.missesTotal = p₁.missesTotal ∧ p₂.loads = p₁.loads := by
    refine ⟨(if missing = [] then p₁ else p₁.emit [.sync .prefetch]).emit [.sync .main], ?_, ?_⟩
    · unfold prefetchAll
      have hsame : pred.filter (fun e => e ∉ (p.predict pred).table.cache.vram.members) = missing :=
        hmissing
      rw [hsame]
      dsimp only
      rw [hp₁]
      rfl
    · rw [loads_emit]
      split_ifs
      · exact ⟨rfl, hdone.served, rfl, rfl⟩
      · exact ⟨rfl, hdone.served, rfl, loads_emit _ _⟩
  have hacc₂ : Accounts numExperts capacity topKPred (seen ++ pred) p₂ :=
    hacc.of_vram (htable ▸ hacc.lockstep) (by rw [htable]) (by rw [htable]) (by rw [htable])
      hmisses hloads
  have hall₂ : ∀ e ∈ pred, e ∈ p₂.table.cache.vram.members := by rwa [htable]
  have hne : p₂.table.cache.vram.members ≠ [] := by
    obtain ⟨e, he⟩ := List.exists_mem_of_length_pos (show 0 < pred.length by omega)
    exact List.ne_nil_of_mem (hall₂ e he)
  refine ⟨{ p₂.emit [.launch .main (.stack ((p₂.residents numExperts).map
    fun e => (p₂.table.slotOf e).toNat))] with served := p₂.served ++ [p₂.residents numExperts] },
    p₂.residents numExperts, ?_, ?_, ?_, fun e he =>
      (mem_residents hacc₂.lockstep hacc₂.valid).mpr (hall₂ e he)⟩
  · rw [Pipeline.serveToken, hp₂]
    show (do let p ← pred.foldlM _ p₂; p.compute numExperts capacity) = _
    rw [foldlM_request_of_mem hall₂]
    show p₂.compute numExperts capacity = _
    rw [compute_eq hacc₂.lockstep hacc₂.valid, if_neg hne]
  · exact hacc₂.of_vram hacc₂.lockstep rfl rfl rfl rfl (loads_emit _ _)
  · rw [← hserved]

theorem accounts_init (order : IterationOrder ℤ Unit) (topKPred : ℤ) :
    Accounts numExperts capacity topKPred [] (init numExperts capacity order topKPred) := by
  have hnil : (init numExperts capacity order topKPred).table.cache.vram.members = [] := rfl
  have hnone : ∀ e, e ∉ (init numExperts capacity order topKPred).table.cache.vram.members := by
    rw [hnil]
    exact fun e => List.not_mem_nil
  refine ⟨SlotTable.init_lockstep order capacity numExperts topKPred, fun e he => (hnone e he).elim,
    rfl, rfl, fun e he => (hnone e he).elim, Or.inr (fun e he => (List.not_mem_nil he).elim), ?_⟩
  rw [hnil]
  rfl

/-- The residents are as many as were predicted so far, up to the capacity. -/
theorem Accounts.length_residents (h : Accounts numExperts capacity topKPred seen p) :
    p.table.cache.vram.members.length = min capacity seen.dedup.length := by
  have hle := h.lockstep.length_add
  have hsub : p.table.cache.vram.members ⊆ seen.dedup := fun e he =>
    List.mem_dedup.mpr (h.mem_seen e he)
  have hseen := (List.subperm_of_subset (UnorderedSet.members_nodup _) hsub).length_le
  rcases h.full with hfull | hall
  · omega
  · have hall' : seen.dedup ⊆ p.table.cache.vram.members := fun e he =>
      hall e (List.mem_dedup.mp he)
    have hback := (List.subperm_of_subset seen.nodup_dedup hall').length_le
    omega

/-- With a pool for a whole prediction no token ever misses, each stack holds all experts that
were predicted for its token, as many experts as possible stay resident, and each load is
resident in the end or was evicted once. -/
theorem run_never_misses (order : IterationOrder ℤ Unit) (hk : 1 ≤ topKPred)
    (hfits : topKPred ≤ capacity) {preds : List (List ℤ)}
    (hpreds : ∀ pred ∈ preds, TopK numExperts topKPred pred) :
    ∃ p, runTritonPrefetch numExperts capacity order topKPred preds = .ok p ∧ p.missesTotal = 0 ∧
      List.Forall₂ (fun pred es => pred ⊆ es) preds p.served ∧
      p.resident = min capacity preds.flatten.dedup.length ∧
      p.loads = p.table.evictionsTotal + p.resident := by
  have hstep : ∀ (pre : List (List ℤ × ℕ)) p, ∀ x ∈ preds.zipIdx,
      Accounts numExperts capacity topKPred (pre.map Prod.fst).flatten p ∧
        List.Forall₂ (fun pred es => pred ⊆ es) (pre.map Prod.fst) p.served →
      ∃ p', p.serveToken numExperts capacity x.1 x.2 = .ok p' ∧
        Accounts numExperts capacity topKPred ((pre ++ [x]).map Prod.fst).flatten p' ∧
        List.Forall₂ (fun pred es => pred ⊆ es) ((pre ++ [x]).map Prod.fst) p'.served := by
    intro pre p x hx hP
    obtain ⟨p', es, hp', hacc, hserved, hsub⟩ := hP.1.serveToken hk hfits
      (hpreds x.1 (List.fst_mem_of_mem_zipIdx hx)) x.2
    refine ⟨p', hp', by simpa using hacc, ?_⟩
    rw [List.map_append, List.map_singleton, hserved]
    exact List.rel_append hP.2 (.cons hsub .nil)
  obtain ⟨p, hp, hacc, hserved⟩ := foldlM_ok_prefix hstep [] ⟨accounts_init order topKPred, .nil⟩
  rw [List.nil_append, List.zipIdx_map_fst] at hacc hserved
  refine ⟨p, hp, hacc.misses, hserved, ?_, ?_⟩
  · rw [resident_eq hacc.lockstep, hacc.length_residents]
  · rw [resident_eq hacc.lockstep, hacc.loads]

theorem run_never_misses_two :
    ∃ p, runTritonPrefetch 3 2 (.newestFirst ℤ Unit) 2 [[0, 1], [2, 1]] = .ok p ∧
      p.missesTotal = 0 ∧ List.Forall₂ (fun pred es => pred ⊆ es) [[0, 1], [2, 1]] p.served ∧
      p.resident = min 2 [[0, 1], [2, 1]].flatten.dedup.length ∧
      p.loads = p.table.evictionsTotal + p.resident := by
  refine run_never_misses _ (by decide) (by decide) fun pred hpred => ?_
  rcases List.mem_pair.mp hpred with rfl | rfl
  · exact ⟨rfl, by decide, by decide⟩
  · exact ⟨rfl, by decide, by decide⟩

end Dee.Pipeline
