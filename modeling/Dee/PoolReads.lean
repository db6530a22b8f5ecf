import Dee.PoolPipeline

/-! What the compute steps of the pipeline read. No two streams are ever busy at the same time,
so all copies and compute steps run in the order of issue: whatever the pace of the streams,
every compute step reads the weights of the experts that are resident when it is issued. -/
namespace Dee.Pipeline
open DeviceStreams GuardedRuns
variable {numExperts capacity : ℕ} {p p' : Pipeline} {e : ℤ} {onStream : StreamName}

/-! The streams -/

/-- Only this stream may still be busy. -/
def OnlyBusy (onStream : StreamName) (p : Pipeline) : Prop :=
  ∃ busy, fence none p.events = some busy ∧ (busy = none ∨ busy = some onStream)

def Quiet (p : Pipeline) : Prop := fence none p.events = some none

theorem Quiet.onlyBusy (h : Quiet p) (onStream : StreamName) : OnlyBusy onStream p :=
  ⟨none, h, Or.inl rfl⟩

theorem OnlyBusy.launches (h : OnlyBusy onStream p) (ws : List Work)
    (hevents : p'.events = p.events ++ ws.map (.launch onStream)) : OnlyBusy onStream p' := by
  induction ws using List.reverseRecOn generalizing p' with
  | nil =>
    rw [List.map_nil, List.append_nil] at hevents
    rwa [OnlyBusy, hevents]
  | append_singleton ws w ih =>
    rw [List.map_append, ← List.append_assoc] at hevents
    have hbefore : OnlyBusy onStream { p with events := p.events ++ ws.map (.launch onStream) } :=
      ih rfl
    obtain ⟨busy, hfence, hbusy⟩ := hbefore
    refine ⟨some onStream, ?_, Or.inr rfl⟩
    rw [hevents]
    exact fence_trans hfence (if_pos hbusy)

theorem OnlyBusy.sync (h : OnlyBusy onStream p) : Quiet (p.emit [.sync onStream]) := by
  obtain ⟨busy, hfence, hbusy⟩ := h
  refine fence_trans hfence ?_
  rcases hbusy with rfl | rfl
  · rfl
  · simp [fence]

theorem Quiet.sync (h : Quiet p) (onStream : StreamName) : Quiet (p.emit [.sync onStream]) :=
  (h.onlyBusy onStream).sync

theorem LoadsOne.onlyBusy (h : LoadsOne numExperts capacity onStream e p p')
    (hbusy : OnlyBusy onStream p) : OnlyBusy onStream p' :=
  hbusy.launches [.stage e.toNat, .move (p'.table.slotOf e).toNat] h.events

/-! The memory -/

section Memory
variable {V : Type*} {weights : ℕ → ℕ → V} {n : ℕ} {g₀ : Gpu V}

/-- The values of an expert on the host. -/
def expertRow (weights : ℕ → ℕ → V) (n : ℕ) (e : ℤ) : List V := (List.range n).map (weights e.toNat)

/-- The memory once the work issued so far has run. -/
def memory (weights : ℕ → ℕ → V) (n : ℕ) (g₀ : Gpu V) (p : Pipeline) : Gpu V :=
  memoryAfter weights n g₀ (issued p.events)

/-- The pool holds the residents, each in its slot, and every stack was one of their weights. -/
structure Serves (numExperts capacity : ℕ) (weights : ℕ → ℕ → V) (n : ℕ) (g₀ : Gpu V)
    (p : Pipeline) : Prop where
  lockstep : p.table.Lockstep capacity
  valid : ∀ e ∈ p.table.cache.vram.members, 0 ≤ e ∧ e < (numExperts : ℤ)
  pool : ∀ e ∈ p.table.cache.vram.members,
    poolRow (p.memory weights n g₀).pool n (p.table.slotOf e).toNat = expertRow weights n e
  blocks : (p.memory weights n g₀).blocks = p.served.map fun es => es.map (expertRow weights n)

/-- A copy into a row leaves the other rows as they are. -/
theorem poolRow_move (weights : ℕ → ℕ → V) (n row : ℕ) (g : Gpu V) (row' : ℕ) :
    poolRow ((Work.move row).effect weights n g).pool n row' =
      if row' = row then (List.range n).map g.stage else poolRow g.pool n row' := by
  simp only [poolRow, Work.effect]
  split_ifs with hrow
  · refine List.map_congr_left fun i hi => ?_
    have hlt := List.mem_range.mp hi
    rw [hrow, if_pos (by omega), Nat.add_sub_cancel_left]
  · refine List.map_congr_left fun i hi => ?_
    have hlt := List.mem_range.mp hi
    rw [if_neg]
    rintro ⟨hlo, hhi⟩
    rcases lt_or_gt_of_ne hrow with hless | hmore
    · have hmul := Nat.mul_le_mul_right n hless
      rw [Nat.succ_mul] at hmul
      omega
    · have hmul := Nat.mul_le_mul_right n hmore
      rw [Nat.succ_mul] at hmul
      omega

theorem LoadsOne.memory_eq (h : LoadsOne numExperts capacity onStream e p p') :
    p'.memory weights n g₀ = (Work.move (p'.table.slotOf e).toNat).effect weights n
      ((Work.stage e.toNat).effect weights n (p.memory weights n g₀)) := by
  rw [memory, h.events, issued_append, memoryAfter_append]
  rfl

/-- The step lemma of a load. -/
theorem Serves.load (h : Serves numExperts capacity weights n g₀ p)
    (hone : LoadsOne numExperts capacity onStream e p p') :
    Serves numExperts capacity weights n g₀ p' := by
  obtain ⟨victims, hloads⟩ := hone.loads
  have hrange : ∀ f ∈ p'.table.cache.vram.members, 0 ≤ p'.table.slotOf f := fun f hf =>
    (slotOf_range hone.lockstep hf).1
  refine ⟨hone.lockstep, fun f hf => ?_, fun f hf => ?_, ?_⟩
  · rcases (hloads.mem f).mp hf with rfl | ⟨hold, -⟩
    · exact hone.valid
    · exact h.valid f hold
  · rw [hone.memory_eq, poolRow_move]
    rcases (hloads.mem f).mp hf with rfl | ⟨hold, hstay⟩
    · rw [if_pos rfl]
      refine List.map_congr_left fun i hi => ?_
      exact if_pos (List.mem_range.mp hi)
    · have hne : f ≠ e := by
        rintro rfl
        exact hone.missing hold
      have hrow : (p'.table.slotOf f).toNat ≠ (p'.table.slotOf e).toNat := by
        intro heq
        refine hne (hone.lockstep.agrees.slots_inj f hf e hone.mem ?_)
        have hf' := hrange f hf
        have he' := hrange e hone.mem
        omega
      rw [if_neg hrow, hloads.slots f hne hstay]
      exact h.pool f hold
  · rw [hone.memory_eq, hone.served]
    exact h.blocks

/-- What is issued without a copy leaves the pool and the stacks as they are. -/
theorem Serves.of_memory (h : Serves numExperts capacity weights n g₀ p)
    (hlock : p'.table.Lockstep capacity) (hvram : p'.table.cache.vram = p.table.cache.vram)
    (hslot : p'.table.slotOf = p.table.slotOf) (hserved : p'.served = p.served)
    (hmemory : p'.memory weights n g₀ = p.memory weights n g₀) :
    Serves numExperts capacity weights n g₀ p' := by
  refine ⟨hlock, ?_, ?_, ?_⟩
  · rw [hvram]
    exact h.valid
  · rw [hvram, hslot, hmemory]
    exact h.pool
  · rw [hmemory, hserved]
    exact h.blocks

theorem Serves.sync (h : Serves numExperts capacity weights n g₀ p) (onStream : StreamName) :
    Serves numExperts capacity weights n g₀ (p.emit [.sync onStream]) := by
  refine h.of_memory h.lockstep rfl rfl rfl ?_
  rw [memory, emit, issued_append, memoryAfter_append]
  rfl

theorem Serves.predict (h : Serves numExperts capacity weights n g₀ p) (predTopk : List ℤ) :
    Serves numExperts capacity weights n g₀ (p.predict predTopk) := by
  refine h.of_memory ⟨h.lockstep.capacity_eq, h.lockstep.resident_iff, h.lockstep.shared⟩ rfl rfl
    rfl ?_
  rw [memory, Pipeline.predict, emit, issued_append, memoryAfter_append]
  rfl

/-- A loop of turns on a stream that is free for it. -/
theorem Serves.turns (h : Serves numExperts capacity weights n g₀ p)
    (hbusy : OnlyBusy onStream p) {turn : Pipeline → ℤ → Except PipelineError Pipeline}
    (hturn : Turns numExperts capacity onStream turn) {es : List ℤ}
    (hvalid : ∀ e ∈ es, 0 ≤ e ∧ e < (numExperts : ℤ)) :
    ∃ p', es.foldlM turn p = .ok p' ∧ Serves numExperts capacity weights n g₀ p' ∧
      OnlyBusy onStream p' :=
  hturn.foldlM (P := fun _ p => Serves numExperts capacity weights n g₀ p ∧ OnlyBusy onStream p)
    hvalid (fun _ _ hP => hP.1.lockstep) (fun _ _ _ _ _ hP => hP)
    (fun _ _ _ _ _ hone hP => ⟨hP.1.load hone, hone.onlyBusy hP.2⟩) ⟨h, hbusy⟩

/-- The step lemma of the compute step: it reads the weights of the residents. -/
theorem Serves.compute (h : Serves numExperts capacity weights n g₀ p) (hbusy : OnlyBusy .main p) :
    ∃ p', p.compute numExperts capacity = .ok p' ∧ Serves numExperts capacity weights n g₀ p' ∧
      OnlyBusy .main p' := by
  refine ⟨_, compute_eq h.lockstep h.valid, ?_⟩
  split_ifs
  · exact ⟨h, hbusy⟩
  · refine ⟨⟨h.lockstep, h.valid, ?_, ?_⟩, hbusy.launches [.stack _] rfl⟩
    · intro e he
      rw [memory, emit, issued_append, memoryAfter_append]
      exact h.pool e he
    · have hrows : ((p.residents numExperts).map fun e => (p.table.slotOf e).toNat).map
          (poolRow (p.memory weights n g₀).pool n) =
          (p.residents numExperts).map (expertRow weights n) := by
        rw [List.map_map]
        exact List.map_congr_left fun e he =>
          h.pool e ((mem_residents h.lockstep h.valid).mp he)
      rw [memory, emit, issued_append, memoryAfter_append]
      dsimp only
      rw [List.map_append, ← h.blocks, List.map_singleton, ← hrows]
      rfl

theorem OnlyBusy.predict (h : OnlyBusy .main p) (predTopk : List ℤ) :
    Quiet (p.predict predTopk) := by
  obtain ⟨busy, hfence, hbusy⟩ := h
  refine fence_trans hfence ?_
  rcases hbusy with rfl | rfl
  · rfl
  · rfl

/-- The prefetch leaves no stream busy. -/
theorem Serves.prefetchAll (h : Serves numExperts capacity weights n g₀ p) (hquiet : Quiet p)
    (hpos : 1 ≤ capacity) {predTopk : List ℤ}
    (hvalid : ∀ e ∈ predTopk, 0 ≤ e ∧ e < (numExperts : ℤ)) (token : ℤ) :
    ∃ p', p.prefetchAll numExperts capacity predTopk token = .ok p' ∧
      Serves numExperts capacity weights n g₀ p' ∧ Quiet p' := by
  unfold Pipeline.prefetchAll
  generalize hmissing : predTopk.filter (fun e => e ∉ p.table.cache.vram.members) = missing
  have hsub : ∀ e ∈ missing, 0 ≤ e ∧ e < (numExperts : ℤ) := by
    rw [← hmissing]
    exact fun e he => hvalid e (List.mem_filter.mp he).1
  obtain ⟨p', hp', hserves, hbusy⟩ := h.turns (hquiet.onlyBusy .prefetch)
    (turns_prefetchMissing hpos token) hsub
  refine ⟨_, by dsimp only; rw [hp']; rfl, ?_⟩
  split_ifs with hnil
  · subst hnil
    cases hp'
    exact ⟨h.sync .main, hquiet.sync .main⟩
  · exact ⟨(hserves.sync .prefetch).sync .main, hbusy.sync.sync .main⟩

/-- The step lemma: a token is served without an error. -/
theorem Serves.serveToken (h : Serves numExperts capacity weights n g₀ p)
    (hbusy : OnlyBusy .main p) (hpos : 1 ≤ capacity) {predTopk : List ℤ}
    (hvalid : ∀ e ∈ predTopk, 0 ≤ e ∧ e < (numExperts : ℤ)) (t : ℕ) :
    ∃ p', p.serveToken numExperts capacity predTopk t = .ok p' ∧
      Serves numExperts capacity weights n g₀ p' ∧ OnlyBusy .main p' := by
  obtain ⟨p₁, h₁, hserves₁, hquiet₁⟩ := (h.predict predTopk).prefetchAll
    (hbusy.predict predTopk) hpos hvalid t
  obtain ⟨p₂, h₂, hserves₂, hbusy₂⟩ := hserves₁.turns (hquiet₁.onlyBusy .main)
    (turns_request hpos (t + 1)) hvalid
  obtain ⟨p₃, h₃, hserves₃, hbusy₃⟩ := hserves₂.compute hbusy₂
  refine ⟨p₃, ?_, hserves₃, hbusy₃⟩
  rw [Pipeline.serveToken, h₁]
  show (do let p ← predTopk.foldlM _ p₁; p.compute numExperts capacity) = _
  rw [h₂]
  exact h₃

theorem serves_init (order : IterationOrder ℤ Unit) (topKPred : ℤ) (hblocks : g₀.blocks = []) :
    Serves numExperts capacity weights n g₀ (init numExperts capacity order topKPred) := by
  have hnone : ∀ e, e ∉ (init numExperts capacity order topKPred).table.cache.vram.members := by
    intro e
    simp [init, SlotTable.init, ExpertCache.init, UnorderedSet.members, UnorderedMap.empty]
  exact ⟨SlotTable.init_lockstep order capacity numExperts topKPred, fun e he => (hnone e he).elim,
    fun e he => (hnone e he).elim, hblocks⟩

/-- Whatever the pace of the streams and the order of the programs of the copy kernel, no access
fails and the compute steps read the weights of the experts that were resident when they were
issued; the device is never stuck, and in the end every step has run. -/
theorem run_reads_residents (order : IterationOrder ℤ Unit) (hpos : 1 ≤ capacity) (topKPred : ℤ)
    {preds : List (List ℤ)} (hvalid : ∀ pred ∈ preds, ∀ e ∈ pred, 0 ≤ e ∧ e < (numExperts : ℤ))
    (weights : ℕ → ℕ → V) (hn : n + 1023 < 2 ^ 31) (hblocks : g₀.blocks = []) :
    ∃ p, runTritonPrefetch numExperts capacity order topKPred preds = .ok p ∧
      ∀ m, Reachable (Exec weights n) (start p.events g₀) m →
        m.memory.blocks <+: p.served.map (fun es => es.map (expertRow weights n)) ∧
        (Finished m → m.memory.blocks = p.served.map fun es => es.map (expertRow weights n)) ∧
        (¬ Finished m → ∃ m', Step (Exec weights n) m m') := by
  have hstep : ∀ (pre : List (List ℤ × ℕ)) p, ∀ x ∈ preds.zipIdx,
      Serves numExperts capacity weights n g₀ p ∧ OnlyBusy .main p →
      ∃ p', p.serveToken numExperts capacity x.1 x.2 = .ok p' ∧
        Serves numExperts capacity weights n g₀ p' ∧ OnlyBusy .main p' := by
    intro pre p x hx hP
    exact hP.1.serveToken hP.2 hpos (hvalid x.1 (List.fst_mem_of_mem_zipIdx hx)) x.2
  obtain ⟨p, hp, hserves, last, hfence, -⟩ := foldlM_ok_prefix hstep []
    ⟨serves_init order topKPred hblocks, none, rfl, Or.inl rfl⟩
  refine ⟨p, hp, fun m hm => ?_⟩
  obtain ⟨done, rest, hissued, hruns, hfinished⟩ := runs_of_reachable hfence hm
  have hall : (memoryAfter weights n m.memory rest).blocks =
      p.served.map fun es => es.map (expertRow weights n) := by
    rw [← hserves.blocks, memory, hissued, memoryAfter_append, ← runs_memoryAfter hn hruns]
  refine ⟨?_, fun hfin => ?_, exists_step (exec_total weights n)⟩
  · rw [← hall]
    exact blocks_prefix weights n m.memory rest
  · rw [hfinished hfin] at hall
    exact hall

/-- Two slots and three experts: the second token needs an eviction. -/
theorem run_reads_residents_two :
    ∃ p, runTritonPrefetch 3 2 (.newestFirst ℤ Unit) 2 [[0, 1], [2, 1]] = .ok p ∧
      ∀ m, Reachable (Exec (fun e i => 10 * e + i) 4) (start p.events ⟨id, id, []⟩) m →
        m.memory.blocks <+: p.served.map (fun es => es.map (expertRow (fun e i => 10 * e + i) 4)) ∧
        (Finished m → m.memory.blocks =
          p.served.map fun es => es.map (expertRow (fun e i => 10 * e + i) 4)) ∧
        (¬ Finished m → ∃ m', Step (Exec (fun e i => 10 * e + i) 4) m m') :=
  run_reads_residents _ (by decide) 2 (by decide) _ (by decide) rfl

end Memory

end Dee.Pipeline
