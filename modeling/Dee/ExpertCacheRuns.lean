import Dee.ExpertCache

/-! The bookkeeping of the simulated pool over whole runs: the log of operations, the load
counts and the times of last use all agree with the set of residents. -/
namespace Dee.ExpertCache
open GuardedRuns
variable {α : Type*} [DecidableEq α]

/-- The effect of a log entry on the set of residents. -/
def applyOp (s : Finset α) (op : AsyncOp α) : Finset α :=
  match op.kind with
  | .evict => s.erase op.expert
  | _ => insert op.expert s

/-- The set of residents that a log describes. -/
def replay (ops : List (AsyncOp α)) : Finset α := ops.foldl applyOp ∅

omit [DecidableEq α] in
/-- The number of `evict` entries. -/
def evictions (ops : List (AsyncOp α)) : ℕ := (ops.filter fun op => op.kind = .evict).length

theorem replay_append (ops : List (AsyncOp α)) (op : AsyncOp α) :
    replay (ops ++ [op]) = applyOp (replay ops) op := by
  simp [replay, List.foldl_append]

omit [DecidableEq α] in
theorem evictions_append (ops : List (AsyncOp α)) (op : AsyncOp α) :
    evictions (ops ++ [op]) = evictions ops + if op.kind = .evict then 1 else 0 := by
  by_cases h : op.kind = .evict <;> simp [evictions, List.filter_append, h]

structure Bookkept (c : ExpertCache α) : Prop where
  capacity_pos : 1 ≤ c.capacity
  length_le : (c.vram.members.length : ℤ) ≤ c.capacity
  replayed : replay c.asyncOps = c.vram.members.toFinset
  balance : c.stats.totalLoads = c.vram.members.length + evictions c.asyncOps
  used : ∀ e ∈ c.vram.members, (c.lastUsed.find? e).isSome

theorem Bookkept.evict {c : ExpertCache α} (h : c.Bookkept) (token : ℤ) :
    (c.evict token).2.Bookkept := by
  rcases c.evict_cases token with ⟨-, he⟩ | ⟨v, hv, -, he⟩
  · rw [he]
    exact h
  · have hlen := UnorderedSet.length_discard hv
    rw [he]
    constructor
    · exact h.capacity_pos
    · have := h.length_le
      simp only [log]
      omega
    · simp only [log, replay_append, applyOp, h.replayed]
      ext e
      simp [and_comm]
    · have hbal := h.balance
      simp only [stats, log, evictions_append, if_true] at hbal ⊢
      omega
    · exact fun e he' => h.used e (UnorderedSet.mem_discard.mp he').1

/-- After the capacity test there is room for one more expert. -/
theorem Bookkept.makeRoom {c : ExpertCache α} (h : c.Bookkept) (token : ℤ) :
    (c.makeRoom token).Bookkept ∧ ((c.makeRoom token).vram.members.length : ℤ) < c.capacity := by
  rcases c.makeRoom_cases token with ⟨hlt, he⟩ | ⟨hfull, he⟩
  · rw [he]
    exact ⟨h, hlt⟩
  · rw [he]
    refine ⟨h.evict token, ?_⟩
    rcases c.evict_cases token with ⟨hnil, -⟩ | ⟨v, hv, -, hev⟩
    · have := h.capacity_pos
      rw [hnil, List.length_nil] at hfull
      omega
    · have hlen := UnorderedSet.length_discard hv
      have := h.length_le
      rw [hev]
      simp only [log]
      omega

theorem makeRoom_capacity (c : ExpertCache α) (token : ℤ) :
    (c.makeRoom token).capacity = c.capacity :=
  congrArg Prod.fst (c.config_makeRoom token)

/-- A load of a missing expert, with its log entry. -/
theorem Bookkept.loaded {c c' : ExpertCache α} (h : c.Bookkept) {e : α} (token : ℤ) (kind : OpKind)
    (hno : e ∉ c.vram.members) (hroom : (c.vram.members.length : ℤ) < c.capacity)
    (hkind : kind ≠ .evict) (hcap : c'.capacity = c.capacity) (hvram : c'.vram = c.vram.add e)
    (hload : c'.loadCount = (c.load e).loadCount) (huse : c'.lastUsed = c.lastUsed.assign e token)
    (hops : c'.asyncOps = c.asyncOps ++ [⟨kind, e, token⟩]) : c'.Bookkept := by
  have hlen := UnorderedSet.length_add hno
  constructor
  · rw [hcap]
    exact h.capacity_pos
  · rw [hcap, hvram]
    omega
  · rw [hops, hvram, replay_append, h.replayed]
    ext f
    cases kind with
    | evict => exact absurd rfl hkind
    | prefetch => simp [applyOp]
    | fetchOnMiss => simp [applyOp]
  · have hbal := h.balance
    simp only [stats] at hbal ⊢
    rw [hload, hvram, hops, evictions_append, if_neg hkind, load, UnorderedMap.sum_assign_succ]
    omega
  · intro f hf
    rw [hvram, UnorderedSet.mem_add] at hf
    rw [huse, UnorderedMap.find?_set]
    split_ifs with hfe
    · rfl
    · exact h.used f (hf.resolve_left hfe)

/-- A use of a resident expert, with or without a log entry for a load. -/
theorem Bookkept.used_again {c c' : ExpertCache α} (h : c.Bookkept) (e : α) (token : ℤ)
    (hcap : c'.capacity = c.capacity) (hvram : c'.vram = c.vram)
    (hload : c'.loadCount = c.loadCount) (huse : c'.lastUsed = c.lastUsed.assign e token)
    (hops : c'.asyncOps = c.asyncOps ∨
      c'.asyncOps = c.asyncOps ++ [⟨.prefetch, e, token⟩] ∧ e ∈ c.vram.members) : c'.Bookkept := by
  constructor
  · rw [hcap]
    exact h.capacity_pos
  · rw [hcap, hvram]
    exact h.length_le
  · rcases hops with hops | ⟨hops, he⟩
    · rw [hops, hvram, h.replayed]
    · rw [hops, hvram, replay_append, h.replayed]
      ext f
      simp only [applyOp, Finset.mem_insert, List.mem_toFinset, or_iff_right_iff_imp]
      rintro rfl
      exact he
  · have hbal := h.balance
    simp only [stats] at hbal ⊢
    rcases hops with hops | ⟨hops, -⟩
    · rw [hload, hvram, hops, hbal]
    · rw [hload, hvram, hops, hbal, evictions_append, if_neg (by simp)]
      rfl
  · intro f hf
    rw [hvram] at hf
    rw [huse, UnorderedMap.find?_set]
    split_ifs with hfe
    · rfl
    · exact h.used f hf

theorem Bookkept.advance {c : ExpertCache α} (h : c.Bookkept) : c.advance.Bookkept :=
  ⟨h.capacity_pos, h.length_le, h.replayed, h.balance, h.used⟩

theorem Bookkept.prefetchMissing {c : ExpertCache α} (h : c.Bookkept) {e : α} {token : ℤ}
    (hno : e ∉ c.vram.members) : (prefetchMissing token c e).Bookkept := by
  obtain ⟨hroom, hlt⟩ := h.advance.makeRoom token
  exact hroom.loaded token .prefetch (fun he => hno (mem_makeRoom he))
    (by rwa [makeRoom_capacity]) (by simp) rfl rfl rfl rfl rfl

theorem Bookkept.prefetch {c : ExpertCache α} (h : c.Bookkept) (e : α) (token : ℤ) :
    (c.prefetch e token).Bookkept := by
  by_cases he : e ∈ c.vram.members
  · rw [prefetch_of_mem token he]
    exact h.used_again e token rfl rfl rfl rfl (Or.inr ⟨rfl, he⟩)
  · rw [prefetch_of_not_mem token he]
    exact h.prefetchMissing he

/-- The loop of `prefetch_delta`: each missing expert is still missing when its turn comes. -/
theorem Bookkept.prefetchAll {c : ExpertCache α} (h : c.Bookkept) {missing : List α} {token : ℤ}
    (hnd : missing.Nodup) (hno : ∀ e ∈ missing, e ∉ c.vram.members) :
    (missing.foldl (ExpertCache.prefetchMissing token) c).Bookkept := by
  induction missing generalizing c with
  | nil => exact h
  | cons e missing ih =>
    obtain ⟨he, hnd⟩ := List.nodup_cons.mp hnd
    obtain ⟨hno₁, hno⟩ := List.forall_mem_cons.mp hno
    refine ih (h.prefetchMissing hno₁) hnd fun f hf => ?_
    have hne : f ≠ e := fun hfe => he (hfe ▸ hf)
    exact not_mem_prefetchMissing hne (hno f hf)

theorem Bookkept.prefetchDelta {c : ExpertCache α} (h : c.Bookkept) {ids : List α}
    (hnd : ids.Nodup) (token : ℤ) : (c.prefetchDelta ids token).2.Bookkept :=
  h.prefetchAll (hnd.filter _) fun _ he => of_decide_eq_true (List.mem_filter.mp he).2

theorem Bookkept.requestExpert {c : ExpertCache α} (h : c.Bookkept) (e : α) (token : ℤ) :
    (c.requestExpert e token).2.Bookkept := by
  rcases c.requestExpert_cases e token with ⟨he, hr⟩ | ⟨he, hr⟩
  · rw [hr]
    exact h.used_again e token rfl rfl rfl rfl (Or.inl rfl)
  · obtain ⟨hroom, hlt⟩ := h.advance.makeRoom token
    rw [hr]
    exact hroom.loaded token .fetchOnMiss (fun hm => he (mem_makeRoom hm))
      (by rwa [makeRoom_capacity]) (by simp) rfl rfl rfl rfl rfl

/-- A prediction lists every expert once. -/
def Op.Distinct : Op α → Prop
  | .prefetchDelta ids _ => ids.Nodup
  | _ => True

/-- The step lemma of the bookkeeping. -/
theorem Bookkept.step {c : ExpertCache α} (h : c.Bookkept) {op : Op α} (hop : op.Distinct) :
    (c.step op).Bookkept := by
  cases op with
  | setLookaheadRanked ids => exact ⟨h.capacity_pos, h.length_le, h.replayed, h.balance, h.used⟩
  | prefetch e t => exact h.prefetch e t
  | prefetchDelta ids t => exact h.prefetchDelta hop t
  | requestExpert e t => exact h.requestExpert e t
  | evict t => exact h.evict t

theorem init_bookkept (order : IterationOrder α Unit) {capacity topKPred : ℤ}
    (hcap : 1 ≤ capacity) : (init order capacity topKPred).Bookkept where
  capacity_pos := hcap
  length_le := by
    have : (1 : ℤ) ≤ (init order capacity topKPred).capacity := hcap
    simp only [init, UnorderedSet.members, UnorderedMap.empty, List.map_nil, List.length_nil]
    omega
  replayed := rfl
  balance := rfl
  used := by simp [init, UnorderedSet.members, UnorderedMap.empty]

/-- Over every run: the capacity is kept, the log describes the residents, the load counts
balance, every resident has been used, and a request hits exactly the residents. -/
theorem run_bookkeeping (order : IterationOrder α Unit) {capacity topKPred : ℤ}
    (hcap : 1 ≤ capacity) (ops : List (Op α)) (hops : ∀ op ∈ ops, op.Distinct) :
    let c := run step (init order capacity topKPred) ops
    (c.vram.members.length : ℤ) ≤ capacity ∧
      replay c.asyncOps = c.vram.members.toFinset ∧
      (c.stats.totalLoads : ℤ) - evictions c.asyncOps = c.vram.members.length ∧
      (∀ e ∈ c.vram.members, (c.lastUsed.find? e).isSome) ∧
      ∀ e token, ((c.requestExpert e token).1 = true ↔ e ∈ c.vram.members) ∧
        e ∈ (c.requestExpert e token).2.vram.members := by
  intro c
  have hrun : c.Bookkept ∧ c.capacity = capacity :=
    invariant_run (P := fun c : ExpertCache α => c.Bookkept ∧ c.capacity = capacity)
      (fun c op hc hop => ⟨hc.1.step hop, (c.step_config op).1.trans hc.2⟩)
      ⟨init_bookkept order hcap, rfl⟩ (guarded_of_forall hops)
  obtain ⟨h, hcapacity⟩ := hrun
  refine ⟨hcapacity ▸ h.length_le, h.replayed, ?_, h.used, fun e token => ?_⟩
  · have := h.balance
    omega
  · rcases c.requestExpert_cases e token with ⟨he, hr⟩ | ⟨he, hr⟩
    · rw [hr]
      exact ⟨iff_of_true rfl he, he⟩
    · rw [hr]
      exact ⟨iff_of_false (by simp) he, UnorderedSet.mem_add.mpr (Or.inl rfl)⟩

/-- Two slots: a miss evicts the unpredicted expert and a delta prefetch loads the rest. -/
theorem run_bookkeeping_two_slots :
    let c := run step (init (.newestFirst ℤ Unit) 2 2)
      [.requestExpert 1 0, .requestExpert 2 1, .setLookaheadRanked [1, 4], .requestExpert 3 2,
        .prefetchDelta [1, 4] 3]
    replay c.asyncOps = c.vram.members.toFinset ∧ (c.requestExpert 4 5).1 = true := by
  have h := @run_bookkeeping ℤ _ (.newestFirst ℤ Unit) 2 2 (by decide)
    [.requestExpert 1 0, .requestExpert 2 1, .setLookaheadRanked [1, 4], .requestExpert 3 2,
      .prefetchDelta [1, 4] 3] (by simp [Op.Distinct])
  exact ⟨h.2.1, (h.2.2.2.2 4 5).1.mpr (by decide)⟩

end Dee.ExpertCache
