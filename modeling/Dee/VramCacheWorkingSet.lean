import Dee.VramCacheResidency

/-! A working set that fits the budget. As long as no `clear` returns blocks, the arena
stays a stack without holes, so nothing is ever evicted: an expert is loaded by its first
request, at an address that it keeps, and every later request finds it there. -/
namespace Dee.VramCacheManager
open GuardedRuns

/-- The experts that have a block. -/
def held (c : VramCacheManager) : Finset ExpertKey := (c.blocks.entries.map Prod.fst).toFinset

/-- The expert that an operation asks for. -/
def Op.request? : Op → Option ExpertKey
  | .ensure k _ _ => some k
  | .syncFallback k _ _ => some k
  | _ => none

/-- The experts that a run asks for. -/
def requested (ops : List Op) : Finset ExpertKey := (ops.filterMap Op.request?).toFinset

/-- The operations of a working set: experts of the set, each asked for in its own size. -/
def Op.Within (size : ExpertKey → ℕ) (experts : Finset ExpertKey) : Op → Prop
  | .ensure k n _ => k ∈ experts ∧ n = size k
  | .syncFallback k n _ => k ∈ experts ∧ n = size k
  | .touch _ => True
  | .clear => False

/-- Blocks of the table's sizes, stacked below the high-water mark. -/
structure Stacked (size : ExpertKey → ℕ) (c : VramCacheManager) : Prop extends Inv c where
  size_eq : ∀ e ∈ c.blocks.entries, e.2.size = size e.1
  no_holes : c.arena.holes = []
  evictions_eq : c.stats.evictions = 0

variable {size : ExpertKey → ℕ} {experts : Finset ExpertKey} {c : VramCacheManager}

theorem mem_held {k : ExpertKey} : k ∈ c.held ↔ ∃ b, (k, b) ∈ c.blocks.entries := by
  simp [held]

theorem MapInv.mem_held_iff (h : c.MapInv) {k : ExpertKey} : k ∈ c.held ↔ c.isResident k = true :=
  mem_held.trans h.isResident_iff.symm

theorem MapInv.not_mem_held (h : c.MapInv) {k : ExpertKey} (hk : c.isResident k = false) :
    k ∉ c.held := by
  rw [h.mem_held_iff, hk]
  exact Bool.false_ne_true

theorem card_held (c : VramCacheManager) : c.held.card = c.blocks.entries.length := by
  rw [held, List.toFinset_card_of_nodup c.blocks.keys_nodup, List.length_map]

theorem held_of_perm {c' : VramCacheManager} {e : ExpertKey × ExpertBlock}
    (h : c'.blocks.entries.Perm (e :: c.blocks.entries)) : c'.held = insert e.1 c.held := by
  rw [held, List.toFinset_eq_of_perm _ _ (h.map Prod.fst), List.map_cons, List.toFinset_cons, held]

/-- An update in place keeps the keys. -/
theorem held_modify {c' : VramCacheManager} (k : ExpertKey) (f : ExpertBlock → ExpertBlock)
    (h : c'.blocks = c.blocks.modify k f) : c'.held = c.held := by
  ext k'
  simp only [mem_held, h, UnorderedMap.mem_modify]
  exact ⟨fun ⟨_, b, hb, _⟩ => ⟨b, hb⟩, fun ⟨b, hb⟩ => ⟨_, b, hb, rfl⟩⟩

theorem requested_cons (op : Op) (ops : List Op) :
    requested (op :: ops) = (op.request?.toFinset) ∪ requested ops := by
  simp only [requested, List.filterMap_cons]
  cases op <;> simp [Op.request?]

theorem Stacked.used_eq (h : Stacked size c) : c.arena.used = ∑ k ∈ c.held, size k := by
  have hsizes : c.blocks.entries.map (fun e => e.2.size) =
      (c.blocks.entries.map Prod.fst).map size := by
    rw [List.map_map]
    exact List.map_congr_left fun e he => h.size_eq e he
  have hused : c.arena.used = (c.blocks.entries.map fun e => e.2.size).sum :=
    h.toInv.representation.used
  rw [hused, hsizes, held, List.sum_toFinset _ c.blocks.keys_nodup]

/-- Without holes the mark counts the bytes in use. -/
theorem Stacked.high_eq (h : Stacked size c) : c.arena.high = c.arena.used := by
  have hsum := h.tiled.tiling.sum
  rw [h.no_holes, Span.total_nil] at hsum
  rw [h.tiled.used_eq]
  omega

theorem Stacked.with_stats (h : Stacked size c) {st : CacheStats} (hst : st.evictions = 0) :
    Stacked size { c with stats := st } :=
  ⟨h.toInv.with_stats st, h.size_eq, h.no_holes, hst⟩

/-- An update that only renews the tick of a block. -/
theorem Stacked.renew {c' : VramCacheManager} (h : Stacked size c) {f : ExpertBlock → ExpertBlock}
    (hf : Renews c f) {k : ExpertKey} (hb : c'.blocks = c.blocks.modify k f)
    (ha : c'.arena = c.arena) (ht : c'.tick = c.tick + 1) (hev : c'.stats.evictions = 0) :
    Stacked size c' where
  toInv := h.toInv.renew hf hb ha ht
  size_eq := by
    intro e he
    obtain ⟨b, hm, -, -, -, hs, -⟩ := hf.entry (hb ▸ he)
    rw [hs]
    exact h.size_eq (e.1, b) hm
  no_holes := by rw [ha, h.no_holes]
  evictions_eq := hev

/-- A stacked arena gives a request that fits the place above the mark. -/
theorem Stacked.alloc (h : Stacked size c) {n : ℕ} (hn : 0 < n)
    (hfit : c.arena.used + n ≤ c.arena.cap) : c.arena.alloc n =
      (c.arena.high, { c.arena with
        high := szAdd c.arena.high n, used := szAdd c.arena.used n }) := by
  have hcap := h.tiled.cap_lt
  have hhigh := h.high_eq
  have hle : szAdd c.arena.high n ≤ c.arena.cap := by
    rw [szAdd_of_lt (by omega)]
    omega
  simp only [Arena.alloc, hn.ne', if_false, h.no_holes, Arena.firstFit, hle, if_true]

/-- A request of the working set that is not held yet is loaded, and evicts nothing. -/
theorem Stacked.load (h : Stacked size c) {k : ExpertKey} (hk : c.isResident k = false)
    (hpos : 0 < size k) (hfit : c.arena.used + size k ≤ c.arena.cap) (p : ℤ) :
    (c.ensure k (size k) p).1 = true ∧ Stacked size (c.ensure k (size k) p).2 ∧
      (c.ensure k (size k) p).2.held = insert k c.held := by
  have hfree : size k ≤ c.countEnsure.arena.freeSpace := by
    have hspace : c.countEnsure.arena.freeSpace = c.arena.cap - c.arena.used := by
      rw [h.tiled.used_eq]
      exact h.tiled.freeSpace_eq
    omega
  have hroom : c.makeRoom (size k) = c.countEnsure := evictUntilFree_eq_self (Or.inl hfree)
  have halloc := h.alloc hpos hfit
  have hcap := h.tiled.cap_lt
  have hhigh := h.high_eq
  have hne : c.arena.high ≠ npos := by
    simp only [npos]
    omega
  have hinv : (c.ensure k (size k) p).2.Inv := h.toInv.ensure (by omega)
  rcases ensure_cases c k (size k) p with ⟨hyes, -⟩ | ⟨-, hno, -⟩ | ⟨-, -, he⟩
  · rw [hk] at hyes
    cases hyes
  · rw [hroom] at hno
    exact absurd ((congrArg Prod.fst halloc).symm.trans hno) hne
  · have hblocks : (c.allocated (size k)).blocks = c.blocks := by
      rw [allocated_blocks, hroom]
      rfl
    have hnone : (c.allocated (size k)).blocks.find? k = none := h.toMapInv.find?_makeRoom hk _
    have hperm : ((c.allocated (size k)).place k ((c.makeRoom (size k)).arena.alloc (size k)).1
        (size k) p).blocks.entries.Perm ((k, (c.allocated (size k)).newBlock k
          ((c.makeRoom (size k)).arena.alloc (size k)).1 (size k) p) :: c.blocks.entries) := by
      rw [← hblocks]
      exact UnorderedMap.assign_perm hnone
    rw [he] at hinv ⊢
    refine ⟨rfl, ⟨hinv, ?_, ?_, ?_⟩, held_of_perm hperm⟩
    · intro e hmem
      rcases List.mem_cons.mp (hperm.mem_iff.mp hmem) with rfl | hold
      · rfl
      · exact h.size_eq e hold
    · have harena : (c.countEnsure.arena.alloc (size k)).2.holes = [] := by
        have hcount : c.countEnsure.arena = c.arena := rfl
        rw [hcount, halloc]
        exact h.no_holes
      simp only [place, allocated, hroom]
      exact harena
    · simp only [place, allocated_stats, hroom]
      exact h.evictions_eq

theorem Stacked.ensure (h : Stacked size c) (hpos : ∀ k ∈ experts, 0 < size k)
    (hfit : ∑ k ∈ experts, size k ≤ c.arena.cap) (hsub : c.held ⊆ experts) {k : ExpertKey}
    (hk : k ∈ experts) (p : ℤ) :
    (c.ensure k (size k) p).1 = true ∧ Stacked size (c.ensure k (size k) p).2 ∧
      (c.ensure k (size k) p).2.held = insert k c.held := by
  cases hres : c.isResident k with
  | true =>
    rcases ensure_cases c k (size k) p with ⟨-, he⟩ | ⟨hno, -⟩ | ⟨hno, -⟩
    · have hin : k ∈ c.held := h.toMapInv.mem_held_iff.mpr hres
      have hrenew := renews_refresh c.countEnsure p
      have hcount : Stacked size c.countEnsure := h.with_stats h.evictions_eq
      rw [he, Finset.insert_eq_self.mpr hin]
      have hheld : (c.countEnsure.refresh k p).held = c.countEnsure.held :=
        held_modify k (fun b => { b with lastUsed := c.tick + 1, priority := p }) rfl
      exact ⟨rfl, hcount.renew hrenew rfl rfl rfl h.evictions_eq, hheld⟩
    · rw [hres] at hno
      cases hno
    · rw [hres] at hno
      cases hno
  | false =>
    have hnew := h.toMapInv.not_mem_held hres
    have hsum : ∑ k' ∈ insert k c.held, size k' ≤ ∑ k' ∈ experts, size k' :=
      Finset.sum_le_sum_of_subset (Finset.insert_subset hk hsub)
    rw [Finset.sum_insert hnew, ← h.used_eq] at hsum
    exact h.load hres (hpos k hk) (by omega) p

/-- The step lemma of a working set that fits. -/
theorem Stacked.step (h : Stacked size c) (hpos : ∀ k ∈ experts, 0 < size k)
    (hfit : ∑ k ∈ experts, size k ≤ c.arena.cap) (hsub : c.held ⊆ experts) {op : Op}
    (hop : op.Within size experts) :
    Stacked size (c.step op) ∧ (c.step op).held = op.request?.toFinset ∪ c.held := by
  cases op with
  | ensure k n p =>
    obtain ⟨hk, rfl⟩ := hop
    obtain ⟨-, hs, hheld⟩ := h.ensure hpos hfit hsub hk p
    exact ⟨hs, hheld.trans (Finset.insert_eq k c.held)⟩
  | syncFallback k n p =>
    obtain ⟨hk, rfl⟩ := hop
    simp only [VramCacheManager.step, VramCacheManager.syncFallback]
    split_ifs with hres
    · have hin : k ∈ c.held := h.toMapInv.mem_held_iff.mpr hres
      exact ⟨h, ((Finset.insert_eq_self.mpr hin).symm.trans (Finset.insert_eq k c.held))⟩
    · have hcount : Stacked size c.countFallback := h.with_stats h.evictions_eq
      obtain ⟨-, hs, hheld⟩ := hcount.ensure hpos hfit hsub hk p
      exact ⟨hs, hheld.trans (Finset.insert_eq k c.held)⟩
  | touch k =>
    simp only [VramCacheManager.step, VramCacheManager.touch]
    split_ifs
    · refine ⟨h.renew (renews_touch c) rfl rfl rfl h.evictions_eq, ?_⟩
      exact (held_modify k (fun b => { b with lastUsed := c.tick + 1 }) rfl).trans
        (Finset.empty_union c.held).symm
    · exact ⟨h, (Finset.empty_union c.held).symm⟩
  | clear => exact hop.elim

/-- A block that an operation leaves resident keeps its address. -/
theorem step_data (h : c.Inv) {op : Op} (h' : (c.step op).Inv) {k : ExpertKey}
    (hk : c.isResident k = true) (hk' : (c.step op).isResident k = true) :
    (c.step op).data k = c.data k := by
  obtain ⟨b, hb⟩ := h.isResident_iff.mp hk
  obtain ⟨b', hb'⟩ := h'.isResident_iff.mp hk'
  have hoffset := (step_keeps_placement h.toMapInv op (UnorderedMap.find?_eq_some.mpr hb)
    (UnorderedMap.find?_eq_some.mpr hb')).1
  have hptr := h.ptr_eq _ hb
  have hptr' := h'.ptr_eq _ hb'
  dsimp only at hptr hptr'
  rw [data_of_mem h.toMapInv hb, data_of_mem h'.toMapInv hb', hptr, hptr', hoffset,
    (step_base_cap h.toMapInv op).1]

/-- The state between the operations of a working set that fits. -/
structure Holding (size : ExpertKey → ℕ) (experts : Finset ExpertKey) (c : VramCacheManager) :
    Prop extends Stacked size c where
  held_subset : c.held ⊆ experts
  fits : ∑ k ∈ experts, size k ≤ c.arena.cap
  loads_eq : c.stats.loads = c.held.card

theorem Holding.step (h : Holding size experts c) (hpos : ∀ k ∈ experts, 0 < size k) {op : Op}
    (hop : op.Within size experts) : Holding size experts (c.step op) ∧
      (c.step op).held = op.request?.toFinset ∪ c.held := by
  obtain ⟨hs, hheld⟩ := h.toStacked.step hpos h.fits h.held_subset hop
  refine ⟨⟨hs, ?_, ?_, ?_⟩, hheld⟩
  · rw [hheld]
    refine Finset.union_subset ?_ h.held_subset
    cases op with
    | ensure k n p => simpa [Op.request?] using hop.1
    | syncFallback k n p => simpa [Op.request?] using hop.1
    | touch k => simp [Op.request?]
    | clear => exact hop.elim
  · rw [(step_base_cap h.toMapInv op).2]
    exact h.fits
  · have hbalance := step_balance h.toMapInv op
    have hdropped : c.dropped op = 0 := by
      cases op with
      | clear => exact hop.elim
      | _ => rfl
    rw [h.evictions_eq, hs.evictions_eq, h.loads_eq, hdropped, ← card_held, ← card_held] at hbalance
    omega

/-- The run lemma: what is held afterwards, and where. -/
theorem Holding.run (h : Holding size experts c) (hpos : ∀ k ∈ experts, 0 < size k)
    {ops : List Op} (hops : ∀ op ∈ ops, op.Within size experts) :
    Holding size experts (run VramCacheManager.step c ops) ∧
      (run VramCacheManager.step c ops).held = requested ops ∪ c.held ∧
      ∀ k ∈ c.held, (run VramCacheManager.step c ops).data k = c.data k := by
  induction ops generalizing c with
  | nil => exact ⟨h, by simp [requested], fun _ _ => rfl⟩
  | cons op ops ih =>
    obtain ⟨hop, hrest⟩ := List.forall_mem_cons.mp hops
    obtain ⟨h1, hheld⟩ := h.step hpos hop
    obtain ⟨hrun, hheld', hdata⟩ := ih h1 hrest
    refine ⟨hrun, ?_, fun k hk => ?_⟩
    · rw [run_cons, hheld', hheld, requested_cons, Finset.union_left_comm, ← Finset.union_assoc]
    · have hk' : k ∈ (c.step op).held := hheld ▸ Finset.mem_union_right _ hk
      rw [run_cons, hdata k hk']
      exact step_data h.toInv h1.toInv (h.toMapInv.mem_held_iff.mp hk)
        (h1.toMapInv.mem_held_iff.mp hk')

theorem started_holding (order : Order) (base : ℕ) {B : ℕ} (hB : B < 2 ^ 64)
    (hfit : ∑ k ∈ experts, size k ≤ B) : Holding size experts (started order base B) where
  toInv := started_inv order base hB
  size_eq := by simp [started, fresh, UnorderedMap.empty]
  no_holes := rfl
  evictions_eq := rfl
  held_subset := Finset.empty_subset experts
  fits := hfit
  loads_eq := rfl

/-- After every run of requests from a working set that fits the budget, exactly the experts
asked for are resident, each loaded once; every request of the set succeeds, and whatever
the set asks for later, no expert moves. -/
theorem run_working_set (order : Order) (be : Backend) (B : ℕ) {c₀ : VramCacheManager}
    (hB : B < 2 ^ 64) (hinit : (fresh order).init B be = (true, c₀)) (size : ExpertKey → ℕ)
    (experts : Finset ExpertKey) (hpos : ∀ k ∈ experts, 0 < size k)
    (hfit : ∑ k ∈ experts, size k ≤ B) (ops : List Op)
    (hops : ∀ op ∈ ops, op.Within size experts) :
    let c := run step c₀ ops
    (∀ k, c.isResident k = true ↔ k ∈ requested ops) ∧ c.stats.evictions = 0 ∧
      c.stats.loads = (requested ops).card ∧ c.usedBytes = ∑ k ∈ requested ops, size k ∧
      (∀ k ∈ experts, ∀ p, (c.ensure k (size k) p).1 = true) ∧
      ∀ later : List Op, (∀ op ∈ later, op.Within size experts) →
        ∀ k ∈ requested ops, (run step c later).data k = c.data k := by
  obtain ⟨base, -, rfl⟩ := init_eq_true hinit
  intro c
  obtain ⟨hrun, hheld, -⟩ := (started_holding order base hB hfit).run hpos hops
  have hempty : (started order base B).held = ∅ := rfl
  rw [hempty, Finset.union_empty] at hheld
  refine ⟨fun k => ?_, hrun.evictions_eq, ?_, ?_, ?_, ?_⟩
  · rw [← hheld]
    exact hrun.toMapInv.mem_held_iff.symm
  · rw [← hheld]
    exact hrun.loads_eq
  · rw [← hheld]
    exact hrun.used_eq
  · exact fun k hk p => (hrun.toStacked.ensure hpos hrun.fits hrun.held_subset hk p).1
  · intro later hlater k hk
    rw [← hheld] at hk
    exact (hrun.run hpos hlater).2.2 k hk

/-- Three experts in six bytes, the first asked for again at the end. -/
theorem run_working_set_three :
    let c := run step (started (.newestFirst _ _) 100 6) [.ensure ⟨0, 0⟩ 3 0, .ensure ⟨0, 1⟩ 2 5,
      .touch ⟨0, 1⟩, .syncFallback ⟨0, 2⟩ 1 0, .ensure ⟨0, 0⟩ 3 1]
    c.stats.evictions = 0 ∧ c.stats.loads = 3 ∧ c.usedBytes = 6 := by
  intro c
  obtain ⟨-, hev, hloads, hused, -⟩ := run_working_set (.newestFirst _ _) (.host 100) 6 (by decide)
    rfl (fun k => if k.expert = 0 then 3 else if k.expert = 1 then 2 else 1)
    {⟨0, 0⟩, ⟨0, 1⟩, ⟨0, 2⟩} (by decide) (by decide)
    [.ensure ⟨0, 0⟩ 3 0, .ensure ⟨0, 1⟩ 2 5, .touch ⟨0, 1⟩, .syncFallback ⟨0, 2⟩ 1 0,
      .ensure ⟨0, 0⟩ 3 1] (by
        simp [Op.Within])
  exact ⟨hev, hloads, hused⟩

end Dee.VramCacheManager
