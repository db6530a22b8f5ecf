import Dee.ExpertCacheRuns

/-! The slot table of the GPU prefetch pipeline: which slot of the VRAM pool holds which
expert, kept next to an expert cache that evicts on its own. Dictionary and list accesses
that Python would reject are errors. The copies into the pool are left out. -/
namespace Dee
open GuardedRuns

inductive SlotError
  | keyError
  | popFromEmpty
  deriving DecidableEq, Repr

structure SlotTable where
  cache : ExpertCache ℤ
  /-- the slot of each expert, -1 for none -/
  slotOfExpert : UnorderedMap ℤ ℤ
  freeSlots : List ℤ
  evictionsTotal : ℕ

namespace SlotTable

/-- `list(range(n))` -/
def range (n : ℕ) : List ℤ := (List.range n).map Nat.cast

def init (order : IterationOrder ℤ Unit) (capacity numExperts : ℕ) (topKPred : ℤ) : SlotTable :=
  ⟨.init order capacity topKPred,
    (range numExperts).foldl (fun m e => m.assign e (-1)) (.dict ℤ ℤ), range capacity, 0⟩

/-- The slot of an evicted expert goes to the end of the free list. -/
def freeSlot (s : SlotTable) (victim : ℤ) : Except SlotError SlotTable :=
  match s.slotOfExpert.find? victim with
  | none => .error .keyError
  | some vslot =>
    .ok { s with
      freeSlots := s.freeSlots ++ [vslot]
      slotOfExpert := s.slotOfExpert.assign victim (-1)
      evictionsTotal := s.evictionsTotal + 1 }

def takeSlot (s : SlotTable) (e : ℤ) : Except SlotError SlotTable :=
  match s.freeSlots with
  | [] => .error .popFromEmpty
  | slot :: rest => .ok { s with freeSlots := rest, slotOfExpert := s.slotOfExpert.assign e slot }

/-- Find a slot for a missing expert, or `none` if the cache has nothing to evict. -/
def reserve (s : SlotTable) (e token : ℤ) : Except SlotError (Option SlotTable) :=
  if s.freeSlots = [] then
    match s.cache.evict token with
    | (none, _) => .ok none
    | (some victim, cache) => do
      let s ← ({ s with cache := cache }).freeSlot victim
      some <$> s.takeSlot e
  else some <$> s.takeSlot e

/-- The call of the cache's own `prefetch`, after the copy into the slot. -/
def fill (s : SlotTable) (e token : ℤ) : SlotTable :=
  { s with cache := s.cache.prefetch e token }

def ensureResident (s : SlotTable) (e token : ℤ) : Except SlotError (Bool × SlotTable) :=
  if e ∈ s.cache.vram.members then .ok (true, s)
  else do
    match ← s.reserve e token with
    | none => .ok (false, s)
    | some s' => .ok (false, s'.fill e token)

inductive Op
  | setLookaheadRanked (predictedIds : List ℤ)
  | ensureResident (e token : ℤ)

def step (s : SlotTable) : Op → Except SlotError SlotTable
  | .setLookaheadRanked ids => .ok { s with cache := s.cache.setLookaheadRanked ids }
  | .ensureResident e token => Prod.snd <$> s.ensureResident e token

/-- `slot_of_expert[e]`, -1 also for an id that has no entry. -/
def slotOf (s : SlotTable) (e : ℤ) : ℤ := (s.slotOfExpert.find? e).getD (-1)

/-- The slots of the residents of the cache. -/
def slotsInUse (s : SlotTable) : List ℤ := s.cache.vram.members.map s.slotOf

/-- The table and the cache agree on the residents, whose slots and the free ones share out
the pool. -/
structure Lockstep (s : SlotTable) (capacity : ℕ) : Prop where
  capacity_eq : s.cache.capacity = capacity
  resident_iff : ∀ e, s.slotOf e ≠ -1 ↔ e ∈ s.cache.vram.members
  shared : (s.freeSlots ++ s.slotsInUse).Perm (range capacity)

theorem length_range (n : ℕ) : (range n).length = n := by simp [range]

theorem range_nodup (n : ℕ) : (range n).Nodup := List.nodup_range.map Nat.cast_injective

theorem mem_range {n : ℕ} {i : ℤ} : i ∈ range n ↔ 0 ≤ i ∧ i < n := by
  simp only [range, List.mem_map, List.mem_range]
  constructor
  · rintro ⟨j, hj, rfl⟩
    omega
  · exact fun h => ⟨i.toNat, by omega, by omega⟩

/-- The two capacity tests coincide: the pool is full exactly when no slot is free. -/
theorem Lockstep.length_add {s : SlotTable} {capacity : ℕ} (h : s.Lockstep capacity) :
    s.freeSlots.length + s.cache.vram.members.length = capacity := by
  have hlen := h.shared.length_eq
  simpa [slotsInUse, length_range] using hlen

/-- What `slot_of_expert` says after one assignment. -/
theorem slotOf_assign {s s' : SlotTable} {e slot : ℤ}
    (h : s'.slotOfExpert = s.slotOfExpert.assign e slot) (f : ℤ) :
    s'.slotOf f = if f = e then slot else s.slotOf f := by
  rw [slotOf, h, UnorderedMap.find?_set, slotOf]
  split_ifs <;> rfl

/-- The slot of a resident expert is found. -/
theorem Lockstep.find?_of_mem {s : SlotTable} {capacity : ℕ} (h : s.Lockstep capacity) {e : ℤ}
    (he : e ∈ s.cache.vram.members) : s.slotOfExpert.find? e = some (s.slotOf e) := by
  have hne := (h.resident_iff e).mpr he
  unfold slotOf at hne ⊢
  rcases s.slotOfExpert.find?_eq_some_or_none e with hf | ⟨slot, hf⟩
  · simp [hf] at hne
  · rw [hf]
    rfl

/-- The step of an eviction: the victim gives its slot back. -/
theorem Lockstep.evicted {s s' : SlotTable} {capacity : ℕ} (h : s.Lockstep capacity) {v : ℤ}
    (hv : v ∈ s.cache.vram.members) (hcap : s'.cache.capacity = s.cache.capacity)
    (hvram : s'.cache.vram = s.cache.vram.discard v)
    (hfree : s'.freeSlots = s.freeSlots ++ [s.slotOf v])
    (hslot : s'.slotOfExpert = s.slotOfExpert.assign v (-1)) : s'.Lockstep capacity where
  capacity_eq := hcap.trans h.capacity_eq
  resident_iff := by
    intro f
    rw [slotOf_assign hslot, hvram, UnorderedSet.mem_discard, ← h.resident_iff]
    split_ifs with hf <;> simp [hf]
  shared := by
    have hrest : s'.slotsInUse = (s.cache.vram.discard v).members.map s.slotOf := by
      rw [slotsInUse, hvram]
      refine List.map_congr_left fun f hf => ?_
      rw [slotOf_assign hslot, if_neg (UnorderedSet.mem_discard.mp hf).2]
    have hperm := (UnorderedSet.discard_perm hv).map s.slotOf
    rw [hfree, hrest, List.append_assoc]
    exact (hperm.symm.append_left s.freeSlots).trans h.shared

/-- The step of a load: the expert takes a slot off the free list. -/
theorem Lockstep.loaded {s s' : SlotTable} {capacity : ℕ} (h : s.Lockstep capacity) {e slot : ℤ}
    {rest : List ℤ} (hno : e ∉ s.cache.vram.members) (hfree : s.freeSlots = slot :: rest)
    (hcap : s'.cache.capacity = s.cache.capacity) (hvram : s'.cache.vram = s.cache.vram.add e)
    (hfree' : s'.freeSlots = rest) (hslot : s'.slotOfExpert = s.slotOfExpert.assign e slot) :
    s'.Lockstep capacity where
  capacity_eq := hcap.trans h.capacity_eq
  resident_iff := by
    have hrange : slot ∈ range capacity := h.shared.mem_iff.mp (by simp [hfree])
    have hpos := (mem_range.mp hrange).1
    intro f
    rw [slotOf_assign hslot, hvram, UnorderedSet.mem_add, ← h.resident_iff]
    split_ifs with hf
    · exact iff_of_true (by omega) (Or.inl hf)
    · simp [hf]
  shared := by
    have hperm := (UnorderedSet.add_perm hno).map s'.slotOf
    have hrest : s.cache.vram.members.map s'.slotOf = s.slotsInUse := by
      refine List.map_congr_left fun f hf => ?_
      have hne : f ≠ e := by
        rintro rfl
        exact hno hf
      rw [slotOf_assign hslot, if_neg hne]
    rw [List.map_cons, hrest, slotOf_assign hslot, if_pos rfl] at hperm
    have hshared := h.shared
    rw [hfree, List.cons_append] at hshared
    rw [slotsInUse, hvram, hfree']
    exact (hperm.append_left rest).trans (List.perm_middle.trans hshared)

/-- When a slot is reserved for a missing expert, the cache is below its capacity. -/
structure Reserved (s : SlotTable) (e : ℤ) (capacity : ℕ) : Prop where
  missing : e ∉ s.cache.vram.members
  room : (s.cache.vram.members.length : ℤ) < s.cache.capacity
  filled : ∀ token, (s.fill e token).Lockstep capacity

theorem Lockstep.takeSlot {s : SlotTable} {capacity : ℕ} (h : s.Lockstep capacity) {e : ℤ}
    (hno : e ∉ s.cache.vram.members) (hfree : s.freeSlots ≠ []) :
    ∃ s', s.takeSlot e = .ok s' ∧ Reserved s' e capacity := by
  cases hs : s.freeSlots with
  | nil => exact absurd hs hfree
  | cons slot rest =>
    have hlen := h.length_add
    have hcap := h.capacity_eq
    rw [hs, List.length_cons] at hlen
    have hroom : (s.cache.vram.members.length : ℤ) < s.cache.capacity := by omega
    refine ⟨{ s with freeSlots := rest, slotOfExpert := s.slotOfExpert.assign e slot }, ?_, hno,
      hroom, fun token => ?_⟩
    · simp only [SlotTable.takeSlot, hs]
    · exact h.loaded hno hs (congrArg Prod.fst (s.cache.config_prefetch e token))
        (ExpertCache.prefetch_of_room token hno hroom).1 rfl rfl

/-- A missing expert always gets a slot. -/
theorem Lockstep.reserve {s : SlotTable} {capacity : ℕ} (h : s.Lockstep capacity)
    (hpos : 1 ≤ capacity) {e : ℤ} (hno : e ∉ s.cache.vram.members) (token : ℤ) :
    ∃ s', s.reserve e token = .ok (some s') ∧ Reserved s' e capacity := by
  unfold SlotTable.reserve
  by_cases hfree : s.freeSlots = []
  · rw [if_pos hfree]
    rcases s.cache.evict_cases token with ⟨hnil, -⟩ | ⟨v, hv, -, hev⟩
    · have hlen := h.length_add
      rw [hfree, hnil] at hlen
      simp only [List.length_nil] at hlen
      omega
    · have hsome : (s.cache.evict token).1 = some v := by rw [hev]
      have hevicted : Lockstep { s with
          cache := (s.cache.evict token).2
          freeSlots := s.freeSlots ++ [s.slotOf v]
          slotOfExpert := s.slotOfExpert.assign v (-1)
          evictionsTotal := s.evictionsTotal + 1 } capacity :=
        h.evicted hv (congrArg Prod.fst (s.cache.config_evict token)) (by rw [hev]; rfl) rfl rfl
      have hno' : e ∉ (s.cache.evict token).2.vram.members := by
        rw [hev]
        exact fun hm => hno (UnorderedSet.mem_discard.mp hm).1
      obtain ⟨s', hs', hres⟩ := hevicted.takeSlot hno' (by simp)
      refine ⟨s', ?_, hres⟩
      rw [hev] at hs' ⊢
      simp only [SlotTable.freeSlot, h.find?_of_mem hv]
      exact congrArg (some <$> ·) hs'
  · rw [if_neg hfree]
    obtain ⟨s', hs', hres⟩ := h.takeSlot hno hfree
    refine ⟨s', ?_, hres⟩
    rw [hs']
    rfl

theorem Lockstep.ensureResident {s : SlotTable} {capacity : ℕ} (h : s.Lockstep capacity)
    (hpos : 1 ≤ capacity) (e token : ℤ) :
    ∃ hit s', s.ensureResident e token = .ok (hit, s') ∧ s'.Lockstep capacity ∧
      e ∈ s'.cache.vram.members := by
  unfold SlotTable.ensureResident
  by_cases he : e ∈ s.cache.vram.members
  · rw [if_pos he]
    exact ⟨true, s, rfl, h, he⟩
  · rw [if_neg he]
    obtain ⟨s', hs', hres⟩ := h.reserve hpos he token
    rw [hs']
    refine ⟨false, s'.fill e token, rfl, hres.filled token, ?_⟩
    simp only [fill, (ExpertCache.prefetch_of_room token hres.missing hres.room).1]
    exact UnorderedSet.mem_add.mpr (Or.inl rfl)

/-- The step lemma: no call fails, and table and cache stay in lockstep. -/
theorem Lockstep.step {s : SlotTable} {capacity : ℕ} (h : s.Lockstep capacity)
    (hpos : 1 ≤ capacity) (op : Op) : ∃ s', s.step op = .ok s' ∧ s'.Lockstep capacity := by
  cases op with
  | setLookaheadRanked ids => exact ⟨_, rfl, h.capacity_eq, h.resident_iff, h.shared⟩
  | ensureResident e token =>
    obtain ⟨hit, s', hs', hl, -⟩ := h.ensureResident hpos e token
    refine ⟨s', ?_, hl⟩
    simp only [SlotTable.step, hs']
    rfl

theorem find?_foldl_assign (l : List ℤ) (m : UnorderedMap ℤ ℤ) (v e : ℤ)
    (h : (m.find? e).getD v = v) : ((l.foldl (fun m e => m.assign e v) m).find? e).getD v = v := by
  induction l generalizing m with
  | nil => exact h
  | cons a l ih =>
    refine ih _ ?_
    rw [UnorderedMap.find?_set]
    split_ifs
    · rfl
    · exact h

theorem init_lockstep (order : IterationOrder ℤ Unit) (capacity numExperts : ℕ) (topKPred : ℤ) :
    (init order capacity numExperts topKPred).Lockstep capacity where
  capacity_eq := rfl
  resident_iff := by
    intro e
    have hslot : (init order capacity numExperts topKPred).slotOf e = -1 :=
      find?_foldl_assign _ _ _ _ rfl
    refine iff_of_false (fun hne => hne hslot) ?_
    simp [init, ExpertCache.init, UnorderedSet.members, UnorderedMap.empty]
  shared := by
    simp [init, slotsInUse, ExpertCache.init, UnorderedSet.members, UnorderedMap.empty]

/-- The experts with a slot are the residents, and their distinct slots and the free ones are
the slots of the pool. -/
structure Agrees (s : SlotTable) (capacity : ℕ) : Prop where
  resident_iff : ∀ e, s.slotOf e ≠ -1 ↔ e ∈ s.cache.vram.members
  slots_inj : ∀ e ∈ s.cache.vram.members, ∀ f ∈ s.cache.vram.members,
    s.slotOf e = s.slotOf f → e = f
  free_nodup : s.freeSlots.Nodup
  disjoint : ∀ e ∈ s.cache.vram.members, s.slotOf e ∉ s.freeSlots
  cover : ∀ i, (i ∈ s.freeSlots ∨ ∃ e ∈ s.cache.vram.members, s.slotOf e = i) ↔
    0 ≤ i ∧ i < capacity
  length_le : s.cache.vram.members.length ≤ capacity

theorem Lockstep.agrees {s : SlotTable} {capacity : ℕ} (h : s.Lockstep capacity) :
    s.Agrees capacity := by
  obtain ⟨hfree, huse, happart⟩ :=
    List.nodup_append.mp (h.shared.nodup_iff.mpr (range_nodup capacity))
  refine ⟨h.resident_iff, fun e he f hf hef => List.inj_on_of_nodup_map huse he hf hef, hfree, ?_,
    fun i => ?_, ?_⟩
  · exact fun e he hm => happart _ hm _ (List.mem_map_of_mem he) rfl
  · rw [← mem_range, ← h.shared.mem_iff, List.mem_append, slotsInUse, List.mem_map]
  · have := h.length_add
    omega

/-- Over every run no access fails and the table agrees with the cache; a call makes its
expert resident, and the cache's own prefetch only adds it. -/
theorem run_lockstep (order : IterationOrder ℤ Unit) {capacity : ℕ} (hpos : 1 ≤ capacity)
    (numExperts : ℕ) (topKPred : ℤ) (ops : List Op) :
    ∃ s, ops.foldlM step (init order capacity numExperts topKPred) = .ok s ∧ s.Agrees capacity ∧
      ∀ e token, (∃ hit s', s.ensureResident e token = .ok (hit, s') ∧ s'.Agrees capacity ∧
          e ∈ s'.cache.vram.members) ∧
        ∀ s', e ∉ s.cache.vram.members → s.reserve e token = .ok (some s') →
          (s'.cache.prefetch e token).vram = s'.cache.vram.add e ∧
            (s'.cache.prefetch e token).asyncOps = s'.cache.asyncOps ++ [⟨.prefetch, e, token⟩] := by
  obtain ⟨s, hs, h⟩ := foldlM_ok (P := fun s : SlotTable => s.Lockstep capacity)
    (fun s op hl => hl.step hpos op) (init_lockstep order capacity numExperts topKPred) ops
  refine ⟨s, hs, h.agrees, fun e token => ⟨?_, fun s' hno hres => ?_⟩⟩
  · obtain ⟨hit, s', hs', hl, he⟩ := h.ensureResident hpos e token
    exact ⟨hit, s', hs', hl.agrees, he⟩
  · obtain ⟨s₁, hs₁, hr⟩ := h.reserve hpos hno token
    obtain rfl : s₁ = s' := Option.some.inj (Except.ok.inj (hs₁.symm.trans hres))
    exact ExpertCache.prefetch_of_room token hr.missing hr.room

/-- Two slots and three experts: the third call evicts. -/
theorem run_lockstep_two_slots :
    ∃ s, [Op.setLookaheadRanked [1, 2], .ensureResident 1 0, .ensureResident 0 0,
        .ensureResident 2 1].foldlM step (init (.newestFirst ℤ Unit) 2 3 2) = .ok s ∧
      s.Agrees 2 := by
  obtain ⟨s, hs, h, -⟩ := run_lockstep (.newestFirst ℤ Unit) (by decide : 1 ≤ 2) 3 2
    [.setLookaheadRanked [1, 2], .ensureResident 1 0, .ensureResident 0 0, .ensureResident 2 1]
  exact ⟨s, hs, h⟩

end SlotTable
end Dee
