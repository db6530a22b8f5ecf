import Dee.SlotPartition

/-! Where the slots lie. The size of the arena and the offset of a slot are products modulo
`2 ^ 64`; the slots lie in the arena, apart from each other, as long as the first product
does not wrap. -/
namespace Dee.SlotCache.VramCacheManager
open GuardedRuns
variable {P : Type*}

/-- What the constructor asks the device for. -/
def requestedBytes (c : VramCacheManager P) : ℕ := c.slotBytes * c.numSlots.toNat % 2 ^ 64

/-- The addresses of a cached expert. -/
def addresses (c : VramCacheManager P) (e : ExpertKey × CachedExpert P) : Set ℕ :=
  Set.Ico (c.slotPtr e.2.slot) (c.slotPtr e.2.slot + e.2.bytes)

/-- The experts lie inside the arena, and no two of them meet. -/
structure Separated (c : VramCacheManager P) : Prop where
  inside : ∀ e ∈ c.cached.entries,
    c.addresses e ⊆ Set.Ico c.arena (c.arena + c.requestedBytes)
  disjoint : ∀ e ∈ c.cached.entries, ∀ e' ∈ c.cached.entries, e.1 ≠ e'.1 →
    Disjoint (c.addresses e) (c.addresses e')

/-- No expert is larger than a slot. -/
def Sized (c : VramCacheManager P) : Prop := ∀ e ∈ c.cached.entries, e.2.bytes ≤ c.slotBytes

variable {slotBytes : ℕ} {numSlots : ℤ} {c c₀ : VramCacheManager P}

theorem Sized.renew (h : Sized c) (k : ExpertKey) : Sized (c.renew k) := by
  intro e he
  obtain ⟨w, hw, hv⟩ := UnorderedMap.mem_modify.mp (show (e.1, e.2) ∈ _ from he)
  have hbytes : e.2.bytes = w.bytes := by
    rw [hv]
    split_ifs <;> rfl
  rw [hbytes]
  exact h _ hw

theorem Sized.place (h : Sized c) {k : ExpertKey} (hk : c.cached.find? k = none) (slot : ℕ)
    {n : ℕ} (hn : n ≤ c.slotBytes) : Sized (c.place k slot n) := by
  intro e he
  rcases (UnorderedMap.mem_assign hk).mp he with rfl | he
  · exact hn
  · exact h e he

section Calls
variable [LT P] [DecidableLT P] [BEq P]

theorem Sized.step (h : Sized c) (hinv : Inv slotBytes numSlots c) (hpos : 0 < numSlots)
    (op : Op) : Sized (c.step op) := by
  cases op with
  | touch k =>
    rcases touch_cases c k with ⟨-, he⟩ | ⟨-, he⟩
    · rw [VramCacheManager.step, he]
      exact h.renew k
    · rw [VramCacheManager.step, he]
      exact h
  | acquire k n =>
    by_cases hn : n ≤ c.slotBytes
    · rcases hinv.partition.acquire_cases (hinv.numSlots_eq ▸ hpos) k hn with
        ⟨ce, hf, he⟩ | ⟨slot, rest, hf, hl, he⟩ | ⟨v, hf, hl, hv, he⟩
      · simp only [VramCacheManager.step, he]
        exact h.renew k
      · simp only [VramCacheManager.step, he]
        have hpop : Sized ({ c with freeList := rest } : VramCacheManager P) := h
        exact hpop.place hf slot hn
      · simp only [VramCacheManager.step, he]
        have hdrop : Sized (c.drop v) := fun e he => h e (UnorderedMap.mem_erase.mp he).1
        have hnone : (c.drop v).cached.find? k = none := by
          rw [find?_drop, hf, ite_self]
        exact hdrop.place hnone v.slot hn
    · have he : c.acquire k n =
          .error (.invalidArgument "VramCacheManager: expert_bytes exceeds slot_bytes") :=
        if_pos (not_le.mp hn)
      simp only [VramCacheManager.step, he]
      exact h

theorem Sized.run (h : Sized c) (hinv : Inv slotBytes numSlots c) (hpos : 0 < numSlots)
    (ops : List Op) : Sized (GuardedRuns.run VramCacheManager.step c ops) := by
  induction ops generalizing c with
  | nil => exact h
  | cons op ops ih => exact ih (h.step hinv hpos op) (hinv.step hpos op)

end Calls

/-! Without wrapping -/

/-- Below the size of the arena no offset wraps. -/
theorem slotPtr_eq (hfit : c.slotBytes * c.numSlots.toNat < 2 ^ 64) {i : ℕ}
    (hi : (i : ℤ) < c.numSlots) :
    c.slotPtr i = c.arena + i * c.slotBytes ∧
      i * c.slotBytes + c.slotBytes ≤ c.requestedBytes := by
  have hle : (i + 1) * c.slotBytes ≤ c.slotBytes * c.numSlots.toNat := by
    rw [mul_comm]
    exact Nat.mul_le_mul_left _ (by omega)
  rw [Nat.add_mul, one_mul] at hle
  rw [requestedBytes, Nat.mod_eq_of_lt hfit, slotPtr, Nat.mod_eq_of_lt (by omega)]
  exact ⟨rfl, hle⟩

theorem Partition.separated {spare : List ℕ} (h : Partition spare c) (hsized : Sized c)
    (hfit : c.slotBytes * c.numSlots.toNat < 2 ^ 64) : Separated c where
  inside := by
    intro e he a ha
    obtain ⟨hptr, hend⟩ := slotPtr_eq hfit ((h.cover e.2.slot).mp (Or.inl ⟨e, he, rfl⟩))
    rw [addresses, hptr] at ha
    have hbytes := hsized e he
    exact ⟨by have := ha.1; omega, by have := ha.2; omega⟩
  disjoint := by
    intro e he e' he' hne
    obtain ⟨hptr, -⟩ := slotPtr_eq hfit ((h.cover e.2.slot).mp (Or.inl ⟨e, he, rfl⟩))
    obtain ⟨hptr', -⟩ := slotPtr_eq hfit ((h.cover e'.2.slot).mp (Or.inl ⟨e', he', rfl⟩))
    have hslot : e.2.slot ≠ e'.2.slot := fun hs => hne (h.slots_inj e he e' he' hs)
    have hbytes := hsized e he
    have hbytes' := hsized e' he'
    rw [addresses, addresses, hptr, hptr', Set.disjoint_left]
    intro a ha ha'
    obtain ⟨hlow, hhigh⟩ := ha
    obtain ⟨hlow', hhigh'⟩ := ha'
    rcases Nat.lt_or_gt_of_ne hslot with hlt | hlt
    · have hmul : (e.2.slot + 1) * c.slotBytes ≤ e'.2.slot * c.slotBytes :=
        Nat.mul_le_mul_right _ hlt
      rw [Nat.add_mul, one_mul] at hmul
      omega
    · have hmul : (e'.2.slot + 1) * c.slotBytes ≤ e.2.slot * c.slotBytes :=
        Nat.mul_le_mul_right _ hlt
      rw [Nat.add_mul, one_mul] at hmul
      omega

/-! Filling the slots -/

/-- The expert that is loaded into slot `i`. -/
def fillKey (i : ℕ) : ExpertKey := ⟨0, Int32.ofNat i⟩

def fillOps (slotBytes m : ℕ) : List Op :=
  (List.range m).map fun i => .acquire (fillKey i) slotBytes

theorem fillKey_inj {i j : ℕ} (hi : i < 2 ^ 31) (hj : j < 2 ^ 31) (h : fillKey i = fillKey j) :
    i = j := by
  have hexpert : Int32.ofNat i = Int32.ofNat j := congrArg ExpertKey.expert h
  have hint := congrArg Int32.toInt hexpert
  rw [Int32.toInt_ofNat_of_lt hi, Int32.toInt_ofNat_of_lt hj] at hint
  exact_mod_cast hint

/-- The first `m` slots of the arena hold full experts. -/
structure Filled (m : ℕ) (c : VramCacheManager P) : Prop where
  freeList_eq : c.freeList = (List.range c.numSlots.toNat).drop m
  lt : ∀ i < m, ∃ ce, c.cached.find? (fillKey i) = some ce ∧ ce.slot = i ∧
    ce.bytes = c.slotBytes
  ge : ∀ i, m ≤ i → i < c.numSlots.toNat → c.cached.find? (fillKey i) = none

theorem construct_filled {order : IterationOrder ExpertKey (CachedExpert P)} {malloc : ℕ → ℕ}
    {oracle : ℕ → Int32 → Int32 → P}
    (h : construct order malloc oracle slotBytes numSlots = .ok c) :
    Sized c ∧ Filled 0 c ∧ c.arena = malloc c.requestedBytes := by
  unfold construct at h
  split_ifs at h
  dsimp only at h
  split_ifs at h
  cases h
  refine ⟨fun e he => absurd he List.not_mem_nil, ⟨?_, fun i hi => absurd hi (Nat.not_lt_zero i),
    fun _ _ _ => rfl⟩, rfl⟩
  dsimp only
  rw [pushSlots_eq, List.append_nil, List.drop_zero]

variable [LT P] [DecidableLT P] [BEq P]

theorem Filled.step {m : ℕ} (h : Filled m c) (hm : m < c.numSlots.toNat)
    (hsmall : c.numSlots < 2 ^ 31) :
    let c' := c.step (.acquire (fillKey m) c.slotBytes)
    Filled (m + 1) c' ∧ c'.numSlots = c.numSlots ∧ c'.slotBytes = c.slotBytes ∧
      c'.arena = c.arena := by
  intro c'
  have hf := h.ge m le_rfl hm
  have hl : c.freeList = m :: (List.range c.numSlots.toNat).drop (m + 1) := by
    rw [h.freeList_eq, List.drop_eq_getElem_cons (by rwa [List.length_range]), List.getElem_range]
  let c₁ : VramCacheManager P := { c with freeList := (List.range c.numSlots.toNat).drop (m + 1) }
  have hf₁ : c₁.cached.find? (fillKey m) = none := hf
  have hc' : c' = c₁.place (fillKey m) m c.slotBytes := by
    simp only [c', c₁, VramCacheManager.step, acquire, if_neg (lt_irrefl _), hf, takeSlot, hl]
  have hne : ∀ i < c.numSlots.toNat, i ≠ m → fillKey i ≠ fillKey m := by
    intro i hi hne heq
    exact hne (fillKey_inj (by omega) (by omega) heq)
  rw [hc']
  refine ⟨⟨rfl, fun i hi => ?_, fun i hi hin => ?_⟩, rfl, rfl, rfl⟩
  · rw [find?_place hf₁]
    by_cases heq : i = m
    · rw [heq, if_pos rfl]
      exact ⟨_, rfl, rfl, rfl⟩
    · rw [if_neg (hne i (by omega) heq)]
      exact h.lt i (by omega)
  · rw [find?_place hf₁, if_neg (hne i hin (by omega))]
    exact h.ge i (by omega) hin

/-- A run of `m` calls that fills the first `m` slots. -/
theorem Filled.run (h : Filled 0 c) (hsmall : c.numSlots < 2 ^ 31) {m : ℕ}
    (hm : m ≤ c.numSlots.toNat) :
    let c' := GuardedRuns.run VramCacheManager.step c (fillOps c.slotBytes m)
    Filled m c' ∧ c'.numSlots = c.numSlots ∧ c'.slotBytes = c.slotBytes ∧
      c'.arena = c.arena := by
  induction m with
  | zero => exact ⟨h, rfl, rfl, rfl⟩
  | succ m ih =>
    obtain ⟨hfilled, hnum, hbytes, harena⟩ := ih (by omega)
    have hstep := hfilled.step (hnum ▸ hm) (hnum ▸ hsmall)
    rw [hnum, hbytes, harena] at hstep
    intro c'
    have hc' : c' = (GuardedRuns.run VramCacheManager.step c (fillOps c.slotBytes m)).step
        (.acquire (fillKey m) c.slotBytes) := by
      simp only [c', fillOps, List.range_succ, List.map_append, run_append, List.map_cons,
        List.map_nil, run_cons, run_nil]
    rw [hc']
    exact hstep

/-- When the product wraps, the first slot that ends beyond `2 ^ 64` is outside the arena. -/
theorem Filled.not_separated (h : Filled 0 c) (hsmall : c.numSlots < 2 ^ 31)
    (hwrap : 2 ^ 64 ≤ c.slotBytes * c.numSlots.toNat) :
    ∃ ops, ¬ Separated (GuardedRuns.run VramCacheManager.step c ops) := by
  have hpos : 0 < c.slotBytes := by
    by_contra hzero
    rw [Nat.eq_zero_of_not_pos hzero, Nat.zero_mul] at hwrap
    exact absurd hwrap (by decide)
  let i := (2 ^ 64 - 1) / c.slotBytes
  have hstart : i * c.slotBytes ≤ 2 ^ 64 - 1 := Nat.div_mul_le_self _ _
  have hend : 2 ^ 64 - 1 < c.slotBytes * (i + 1) := Nat.lt_mul_div_succ _ hpos
  have hi : i < c.numSlots.toNat := by
    rw [Nat.div_lt_iff_lt_mul hpos, mul_comm]
    omega
  obtain ⟨hfilled, hnum, hbytes, harena⟩ := h.run hsmall (m := i + 1) hi
  refine ⟨fillOps c.slotBytes (i + 1), fun hsep => ?_⟩
  obtain ⟨ce, hce, hslot, hfull⟩ := hfilled.lt i (Nat.lt_succ_self i)
  have hinside := hsep.inside _ (UnorderedMap.find?_eq_some.mp hce)
  rw [addresses, slotPtr, requestedBytes, hslot, hfull, hbytes, harena, hnum,
    Nat.mod_eq_of_lt (by omega : i * c.slotBytes < 2 ^ 64)] at hinside
  have hlast := hinside (⟨by omega, by omega⟩ :
    c.arena + i * c.slotBytes + (c.slotBytes - 1) ∈ Set.Ico _ _)
  have hlt := hlast.2
  have hmod := Nat.mod_lt (c.slotBytes * c.numSlots.toNat) (by decide : 2 ^ 64 > 0)
  rw [mul_add, mul_one, mul_comm] at hend
  omega

/-- The experts of every run lie apart and inside the arena exactly when the size of the
arena is below `2 ^ 64`; `hsmall` is the range of the type of `num_slots`. -/
theorem run_separated_iff {order : IterationOrder ExpertKey (CachedExpert P)} {malloc : ℕ → ℕ}
    {oracle : ℕ → Int32 → Int32 → P} (hsmall : numSlots < 2 ^ 31)
    (hc : construct order malloc oracle slotBytes numSlots = .ok c₀) :
    c₀.arena = malloc c₀.requestedBytes ∧
      ((∀ ops, Separated (run step c₀ ops)) ↔ slotBytes * numSlots.toNat < 2 ^ 64) := by
  obtain ⟨hpos, hinv⟩ := construct_inv hc
  obtain ⟨hsized, hfilled, harena⟩ := construct_filled hc
  refine ⟨harena, fun hall => ?_, fun hfit ops => ?_⟩
  · by_contra hwrap
    obtain ⟨ops, hbad⟩ := hfilled.not_separated (hinv.numSlots_eq ▸ hsmall)
      (by rw [hinv.slotBytes_eq, hinv.numSlots_eq]; exact not_lt.mp hwrap)
    exact hbad (hall ops)
  · have hrun := run_inv hinv hpos ops
    refine hrun.partition.separated (hsized.run hinv hpos ops) ?_
    rw [hrun.slotBytes_eq, hrun.numSlots_eq]
    exact hfit

/-- Two slots of eight bytes. -/
theorem run_separated_iff_two_slots :
    ∃ c₀ : VramCacheManager ℤ,
      construct (.newestFirst _ _) (fun _ => 100) (fun _ _ _ => 0) 8 2 = .ok c₀ ∧
      ((∀ ops, Separated (run step c₀ ops)) ↔ 8 * (2 : ℤ).toNat < 2 ^ 64) := by
  have hc : construct (.newestFirst _ _) (fun _ => 100) (fun _ _ _ => 0) 8 2 =
    .ok (⟨fun _ _ _ => 0, 8, 2, 100, [0, 1], .empty (.newestFirst _ _), 0, ⟨-1, -1⟩⟩ :
      VramCacheManager ℤ) := rfl
  exact ⟨_, hc, (run_separated_iff (by decide) hc).2⟩

/-- Two slots of `2 ^ 63` bytes make an arena of no bytes. -/
theorem acquire_outside_arena : ¬ ∀ (c₀ : VramCacheManager ℤ) (ops : List Op),
    construct (.newestFirst _ _) (fun _ => 100) (fun _ _ _ => 0) (2 ^ 63) 2 = .ok c₀ →
      Separated (run step c₀ ops) := by
  intro h
  have hc : construct (.newestFirst _ _) (fun _ => 100) (fun _ _ _ => 0) (2 ^ 63) 2 =
    .ok (⟨fun _ _ _ => 0, 2 ^ 63, 2, 100, [0, 1], .empty (.newestFirst _ _), 0, ⟨-1, -1⟩⟩ :
      VramCacheManager ℤ) := rfl
  obtain ⟨-, hfilled, -⟩ := construct_filled hc
  obtain ⟨ops, hbad⟩ := hfilled.not_separated (by decide) (by decide)
  exact hbad (h _ ops hc)

end Dee.SlotCache.VramCacheManager
