import Dee.VramCacheRuns

/-! Which experts are resident after a call, for requests of any size. Only the map
part of the invariant is used, so nothing is assumed about the arena. -/
namespace Dee.VramCacheManager
open GuardedRuns

/-- Entries that are resident have an address, since the region has one. -/
structure SlotInv (c : VramCacheManager) : Prop extends MapInv c where
  base_ne : c.arena.base ≠ 0
  ptr_ne : ∀ e ∈ c.blocks.entries, e.2.ptr ≠ 0

/-- A request for `k` would evict the resident expert `k'`. -/
def Evicts (c : VramCacheManager) (k : ExpertKey) (n : ℕ) (k' : ExpertKey) : Prop :=
  c.isResident k = false ∧ c.isResident k' = true ∧ (c.makeRoom n).isResident k' = false

theorem MapInv.isResident_renew {c c' : VramCacheManager} (h : c.MapInv)
    {f : ExpertBlock → ExpertBlock} (hf : Renews c f) {k : ExpertKey}
    (hb : c'.blocks = c.blocks.modify k f) (k' : ExpertKey) :
    c'.isResident k' = c.isResident k' := by
  apply Bool.eq_iff_iff.mpr
  rw [(h.renew hf hb).isResident_iff, h.isResident_iff]
  constructor
  · intro ⟨b', hb'⟩
    obtain ⟨b, hmem, -⟩ := hf.entry (hb ▸ hb')
    exact ⟨b, hmem⟩
  · intro ⟨b, hmem⟩
    rw [hb]
    exact ⟨_, UnorderedMap.mem_modify.mpr ⟨b, hmem, rfl⟩⟩

/-- A block entered by `place` is resident, next to those that were. -/
theorem isResident_place {c : VramCacheManager} {a : Arena} {k : ExpertKey} {o n : ℕ} {p : ℤ}
    (hk : c.blocks.find? k = none) (k' : ExpertKey) :
    (({ c with arena := a } : VramCacheManager).place k o n p).isResident k' =
      if k' = k then true else c.isResident k' := by
  simp only [isResident, place, UnorderedMap.find?_assign _ hk]
  by_cases h : k' = k
  · simp [h, newBlock]
  · simp [h]

theorem touch_arena (c : VramCacheManager) (k : ExpertKey) : (c.touch k).arena = c.arena := by
  unfold touch
  split_ifs <;> rfl

theorem touch_isResident {c : VramCacheManager} (h : c.MapInv) (k k' : ExpertKey) :
    (c.touch k).isResident k' = c.isResident k' := by
  unfold touch
  split_ifs
  · exact h.isResident_renew (renews_touch c) rfl k'
  · rfl

/-- Residency after `ensure`: a hit changes nothing, a miss evicts and may load. -/
theorem MapInv.ensure_isResident {c : VramCacheManager} (h : c.MapInv) (k : ExpertKey) (n : ℕ)
    (p : ℤ) (k' : ExpertKey) :
    (c.ensure k n p).2.isResident k' = true ↔
      ¬ c.Evicts k n k' ∧ c.isResident k' = true ∨ k' = k ∧ (c.ensure k n p).1 = true := by
  obtain ⟨hroom, hs⟩ := h.makeRoom n
  have hle : (c.makeRoom n).isResident k' = true → c.isResident k' = true := by
    rw [hroom.isResident_iff, h.isResident_iff]
    exact fun ⟨b, hb⟩ => ⟨b, hs.mem hb⟩
  rcases ensure_cases c k n p with ⟨hk, he⟩ | ⟨hk, -, he⟩ | ⟨hk, -, he⟩
  · have hsame : (c.countEnsure.refresh k p).isResident k' = c.isResident k' :=
      h.countEnsure.isResident_renew (renews_refresh c.countEnsure p) rfl k'
    have hno : ¬ c.Evicts k n k' := fun hev => absurd hk (by simp [hev.1])
    simp only [he, hsame, hno, not_false_eq_true, true_and, and_true]
    constructor
    · exact Or.inl
    · rintro (hr | rfl)
      · exact hr
      · exact hk
  · have hsame : (c.allocated n).isResident k' = (c.makeRoom n).isResident k' := rfl
    simp only [he, hsame, Evicts, hk, true_and, Bool.false_eq_true, and_false, or_false]
    cases hr : (c.makeRoom n).isResident k' with
    | true => simp [hle hr]
    | false => simp
  · have hpl := isResident_place (a := ((c.makeRoom n).arena.alloc n).2)
      (o := ((c.makeRoom n).arena.alloc n).1) (n := n) (p := p) (h.find?_makeRoom hk n) k'
    simp only [he, allocated, hpl, Evicts, hk, true_and, and_true]
    by_cases hkk : k' = k
    · simp [hkk]
    · cases hr : (c.makeRoom n).isResident k' with
      | true => simp [hkk, hle hr]
      | false => simp [hkk]

theorem MapInv.ensure_resident {c : VramCacheManager} (h : c.MapInv) {k : ExpertKey} {n : ℕ}
    {p : ℤ} (ht : (c.ensure k n p).1 = true) : (c.ensure k n p).2.isResident k = true :=
  (h.ensure_isResident k n p k).mpr (Or.inr ⟨rfl, ht⟩)

/-- A block loaded by `ensure` has the requested size. -/
theorem MapInv.ensure_size_of_miss {c : VramCacheManager} (h : c.MapInv) {k : ExpertKey} {n : ℕ}
    {p : ℤ} (hk : c.isResident k = false) {b : ExpertBlock}
    (hb : (k, b) ∈ (c.ensure k n p).2.blocks.entries) : b.size = n := by
  have hnone := h.find?_makeRoom hk n
  rcases ensure_cases c k n p with ⟨hk', -⟩ | ⟨-, -, he⟩ | ⟨-, -, he⟩
  · simp [hk] at hk'
  · rw [he] at hb
    exact absurd rfl (UnorderedMap.find?_eq_none.mp hnone _ hb)
  · rw [he] at hb
    rcases (UnorderedMap.mem_assign hnone).mp hb with heq | hb
    · rw [(Prod.mk.inj heq).2]
      rfl
    · exact absurd rfl (UnorderedMap.find?_eq_none.mp hnone _ hb)

theorem data_of_mem {c : VramCacheManager} (h : c.MapInv) {k : ExpertKey} {b : ExpertBlock}
    (hb : (k, b) ∈ c.blocks.entries) : c.data k = b.ptr := by
  have hres : b.resident = true := h.resident _ hb
  simp [data, UnorderedMap.find?_eq_some.mpr hb, hres]

theorem touch_data {c : VramCacheManager} (k k' : ExpertKey) :
    (c.touch k).data k' = c.data k' := by
  unfold touch
  split_ifs
  · simp only [data, UnorderedMap.find?_modify]
    by_cases hk : k' = k
    · subst hk
      cases c.blocks.find? k' <;> simp
    · simp [hk]
  · rfl

theorem started_slotInv (order : Order) {base : ℕ} (hb : base ≠ 0) (B : ℕ) :
    (started order base B).SlotInv :=
  ⟨⟨by simp [started, fresh, UnorderedMap.empty], by simp [started, fresh, UnorderedMap.empty]⟩,
    hb, by simp [started, fresh, UnorderedMap.empty]⟩

theorem SlotInv.data_ne_zero {c : VramCacheManager} (h : c.SlotInv) {k : ExpertKey} :
    c.data k ≠ 0 ↔ c.isResident k = true := by
  unfold data isResident
  cases hf : c.blocks.find? k with
  | none => simp
  | some b =>
    have hb := UnorderedMap.find?_eq_some.mp hf
    have := h.resident _ hb
    have := h.ptr_ne _ hb
    simp_all

theorem SlotInv.renew {c c' : VramCacheManager} (h : c.SlotInv) {f : ExpertBlock → ExpertBlock}
    (hf : Renews c f) {k : ExpertKey} (hb : c'.blocks = c.blocks.modify k f)
    (ha : c'.arena = c.arena) : c'.SlotInv where
  toMapInv := h.toMapInv.renew hf hb
  base_ne := by rw [ha]; exact h.base_ne
  ptr_ne := by
    intro e he
    obtain ⟨b, hb, -, hp, -⟩ := hf.entry (hb ▸ he)
    rw [hp]
    exact h.ptr_ne _ hb

theorem SlotInv.touch {c : VramCacheManager} (h : c.SlotInv) (k : ExpertKey) :
    (c.touch k).SlotInv := by
  unfold VramCacheManager.touch
  split_ifs
  · exact h.renew (renews_touch c) rfl rfl
  · exact h

/-- The step lemma of `ensure`, whatever the size. -/
theorem SlotInv.ensure {c : VramCacheManager} (h : c.SlotInv) (k : ExpertKey) (n : ℕ) (p : ℤ) :
    (c.ensure k n p).2.SlotInv := by
  obtain ⟨hroom, hs⟩ := h.toMapInv.makeRoom n
  have hbase : (c.ensure k n p).2.arena.base ≠ 0 := by
    rw [(ensure_base_cap c h.toMapInv k n p).1]
    exact h.base_ne
  rcases ensure_cases c k n p with ⟨-, he⟩ | ⟨-, -, he⟩ | ⟨hk, -, he⟩
  · have hc : c.countEnsure.SlotInv := ⟨h.countEnsure, h.base_ne, h.ptr_ne⟩
    rw [he]
    exact hc.renew (renews_refresh c.countEnsure p) rfl rfl
  · rw [he] at hbase ⊢
    exact ⟨⟨hroom.resident, hroom.own_key⟩, hbase, fun e he => h.ptr_ne e (hs.mem he)⟩
  · have hmem := @UnorderedMap.mem_assign _ _ _ (c.makeRoom n).blocks k
      ((c.allocated n).newBlock k ((c.makeRoom n).arena.alloc n).1 n p) (h.find?_makeRoom hk n)
    rw [he] at hbase ⊢
    constructor
    · constructor
      · intro e he
        rcases hmem.mp he with rfl | he
        · rfl
        · exact hroom.resident e he
      · intro e he
        rcases hmem.mp he with rfl | he
        · rfl
        · exact hroom.own_key e he
    · exact hbase
    · intro e he
      rcases hmem.mp he with rfl | he
      · have : (c.allocated n).arena.base ≠ 0 := hbase
        simp only [newBlock]
        omega
      · exact h.ptr_ne e (hs.mem he)

theorem SlotInv.syncFallback {c : VramCacheManager} (h : c.SlotInv) (k : ExpertKey) (n : ℕ)
    (p : ℤ) : (c.syncFallback k n p).2.SlotInv := by
  unfold VramCacheManager.syncFallback
  split_ifs
  · exact h
  · exact SlotInv.ensure (c := c.countFallback) ⟨h.countFallback, h.base_ne, h.ptr_ne⟩ k n p

theorem SlotInv.clear {c : VramCacheManager} (h : c.SlotInv) : c.clear.SlotInv where
  resident := by simp [VramCacheManager.clear, UnorderedMap.clear]
  own_key := by simp [VramCacheManager.clear, UnorderedMap.clear]
  base_ne := by
    rw [(clear_base_cap c).1]
    exact h.base_ne
  ptr_ne := by simp [VramCacheManager.clear, UnorderedMap.clear]

/-- The step lemma of the map part of the invariant, which no request can break. -/
theorem SlotInv.step {c : VramCacheManager} (h : c.SlotInv) (op : Op) : (c.step op).SlotInv := by
  cases op with
  | ensure k n p => exact h.ensure k n p
  | syncFallback k n p => exact h.syncFallback k n p
  | touch k => exact h.touch k
  | clear => exact h.clear

theorem run_slotInv {c : VramCacheManager} (h : c.SlotInv) (ops : List Op) :
    (run VramCacheManager.step c ops).SlotInv :=
  invariant_run_of_step (fun _ op hc => hc.step op) h ops

end Dee.VramCacheManager
