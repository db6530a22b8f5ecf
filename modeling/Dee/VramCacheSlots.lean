import Dee.EvictionOrder
import Dee.ScoredCache

/-! With one block size the byte-granular cache is a cache of `budget / size` slots.
Every offset gap is then a multiple of the size, so free bytes for one block always
form a contiguous block, and the manager refines the slot specification. -/
namespace Dee.VramCacheManager
open GuardedRuns

/-- All blocks have size `s`, and all holes are multiples of it. -/
structure Uniform (s : ℕ) (c : VramCacheManager) : Prop extends Inv c where
  size_eq : ∀ e ∈ c.blocks.entries, e.2.size = s
  holes_dvd : ∀ h ∈ c.arena.holes, s ∣ h.size

variable {s : ℕ}

theorem Uniform.total_spans {c : VramCacheManager} (h : Uniform s c) :
    Span.total c.spans = c.blocks.entries.length * s := by
  rw [Span.total_eq_mul (k := s), spans, List.length_map]
  intro t ht
  obtain ⟨e, he, rfl⟩ := List.mem_map.mp ht
  exact h.size_eq e he

theorem Uniform.freeSpace_eq {c : VramCacheManager} (h : Uniform s c) :
    c.arena.freeSpace = c.arena.cap - c.blocks.entries.length * s := by
  rw [h.tiled.freeSpace_eq, h.total_spans]

/-- Room for one block in total is room for one block in one piece. -/
theorem Uniform.room {c : VramCacheManager} (h : Uniform s c) (hs : s ≤ c.arena.freeSpace) :
    (∃ t ∈ c.arena.holes, s ≤ t.size) ∨ (c.arena.holes = [] ∧ c.arena.high + s ≤ c.arena.cap) := by
  cases hl : c.arena.holes with
  | nil =>
    have hsum := h.tiled.tiling.sum
    have hle := h.tiled.tiling.total_live_le
    have hhigh := h.tiled.high_le
    rw [hl, Span.total_nil] at hsum
    rw [h.tiled.freeSpace_eq] at hs
    exact Or.inr ⟨rfl, by omega⟩
  | cons t l =>
    have ht : t ∈ c.arena.holes := by simp [hl]
    exact Or.inl ⟨t, by simp, Nat.le_of_dvd (h.tiled.tiling.holes_nonempty t ht) (h.holes_dvd t ht)⟩

theorem Uniform.fits {c : VramCacheManager} (h : Uniform s c) (hs : s ≤ c.arena.freeSpace) :
    c.arena.Fits s := (h.room hs).imp id And.right

/-- No wrap can happen: the mark is only moved when there is no hole at all. -/
theorem Uniform.no_wrap {c : VramCacheManager} (h : Uniform s c) (hs : s ≤ c.arena.freeSpace) :
    (∀ t ∈ c.arena.holes, t.size < s) → c.arena.high + s < 2 ^ 64 := by
  intro hsmall
  have hcap := h.tiled.cap_lt
  rcases h.room hs with ⟨t, ht, hle⟩ | ⟨-, hle⟩
  · have := hsmall t ht
    omega
  · omega

theorem Uniform.with_stats {c : VramCacheManager} (h : Uniform s c) (st : CacheStats) :
    Uniform s { c with stats := st } :=
  ⟨h.toInv.with_stats st, h.size_eq, h.holes_dvd⟩

theorem Uniform.evict {c : VramCacheManager} (h : Uniform s c) {e : ExpertKey × ExpertBlock}
    (he : e ∈ c.blocks.entries) : Uniform s (c.evict e) where
  toInv := h.toInv.evict he
  size_eq := fun f hf => h.size_eq f ((h.evict_shrunk he).mem hf)
  holes_dvd := by
    have ht := (h.tiled.perm (h.spans_perm_evict he)).free_eq
    have harena : (c.evict e).arena = c.arena.free e.2.span.off e.2.span.size := rfl
    rw [harena, ht]
    refine Span.merge_dvd fun t hmem => ?_
    rcases List.mem_cons.mp ((Span.insert_perm _ _).mem_iff.mp hmem) with rfl | hmem
    · exact dvd_of_eq (h.size_eq e he).symm
    · exact h.holes_dvd t hmem

theorem Uniform.count_le {c : VramCacheManager} (h : Uniform s c) (hs : 0 < s) :
    c.blocks.entries.length ≤ c.arena.cap / s := by
  rw [Nat.le_div_iff_mul_le hs, ← h.total_spans]
  exact (h.tiled.tiling.total_live_le).trans h.tiled.high_le

theorem Uniform.freeSpace_of_lt {c : VramCacheManager} (h : Uniform s c) (hs : 0 < s)
    (hlt : c.blocks.entries.length < c.arena.cap / s) : s ≤ c.arena.freeSpace := by
  have hle := (Nat.le_div_iff_mul_le hs).mp hlt
  rw [Nat.succ_mul] at hle
  rw [h.freeSpace_eq]
  omega

theorem Uniform.freeSpace_of_full {c : VramCacheManager} (h : Uniform s c) (hs : 0 < s)
    (hfull : c.blocks.entries.length = c.arena.cap / s) : c.arena.freeSpace < s := by
  have hlt := Nat.lt_div_mul_add (a := c.arena.cap) hs
  rw [h.freeSpace_eq, hfull]
  omega

/-- A full cache gives up exactly its lowest-scored block. -/
theorem Uniform.evictUntilFree_of_full {c : VramCacheManager} (h : Uniform s c) (hs : 0 < s)
    (hle : s ≤ c.arena.cap) (hfull : c.blocks.entries.length = c.arena.cap / s) :
    ∃ e, c.findVictim = some e ∧ c.evictUntilFree s = c.evict e := by
  have hpos : 0 < c.arena.cap / s := Nat.div_pos hle hs
  cases hv : c.findVictim with
  | none =>
    have := h.findVictim_eq_none hv
    simp [this] at hfull
    omega
  | some e =>
    have he := MapInv.findVictim_mem hv
    refine ⟨e, rfl, ?_⟩
    obtain ⟨n, hn⟩ := Nat.exists_eq_succ_of_ne_zero (show c.blocks.entries.length ≠ 0 by omega)
    have hne : c.blocks.entries ≠ [] := fun hnil => by simp [hnil] at hn
    have hroom : s ≤ (c.evict e).arena.freeSpace := by
      rw [h.freeSpace_evict he, h.size_eq e he]
      omega
    rw [VramCacheManager.evictUntilFree, hn, evictLoop,
      if_pos ⟨h.freeSpace_of_full hs hfull, hne⟩, hv]
    exact evictLoop_eq_self (Or.inl hroom) n

/-- What making room for one more block does to a uniform cache. -/
theorem Uniform.makeRoom_cases {c : VramCacheManager} (h : Uniform s c) (hs : 0 < s)
    (hle : s ≤ c.arena.cap) :
    (c.blocks.entries.length < c.arena.cap / s ∧ c.makeRoom s = c.countEnsure) ∨
    (c.blocks.entries.length = c.arena.cap / s ∧
      ∃ e, c.findVictim = some e ∧ c.makeRoom s = c.countEnsure.evict e) := by
  rcases (h.count_le hs).lt_or_eq with hlt | hfull
  · have hroom : s ≤ c.arena.freeSpace := h.freeSpace_of_lt hs hlt
    exact Or.inl ⟨hlt, evictUntilFree_eq_self (c := c.countEnsure) (Or.inl hroom)⟩
  · obtain ⟨e, hv, he⟩ := (h.with_stats _).evictUntilFree_of_full (c := c.countEnsure) hs hle hfull
    exact Or.inr ⟨hfull, e, hv, he⟩

theorem Uniform.makeRoom {c : VramCacheManager} (h : Uniform s c) (hs : 0 < s)
    (hle : s ≤ c.arena.cap) :
    Uniform s (c.makeRoom s) ∧ s ≤ (c.makeRoom s).arena.freeSpace := by
  have hc : Uniform s c.countEnsure := h.with_stats _
  rcases h.makeRoom_cases hs hle with ⟨hlt, he⟩ | ⟨hfull, e, hv, he⟩
  · rw [he]
    exact ⟨hc, h.freeSpace_of_lt hs hlt⟩
  · have hmem := MapInv.findVictim_mem hv
    rw [he]
    refine ⟨hc.evict hmem, ?_⟩
    rw [hc.freeSpace_evict hmem, h.size_eq e hmem]
    omega

/-- A load in a uniform cache always succeeds. -/
theorem Uniform.alloc {c : VramCacheManager} (h : Uniform s c) (hs : 0 < s)
    (hle : s ≤ c.arena.cap) :
    ((c.makeRoom s).arena.alloc s).1 ≠ npos ∧
      ((c.makeRoom s).arena.alloc s).2.Tiled
        (⟨((c.makeRoom s).arena.alloc s).1, s⟩ :: (c.makeRoom s).spans) := by
  obtain ⟨hroom, hfree⟩ := h.makeRoom hs hle
  rcases hroom.tiled.alloc_cases hs (hroom.no_wrap hfree) with ⟨-, -, hne, ht⟩ | ⟨hno, -⟩
  · exact ⟨hne, ht⟩
  · exact absurd (hroom.fits hfree) hno

/-- The two outcomes of `ensure` on a uniform cache. -/
theorem Uniform.ensure_cases {c : VramCacheManager} (h : Uniform s c) (hs : 0 < s)
    (hle : s ≤ c.arena.cap) (k : ExpertKey) (p : ℤ) :
    (c.isResident k = true ∧ c.ensure k s p = (true, c.countEnsure.refresh k p)) ∨
    (c.isResident k = false ∧ c.ensure k s p =
      (true, (c.allocated s).place k ((c.makeRoom s).arena.alloc s).1 s p)) := by
  rcases VramCacheManager.ensure_cases c k s p with he | ⟨-, ha, -⟩ | ⟨hk, -, he⟩
  · exact Or.inl he
  · exact absurd ha (h.alloc hs hle).1
  · exact Or.inr ⟨hk, he⟩

theorem Uniform.renew {c c' : VramCacheManager} (h : Uniform s c) {f : ExpertBlock → ExpertBlock}
    (hf : Renews c f) {k : ExpertKey} (hb : c'.blocks = c.blocks.modify k f)
    (ha : c'.arena = c.arena) (ht : c'.tick = c.tick + 1) : Uniform s c' where
  toInv := h.toInv.renew hf hb ha ht
  size_eq := by
    intro e he
    obtain ⟨b, hm, -, -, -, hsz, -⟩ := hf.entry (hb ▸ he)
    rw [hsz]
    exact h.size_eq _ hm
  holes_dvd := by
    rw [ha]
    exact h.holes_dvd

theorem Uniform.touch {c : VramCacheManager} (h : Uniform s c) (k : ExpertKey) :
    Uniform s (c.touch k) := by
  unfold VramCacheManager.touch
  split_ifs
  · exact h.renew (renews_touch c) rfl rfl rfl
  · exact h

theorem Uniform.ensure {c : VramCacheManager} (h : Uniform s c) (hs : 0 < s)
    (hle : s ≤ c.arena.cap) (k : ExpertKey) (p : ℤ) : Uniform s (c.ensure k s p).2 := by
  rcases h.ensure_cases hs hle k p with ⟨-, he⟩ | ⟨hk, he⟩
  · rw [he]
    exact (h.with_stats _).renew (renews_refresh c.countEnsure p) rfl rfl rfl
  · obtain ⟨hroom, -⟩ := h.makeRoom hs hle
    obtain ⟨-, ht⟩ := h.alloc hs hle
    have hnone := h.find?_makeRoom hk s
    rw [he]
    refine ⟨hroom.toInv.place hnone (Arena.alloc_base _ _) ht, fun e he => ?_, ?_⟩
    · rcases (UnorderedMap.mem_assign hnone).mp he with rfl | he
      · rfl
      · exact hroom.size_eq e he
    · exact hroom.tiled.alloc_holes_dvd hroom.holes_dvd

theorem ensure_cap {c : VramCacheManager} (h : c.MapInv) (k : ExpertKey) (n : ℕ) (p : ℤ) :
    (c.ensure k n p).2.arena.cap = c.arena.cap := (ensure_base_cap c h k n p).2

/-- The slot cache that a manager represents. -/
def slots (c : VramCacheManager) : ScoredCache.State ExpertKey :=
  ⟨c.tick, c.blocks.view fun b => (b.lastUsed, b.priority)⟩

/-- The specification's operations, run at block size `s`. -/
def slotStep (s : ℕ) (c : VramCacheManager) : ScoredCache.Op ExpertKey → VramCacheManager
  | .use k p => (c.ensure k s p).2
  | .touch k => c.touch k

theorem MapInv.mem_slots {c : VramCacheManager} (h : c.MapInv) {k : ExpertKey} :
    k ∈ c.slots.entries ↔ c.isResident k = true := by
  rw [Finmap.mem_iff, h.isResident_iff]
  simp [slots, UnorderedMap.lookup_view, UnorderedMap.find?_eq_some]

theorem MapInv.card_slots {c : VramCacheManager} (h : c.MapInv) :
    c.slots.entries.keys.card = c.residentCount := by
  rw [slots, UnorderedMap.card_keys_view, h.residentCount_eq]

theorem MapInv.slots_minimal {c : VramCacheManager} (h : c.MapInv) {e : ExpertKey × ExpertBlock}
    (hv : c.findVictim = some e) :
    c.slots.Minimal ExpertBlock.priorityWeight e.1 := by
  have he := UnorderedMap.find?_eq_some.mpr (MapInv.findVictim_mem hv)
  refine ⟨(e.2.lastUsed, e.2.priority), by simp [slots, UnorderedMap.lookup_view, he],
    fun u b hu => ?_⟩
  simp only [slots, UnorderedMap.lookup_view, Option.map_eq_some_iff] at hu
  obtain ⟨b', hb', rfl⟩ := hu
  exact h.findVictim_le hv (UnorderedMap.find?_eq_some.mp hb')

theorem slots_refresh {c : VramCacheManager} (h : c.MapInv) {k : ExpertKey}
    (hk : c.isResident k = true) (p : ℤ) :
    (c.refresh k p).slots = c.slots.stamp c.slots.entries k p := by
  obtain ⟨b, hb⟩ := h.isResident_iff.mp hk
  simp only [slots, VramCacheManager.refresh, ScoredCache.State.stamp]
  rw [UnorderedMap.view_modify _ (UnorderedMap.find?_eq_some.mpr hb)]

theorem slots_place {c : VramCacheManager} {a : Arena} {k : ExpertKey} {o n : ℕ} {p : ℤ}
    (hk : c.blocks.find? k = none) :
    (({ c with arena := a } : VramCacheManager).place k o n p).slots =
      c.slots.stamp c.slots.entries k p := by
  simp only [slots, VramCacheManager.place, ScoredCache.State.stamp]
  rw [UnorderedMap.view_assign _ hk]
  rfl

/-- The step lemma of the refinement. -/
theorem Uniform.refines {c : VramCacheManager} (h : Uniform s c) (hs : 0 < s)
    (hle : s ≤ c.arena.cap) (op : ScoredCache.Op ExpertKey) :
    ScoredCache.Step ExpertBlock.priorityWeight (c.arena.cap / s) c.slots op
      (slotStep s c op).slots := by
  cases op with
  | touch k =>
    simp only [slotStep, VramCacheManager.touch]
    split_ifs with hk
    · obtain ⟨b, hb⟩ := h.isResident_iff.mp hk
      have hf := UnorderedMap.find?_eq_some.mpr hb
      have hlook : c.slots.entries.lookup k = some (b.lastUsed, b.priority) := by
        simp [slots, UnorderedMap.lookup_view, hf]
      have hstamp : ({ c with
          blocks := c.blocks.modify k fun b => { b with lastUsed := c.tick + 1 }
          tick := c.tick + 1 } : VramCacheManager).slots =
            c.slots.stamp c.slots.entries k b.priority := by
        simp only [slots, ScoredCache.State.stamp]
        rw [UnorderedMap.view_modify _ hf]
      rw [hstamp]
      exact .touchHit hlook
    · exact .touchMiss fun hm => hk (h.mem_slots.mp hm)
  | use k p =>
    simp only [slotStep]
    rcases h.ensure_cases hs hle k p with ⟨hk, he⟩ | ⟨hk, he⟩
    · rw [he, slots_refresh h.toMapInv.countEnsure hk]
      exact .hit (h.mem_slots.mpr hk)
    · have hmiss : k ∉ c.slots.entries := fun hm => by simp [h.mem_slots.mp hm] at hk
      have hcard := h.card_slots.trans h.residentCount_eq
      rw [he]
      simp only [allocated]
      rw [slots_place (h.find?_makeRoom hk s)]
      rcases h.makeRoom_cases hs hle with ⟨hlt, hr⟩ | ⟨hfull, e, hv, hr⟩
      · rw [hr]
        exact .fill hmiss (by omega)
      · have hev : (c.countEnsure.evict e).slots = ⟨c.tick, c.slots.entries.erase e.1⟩ := by
          rw [slots, h.toMapInv.countEnsure.evict_blocks (MapInv.findVictim_mem hv), UnorderedMap.view_erase]
          rfl
        rw [hr, hev]
        exact .replace hmiss (by omega) (h.slots_minimal hv)

theorem Uniform.slotStep {c : VramCacheManager} (h : Uniform s c) (hs : 0 < s)
    (hle : s ≤ c.arena.cap) (op : ScoredCache.Op ExpertKey) : Uniform s (c.slotStep s op) := by
  cases op with
  | use k p => exact h.ensure hs hle k p
  | touch k => exact h.touch k

theorem slotStep_cap {c : VramCacheManager} (h : c.MapInv) (op : ScoredCache.Op ExpertKey) :
    (slotStep s c op).arena.cap = c.arena.cap := by
  cases op with
  | use k p => exact ensure_cap h k s p
  | touch k => rw [slotStep, touch_arena]

/-- A miss on a full cache evicts one block, and nothing else evicts. -/
theorem Uniform.ensure_evictions {c : VramCacheManager} (h : Uniform s c) (hs : 0 < s)
    (hle : s ≤ c.arena.cap) (k : ExpertKey) (p : ℤ) :
    (c.ensure k s p).2.stats.evictions = c.stats.evictions +
      if c.isResident k = false ∧ c.residentCount = c.arena.cap / s then 1 else 0 := by
  rw [h.residentCount_eq]
  rcases h.ensure_cases hs hle k p with ⟨hk, he⟩ | ⟨hk, he⟩
  · simp [he, hk, VramCacheManager.refresh, VramCacheManager.countEnsure]
  · have hst : ((c.allocated s).place k ((c.makeRoom s).arena.alloc s).1 s p).stats.evictions =
        (c.makeRoom s).stats.evictions := rfl
    rw [he, hst]
    rcases h.makeRoom_cases hs hle with ⟨hlt, hr⟩ | ⟨hfull, e, -, hr⟩
    · rw [hr, if_neg (by omega)]
      rfl
    · rw [hr, if_pos ⟨hk, hfull⟩]
      rfl

theorem started_uniform (order : Order) (base : ℕ) {B : ℕ} (hB : B < 2 ^ 64) :
    Uniform s (started order base B) :=
  ⟨started_inv order base hB, by simp [started, fresh, UnorderedMap.empty], by simp [started]⟩

theorem run_uniform {c : VramCacheManager} {B : ℕ} (h : Uniform s c) (hcap : c.arena.cap = B)
    (hs : 0 < s) (hle : s ≤ B) (ops : List (ScoredCache.Op ExpertKey)) :
    Uniform s (run (slotStep s) c ops) ∧ (run (slotStep s) c ops).arena.cap = B :=
  invariant_run_of_step (P := fun c => Uniform s c ∧ c.arena.cap = B)
    (fun _ op ⟨hc, hcB⟩ => ⟨hc.slotStep hs (hcB ▸ hle) op, (slotStep_cap hc.toMapInv op).trans hcB⟩)
    ⟨h, hcap⟩ ops

/-- Blocks of one size: the manager is a `B / s`-slot cache after every run, and each
of its calls is a step of the specification. -/
theorem run_refines_slots (order : Order) (be : Backend) (B : ℕ) {c₀ : VramCacheManager}
    (hB : B < 2 ^ 64) (hinit : (fresh order).init B be = (true, c₀)) (hs : 0 < s) (hle : s ≤ B)
    (ops : List (ScoredCache.Op ExpertKey)) :
    let c := run (slotStep s) c₀ ops
    Path (ScoredCache.Step ExpertBlock.priorityWeight (B / s)) .empty ops c.slots ∧
      (∀ op, ScoredCache.Step ExpertBlock.priorityWeight (B / s) c.slots op (c.slotStep s op).slots) ∧
      (∀ k p, (c.ensure k s p).1 = true ∧ (c.ensure k s p).2.isResident k = true ∧
        (c.ensure k s p).2.stats.evictions = c.stats.evictions +
          if c.isResident k = false ∧ c.residentCount = B / s then 1 else 0) ∧
      c.usedBytes = s * c.residentCount ∧ c.residentCount ≤ B / s := by
  obtain ⟨base, -, rfl⟩ := init_eq_true hinit
  have h0 := started_uniform (s := s) order base hB
  obtain ⟨hc, hcap⟩ := run_uniform h0 rfl hs hle ops
  have hpath := path_of_run (f := slots) (P := fun c => Uniform s c ∧ c.arena.cap = B)
    (fun _ op ⟨hc, hcB⟩ =>
      ⟨hc.slotStep hs (hcB ▸ hle) op, (slotStep_cap hc.toMapInv op).trans hcB⟩)
    (fun _ op ⟨hc, hcB⟩ => hcB ▸ hc.refines hs (hcB ▸ hle) op) ⟨h0, rfl⟩ ops
  generalize run (slotStep s) (started order base B) ops = c at hc hcap hpath ⊢
  subst hcap
  have htrue : ∀ k p, (c.ensure k s p).1 = true := fun k p => by
    rcases hc.ensure_cases hs hle k p with ⟨-, he⟩ | ⟨-, he⟩ <;> rw [he]
  refine ⟨hpath, hc.refines hs hle, fun k p => ⟨htrue k p,
    hc.ensure_resident (htrue k p), hc.ensure_evictions hs hle k p⟩, ?_, ?_⟩
  · rw [usedBytes, hc.tiled.used_eq, hc.total_spans, hc.residentCount_eq, Nat.mul_comm]
  · rw [hc.residentCount_eq]
    exact hc.count_le hs

/-- Two slots of three bytes and one byte to spare. -/
theorem run_refines_slots_small :
    let c := run (slotStep 3) (started (.newestFirst _ _) 100 7)
      [.use ⟨0, 0⟩ 1, .use ⟨0, 1⟩ 0, .touch ⟨0, 1⟩, .use ⟨0, 2⟩ 0]
    c.usedBytes = 3 * c.residentCount ∧ c.residentCount ≤ 7 / 3 ∧
      (c.ensure ⟨0, 3⟩ 3 0).1 = true ∧ (c.ensure ⟨0, 3⟩ 3 0).2.isResident ⟨0, 3⟩ = true := by
  intro c
  obtain ⟨-, -, hens, hused, hcount⟩ := run_refines_slots (.newestFirst _ _) (.host 100) 7
    (by decide) rfl (show 0 < 3 by decide) (by decide)
    [.use ⟨0, 0⟩ 1, .use ⟨0, 1⟩ 0, .touch ⟨0, 1⟩, .use ⟨0, 2⟩ 0]
  exact ⟨hused, hcount, (hens ⟨0, 3⟩ 0).1, (hens ⟨0, 3⟩ 0).2.1⟩

end Dee.VramCacheManager
