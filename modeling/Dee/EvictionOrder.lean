import Dee.VramCacheResidency

/-! Which blocks an eviction removes, as a function of the state before it: the
blocks sorted by score, ties in iteration order, lose their shortest prefix that
makes enough room. From this, the exact condition under which `ensure` succeeds. -/
namespace Dee

/-- The leftmost minimum of a list comes first when the list is sorted stably. -/
theorem insertionSort_of_argmin {α β : Type*} [LinearOrder β] {f : α → β} {l : List α} {m : α}
    (h : l.argmin f = some m) :
    ∃ pre post, l = pre ++ m :: post ∧
      l.insertionSort (fun a b => f a ≤ f b) =
        m :: (pre ++ post).insertionSort fun a b => f a ≤ f b := by
  induction l with
  | nil => simp at h
  | cons a l ih =>
    rw [List.argmin_cons] at h
    cases hl : l.argmin f with
    | none =>
      rw [hl] at h
      obtain rfl : a = m := Option.some.inj h
      rw [List.argmin_eq_none.mp hl]
      exact ⟨[], [], rfl, rfl⟩
    | some c =>
      rw [hl] at h
      dsimp only at h
      split_ifs at h with hca
      · obtain rfl : c = m := Option.some.inj h
        obtain ⟨pre, post, rfl, hs⟩ := ih hl
        refine ⟨a :: pre, post, rfl, ?_⟩
        rw [List.insertionSort_cons, hs, List.orderedInsert, if_neg hca.not_ge]
        rfl
      · obtain rfl : a = m := Option.some.inj h
        refine ⟨[], l, rfl, ?_⟩
        rw [List.insertionSort_cons, List.nil_append]
        cases hs : l.insertionSort fun a b => f a ≤ f b with
        | nil => rfl
        | cons b t =>
          have hb : b ∈ l := (List.perm_insertionSort (fun a b => f a ≤ f b) l).mem_iff.mp (by simp [hs])
          rw [List.orderedInsert, if_pos ((not_lt.mp hca).trans (List.le_of_mem_argmin hb hl))]

namespace VramCacheManager
open GuardedRuns

/-- The blocks in the order in which they would be evicted. -/
def evictionOrder (c : VramCacheManager) : List (ExpertKey × ExpertBlock) :=
  c.blocks.entries.insertionSort fun e f => e.2.evictionScore ≤ f.2.evictionScore

/-- How many blocks must go, in this order, until `need` bytes are free. -/
def evictCount (need : ℕ) : ℕ → List (ExpertKey × ExpertBlock) → ℕ
  | _, [] => 0
  | free, e :: es => if free < need then evictCount need (free + e.2.size) es + 1 else 0

/-- The blocks that an eviction for `need` bytes leaves in place. -/
def survivors (c : VramCacheManager) (need : ℕ) : List (ExpertKey × ExpertBlock) :=
  c.evictionOrder.drop (evictCount need c.arena.freeSpace c.evictionOrder)

theorem evictionOrder_perm (c : VramCacheManager) : c.evictionOrder.Perm c.blocks.entries :=
  List.perm_insertionSort _ _

theorem MapInv.evictionOrder_evict {c : VramCacheManager} (h : c.MapInv)
    {e : ExpertKey × ExpertBlock} (hv : c.findVictim = some e) :
    c.evictionOrder = e :: (c.evict e).evictionOrder := by
  have he := MapInv.findVictim_mem hv
  rw [findVictim_eq_argmin, h.resident_filter] at hv
  obtain ⟨pre, post, hl, hs⟩ := insertionSort_of_argmin hv
  have hrest : (c.evict e).blocks.entries = pre ++ post := by
    have hnd := c.blocks.keys_nodup
    rw [hl, List.map_append, List.map_cons] at hnd
    obtain ⟨-, h2, h3⟩ := List.nodup_append.mp hnd
    obtain ⟨h4, -⟩ := List.nodup_cons.mp h2
    rw [h.evict_blocks he]
    simp only [UnorderedMap.erase]
    rw [hl, List.filter_append, List.filter_cons_of_neg (by simp)]
    congr 1
    · refine List.filter_eq_self.mpr fun g hg => ?_
      simpa using h3 g.1 (List.mem_map_of_mem hg) e.1 (by simp)
    · refine List.filter_eq_self.mpr fun g hg => ?_
      have hne : g.1 ≠ e.1 := fun heq => h4 (heq ▸ List.mem_map_of_mem hg)
      simpa using hne
  rw [evictionOrder, hs, evictionOrder, hrest]

theorem Inv.freeSpace_evict {c : VramCacheManager} (h : c.Inv) {e : ExpertKey × ExpertBlock}
    (he : e ∈ c.blocks.entries) :
    (c.evict e).arena.freeSpace = c.arena.freeSpace + e.2.size := by
  have ht := h.tiled.perm (h.spans_perm_evict he)
  have hle := ht.used_le
  have hu := ht.used_eq
  rw [(h.evict he).tiled.freeSpace_eq, ht.freeSpace_eq, (h.evict_shrunk he).cap]
  simp only [Span.total_cons, ExpertBlock.span] at *
  omega

theorem survivors_of_done {c : VramCacheManager} {need : ℕ}
    (h : need ≤ c.arena.freeSpace ∨ c.blocks.entries = []) :
    c.evictionOrder = c.survivors need := by
  rw [survivors]
  cases hl : c.evictionOrder with
  | nil => rfl
  | cons e es =>
    have hne : c.blocks.entries ≠ [] := fun hnil => by
      have := c.evictionOrder_perm.length_eq
      simp [hl, hnil] at this
    rw [evictCount, if_neg (h.resolve_right hne).not_gt, List.drop_zero]

theorem Inv.survivors_evict {c : VramCacheManager} (h : c.Inv) {e : ExpertKey × ExpertBlock}
    {need : ℕ} (hlt : c.arena.freeSpace < need) (hv : c.findVictim = some e) :
    (c.evict e).survivors need = c.survivors need := by
  rw [survivors, survivors, h.evictionOrder_evict hv,
    h.freeSpace_evict (MapInv.findVictim_mem hv), evictCount, if_pos hlt, List.drop_succ_cons]

theorem Inv.evictLoop_order {c : VramCacheManager} (h : c.Inv) {need fuel : ℕ}
    (hf : c.blocks.entries.length ≤ fuel) :
    (evictLoop need fuel c).evictionOrder = c.survivors need :=
  MapInv.evictLoop_rel (P := fun c c' => c.Inv → c'.evictionOrder = c.survivors need)
    (fun c hdone _ => survivors_of_done hdone)
    (fun c e c' _ hlt hv ih h => by
      rw [← h.survivors_evict hlt hv]
      exact ih (h.evict (MapInv.findVictim_mem hv)))
    h.toMapInv hf h

/-- The eviction loop leaves exactly the survivors. -/
theorem Inv.evictUntilFree_perm {c : VramCacheManager} (h : c.Inv) (need : ℕ) :
    (c.evictUntilFree need).blocks.entries.Perm (c.survivors need) := by
  have ho : (c.evictUntilFree need).evictionOrder = c.survivors need := h.evictLoop_order le_rfl
  rw [← ho]
  exact (evictionOrder_perm _).symm

/-- A run of `n` bytes below the high-water mark that no survivor of the eviction
touches, or `n` bytes above the mark. -/
def HasRun (c : VramCacheManager) (n : ℕ) : Prop :=
  (∃ o, o + n ≤ c.arena.high ∧
    ∀ p, o ≤ p → p < o + n → ∀ e ∈ c.survivors n, ¬ e.2.span.Has p) ∨
  c.arena.high + n ≤ c.arena.cap

/-- The bytes in use after the eviction are those of the survivors. -/
theorem Inv.covers_makeRoom {c : VramCacheManager} (h : c.Inv) (n p : ℕ) :
    Span.Covers (c.makeRoom n).spans p ↔ ∃ e ∈ c.survivors n, e.2.span.Has p := by
  have hperm : (c.makeRoom n).blocks.entries.Perm (c.survivors n) :=
    h.countEnsure.evictUntilFree_perm n
  simp only [Span.Covers, spans, List.mem_map]
  constructor
  · rintro ⟨s, ⟨e, he, rfl⟩, hp⟩
    exact ⟨e, hperm.mem_iff.mp he, hp⟩
  · rintro ⟨e, he, hp⟩
    exact ⟨_, ⟨e, hperm.mem_iff.mpr he, rfl⟩, hp⟩

theorem Inv.fits_makeRoom_iff {c : VramCacheManager} (h : c.Inv) {n : ℕ} (hn : 0 < n) :
    (c.makeRoom n).arena.Fits n ↔ c.HasRun n := by
  have hs := (h.toMapInv.makeRoom n).2
  rw [Arena.Fits, (h.makeRoom n).tiled.tiling.exists_run_iff hn, hs.high, hs.cap, HasRun]
  simp only [h.covers_makeRoom, not_exists, not_and]

/-- One call of `ensure` from a well-represented state. -/
theorem Inv.ensure_eq_true_iff {c : VramCacheManager} (h : c.Inv) {k : ExpertKey} {n : ℕ} {p : ℤ}
    (hn : 0 < n) (hw : c.arena.high + n < 2 ^ 64) :
    (c.ensure k n p).1 = true ↔ c.isResident k = true ∨ c.HasRun n := by
  have hs := (h.toMapInv.makeRoom n).2
  rw [← h.fits_makeRoom_iff hn]
  rcases (h.makeRoom n).tiled.alloc_cases hn (fun _ => by rw [hs.high]; exact hw)
    with ⟨hfit, -, hne, -⟩ | ⟨hfit, hsame⟩ <;>
  rcases ensure_cases c k n p with ⟨hk, he⟩ | ⟨hk, ha, he⟩ | ⟨hk, ha, he⟩
  · simp [he, hk]
  · exact absurd ha hne
  · simp [he, hfit]
  · simp [he, hk]
  · simp [he, hk, hfit]
  · rw [hsame] at ha
    exact absurd rfl ha

/-- After every run, `ensure` makes an expert resident exactly when it is resident
already or the survivors of the eviction leave a contiguous run for it. -/
theorem run_ensure_iff (order : Order) (be : Backend) (B : ℕ) {c₀ : VramCacheManager}
    (hB : B < 2 ^ 64) (hinit : (fresh order).init B be = (true, c₀)) (ops : List Op)
    (k : ExpertKey) {n : ℕ} (p : ℤ) (hn : 0 < n)
    (hw : Guarded step NoWrap c₀ (ops ++ [.ensure k n p])) :
    ((run step c₀ ops).ensure k n p).1 = true ∧
        ((run step c₀ ops).ensure k n p).2.isResident k = true ↔
      (run step c₀ ops).isResident k = true ∨ (run step c₀ ops).HasRun n := by
  obtain ⟨base, -, rfl⟩ := init_eq_true hinit
  obtain ⟨h1, h2⟩ := guarded_append.mp hw
  have hinv := run_inv (started_inv order base hB) h1
  rw [← hinv.ensure_eq_true_iff hn h2.1 (p := p)]
  exact ⟨fun h => h.1, fun h => ⟨h, hinv.ensure_resident h⟩⟩

/-- A free byte left between two blocks serves a one-byte request after one eviction. -/
theorem run_ensure_iff_small :
    let c := run step (started (.newestFirst _ _) 100 4) [.ensure ⟨0, 0⟩ 2 0, .ensure ⟨0, 1⟩ 2 0]
    ((c.ensure ⟨1, 0⟩ 1 0).1 = true ∧ (c.ensure ⟨1, 0⟩ 1 0).2.isResident ⟨1, 0⟩ = true ↔
      c.isResident ⟨1, 0⟩ = true ∨ c.HasRun 1) :=
  run_ensure_iff (.newestFirst _ _) (.host 100) 4 (by decide) rfl _ ⟨1, 0⟩ 0 (by decide)
    (by simp only [Guarded, NoWrap, List.cons_append, List.nil_append]; decide)

/-- Four bytes of budget, one byte loaded: the empty arena cannot serve four bytes,
since the hole below the high-water mark is never joined to the space above it. -/
theorem ensure_refuses_fitting_request :
    ¬ ∀ (order : Order) (be : Backend) (B : ℕ) (c₀ : VramCacheManager),
      (fresh order).init B be = (true, c₀) → ∀ (ops : List Op) (k : ExpertKey) (n : ℕ) (p : ℤ),
        0 < n → n ≤ B → ((run step c₀ ops).ensure k n p).1 = true ∧
          ((run step c₀ ops).ensure k n p).2.isResident k = true := by
  intro h
  have hfail := (h (.newestFirst _ _) (.host 100) 4 _ rfl [.ensure ⟨0, 0⟩ 1 0] ⟨0, 1⟩ 4 0
    (by decide) (by decide)).1
  revert hfail
  decide

end VramCacheManager
end Dee
