import Dee.ArenaCompleteness
import Dee.EvictionOrder

/-! Requests near the 64-bit limit. A load that finds no free run below the high-water
mark adds its size to the mark without a check for overflow; as long as this sum does
not wrap, everything stays inside the budget. -/
namespace Dee.VramCacheManager
open GuardedRuns

/-- Below the high-water mark, the survivors of the eviction leave a run of `n` bytes. -/
def RunBelow (c : VramCacheManager) (n : ℕ) : Prop :=
  ∃ o, o + n ≤ c.arena.high ∧ ∀ p, o ≤ p → p < o + n → ∀ e ∈ c.survivors n, ¬ e.2.span.Has p

/-- The operation does not wrap the high-water mark: a load that comes to the bump pointer
asks for a size that can be added to it. -/
def BumpFits (c : VramCacheManager) : Op → Prop
  | .ensure k n _ => c.isResident k = false → ¬ c.RunBelow n → c.arena.high + n < 2 ^ 64
  | .syncFallback k n _ => c.isResident k = false → ¬ c.RunBelow n → c.arena.high + n < 2 ^ 64
  | _ => True

/-- After the eviction some hole is large enough exactly when there is such a run. -/
theorem Inv.runBelow_iff {c : VramCacheManager} (h : c.Inv) {n : ℕ} (hn : 0 < n) :
    c.RunBelow n ↔ ∃ s ∈ (c.makeRoom n).arena.holes, n ≤ s.size := by
  have hs := (h.toMapInv.makeRoom n).2
  rw [(h.makeRoom n).tiled.tiling.exists_run_iff hn, hs.high, RunBelow]
  simp only [h.covers_makeRoom, not_exists, not_and]

theorem Inv.holes_lt {c : VramCacheManager} (h : c.Inv) {n : ℕ} (hn : 0 < n)
    (hno : ¬ c.RunBelow n) : ∀ s ∈ (c.makeRoom n).arena.holes, s.size < n := by
  intro s hs
  by_contra hle
  exact hno ((h.runBelow_iff hn).mpr ⟨s, hs, not_lt.mp hle⟩)

theorem Inv.not_runBelow_of_holes {c : VramCacheManager} (h : c.Inv) {n : ℕ} (hn : 0 < n)
    (hlt : ∀ s ∈ (c.makeRoom n).arena.holes, s.size < n) : ¬ c.RunBelow n := by
  rw [h.runBelow_iff hn]
  rintro ⟨s, hs, hle⟩
  have := hlt s hs
  omega

/-- The step lemma of `ensure` under the condition on the state before it. -/
theorem Inv.ensure_of_bumpFits {c : VramCacheManager} (h : c.Inv) {k : ExpertKey} {n : ℕ} {p : ℤ}
    (hw : c.BumpFits (.ensure k n p)) : (c.ensure k n p).2.Inv := by
  apply h.ensure_of_bump
  intro hk hlt
  rcases Nat.eq_zero_or_pos n with rfl | hn
  · have := h.tiled.high_le
    have := h.tiled.cap_lt
    omega
  · exact hw hk (h.not_runBelow_of_holes hn hlt)

theorem Inv.step_of_bumpFits {c : VramCacheManager} (h : c.Inv) {op : Op} (hw : c.BumpFits op) :
    (c.step op).Inv := by
  cases op with
  | ensure k n p => exact h.ensure_of_bumpFits hw
  | syncFallback k n p =>
    simp only [VramCacheManager.step, VramCacheManager.syncFallback]
    split_ifs
    · exact h
    · exact Inv.ensure_of_bumpFits (c := c.countFallback) (h.with_stats _) (p := p) hw
  | touch k => exact h.touch k
  | clear => exact h.clear

/-- The invariant and the budget along every run whose bump sums do not wrap. -/
theorem run_inv_of_bumpFits {c : VramCacheManager} (h : c.Inv) {ops : List Op}
    (hw : Guarded step BumpFits c ops) :
    (run step c ops).Inv ∧ (run step c ops).arena.cap = c.arena.cap :=
  invariant_run (P := fun c' => c'.Inv ∧ c'.arena.cap = c.arena.cap)
    (fun _ op hc hg => ⟨hc.1.step_of_bumpFits hg, (step_base_cap hc.1.toMapInv op).2.trans hc.2⟩)
    ⟨h, rfl⟩ hw

/-- What a load owes to its budget: the size, the high-water mark, the bytes in use and the
new block all lie within it. -/
structure WithinBudget (c : VramCacheManager) (k : ExpertKey) (n B : ℕ) : Prop where
  size_le : n ≤ B
  high_le : c.arena.high ≤ B
  used_le : c.usedBytes ≤ B
  block : ∃ b, c.blocks.find? k = some b ∧ b.size = n ∧ b.offset + n ≤ B

/-- The request would wrap the high-water mark and be served behind it all the same. -/
structure Wraps (c : VramCacheManager) (n : ℕ) : Prop where
  no_run : ¬ c.RunBelow n
  wraps : 2 ^ 64 ≤ c.arena.high + n
  high_ne : c.arena.high ≠ npos

theorem find?_place {c : VramCacheManager} {k : ExpertKey} {o n : ℕ} {p : ℤ}
    (hk : c.blocks.find? k = none) :
    (c.place k o n p).blocks.find? k = some (c.newBlock k o n p) := by
  rw [place, UnorderedMap.find?_assign _ hk, if_pos rfl]

/-- A load that does not wrap stays within the capacity. -/
theorem Inv.ensure_withinBudget {c : VramCacheManager} (h : c.Inv) {k : ExpertKey} {n : ℕ} {p : ℤ}
    (hk : c.isResident k = false) (hw : c.BumpFits (.ensure k n p))
    (ht : (c.ensure k n p).1 = true) : (c.ensure k n p).2.WithinBudget k n c.arena.cap := by
  have h' := h.ensure_of_bumpFits hw
  have hcap := (ensure_base_cap c h.toMapInv k n p).2
  obtain ⟨b, hb⟩ := h'.isResident_iff.mp (h.toMapInv.ensure_resident ht)
  have hsize := h.toMapInv.ensure_size_of_miss hk hb
  have hstop := h'.tiled.live_stop_le b.span
    (List.mem_map_of_mem (f := fun e : ExpertKey × ExpertBlock => e.2.span) hb)
  rw [hcap] at hstop
  simp only [Span.stop, ExpertBlock.span, hsize] at hstop
  exact ⟨by omega, hcap ▸ h'.tiled.high_le, hcap ▸ h'.tiled.used_le, b,
    UnorderedMap.find?_eq_some.mpr hb, hsize, hstop⟩

/-- A load that wraps is accepted at the high-water mark. -/
theorem Inv.ensure_of_wraps {c : VramCacheManager} (h : c.Inv) {k : ExpertKey} {n : ℕ} {p : ℤ}
    (hn : 0 < n) (hlt : n < 2 ^ 64) (hk : c.isResident k = false) (hw : c.Wraps n) :
    (c.ensure k n p).1 = true ∧ ¬ (c.ensure k n p).2.WithinBudget k n c.arena.cap := by
  have hs := (h.toMapInv.makeRoom n).2
  have hroom := (h.makeRoom n).tiled
  have hcap := h.tiled.cap_lt
  -- the wrapped sum lies below the mark, so the bump is accepted
  have hoff : ((c.makeRoom n).arena.alloc n).1 = c.arena.high := by
    have hhigh := h.tiled.high_le
    have hle : szAdd (c.makeRoom n).arena.high n ≤ (c.makeRoom n).arena.cap := by
      rw [hs.high, hs.cap]
      rcases szAdd_cases (hhigh.trans_lt hcap) hlt with ⟨hno, -⟩ | ⟨-, he⟩
      · have := hw.wraps
        omega
      · omega
    rcases hroom.alloc_spec hn with ⟨⟨s, hs', hfit⟩, -⟩ | ⟨-, ha⟩
    · exact absurd hfit (h.holes_lt hn hw.no_run s hs').not_ge
    · rw [ha, if_pos hle]
      exact hs.high
  rcases ensure_cases c k n p with ⟨hk', -⟩ | ⟨-, ha, -⟩ | ⟨-, ha, he⟩
  · simp [hk] at hk'
  · exact absurd (hoff ▸ ha) hw.high_ne
  · rw [he]
    refine ⟨rfl, ?_⟩
    rintro ⟨-, -, -, b, hb, -, hle⟩
    have hnone : (c.allocated n).blocks.find? k = none := h.toMapInv.find?_makeRoom hk n
    rw [find?_place hnone] at hb
    obtain rfl := Option.some.inj hb
    simp only [newBlock, hoff] at hle
    have := hw.wraps
    omega

/-- One call from a well-represented state: a successful load stays within the capacity
exactly unless it wraps. -/
theorem Inv.ensure_withinBudget_iff {c : VramCacheManager} (h : c.Inv) {k : ExpertKey} {n : ℕ}
    {p : ℤ} (hn : 0 < n) (hlt : n < 2 ^ 64) (hk : c.isResident k = false) :
    ((c.ensure k n p).1 = true → (c.ensure k n p).2.WithinBudget k n c.arena.cap) ↔
      ¬ c.Wraps n := by
  constructor
  · intro hall hw
    obtain ⟨ht, hno⟩ := h.ensure_of_wraps (p := p) hn hlt hk hw
    exact hno (hall ht)
  · intro hw ht
    by_cases hbump : c.BumpFits (.ensure k n p)
    · exact h.ensure_withinBudget hk hbump ht
    · -- the mark is `npos`, so the wrapped bump returns the failure value
      simp only [BumpFits, not_forall] at hbump
      obtain ⟨-, hrun, hwrap⟩ := hbump
      have hmark : c.arena.high = npos := by
        by_contra hne
        exact hw ⟨hrun, not_lt.mp hwrap, hne⟩
      have hfail : ((c.makeRoom n).arena.alloc n).1 = npos := by
        rw [(h.makeRoom n).tiled.alloc_eq_npos_iff hn hlt, (h.toMapInv.makeRoom n).2.high]
        exact ⟨h.holes_lt hn hrun, Or.inr hmark⟩
      rcases ensure_cases c k n p with ⟨hk', -⟩ | ⟨-, -, he⟩ | ⟨-, ha, -⟩
      · simp [hk] at hk'
      · simp [he] at ht
      · exact absurd hfail ha

/-- In every run from `init` whose bump sums do not wrap: a load that succeeds stays within
the budget, exactly unless its own bump wraps. -/
theorem run_ensure_within_budget_iff (order : Order) (be : Backend) (B : ℕ)
    {c₀ : VramCacheManager} (hB : B < 2 ^ 64) (hinit : (fresh order).init B be = (true, c₀))
    (ops : List Op) (hw : Guarded step BumpFits c₀ ops) (k : ExpertKey) {n : ℕ} (p : ℤ)
    (hn : 0 < n) (hlt : n < 2 ^ 64) :
    let c := run step c₀ ops
    c.isResident k = false →
      (((c.ensure k n p).1 = true → (c.ensure k n p).2.WithinBudget k n B) ↔ ¬ c.Wraps n) := by
  intro c hk
  obtain ⟨base, -, rfl⟩ := init_eq_true hinit
  obtain ⟨hinv, hcap⟩ := run_inv_of_bumpFits (started_inv order base hB) hw
  have hB' : c.arena.cap = B := hcap
  rw [← hB']
  exact hinv.ensure_withinBudget_iff hn hlt hk

/-- Five of ten bytes are in use; four more fit. -/
theorem run_ensure_within_budget_iff_four :
    let c := run step (started (.newestFirst _ _) 100 10) [.ensure ⟨0, 0⟩ 5 0]
    ((c.ensure ⟨0, 1⟩ 4 0).1 = true → (c.ensure ⟨0, 1⟩ 4 0).2.WithinBudget ⟨0, 1⟩ 4 10) ↔
      ¬ c.Wraps 4 := by
  have hinit : (fresh (.newestFirst _ _)).init 10 (.host 100) =
      (true, started (.newestFirst _ _) 100 10) := rfl
  refine run_ensure_within_budget_iff (.newestFirst _ _) (.host 100) 10 (by decide) hinit
    [.ensure ⟨0, 0⟩ 5 0] ⟨fun _ _ => ?_, trivial⟩ ⟨0, 1⟩ 0 (by decide) (by decide) (by decide)
  decide

/-- In the same state a request of `2^64 - 3` bytes evicts the expert, wraps the mark to 2 and
is served at offset 5. -/
theorem ensure_accepts_wrapped_request :
    ¬ ∀ (order : Order) (be : Backend) (B : ℕ) (c₀ : VramCacheManager), B < 2 ^ 64 →
      (fresh order).init B be = (true, c₀) → ∀ (ops : List Op) (k : ExpertKey) (n : ℕ) (p : ℤ),
        0 < n → n < 2 ^ 64 → (run step c₀ ops).isResident k = false →
          ((run step c₀ ops).ensure k n p).1 = true →
            ((run step c₀ ops).ensure k n p).2.WithinBudget k n B := by
  intro h
  have hinit : (fresh (.newestFirst _ _)).init 10 (.host 100) =
      (true, started (.newestFirst _ _) 100 10) := rfl
  have hbad := (h (.newestFirst _ _) (.host 100) 10 _ (by decide) hinit [.ensure ⟨0, 0⟩ 5 0]
    ⟨0, 1⟩ (2 ^ 64 - 3) 0 (by decide) (by decide) (by decide) (by decide)).size_le
  revert hbad
  decide

end Dee.VramCacheManager
