import Dee.LruAgreement
import Dee.ScoredInclusion
import Dee.VramCacheRuns

/-! More budget never hurts. Under a larger budget the byte-granular cache of one block size
keeps every expert that it keeps under a smaller one, whatever the priorities of the calls,
and so it hits at least as often and evicts at most as often. -/
namespace Dee.VramCacheManager
open GuardedRuns

variable {s : ℕ}

/-- A touch is for an expert that is resident, as the engine's are. -/
def TouchesResident (c : VramCacheManager) (op : ScoredCache.Op ExpertKey) : Prop :=
  ∀ k, op = .touch k → c.isResident k = true

theorem touchesResident_use (c : VramCacheManager) (k : ExpertKey) (p : ℤ) :
    TouchesResident c (.use k p) := fun _ h => by cases h

/-- Calls of `ensure` are hits or loads. -/
theorem Uniform.ensure_asked {c : VramCacheManager} (h : Uniform s c) (hs : 0 < s)
    (hle : s ≤ c.arena.cap) (k : ExpertKey) (p : ℤ) :
    (c.ensure k s p).2.stats.hits + (c.ensure k s p).2.stats.loads =
      c.stats.hits + c.stats.loads + 1 := by
  have hhits := h.ensure_hits hs hle k p
  rcases h.ensure_cases hs hle k p with ⟨hk, he⟩ | ⟨hk, he⟩
  · have hloads : (c.ensure k s p).2.stats.loads = c.stats.loads := by rw [he]; rfl
    rw [if_pos hk] at hhits
    omega
  · have hroom := (h.toMapInv.makeRoom s).2.loads
    have hloads : (c.ensure k s p).2.stats.loads = (c.makeRoom s).stats.loads + 1 := by
      rw [he]
      rfl
    rw [if_neg (by simp [hk])] at hhits
    have hcount : c.countEnsure.stats.loads = c.stats.loads := rfl
    omega

/-- A manager and one with a larger budget, behind the same calls. -/
structure Outgrown (s : ℕ) (c d : VramCacheManager) : Prop where
  small : Uniform s c
  large : Uniform s d
  cap_le : c.arena.cap ≤ d.arena.cap
  included : ScoredCache.Included (c.arena.cap / s) c.slots d.slots
  clocked : ScoredCache.Clocked d.slots
  clock_nonneg : 0 ≤ d.tick
  hits_le : c.stats.hits ≤ d.stats.hits
  asked_eq : c.stats.hits + c.stats.loads = d.stats.hits + d.stats.loads
  held_small : c.stats.loads = c.stats.evictions + c.blocks.entries.length
  held_large : d.stats.loads = d.stats.evictions + d.blocks.entries.length

variable {c d : VramCacheManager}

theorem Outgrown.isResident (h : Outgrown s c d) {k : ExpertKey} (hk : c.isResident k = true) :
    d.isResident k = true :=
  h.large.mem_slots.mp (h.included.mem (h.small.mem_slots.mpr hk))

theorem Outgrown.length_le (h : Outgrown s c d) :
    c.blocks.entries.length ≤ d.blocks.entries.length := by
  rw [← h.small.residentCount_eq, ← h.large.residentCount_eq, ← h.small.card_slots,
    ← h.large.card_slots]
  refine Finset.card_le_card fun k hk => ?_
  exact Finmap.mem_keys.mpr (h.included.mem (Finmap.mem_keys.mp hk))

theorem slotStep_balance (h : c.MapInv) (op : ScoredCache.Op ExpertKey) :
    (c.slotStep s op).stats.loads + (c.stats.evictions + c.blocks.entries.length) =
      c.stats.loads +
        ((c.slotStep s op).stats.evictions + (c.slotStep s op).blocks.entries.length) := by
  cases op with
  | use k p => exact ensure_balance h k s p
  | touch k => exact step_balance h (.touch k)

theorem touch_stats (c : VramCacheManager) (k : ExpertKey) : (c.touch k).stats = c.stats := by
  unfold VramCacheManager.touch
  split_ifs <;> rfl

/-- One call on both managers. -/
theorem Outgrown.slotStep (h : Outgrown s c d) (hs : 0 < s) (hle : s ≤ c.arena.cap)
    {op : ScoredCache.Op ExpertKey} (hop : TouchesResident c op)
    (hclock : d.tick ≤ ExpertBlock.priorityWeight) :
    Outgrown s (c.slotStep s op) (d.slotStep s op) ∧
      (d.slotStep s op).tick ≤ d.tick + 1 := by
  have hled := hle.trans h.cap_le
  have hcapS := slotStep_cap (s := s) h.small.toMapInv op
  have hcapL := slotStep_cap (s := s) h.large.toMapInv op
  have hstepS := h.small.refines hs hle op
  have hstepL := h.large.refines hs hled op
  obtain ⟨hclocked, hmono, hnext⟩ := hstepL.clocked h.clocked h.clock_nonneg
  have hincluded := h.included.step (Nat.div_pos hle hs) (Nat.div_le_div_right h.cap_le) h.clocked
    hclock (fun k hk => h.small.mem_slots.mpr (hop k hk)) hstepS hstepL
  have hbalS := slotStep_balance (s := s) h.small.toMapInv op
  have hbalL := slotStep_balance (s := s) h.large.toMapInv op
  have hheldS := h.held_small
  have hheldL := h.held_large
  obtain ⟨hhits, hasked⟩ : (c.slotStep s op).stats.hits ≤ (d.slotStep s op).stats.hits ∧
      (c.slotStep s op).stats.hits + (c.slotStep s op).stats.loads =
        (d.slotStep s op).stats.hits + (d.slotStep s op).stats.loads := by
    cases op with
    | use k p =>
      have hcle := h.hits_le
      have hceq := h.asked_eq
      have haskS := h.small.ensure_asked hs hle k p
      have haskL := h.large.ensure_asked hs hled k p
      have hhitS := h.small.ensure_hits hs hle k p
      have hhitL := h.large.ensure_hits hs hled k p
      have hkeeps := h.isResident (k := k)
      constructor
      · show (c.ensure k s p).2.stats.hits ≤ (d.ensure k s p).2.stats.hits
        rw [hhitS, hhitL]
        split_ifs with hc hd hd
        · omega
        · exact absurd (hkeeps hc) hd
        · omega
        · omega
      · show (c.ensure k s p).2.stats.hits + _ = (d.ensure k s p).2.stats.hits + _
        exact haskS.trans ((congrArg (· + 1) hceq).trans haskL.symm)
    | touch k =>
      show (c.touch k).stats.hits ≤ (d.touch k).stats.hits ∧ (c.touch k).stats.hits +
        (c.touch k).stats.loads = (d.touch k).stats.hits + (d.touch k).stats.loads
      rw [touch_stats, touch_stats]
      exact ⟨h.hits_le, h.asked_eq⟩
  refine ⟨⟨h.small.slotStep hs hle op, h.large.slotStep hs hled op, ?_, ?_, hclocked,
    h.clock_nonneg.trans hmono, hhits, hasked, by omega, by omega⟩, hnext⟩
  · rw [hcapS, hcapL]
    exact h.cap_le
  · rw [hcapS]
    exact hincluded

theorem Outgrown.run (h : Outgrown s c d) (hs : 0 < s) (hle : s ≤ c.arena.cap)
    {ops : List (ScoredCache.Op ExpertKey)}
    (hops : Guarded (VramCacheManager.slotStep s) TouchesResident c ops)
    (hclock : d.tick + ops.length ≤ ExpertBlock.priorityWeight) :
    Outgrown s (run (VramCacheManager.slotStep s) c ops)
      (run (VramCacheManager.slotStep s) d ops) := by
  induction ops generalizing c d with
  | nil => exact h
  | cons op ops ih =>
    rw [List.length_cons, Nat.cast_succ] at hclock
    obtain ⟨hstep, htick⟩ := h.slotStep hs hle hops.1 (by omega)
    exact ih hstep ((slotStep_cap h.small.toMapInv op).symm ▸ hle) hops.2 (by omega)

theorem outgrown_started (order order' : Order) (base base' : ℕ) {B B' : ℕ} (hB : B' < 2 ^ 64)
    (hle : B ≤ B') : Outgrown s (started order base B) (started order' base' B') where
  small := started_uniform order base (hle.trans_lt hB)
  large := started_uniform order' base' hB
  cap_le := hle
  included := ScoredCache.included_empty _
  clocked := ScoredCache.clocked_empty
  clock_nonneg := le_refl _
  hits_le := le_refl _
  asked_eq := rfl
  held_small := rfl
  held_large := rfl

/-- Behind the same calls, at most as many as a step of the priority weighs, the manager
with the larger budget keeps all that the other one keeps. -/
theorem run_budget_inclusion (order order' : Order) (be be' : Backend) {B B' : ℕ}
    {c₀ d₀ : VramCacheManager} (hB : B' < 2 ^ 64) (hBB : B ≤ B')
    (hc : (fresh order).init B be = (true, c₀)) (hd : (fresh order').init B' be' = (true, d₀))
    (hs : 0 < s) (hle : s ≤ B) {ops : List (ScoredCache.Op ExpertKey)}
    (hops : Guarded (slotStep s) TouchesResident c₀ ops) (hlen : ops.length ≤ 2 ^ 20) :
    let c := run (slotStep s) c₀ ops
    let d := run (slotStep s) d₀ ops
    (∀ k, c.isResident k = true → d.isResident k = true) ∧ c.stats.hits ≤ d.stats.hits ∧
      d.stats.loads ≤ c.stats.loads ∧ d.stats.evictions ≤ c.stats.evictions := by
  obtain ⟨base, -, rfl⟩ := init_eq_true hc
  obtain ⟨base', -, rfl⟩ := init_eq_true hd
  have hrun := (outgrown_started (s := s) order order' base base' hB hBB).run hs hle hops (by
    show (0 : ℤ) + ops.length ≤ 2 ^ 20
    omega)
  have hhits := hrun.hits_le
  have hasked := hrun.asked_eq
  have hheldS := hrun.held_small
  have hheldL := hrun.held_large
  have hlength := hrun.length_le
  exact ⟨fun k => hrun.isResident, hhits, by omega, by omega⟩

/-- Two slots and three slots. -/
theorem run_budget_inclusion_small :
    let ops : List (ScoredCache.Op ExpertKey) :=
      [.use ⟨0, 0⟩ 1, .use ⟨0, 1⟩ 0, .touch ⟨0, 1⟩, .use ⟨0, 2⟩ 0, .use ⟨0, 1⟩ 2]
    let c := run (slotStep 3) (started (.newestFirst _ _) 100 7) ops
    let d := run (slotStep 3) (started (.newestFirst _ _) 100 9) ops
    (∀ k, c.isResident k = true → d.isResident k = true) ∧ c.stats.hits ≤ d.stats.hits ∧
      d.stats.loads ≤ c.stats.loads ∧ d.stats.evictions ≤ c.stats.evictions := by
  have htouch : (run (slotStep 3) (started (.newestFirst _ _) 100 7)
      [.use ⟨0, 0⟩ 1, .use ⟨0, 1⟩ 0]).isResident ⟨0, 1⟩ = true := by decide
  refine run_budget_inclusion (s := 3) (.newestFirst _ _) (.newestFirst _ _) (.host 100) (.host 100)
    (show 9 < 2 ^ 64 by decide) (show 7 ≤ 9 by decide) rfl rfl (by decide) (by decide) ?_
    (by decide)
  refine ⟨touchesResident_use _ _ _, touchesResident_use _ _ _, fun k hk => ?_,
    touchesResident_use _ _ _, touchesResident_use _ _ _, trivial⟩
  cases hk
  exact htouch

end Dee.VramCacheManager
