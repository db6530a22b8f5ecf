import Dee.VramCacheInvariant

/-! Whole runs of the cache manager from `init`: the representation invariant, the
balance of the load and eviction counters, and the stability of placements. -/
namespace Dee.VramCacheManager
open GuardedRuns

/-- The manager right after a successful `init`. -/
def started (order : Order) (base budget : ℕ) : VramCacheManager :=
  { fresh order with arena := ⟨base, budget, 0, 0, []⟩ }

theorem init_eq_true {order : Order} {B : ℕ} {be : Backend} {c : VramCacheManager}
    (h : (fresh order).init B be = (true, c)) : ∃ base, base ≠ 0 ∧ c = started order base B := by
  simp only [init, Arena.init, fresh, Arena.fresh, ne_eq, not_true_eq_false, if_false] at h
  cases ha : be.alloc with
  | none => simp [ha] at h
  | some f =>
    simp only [ha, Prod.mk.injEq, decide_eq_true_eq] at h
    exact ⟨f B, h.1, h.2.symm⟩

theorem started_inv (order : Order) (base : ℕ) {B : ℕ} (hB : B < 2 ^ 64) :
    (started order base B).Inv where
  resident := by simp [started, fresh, UnorderedMap.empty]
  own_key := by simp [started, fresh, UnorderedMap.empty]
  ptr_eq := by simp [started, fresh, UnorderedMap.empty]
  tiled := Arena.tiled_init base B hB
  tick_le := by simp [started, fresh, UnorderedMap.empty]
  ticks_ne := .nil

/-- The invariant along every run whose high-water sums do not wrap. -/
theorem run_inv {c : VramCacheManager} (h : c.Inv) {ops : List Op}
    (hw : Guarded step NoWrap c ops) : (run step c ops).Inv :=
  invariant_run (fun _ _ hc hg => hc.step hg) h hw

theorem ensure_base_cap (c : VramCacheManager) (h : c.MapInv) (k : ExpertKey) (n : ℕ) (p : ℤ) :
    (c.ensure k n p).2.arena.base = c.arena.base ∧ (c.ensure k n p).2.arena.cap = c.arena.cap := by
  have hs := (h.makeRoom n).2
  rcases ensure_cases c k n p with ⟨-, he⟩ | ⟨-, -, he⟩ | ⟨-, -, he⟩
  · rw [he]
    exact ⟨rfl, rfl⟩
  · rw [he]
    exact ⟨(Arena.alloc_base _ _).trans hs.base, (Arena.alloc_cap _ _).trans hs.cap⟩
  · rw [he]
    exact ⟨(Arena.alloc_base _ _).trans hs.base, (Arena.alloc_cap _ _).trans hs.cap⟩

theorem clear_base_cap (c : VramCacheManager) :
    c.clear.arena.base = c.arena.base ∧ c.clear.arena.cap = c.arena.cap := by
  simp only [clear]
  generalize c.arena = a
  induction c.blocks.entries generalizing a with
  | nil => exact ⟨rfl, rfl⟩
  | cons e l ih =>
    rw [List.foldl_cons]
    obtain ⟨h1, h2⟩ := ih (if e.2.resident then a.free e.2.offset e.2.size else a)
    refine ⟨h1.trans ?_, h2.trans ?_⟩ <;> split_ifs <;> simp

theorem step_base_cap {c : VramCacheManager} (h : c.MapInv) (op : Op) :
    (c.step op).arena.base = c.arena.base ∧ (c.step op).arena.cap = c.arena.cap := by
  cases op with
  | ensure k n p => exact ensure_base_cap c h k n p
  | syncFallback k n p =>
    simp only [step, syncFallback]
    split_ifs
    · exact ⟨rfl, rfl⟩
    · exact ensure_base_cap _ h.countFallback k n p
  | touch k =>
    simp only [step, touch]
    split_ifs <;> exact ⟨rfl, rfl⟩
  | clear => exact clear_base_cap c

theorem run_base_cap {c : VramCacheManager} (h : c.Inv) {ops : List Op}
    (hw : Guarded step NoWrap c ops) :
    (run step c ops).arena.base = c.arena.base ∧ (run step c ops).arena.cap = c.arena.cap := by
  have hrun := invariant_run (G := NoWrap)
    (P := fun c' => c'.Inv ∧ c'.arena.base = c.arena.base ∧ c'.arena.cap = c.arena.cap)
    (fun c' op ⟨hc, hb, hp⟩ hg => by
      obtain ⟨h1, h2⟩ := step_base_cap hc.toMapInv op
      exact ⟨hc.step hg, h1.trans hb, h2.trans hp⟩)
    ⟨h, rfl, rfl⟩ hw
  exact hrun.2

/-- Blocks that the `clear` calls of a run drop. -/
def droppedByClear : VramCacheManager → List Op → ℕ
  | _, [] => 0
  | c, .clear :: ops => c.residentCount + droppedByClear c.clear ops
  | c, op :: ops => droppedByClear (c.step op) ops

def dropped (c : VramCacheManager) : Op → ℕ
  | .clear => c.residentCount
  | _ => 0

theorem droppedByClear_cons (c : VramCacheManager) (op : Op) (ops : List Op) :
    droppedByClear c (op :: ops) = c.dropped op + droppedByClear (c.step op) ops := by
  cases op <;> simp [droppedByClear, dropped, step]

theorem ensure_balance {c : VramCacheManager} (h : c.MapInv) (k : ExpertKey) (n : ℕ) (p : ℤ) :
    (c.ensure k n p).2.stats.loads + (c.stats.evictions + c.blocks.entries.length) =
      c.stats.loads +
        ((c.ensure k n p).2.stats.evictions + (c.ensure k n p).2.blocks.entries.length) := by
  obtain ⟨hroom, hs⟩ := h.makeRoom n
  have hb := hs.balance
  have hl := hs.loads
  rcases ensure_cases c k n p with ⟨-, he⟩ | ⟨-, -, he⟩ | ⟨hk, -, he⟩
  · rw [he]
    simp [refresh, countEnsure]
  · rw [he]
    simp only [allocated_blocks, allocated_stats]
    omega
  · rw [he]
    have hlen := UnorderedMap.length_assign
      (v := (c.allocated n).newBlock k ((c.makeRoom n).arena.alloc n).1 n p) (h.find?_makeRoom hk n)
    simp only [place, allocated_blocks, allocated_stats]
    omega

/-- The step lemma of the counters. -/
theorem step_balance {c : VramCacheManager} (h : c.MapInv) (op : Op) :
    (c.step op).stats.loads + (c.stats.evictions + c.blocks.entries.length) =
      c.stats.loads + ((c.step op).stats.evictions + (c.step op).blocks.entries.length) +
        c.dropped op := by
  cases op with
  | ensure k n p => exact ensure_balance h k n p
  | syncFallback k n p =>
    simp only [step, syncFallback, dropped]
    split_ifs
    · rfl
    · exact ensure_balance h.countFallback k n p
  | touch k =>
    simp only [step, touch, dropped]
    split_ifs <;> simp
  | clear =>
    simp only [step, dropped, h.residentCount_eq, clear, UnorderedMap.clear, List.length_nil]
    omega

theorem run_balance {c : VramCacheManager} (h : c.Inv) {ops : List Op}
    (hw : Guarded step NoWrap c ops) :
    (run step c ops).stats.loads + (c.stats.evictions + c.blocks.entries.length) =
      c.stats.loads + ((run step c ops).stats.evictions + (run step c ops).blocks.entries.length) +
        droppedByClear c ops := by
  induction ops generalizing c with
  | nil => rfl
  | cons op ops ih =>
    have h1 := step_balance h.toMapInv op
    have h2 := ih (h.step hw.1) hw.2
    rw [droppedByClear_cons, run_cons]
    omega

theorem ensure_keeps_placement {c : VramCacheManager} (h : c.MapInv) {k k' : ExpertKey} {n : ℕ}
    {p : ℤ} {b b' : ExpertBlock} (hb : (k', b) ∈ c.blocks.entries)
    (hb' : (k', b') ∈ (c.ensure k n p).2.blocks.entries) :
    b'.offset = b.offset ∧ b'.size = b.size := by
  have hs := (h.makeRoom n).2
  rcases ensure_cases c k n p with ⟨-, he⟩ | ⟨-, -, he⟩ | ⟨hk, -, he⟩
  · rw [he] at hb'
    obtain ⟨b₀, hb₀, -, -, ho, hsz, -⟩ := (renews_refresh c.countEnsure p).entry hb'
    have := c.blocks.entry_unique hb hb₀
    exact ⟨by rw [this]; exact ho, by rw [this]; exact hsz⟩
  · rw [he] at hb'
    rw [c.blocks.entry_unique hb (hs.mem hb')]
    exact ⟨rfl, rfl⟩
  · rw [he] at hb'
    rcases (UnorderedMap.mem_assign (h.find?_makeRoom hk n)).mp hb' with heq | hmem
    · have hkk : k' = k := congrArg Prod.fst heq
      subst hkk
      have := h.isResident_iff.mpr ⟨b, hb⟩
      simp [hk] at this
    · rw [c.blocks.entry_unique hb (hs.mem hmem)]
      exact ⟨rfl, rfl⟩

/-- A block that is resident before and after an operation has not moved. -/
theorem step_keeps_placement {c : VramCacheManager} (h : c.MapInv) (op : Op) {k : ExpertKey}
    {b b' : ExpertBlock} (hb : c.blocks.find? k = some b)
    (hb' : (c.step op).blocks.find? k = some b') : b'.offset = b.offset ∧ b'.size = b.size := by
  rw [UnorderedMap.find?_eq_some] at hb hb'
  cases op with
  | ensure k₁ n p => exact ensure_keeps_placement h hb hb'
  | syncFallback k₁ n p =>
    simp only [step, syncFallback] at hb'
    split_ifs at hb'
    · rw [c.blocks.entry_unique hb hb']
      exact ⟨rfl, rfl⟩
    · exact ensure_keeps_placement h.countFallback hb hb'
  | touch k₁ =>
    simp only [step, touch] at hb'
    split_ifs at hb'
    · obtain ⟨b₀, hb₀, -, -, ho, hsz, -⟩ := (renews_touch c).entry hb'
      have := c.blocks.entry_unique hb hb₀
      exact ⟨by rw [this]; exact ho, by rw [this]; exact hsz⟩
    · rw [c.blocks.entry_unique hb hb']
      exact ⟨rfl, rfl⟩
  | clear => simp [step, clear, UnorderedMap.clear] at hb'

/-- The representation of a byte-granular cache over `[base, base + budget)`. -/
structure Representation (c : VramCacheManager) (base budget : ℕ) : Prop where
  resident : ∀ e ∈ c.blocks.entries, e.2.resident = true ∧ e.2.key = e.1
  disjoint : ∀ e ∈ c.blocks.entries, ∀ f ∈ c.blocks.entries, e.1 ≠ f.1 →
    e.2.offset + e.2.size ≤ f.2.offset ∨ f.2.offset + f.2.size ≤ e.2.offset
  inside : ∀ e ∈ c.blocks.entries, e.2.offset + e.2.size ≤ budget
  ptr : ∀ e ∈ c.blocks.entries, e.2.ptr = base + e.2.offset
  used : c.usedBytes = (c.blocks.entries.map fun e => e.2.size).sum
  used_le : c.usedBytes ≤ budget
  ticks_ne : ∀ e ∈ c.blocks.entries, ∀ f ∈ c.blocks.entries, e.1 ≠ f.1 →
    e.2.lastUsed ≠ f.2.lastUsed
  tick_le : ∀ e ∈ c.blocks.entries, e.2.lastUsed ≤ c.tick

/-- A symmetric relation between the entries, read off the list. -/
theorem pairwise_entries {c : VramCacheManager} {R : ExpertKey × ExpertBlock →
    ExpertKey × ExpertBlock → Prop} (hR : ∀ e f, R e f → R f e)
    (h : c.blocks.entries.Pairwise R) {e f : ExpertKey × ExpertBlock}
    (he : e ∈ c.blocks.entries) (hf : f ∈ c.blocks.entries) (hne : e.1 ≠ f.1) : R e f := by
  have hall : ∀ l : List (ExpertKey × ExpertBlock), l.Pairwise R → e ∈ l → f ∈ l → R e f := by
    intro l hl he hf
    induction l with
    | nil => simp at he
    | cons g l ih =>
      obtain ⟨h1, h2⟩ := List.pairwise_cons.mp hl
      rcases List.mem_cons.mp he with rfl | he' <;> rcases List.mem_cons.mp hf with rfl | hf'
      · exact absurd rfl hne
      · exact h1 f hf'
      · exact hR _ _ (h1 e he')
      · exact ih h2 he' hf'
  exact hall _ h he hf

theorem Inv.representation {c : VramCacheManager} (h : c.Inv) :
    c.Representation c.arena.base c.arena.cap where
  resident := fun e he => ⟨h.resident e he, h.own_key e he⟩
  disjoint := fun _ he _ hf hne => pairwise_entries (fun _ _ h => h.symm)
    (List.pairwise_map.mp h.tiled.tiling.live_apart) he hf hne
  inside := fun e he => h.tiled.live_stop_le e.2.span
    (List.mem_map_of_mem (f := fun e : ExpertKey × ExpertBlock => e.2.span) he)
  ptr := h.ptr_eq
  used := by
    rw [usedBytes, h.tiled.used_eq, Span.total, spans, List.map_map]
    rfl
  used_le := h.tiled.used_le
  ticks_ne := fun _ he _ hf hne => pairwise_entries (fun _ _ h => h.symm) h.ticks_ne he hf hne
  tick_le := h.tick_le

/-- After every run from `init` the cache is well represented, the counters balance,
and the next operation moves no block that stays resident. -/
theorem run_representation (order : Order) (be : Backend) (B : ℕ) {c₀ : VramCacheManager}
    (hB : B < 2 ^ 64) (hinit : (fresh order).init B be = (true, c₀)) (ops : List Op)
    (hw : Guarded step NoWrap c₀ ops) :
    (run step c₀ ops).Representation c₀.arena.base B ∧
      (run step c₀ ops).stats.loads = (run step c₀ ops).stats.evictions +
        (run step c₀ ops).residentCount + droppedByClear c₀ ops ∧
      ∀ op k b b', (run step c₀ ops).blocks.find? k = some b →
        ((run step c₀ ops).step op).blocks.find? k = some b' →
          b'.offset = b.offset ∧ b'.size = b.size := by
  obtain ⟨base, -, rfl⟩ := init_eq_true hinit
  have h0 := started_inv order base hB
  have hrun := run_inv h0 hw
  obtain ⟨hbase, hcap⟩ := run_base_cap h0 hw
  have hrep := hrun.representation
  rw [hbase, hcap] at hrep
  refine ⟨hrep, ?_, fun op k b b' hb hb' => step_keeps_placement hrun.toMapInv op hb hb'⟩
  have hbal := run_balance h0 hw
  rw [hrun.residentCount_eq]
  have hzero : (started order base B).stats.loads = 0 ∧
      (started order base B).stats.evictions + (started order base B).blocks.entries.length = 0 :=
    ⟨rfl, rfl⟩
  omega

/-- Four bytes of VRAM, two experts, an eviction and a `clear`. -/
theorem run_representation_small :
    let c₀ := started (IterationOrder.newestFirst _ _) 100 4
    let ops := [Op.ensure ⟨0, 0⟩ 3 0, .ensure ⟨0, 1⟩ 2 1, .touch ⟨0, 1⟩, .clear, .ensure ⟨1, 0⟩ 1 0]
    (run step c₀ ops).Representation 100 4 ∧
      (run step c₀ ops).stats.loads = (run step c₀ ops).stats.evictions +
        (run step c₀ ops).residentCount + droppedByClear c₀ ops :=
  have h := run_representation (.newestFirst _ _) (.host 100) 4 (by decide) rfl
    [.ensure ⟨0, 0⟩ 3 0, .ensure ⟨0, 1⟩ 2 1, .touch ⟨0, 1⟩, .clear, .ensure ⟨1, 0⟩ 1 0]
    (by simp only [Guarded, NoWrap]; decide)
  ⟨h.1, h.2.1⟩

end Dee.VramCacheManager
