import Dee.SlotRecency

/-! Calls of `acquire` whose Oracle may throw. The Oracle is asked when a slot has already
been taken for the new expert; when it throws, nobody owns this slot any more. -/
namespace Dee.SlotCache
open GuardedRuns

/-- How a call that does not return ends: by its own checks or by the Oracle. -/
inductive Exit
  | fault (f : Fault)
  | oracle
  deriving DecidableEq

namespace VramCacheManager
variable {P : Type*}

/-- `place` with a priority that the Oracle has given. -/
def placeWith (c : VramCacheManager P) (k : ExpertKey) (slot bytes : ℕ) (priority : P) :
    VramCacheManager P :=
  { c with
    cached := c.cached.assign k ⟨k, slot, bytes, c.clock + 1, priority⟩
    clock := c.clock + 1 }

/-- A cached entry, the free list and the last victim are as before. -/
structure Unharmed (c c' : VramCacheManager P) : Prop where
  entries_eq : c'.cached.entries = c.cached.entries
  freeList_eq : c'.freeList = c.freeList
  lastEvicted_eq : c'.lastEvicted = c.lastEvicted

/-- Cached experts and free slots add up to all slots. -/
def Counted (c : VramCacheManager P) : Prop :=
  c.cached.entries.length + c.freeList.length = c.numSlots.toNat

instance (c : VramCacheManager P) : Decidable (Counted c) := inferInstanceAs (Decidable (_ = _))

/-- The call reaches the Oracle, and the Oracle throws. -/
def OracleThrows (ask : ℕ → Int32 → Int32 → Option P) (c : VramCacheManager P) (k : ExpertKey)
    (n : ℕ) : Prop :=
  n ≤ c.slotBytes ∧ c.contains k = false ∧ (c.freeList ≠ [] ∨ c.cached.entries ≠ []) ∧
    ask (c.clock + 1) k.layer k.expert = none

section Calls
variable [LT P] [DecidableLT P] [BEq P]

/-- `acquire` with an Oracle that may throw: what the call ends with, and the state after it. -/
def acquireAsking (ask : ℕ → Int32 → Int32 → Option P) (c : VramCacheManager P) (k : ExpertKey)
    (expertBytes : ℕ) : Except Exit AcquireResult × VramCacheManager P :=
  if c.slotBytes < expertBytes then
    (.error (.fault (.invalidArgument "VramCacheManager: expert_bytes exceeds slot_bytes")), c)
  else
    match c.cached.find? k with
    | some ce => (.ok ⟨c.slotPtr ce.slot, ce.slot, true⟩, c.renew k)
    | none =>
      match c.takeSlot with
      | .error e => (.error (.fault e), c)
      | .ok (slot, c₁) =>
        match ask (c₁.clock + 1) k.layer k.expert with
        | none => (.error .oracle, { c₁ with clock := c₁.clock + 1 })
        | some p => (.ok ⟨c.slotPtr slot, slot, false⟩, c₁.placeWith k slot expertBytes p)

def stepAsking (ask : ℕ → Int32 → Int32 → Option P) (c : VramCacheManager P) :
    Op → VramCacheManager P
  | .acquire k n => (c.acquireAsking ask k n).2
  | .touch k => c.touch k

/-- A call that throws leaves the cache unharmed. -/
def SafeCall (ask : ℕ → Int32 → Int32 → Option P) (c : VramCacheManager P) (k : ExpertKey)
    (n : ℕ) : Prop :=
  ∀ e c', c.acquireAsking ask k n = (.error e, c') → Unharmed c c'

/-- With an Oracle that never throws this is `acquire`. -/
theorem acquireAsking_of_total {ask : ℕ → Int32 → Int32 → Option P} {c : VramCacheManager P}
    (hask : ∀ t layer expert, ask t layer expert = some (c.oracle t layer expert))
    (k : ExpertKey) (n : ℕ) :
    c.acquireAsking ask k n = match c.acquire k n with
      | .ok (r, c') => (.ok r, c')
      | .error e => (.error (.fault e), c) := by
  unfold acquireAsking acquire
  split_ifs with hn
  · rfl
  cases hf : c.cached.find? k with
  | some ce => rfl
  | none =>
    dsimp only
    unfold takeSlot
    cases c.freeList with
    | cons slot rest =>
      dsimp only
      rw [hask]
      rfl
    | nil =>
      dsimp only [evictVictim]
      cases c.findVictim with
      | none => rfl
      | some v =>
        have hclock : (c.drop v).clock = c.clock := rfl
        dsimp only
        rw [hclock, hask]
        rfl

end Calls

/-! The slots that calls have lost -/

variable {spare leaked : List ℕ} {c c₁ : VramCacheManager P}

theorem Partition.perm (h : Partition spare c) {spare' : List ℕ} (hperm : spare.Perm spare') :
    Partition spare' c where
  own_key := h.own_key
  slots_inj := h.slots_inj
  spare_nodup := hperm.nodup_iff.mp h.spare_nodup
  disjoint := fun e he hmem => h.disjoint e he (hperm.mem_iff.mpr hmem)
  cover := fun i => by
    rw [← hperm.mem_iff]
    exact h.cover i
  stamps_inj := h.stamps_inj
  stamp_le := h.stamp_le

/-- A lost slot: the clock has advanced, nothing is cached in the slot. -/
theorem Partition.tick (h : Partition spare c) :
    Partition spare ({ c with clock := c.clock + 1 } : VramCacheManager P) :=
  ⟨h.own_key, h.slots_inj, h.spare_nodup, h.disjoint, h.cover, h.stamps_inj,
    fun e he => (h.stamp_le e he).trans (Nat.le_succ _)⟩

theorem Partition.placeWith {slot : ℕ} (h : Partition (slot :: spare) c) {k : ExpertKey}
    (hk : c.cached.find? k = none) (n : ℕ) (p : P) : Partition spare (c.placeWith k slot n p) := by
  -- the partition does not speak of the Oracle
  have hanswer : Partition (slot :: spare)
      ({ c with oracle := fun _ _ _ => p } : VramCacheManager P) :=
    ⟨h.own_key, h.slots_inj, h.spare_nodup, h.disjoint, h.cover, h.stamps_inj, h.stamp_le⟩
  have hplace := hanswer.place hk n
  exact ⟨hplace.own_key, hplace.slots_inj, hplace.spare_nodup, hplace.disjoint, hplace.cover,
    hplace.stamps_inj, hplace.stamp_le⟩

/-- The cached experts, the free slots and the lost ones share out the arena. -/
theorem Partition.counted_iff (h : Partition (c.freeList ++ leaked) c) :
    Counted c ↔ leaked = [] := by
  have hcount := h.count
  rw [List.length_append] at hcount
  rw [Counted, ← List.length_eq_zero_iff]
  omega

variable [LT P] [DecidableLT P] [BEq P] (ask : ℕ → Int32 → Int32 → Option P)

/-- Taking a slot harms the cache; it fails only when nothing is free and nothing cached. -/
theorem Partition.takeSlot_cases (h : Partition (c.freeList ++ leaked) c) :
    (c.freeList = [] ∧ c.cached.entries = [] ∧ c.takeSlot = .error .nullVictim) ∨
      (c.freeList ≠ [] ∨ c.cached.entries ≠ []) ∧ ∃ slot c₁, c.takeSlot = .ok (slot, c₁) ∧
        Partition (slot :: (c₁.freeList ++ leaked)) c₁ ∧ c₁.clock = c.clock ∧
        (∀ k, c.cached.find? k = none → c₁.cached.find? k = none) ∧
        ¬ (c₁.cached.entries = c.cached.entries ∧ c₁.freeList = c.freeList) := by
  unfold takeSlot
  cases hl : c.freeList with
  | cons slot rest =>
    rw [hl] at h
    refine Or.inr ⟨Or.inl (List.cons_ne_nil _ _), slot, _, rfl, ?_, rfl, fun _ hk => hk,
      fun hsame => List.cons_ne_self slot rest hsame.2.symm⟩
    exact ⟨h.own_key, h.slots_inj, h.spare_nodup, h.disjoint, h.cover, h.stamps_inj, h.stamp_le⟩
  | nil =>
    rw [evictVictim]
    cases hv : c.findVictim with
    | none => exact Or.inl ⟨rfl, findVictim_eq_none hv, rfl⟩
    | some v =>
      have hmem := h.findVictim_mem hv
      refine Or.inr ⟨Or.inr (List.ne_nil_of_mem hmem), v.slot, c.drop v, rfl, h.drop hmem, rfl,
        fun k hk => by rw [find?_drop, hk, ite_self], fun hsame => ?_⟩
      rw [← hsame.1] at hmem
      exact (UnorderedMap.mem_erase.mp hmem).2 rfl

/-- The outcomes of a call, in any state in which some slots may be lost. -/
theorem Partition.acquireAsking_cases (h : Partition (c.freeList ++ leaked) c) (k : ExpertKey)
    (n : ℕ) :
    (∃ slot c', OracleThrows ask c k n ∧ c.acquireAsking ask k n = (.error .oracle, c') ∧
        Partition (c'.freeList ++ slot :: leaked) c' ∧ ¬ Unharmed c c') ∨
      ∃ out c', ¬ OracleThrows ask c k n ∧ c.acquireAsking ask k n = (out, c') ∧
        Partition (c'.freeList ++ leaked) c' ∧ ∀ e, out = .error e → c' = c := by
  unfold acquireAsking
  by_cases hn : c.slotBytes < n
  · refine Or.inr ⟨_, c, fun hthrows => hn.not_ge hthrows.1, if_pos hn, h, fun _ _ => rfl⟩
  rw [if_neg hn]
  cases hf : c.cached.find? k with
  | some ce =>
    refine Or.inr ⟨_, c.renew k, fun hthrows => ?_, rfl, h.renew k, fun e he => by cases he⟩
    have hk := hthrows.2.1
    rw [contains, hf] at hk
    cases hk
  | none =>
    have hk : c.contains k = false := by rw [contains, hf, Option.isSome_none]
    dsimp only
    rcases h.takeSlot_cases with
      ⟨hfree, hentries, he⟩ | ⟨hsome, slot, c₁, he, hpart, hclock, hnone, hharm⟩
    · rw [he]
      refine Or.inr ⟨_, c, fun hthrows => ?_, rfl, h, fun _ _ => rfl⟩
      rcases hthrows.2.2.1 with hne | hne
      · exact hne hfree
      · exact hne hentries
    · rw [he]
      dsimp only
      cases hask : ask (c₁.clock + 1) k.layer k.expert with
      | none =>
        exact Or.inl ⟨slot, _, ⟨not_lt.mp hn, hk, hsome, hclock ▸ hask⟩, rfl,
          (hpart.perm List.perm_middle.symm).tick,
          fun hunharmed => hharm ⟨hunharmed.entries_eq, hunharmed.freeList_eq⟩⟩
      | some p =>
        refine Or.inr ⟨_, c₁.placeWith k slot n p, fun hthrows => ?_, rfl,
          hpart.placeWith (hnone k hf) n p, fun e he => by cases he⟩
        rw [hclock, hthrows.2.2.2] at hask
        cases hask

/-- A call harms the cache exactly when the Oracle throws in it. -/
theorem Partition.safeCall_iff (h : Partition (c.freeList ++ leaked) c) (k : ExpertKey) (n : ℕ) :
    SafeCall ask c k n ↔ ¬ OracleThrows ask c k n := by
  rcases h.acquireAsking_cases ask k n with
    ⟨slot, c', hthrows, he, -, hharm⟩ | ⟨out, c', hthrows, he, -, hsame⟩
  · exact ⟨fun hsafe => absurd (hsafe _ c' he) hharm, fun hno => absurd hthrows hno⟩
  · refine ⟨fun _ => hthrows, fun _ e c'' he' => ?_⟩
    rw [he] at he'
    cases he'
    rw [hsame e rfl]
    exact ⟨rfl, rfl, rfl⟩

/-- The Oracle throws in a call. -/
def ThrowsIn (c : VramCacheManager P) : Op → Prop
  | .acquire k n => OracleThrows ask c k n
  | .touch _ => False

/-- A call in which the Oracle throws loses a slot, and no other call does. -/
theorem Partition.stepAsking (h : Partition (c.freeList ++ leaked) c) (op : Op) :
    (∃ slot, ThrowsIn ask c op ∧
        Partition ((c.stepAsking ask op).freeList ++ slot :: leaked) (c.stepAsking ask op)) ∨
      ¬ ThrowsIn ask c op ∧
        Partition ((c.stepAsking ask op).freeList ++ leaked) (c.stepAsking ask op) := by
  cases op with
  | touch k =>
    refine Or.inr ⟨id, ?_⟩
    rw [VramCacheManager.stepAsking]
    rcases touch_cases c k with ⟨-, he⟩ | ⟨-, he⟩
    · rw [he]
      exact h.renew k
    · rw [he]
      exact h
  | acquire k n =>
    rw [VramCacheManager.stepAsking]
    rcases h.acquireAsking_cases ask k n with
      ⟨slot, c', hthrows, he, hpart, -⟩ | ⟨out, c', hthrows, he, hpart, -⟩
    · rw [he]
      exact Or.inl ⟨slot, hthrows, hpart⟩
    · rw [he]
      exact Or.inr ⟨hthrows, hpart⟩

/-- Cached experts, free slots and lost ones share out the arena. -/
def Leaks (c : VramCacheManager P) : Prop := ∃ leaked, Partition (c.freeList ++ leaked) c

theorem Leaks.step (h : Leaks c) (op : Op) : Leaks (c.stepAsking ask op) := by
  obtain ⟨leaked, h⟩ := h
  rcases h.stepAsking ask op with ⟨slot, -, hpart⟩ | ⟨-, hpart⟩
  · exact ⟨slot :: leaked, hpart⟩
  · exact ⟨leaked, hpart⟩

theorem Leaks.counted_step_iff (h : Leaks c) (hcount : Counted c) (op : Op) : Counted (c.stepAsking ask op) ↔ ¬ ThrowsIn ask c op := by
  obtain ⟨leaked, h⟩ := h
  rw [h.counted_iff] at hcount
  subst hcount
  rcases h.stepAsking ask op with ⟨slot, hthrows, hpart⟩ | ⟨hthrows, hpart⟩
  · rw [hpart.counted_iff]
    exact ⟨fun hnil => absurd hnil (List.cons_ne_nil _ _), fun hno => absurd hthrows hno⟩
  · rw [hpart.counted_iff]
    exact ⟨fun _ => hthrows, fun _ => rfl⟩

/-- In every reachable state a call is safe exactly when the Oracle does not throw in it,
and the slots add up all along a run exactly when it throws in no call of the run. -/
theorem run_exceptionSafe_iff {order : IterationOrder ExpertKey (CachedExpert P)}
    {malloc : ℕ → ℕ} {oracle : ℕ → Int32 → Int32 → P} {slotBytes : ℕ} {numSlots : ℤ}
    {c₀ : VramCacheManager P}
    (hc : construct order malloc oracle slotBytes numSlots = .ok c₀) (ops : List Op) :
    let c := run (stepAsking ask) c₀ ops
    (∀ k n, SafeCall ask c k n ↔ ¬ OracleThrows ask c k n) ∧
      ((∀ pre, pre <+: ops → Counted (run (stepAsking ask) c₀ pre)) ↔
        Guarded (stepAsking ask) (fun c op => ¬ ThrowsIn ask c op) c₀ ops) := by
  intro c
  obtain ⟨-, hinv⟩ := construct_inv hc
  have hpart : Partition (c₀.freeList ++ []) c₀ := by
    rw [List.append_nil]
    exact hinv.partition
  have hleaks : Leaks c₀ := ⟨[], hpart⟩
  have hstep : ∀ (c : VramCacheManager P) op, Leaks c → Leaks (c.stepAsking ask op) :=
    fun c op h => h.step ask op
  have hcount : ∀ (c : VramCacheManager P) op, Leaks c → True → Counted c →
      (Counted (c.stepAsking ask op) ↔ ¬ ThrowsIn ask c op) :=
    fun c op h _ hc => h.counted_step_iff ask hc op
  refine ⟨fun k n => ?_, ?_⟩
  · obtain ⟨leaked, hrun⟩ := invariant_run_of_step hstep hleaks ops
    exact hrun.safeCall_iff ask k n
  · exact forall_prefix_iff_guarded (fun c op h _ => hstep c op h) hcount hleaks
      (hpart.counted_iff.mpr rfl) fun _ _ => trivial

/-- One slot, and an Oracle that only knows expert 0: the second call loses the slot. -/
theorem run_exceptionSafe_iff_one_slot :
    ∃ c₀ : VramCacheManager ℤ,
      construct (.newestFirst _ _) (fun _ => 100) (fun _ _ _ => 0) 8 1 = .ok c₀ ∧
      let ask : ℕ → Int32 → Int32 → Option ℤ := fun _ _ e => if e = 0 then some 0 else none
      let ops := [.acquire ⟨0, 0⟩ 8, .acquire ⟨0, 1⟩ 8]
      (∀ k n, SafeCall ask (run (stepAsking ask) c₀ ops) k n ↔
          ¬ OracleThrows ask (run (stepAsking ask) c₀ ops) k n) ∧
        ((∀ pre, pre <+: ops → Counted (run (stepAsking ask) c₀ pre)) ↔
          Guarded (stepAsking ask) (fun c op => ¬ ThrowsIn ask c op) c₀ ops) := by
  have hc : construct (.newestFirst _ _) (fun _ => 100) (fun _ _ _ => 0) 8 1 =
    .ok (⟨fun _ _ _ => 0, 8, 1, 100, [0], .empty (.newestFirst _ _), 0, ⟨-1, -1⟩⟩ :
      VramCacheManager ℤ) := rfl
  exact ⟨_, hc, run_exceptionSafe_iff _ hc _⟩

/-- An Oracle that throws in the first call. -/
theorem acquire_throws_and_leaks : ¬ ∀ (ask : ℕ → Int32 → Int32 → Option ℤ)
    (c₀ : VramCacheManager ℤ) (ops : List Op) (k : ExpertKey) (n : ℕ),
      construct (.newestFirst _ _) (fun _ => 100) (fun _ _ _ => 0) 8 1 = .ok c₀ →
        SafeCall ask (run (stepAsking ask) c₀ ops) k n ∧
          Counted (run (stepAsking ask) c₀ ops) := by
  intro h
  have hc : construct (.newestFirst _ _) (fun _ => 100) (fun _ _ _ => 0) 8 1 =
    .ok (⟨fun _ _ _ => 0, 8, 1, 100, [0], .empty (.newestFirst _ _), 0, ⟨-1, -1⟩⟩ :
      VramCacheManager ℤ) := rfl
  have hcount := (h (fun _ _ _ => none) _ [.acquire ⟨0, 0⟩ 8] ⟨0, 0⟩ 8 hc).2
  exact absurd hcount (by decide)

end VramCacheManager
end Dee.SlotCache
