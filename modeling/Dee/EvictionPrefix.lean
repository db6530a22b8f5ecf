import Dee.EvictionOrder

/-! Eviction removes a shortest prefix of the blocks in order of their scores, in
every reachable state: what the arena reports as free is all that the loop reads, so
nothing is assumed about the sizes that were requested before. -/
namespace Dee.VramCacheManager
open GuardedRuns

/-- The manager after the eviction of the given blocks, one after the other. -/
def evictAll (c : VramCacheManager) (l : List (ExpertKey × ExpertBlock)) : VramCacheManager :=
  l.foldl evict c

/-- From `c` to `c'`, exactly the first `k` blocks of `l` were evicted, and `k` is the least
number of them that leaves `need` bytes free, or all of them if none does. -/
structure EvictsPrefix (c c' : VramCacheManager) (need : ℕ) (l : List (ExpertKey × ExpertBlock))
    (k : ℕ) : Prop where
  le_length : k ≤ l.length
  evicted : c' = c.evictAll (l.take k)
  remaining : c'.blocks.entries.Perm (l.drop k)
  too_little : ∀ j < k, (c.evictAll (l.take j)).arena.freeSpace < need
  enough : k < l.length → need ≤ c'.arena.freeSpace

theorem evictsPrefix_zero {c : VramCacheManager} {need : ℕ} {l : List (ExpertKey × ExpertBlock)}
    (hl : l.Perm c.blocks.entries) (h : l ≠ [] → need ≤ c.arena.freeSpace) :
    EvictsPrefix c c need l 0 where
  le_length := Nat.zero_le _
  evicted := rfl
  remaining := hl.symm
  too_little := by simp
  enough := fun hlt => h (List.ne_nil_of_length_pos hlt)

/-- One more eviction, in front of those of the rest of the loop. -/
theorem EvictsPrefix.cons {c c' : VramCacheManager} {need k : ℕ} {e : ExpertKey × ExpertBlock}
    {l : List (ExpertKey × ExpertBlock)} (h : EvictsPrefix (c.evict e) c' need l k)
    (hlt : c.arena.freeSpace < need) : EvictsPrefix c c' need (e :: l) (k + 1) where
  le_length := Nat.succ_le_succ h.le_length
  evicted := h.evicted
  remaining := h.remaining
  too_little := by
    intro j hj
    cases j with
    | zero => exact hlt
    | succ j => exact h.too_little j (by omega)
  enough := fun hk => h.enough (by simpa using hk)

/-- Every round evicts the head of the present order. -/
theorem MapInv.evictLoop_evicts {c : VramCacheManager} (h : c.MapInv) (need : ℕ)
    {fuel : ℕ} (hf : c.blocks.entries.length ≤ fuel) :
    ∃ k, EvictsPrefix c (evictLoop need fuel c) need c.evictionOrder k :=
  evictLoop_rel (P := fun c c' => ∃ k, EvictsPrefix c c' need c.evictionOrder k)
    (fun c hdone => by
      refine ⟨0, evictsPrefix_zero c.evictionOrder_perm fun hne => hdone.resolve_right ?_⟩
      exact fun hnil => hne (by simp [evictionOrder, hnil]))
    (fun c e c' hinv hlt hv hrest => by
      obtain ⟨k, hk⟩ := hrest
      rw [hinv.evictionOrder_evict hv]
      exact ⟨k + 1, hk.cons hlt⟩)
    h hf

/-- Fuel beyond the number of blocks changes nothing: the loop has ended. -/
theorem MapInv.evictLoop_fuel {c : VramCacheManager} (h : c.MapInv) {need fuel fuel' : ℕ}
    (hf : c.blocks.entries.length ≤ fuel) (hf' : c.blocks.entries.length ≤ fuel') :
    evictLoop need fuel c = evictLoop need fuel' c :=
  evictLoop_rel
    (P := fun c c' => ∀ m, c.blocks.entries.length ≤ m → c' = evictLoop need m c)
    (fun c hdone m _ => (evictLoop_eq_self hdone m).symm)
    (fun c e c' hinv hlt hv ih m hm => by
      have he := MapInv.findVictim_mem hv
      have hl := hinv.length_evict he
      obtain ⟨m, rfl⟩ := Nat.exists_eq_add_of_le' (show 1 ≤ m by omega)
      rw [evictLoop, if_pos ⟨hlt, List.ne_nil_of_mem he⟩, hv]
      exact ih m (by omega))
    h hf fuel' hf'

theorem evictionOrder_sorted (c : VramCacheManager) :
    c.evictionOrder.Pairwise fun e f => e.2.evictionScore ≤ f.2.evictionScore := by
  have htotal : Std.Total fun e f : ExpertKey × ExpertBlock =>
      e.2.evictionScore ≤ f.2.evictionScore := ⟨fun e f => le_total _ _⟩
  have htrans : IsTrans _ fun e f : ExpertKey × ExpertBlock =>
      e.2.evictionScore ≤ f.2.evictionScore := ⟨fun _ _ _ => le_trans⟩
  exact List.pairwise_insertionSort _ _

/-- A block of the state that the eviction removed is in the evicted prefix. -/
theorem EvictsPrefix.mem_take {c c' : VramCacheManager} {need k : ℕ}
    {l : List (ExpertKey × ExpertBlock)} (h : EvictsPrefix c c' need l k)
    {e : ExpertKey × ExpertBlock} (he : e ∈ l) (hno : e ∉ c'.blocks.entries) : e ∈ l.take k := by
  rw [← l.take_append_drop k, List.mem_append] at he
  exact he.resolve_right fun hd => hno (h.remaining.mem_iff.mpr hd)

/-- No removed block has a higher score than a surviving one. -/
theorem EvictsPrefix.score_le {c c' : VramCacheManager} {need k : ℕ}
    {l : List (ExpertKey × ExpertBlock)} (h : EvictsPrefix c c' need l k)
    (hs : l.Pairwise fun e f => e.2.evictionScore ≤ f.2.evictionScore)
    {e f : ExpertKey × ExpertBlock} (he : e ∈ l) (hno : e ∉ c'.blocks.entries)
    (hf : f ∈ c'.blocks.entries) : e.2.evictionScore ≤ f.2.evictionScore := by
  rw [← l.take_append_drop k, List.pairwise_append] at hs
  exact hs.2.2 e (h.mem_take he hno) f (h.remaining.mem_iff.mp hf)

/-- A higher priority outweighs any difference of the ticks below the priority weight. -/
theorem evictionScore_lt_of_priority {b d : ExpertBlock} (hp : d.priority < b.priority)
    (ht : |b.lastUsed - d.lastUsed| < 2 ^ 20) : d.evictionScore < b.evictionScore := by
  have hw : ExpertBlock.priorityWeight = 1048576 := by norm_num [ExpertBlock.priorityWeight]
  have hp20 : (2 : ℤ) ^ 20 = 1048576 := by norm_num
  rw [hp20] at ht
  have habs := abs_lt.mp ht
  unfold ExpertBlock.evictionScore
  rw [hw]
  omega

/-- In every reachable state the eviction loop ends and has removed a shortest prefix of
the blocks in order of their scores. -/
theorem run_evicts_lowest (order : Order) (be : Backend) (B : ℕ) {c₀ : VramCacheManager}
    (hinit : (fresh order).init B be = (true, c₀)) (ops : List Op) (need : ℕ) :
    let c := run step c₀ ops
    let c' := c.evictUntilFree need
    (∀ fuel, c.blocks.entries.length ≤ fuel → evictLoop need fuel c = c') ∧
      (∃ l k, l.Perm c.blocks.entries ∧
        (l.Pairwise fun e f => e.2.evictionScore ≤ f.2.evictionScore) ∧
        EvictsPrefix c c' need l k) ∧
      ∀ e ∈ c.blocks.entries, e ∉ c'.blocks.entries → ∀ f ∈ c'.blocks.entries,
        e.2.evictionScore ≤ f.2.evictionScore ∧
          ¬ (f.2.priority < e.2.priority ∧ |e.2.lastUsed - f.2.lastUsed| < 2 ^ 20) := by
  intro c c'
  obtain ⟨base, hbase, rfl⟩ := init_eq_true hinit
  have hinv : c.MapInv := (run_slotInv (started_slotInv order hbase B) ops).toMapInv
  obtain ⟨k, hk⟩ := hinv.evictLoop_evicts need le_rfl
  refine ⟨fun fuel hf => hinv.evictLoop_fuel hf le_rfl, ?_, fun e he hno f hf => ?_⟩
  · exact ⟨c.evictionOrder, k, c.evictionOrder_perm, c.evictionOrder_sorted, hk⟩
  · have hle := hk.score_le c.evictionOrder_sorted (c.evictionOrder_perm.mem_iff.mpr he) hno hf
    refine ⟨hle, fun hpt => ?_⟩
    exact absurd (evictionScore_lt_of_priority hpt.1 hpt.2) hle.not_gt

/-- Of three blocks, the least recent one goes first and the prioritised one stays. -/
theorem run_evicts_lowest_three_blocks :
    let c := run step (started (.newestFirst _ _) 100 6)
      [.ensure ⟨0, 0⟩ 2 1, .ensure ⟨0, 1⟩ 2 0, .ensure ⟨0, 2⟩ 2 0]
    (c.evictUntilFree 3).blocks.entries.map Prod.fst = [⟨0, 0⟩] ∧
      ∃ l k, l.Perm c.blocks.entries ∧ EvictsPrefix c (c.evictUntilFree 3) 3 l k := by
  have hinit : (fresh (.newestFirst _ _)).init 6 (.host 100) =
      (true, started (.newestFirst _ _) 100 6) := rfl
  obtain ⟨l, k, hl, -, hk⟩ := (run_evicts_lowest (.newestFirst _ _) (.host 100) 6 hinit
    [.ensure ⟨0, 0⟩ 2 1, .ensure ⟨0, 1⟩ 2 0, .ensure ⟨0, 2⟩ 2 0] 3).2.1
  exact ⟨by decide, l, k, hl, hk⟩

end Dee.VramCacheManager
