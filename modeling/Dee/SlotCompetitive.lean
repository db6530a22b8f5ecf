import Dee.CompetitiveCache
import Dee.SlotHistory

/-! The slot cache without priorities against a schedule. Whatever the schedule plans and loads in
advance, knowing all calls, the cache loads at most a fixed factor more. -/
namespace Dee.SlotCache

def Event.isLoad {P : Type*} : Event P → Bool
  | .load _ _ => true
  | .use _ => false

namespace VramCacheManager
open RecencyCache

/-- The loads of a log: the calls of `acquire` that were no hit. -/
def missed {P : Type*} (log : List (Event P)) : ℕ := log.countP Event.isLoad

variable {P : Type*} [LinearOrder P] {prio : Int32 → Int32 → P} {p : P} {slotBytes : ℕ}
  {numSlots : ℤ} {c : VramCacheManager P} {l : List ExpertKey}

/-- The log of later calls goes before the log so far. -/
theorem history_append (c : VramCacheManager P) (log : List (Event P)) (ops : List Op) :
    c.history log ops = c.history [] ops ++ log := by
  induction ops generalizing c log with
  | nil => rfl
  | cons op ops ih =>
    rw [history, history, ih, ih (c.step op) ((c.event op).toList ++ [])]
    simp

omit [LinearOrder P] in
theorem usedKeys_append (later log : List (Event P)) :
    usedKeys (later ++ log) = usedKeys log ++ usedKeys later := by
  simp [usedKeys]

/-- A call that leaves a mark is a use of its key, and a load if the key was not there; any other
call changes nothing. -/
theorem Ordered.event_cases (h : Ordered prio c l) (hinv : Inv slotBytes numSlots c)
    (hpos : 0 < numSlots) (op : Op) :
    (c.event op = none ∧ Ordered prio (c.step op) l) ∨
      ∃ e, c.event op = some e ∧ (e.isLoad = true ↔ e.key ∉ l) ∧ Ordered prio (c.step op)
        (RecencyCache.step (fun k => prio k.layer k.expert) numSlots.toNat l (.use e.key)) := by
  have hstep := h.step hinv hpos op
  cases op with
  | touch k =>
    simp only [keyOp, RecencyCache.step] at hstep
    by_cases hk : k ∈ l
    · rw [if_pos hk] at hstep
      refine Or.inr ⟨.use k, if_pos (h.mem_iff.mp hk), by simp [Event.isLoad, Event.key, hk], ?_⟩
      dsimp only [Event.key, RecencyCache.step]
      rw [if_pos hk]
      exact hstep
    · rw [if_neg hk] at hstep
      exact Or.inl ⟨if_neg fun hc => hk (h.mem_iff.mpr hc), hstep⟩
  | acquire k n =>
    by_cases hn : n ≤ slotBytes
    · simp only [keyOp, if_pos hn] at hstep
      obtain ⟨r, c', he, hhit, -⟩ := h.acquire hinv hpos k hn
      by_cases hk : k ∈ l
      · have hr : r.hit = true := hhit.trans (h.mem_iff.mp hk)
        exact Or.inr ⟨.use k, by simp [event, he, hr], by simp [Event.isLoad, Event.key, hk], hstep⟩
      · have hr : r.hit = false := by
          rw [hhit, Bool.eq_false_iff]
          exact fun hc => hk (h.mem_iff.mpr hc)
        exact Or.inr ⟨.load k _, by simp [event, he, hr]; rfl,
          by simp [Event.isLoad, Event.key, hk], hstep⟩
    · simp only [keyOp, if_neg hn] at hstep
      have he : c.acquire k n =
          .error (.invalidArgument "VramCacheManager: expert_bytes exceeds slot_bytes") :=
        if_pos (hinv.slotBytes_eq ▸ not_le.mp hn)
      exact Or.inl ⟨by simp [event, he], hstep⟩

/-- The comparison along a run, by induction on the calls; a call that leaves a mark takes one
step of the schedule. -/
theorem Ordered.run_amortized (h : Ordered (fun _ _ => p) c l) (hinv : Inv slotBytes numSlots c)
    (hpos : 0 < numSlots) {room : ℕ} (hroom : room ≤ numSlots.toNat) {C : Finset ExpertKey}
    {misses loaded : ℕ} (hA : Amortized numSlots.toNat room C l misses loaded) (ops : List Op)
    {held : List (Finset ExpertKey)} (hserves : Serves room (usedKeys (c.history [] ops)) held) :
    ∃ (C' : Finset ExpertKey) (l' : List ExpertKey), Amortized numSlots.toNat room C' l'
      (misses + missed (c.history [] ops)) (loaded + loads C held) := by
  induction ops generalizing c l C misses loaded held with
  | nil =>
    have hnone : Serves room [] held := hserves
    obtain rfl := List.forall₂_nil_left_iff.mp hnone
    exact ⟨C, l, hA⟩
  | cons op ops ih =>
    rw [history, List.append_nil, history_append, usedKeys_append] at hserves
    rw [history, List.append_nil, history_append, missed, List.countP_append]
    rcases h.event_cases hinv hpos op with ⟨he, hord⟩ | ⟨e, he, hload, hord⟩
    · rw [he] at hserves ⊢
      exact ih hord (hinv.step hpos op) hA hserves
    · rw [he] at hserves ⊢
      obtain ⟨C', held', ⟨hmem, hcard⟩, hrest, rfl⟩ := List.forall₂_cons_left_iff.mp hserves
      have hserved := (hA.move C').serve (Int.pos_iff_toNat_pos.mp hpos) p hmem hcard hroom
      obtain ⟨C'', l', hend⟩ := ih hord (hinv.step hpos op) hserved hrest
      have hone : List.countP Event.isLoad (Option.some e).toList =
          if e.key ∈ l then 0 else 1 := by
        by_cases hk : e.key ∈ l
        · simp [hk, hload]
        · simp [hk, hload]
      rw [hone, Nat.add_comm (List.countP _ _), ← Nat.add_assoc, loads, ← Nat.add_assoc]
      exact ⟨C'', l', hend⟩

/-- With one priority for all experts the cache of `n` slots loads at most `n / (n - room + 1)`
times what any schedule with `room` places loads, and `n` experts more. -/
theorem run_competitive {order : IterationOrder ExpertKey (CachedExpert P)} {malloc : ℕ → ℕ}
    {c₀ : VramCacheManager P}
    (hc : construct order malloc (fun _ _ _ => p) slotBytes numSlots = .ok c₀) (ops : List Op)
    {room : ℕ} (hroom : room ≤ numSlots.toNat) {held : List (Finset ExpertKey)}
    (hserves : Serves room (usedKeys (c₀.history [] ops)) held) :
    let n := numSlots.toNat
    (n - room + 1) * missed (c₀.history [] ops) ≤ n * loads ∅ held + (n - room + 1) * n := by
  intro n
  obtain ⟨hpos, hinv⟩ := construct_inv hc
  obtain ⟨C, l, hA⟩ := (construct_ordered hc).run_amortized hinv hpos hroom
    (amortized_nil n room) ops hserves
  rw [Nat.zero_add, Nat.zero_add] at hA
  exact hA.missed_le

/-- Two slots against one place, which is loaded anew for each request. -/
theorem run_competitive_two_slots : ∃ c₀ : VramCacheManager ℤ,
    construct (.newestFirst _ _) (fun _ => 100) (fun _ _ _ => 0) 8 2 = .ok c₀ ∧
      let ops := [.acquire ⟨0, 0⟩ 8, .acquire ⟨0, 1⟩ 8, .touch ⟨0, 0⟩, .acquire ⟨0, 2⟩ 8]
      2 * missed (c₀.history [] ops) ≤ 2 * 4 + 2 * 2 := by
  have hc : construct (.newestFirst _ _) (fun _ => 100) (fun _ _ _ => 0) 8 2 =
    .ok (⟨fun _ _ _ => 0, 8, 2, 100, [0, 1], .empty (.newestFirst _ _), 0, ⟨-1, -1⟩⟩ :
      VramCacheManager ℤ) := rfl
  have hbound := run_competitive hc
    [.acquire ⟨0, 0⟩ 8, .acquire ⟨0, 1⟩ 8, .touch ⟨0, 0⟩, .acquire ⟨0, 2⟩ 8]
    (show 1 ≤ (2 : ℤ).toNat by decide) (show Serves 1 _ [{⟨0, 0⟩}, {⟨0, 1⟩}, {⟨0, 0⟩}, {⟨0, 2⟩}]
      by unfold Serves; decide)
  exact ⟨_, hc, hbound⟩

end VramCacheManager
end Dee.SlotCache
