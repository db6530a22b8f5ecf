import Dee.RecencyCache
import Dee.SlotPartition

/-! With totally ordered priorities the slot cache is a recency cache: its stamps order
the cached keys, and the victim is the leftmost key of lowest priority. So a cache with
more slots holds whatever a smaller one holds. -/
namespace Dee.SlotCache.VramCacheManager
open GuardedRuns
variable {P : Type*}

def stampOf (c : VramCacheManager P) (k : ExpertKey) : Option ℕ :=
  (c.cached.find? k).map CachedExpert.lastUsed

/-- The cached keys, the least recently used first; all priorities are those of `prio`. -/
structure Ordered (prio : Int32 → Int32 → P) (c : VramCacheManager P) (l : List ExpertKey) :
    Prop where
  stamped : RecencyCache.Stamped c.stampOf c.clock l
  priority_eq : ∀ e ∈ c.cached.entries, e.2.priority = prio e.1.layer e.1.expert
  oracle_eq : ∀ t, c.oracle t = prio

variable {prio : Int32 → Int32 → P} {slotBytes : ℕ} {numSlots : ℤ} {l : List ExpertKey}

theorem Ordered.mem_iff {c : VramCacheManager P} (h : Ordered prio c l) {k : ExpertKey} :
    k ∈ l ↔ c.contains k = true := by
  rw [h.stamped.mem_iff, stampOf, Option.isSome_map, contains]

theorem Ordered.length_eq {c : VramCacheManager P} (h : Ordered prio c l) :
    l.length = c.cached.entries.length := by
  have hperm : l.Perm (c.cached.entries.map Prod.fst) := by
    refine (List.perm_ext_iff_of_nodup h.stamped.nodup c.cached.keys_nodup).mpr fun k => ?_
    rw [h.mem_iff, contains_iff, List.mem_map]
    constructor
    · intro ⟨ce, hce⟩
      exact ⟨_, hce, rfl⟩
    · intro ⟨e, he, hk⟩
      exact ⟨e.2, hk ▸ he⟩
  rw [hperm.length_eq, List.length_map]

/-- Cached experts and spare slots add up to all slots. -/
theorem Partition.count {spare : List ℕ} {c : VramCacheManager P} (h : Partition spare c) :
    c.cached.entries.length + spare.length = c.numSlots.toNat := by
  have hnd : ((c.cached.entries.map fun e => e.2.slot) ++ spare).Nodup := by
    refine List.nodup_append.mpr ⟨?_, h.spare_nodup, fun i hi j hj hij => ?_⟩
    · refine (List.nodup_map_iff_inj_on c.cached.entries_nodup).mpr fun e he e' he' hs => ?_
      have hkey := h.slots_inj e he e' he' hs
      have hmem : (e'.1, e.2) ∈ c.cached.entries := hkey ▸ he
      exact Prod.ext hkey (c.cached.entry_unique hmem he')
    · obtain ⟨e, he, rfl⟩ := List.mem_map.mp hi
      exact h.disjoint e he (hij ▸ hj)
  have hperm : ((c.cached.entries.map fun e => e.2.slot) ++ spare).Perm
      (List.range c.numSlots.toNat) := by
    refine (List.perm_ext_iff_of_nodup hnd List.nodup_range).mpr fun i => ?_
    rw [List.mem_append, List.mem_map, List.mem_range, Int.lt_toNat, ← h.cover i]
  have hlen := hperm.length_eq
  rwa [List.length_append, List.length_map, List.length_range] at hlen

theorem Ordered.renew {c : VramCacheManager P} (h : Ordered prio c l) {k : ExpertKey}
    (hk : c.contains k = true) : Ordered prio (c.renew k) (l.erase k ++ [k]) where
  stamped := by
    refine h.stamped.use (Nat.lt_succ_self c.clock) fun k' => ?_
    simp only [stampOf, VramCacheManager.renew, UnorderedMap.find?_modify]
    split_ifs with he
    · obtain ⟨ce, hce⟩ := Option.isSome_iff_exists.mp (he ▸ hk : c.contains k' = true)
      rw [hce]
      rfl
    · rfl
  priority_eq := by
    intro e he
    obtain ⟨w, hw, -, -, hprio, -⟩ := mem_renew he
    rw [hprio]
    exact h.priority_eq _ hw
  oracle_eq := h.oracle_eq

theorem Ordered.drop {c : VramCacheManager P} (h : Ordered prio c l) (v : CachedExpert P) :
    Ordered prio (c.drop v) (l.erase v.key) where
  stamped := by
    refine h.stamped.erase fun k' => ?_
    rw [stampOf, find?_drop]
    split_ifs with he
    · rfl
    · rfl
  priority_eq := fun e he => h.priority_eq e (UnorderedMap.mem_erase.mp he).1
  oracle_eq := h.oracle_eq

theorem Ordered.place {c : VramCacheManager P} (h : Ordered prio c l) {k : ExpertKey}
    (hk : c.cached.find? k = none) (slot n : ℕ) :
    Ordered prio (c.place k slot n) (l ++ [k]) where
  stamped := by
    have hnot : k ∉ l := fun hmem => by
      rw [h.mem_iff, contains, hk] at hmem
      cases hmem
    have hstamp : ∀ k', (c.place k slot n).stampOf k' =
        if k' = k then some (c.clock + 1) else c.stampOf k' := by
      intro k'
      rw [stampOf, find?_place hk]
      split_ifs with he
      · rfl
      · rfl
    have huse := h.stamped.use (Nat.lt_succ_self c.clock) hstamp
    rwa [List.erase_of_not_mem hnot] at huse
  priority_eq := by
    intro e he
    rcases (UnorderedMap.mem_assign hk).mp he with rfl | he
    · exact congrFun (congrFun (h.oracle_eq _) _) _
    · exact h.priority_eq e he
  oracle_eq := h.oracle_eq

variable [LinearOrder P]

theorem before_iff {a b : CachedExpert P} :
    Before a b ↔ toLex (a.priority, a.lastUsed) < toLex (b.priority, b.lastUsed) := by
  rw [Before, beq_iff_eq, Prod.Lex.toLex_lt_toLex]

theorem findVictim_eq_argmin (c : VramCacheManager P) :
    c.findVictim = (c.cached.entries.map Prod.snd).argmin
      fun ce => toLex (ce.priority, ce.lastUsed) := by
  rw [findVictim, List.argmin, List.foldl_map]
  congr 1
  funext victim e
  cases victim with
  | none => rfl
  | some v => simp only [List.argAux, before_iff]

/-- The victim comes first in the order by priority and then by recency. -/
theorem Ordered.argmin_eq {c : VramCacheManager P} (h : Ordered prio c l)
    (hpart : Partition c.freeList c) {v : CachedExpert P} (hv : c.findVictim = some v) :
    l.argmin (fun k => prio k.layer k.expert) = some v.key := by
  have hmem := hpart.findVictim_mem hv
  have hprio : v.priority = prio v.key.layer v.key.expert := h.priority_eq _ hmem
  have hstamp : c.stampOf v.key = some v.lastUsed := by
    rw [stampOf, UnorderedMap.find?_eq_some.mpr hmem]
    rfl
  refine h.stamped.argmin_eq hstamp fun k t ht => ?_
  obtain ⟨ce, hce, rfl⟩ := Option.map_eq_some_iff.mp ht
  have hce := UnorderedMap.find?_eq_some.mp hce
  rw [findVictim_eq_argmin] at hv
  have hle := List.le_of_mem_argmin (List.mem_map_of_mem (f := Prod.snd) hce) hv
  have hk := h.priority_eq _ hce
  dsimp only at hk
  rw [← hprio, ← hk]
  exact Prod.Lex.toLex_le_toLex.mp hle

/-- The accepted calls, as operations on keys. -/
def keyOp (slotBytes : ℕ) : Op → Option (RecencyCache.Op ExpertKey)
  | .acquire k n => if n ≤ slotBytes then some (.use k) else none
  | .touch k => some (.touch k)

theorem Ordered.acquire {c : VramCacheManager P} (h : Ordered prio c l)
    (hinv : Inv slotBytes numSlots c) (hpos : 0 < numSlots) (k : ExpertKey) {n : ℕ}
    (hn : n ≤ slotBytes) :
    ∃ r c', c.acquire k n = .ok (r, c') ∧ r.hit = c.contains k ∧ Ordered prio c'
      (RecencyCache.step (fun k => prio k.layer k.expert) numSlots.toNat l (.use k)) := by
  have hcount := hinv.partition.count
  rw [hinv.numSlots_eq, ← h.length_eq] at hcount
  have hmem : k ∈ l ↔ c.contains k = true := h.mem_iff
  simp only [RecencyCache.step]
  rcases hinv.partition.acquire_cases (hinv.numSlots_eq ▸ hpos) k (hinv.slotBytes_eq ▸ hn) with
    ⟨ce, hf, he⟩ | ⟨slot, rest, hf, hl, he⟩ | ⟨v, hf, hl, hv, he⟩
  · have hk : c.contains k = true := by rw [contains, hf, Option.isSome_some]
    rw [if_pos (hmem.mpr hk)]
    exact ⟨_, _, he, hk.symm, h.renew hk⟩
  · have hk : c.contains k = false := by rw [contains, hf, Option.isSome_none]
    rw [hl, List.length_cons] at hcount
    rw [if_neg (by simp [hmem, hk]), RecencyCache.makeRoom, if_pos (by omega)]
    have hpop : Ordered prio ({ c with freeList := rest } : VramCacheManager P) l :=
      ⟨h.stamped, h.priority_eq, h.oracle_eq⟩
    exact ⟨_, _, he, hk.symm, hpop.place hf slot n⟩
  · have hk : c.contains k = false := by rw [contains, hf, Option.isSome_none]
    have hnone : (c.drop v).cached.find? k = none := by
      rw [find?_drop, hf, ite_self]
    rw [hl, List.length_nil] at hcount
    rw [if_neg (by simp [hmem, hk]), RecencyCache.makeRoom, if_neg (by omega),
      h.argmin_eq hinv.partition hv]
    exact ⟨_, _, he, hk.symm, (h.drop v).place hnone v.slot n⟩

/-- One call on the manager is one operation on the list, or none if the call throws. -/
theorem Ordered.step {c : VramCacheManager P} (h : Ordered prio c l)
    (hinv : Inv slotBytes numSlots c) (hpos : 0 < numSlots) (op : Op) :
    Ordered prio (c.step op) (match keyOp slotBytes op with
      | some kop => RecencyCache.step (fun k => prio k.layer k.expert) numSlots.toNat l kop
      | none => l) := by
  cases op with
  | touch k =>
    simp only [keyOp, RecencyCache.step, VramCacheManager.step]
    rcases touch_cases c k with ⟨hk, he⟩ | ⟨hk, he⟩
    · rw [if_pos (h.mem_iff.mpr hk), he]
      exact h.renew hk
    · rw [if_neg (by simp [h.mem_iff, hk]), he]
      exact h
  | acquire k n =>
    by_cases hn : n ≤ slotBytes
    · obtain ⟨r, c', he, -, hord⟩ := h.acquire hinv hpos k hn
      simp only [keyOp, if_pos hn, VramCacheManager.step, he]
      exact hord
    · have hlarge : c.slotBytes < n := hinv.slotBytes_eq ▸ not_le.mp hn
      simp only [keyOp, if_neg hn, VramCacheManager.step, VramCacheManager.acquire, if_pos hlarge]
      exact h

theorem Ordered.run {c : VramCacheManager P} (h : Ordered prio c l)
    (hinv : Inv slotBytes numSlots c) (hpos : 0 < numSlots) (ops : List Op) :
    Ordered prio (GuardedRuns.run VramCacheManager.step c ops)
      (GuardedRuns.run (RecencyCache.step (fun k => prio k.layer k.expert) numSlots.toNat) l
        (ops.filterMap (keyOp slotBytes))) := by
  induction ops generalizing c l with
  | nil => exact h
  | cons op ops ih =>
    have hstep := h.step hinv hpos op
    have hrun := ih hstep (hinv.step hpos op)
    cases hop : keyOp slotBytes op with
    | none =>
      rw [List.filterMap_cons_none hop]
      rwa [hop] at hrun
    | some kop =>
      rw [List.filterMap_cons_some hop]
      rwa [hop] at hrun

omit [LinearOrder P] in
theorem construct_ordered {order : IterationOrder ExpertKey (CachedExpert P)} {malloc : ℕ → ℕ}
    {c : VramCacheManager P}
    (h : construct order malloc (fun _ => prio) slotBytes numSlots = .ok c) :
    Ordered prio c [] := by
  obtain ⟨-, arena, rfl⟩ := construct_cases h
  refine ⟨RecencyCache.stamped_nil 0, ?_, fun _ => rfl⟩
  simp [UnorderedMap.empty]

/-- Two caches with the same priorities and the same calls: after every run the one with
more slots holds every key of the other, and a hit in the other is a hit in it. -/
theorem run_inclusion {order order' : IterationOrder ExpertKey (CachedExpert P)}
    {malloc malloc' : ℕ → ℕ} (prio : Int32 → Int32 → P) {n m : ℤ} (hnm : n ≤ m)
    {c₀ d₀ : VramCacheManager P}
    (hc : construct order malloc (fun _ => prio) slotBytes n = .ok c₀)
    (hd : construct order' malloc' (fun _ => prio) slotBytes m = .ok d₀) (ops : List Op) :
    let c := run step c₀ ops
    let d := run step d₀ ops
    (∀ k, c.contains k = true → d.contains k = true) ∧
      ∀ k bytes r c', c.acquire k bytes = .ok (r, c') → r.hit = true →
        ∃ r' d', d.acquire k bytes = .ok (r', d') ∧ r'.hit = true := by
  intro c d
  obtain ⟨hn, hcinv⟩ := construct_inv hc
  obtain ⟨hm, hdinv⟩ := construct_inv hd
  have hcord : Ordered prio c _ := (construct_ordered hc).run hcinv hn ops
  have hdord : Ordered prio d _ := (construct_ordered hd).run hdinv hm ops
  have hnest := (RecencyCache.nested_nil (K := ExpertKey)).run
    (f := fun k => prio k.layer k.expert) (Int.pos_iff_toNat_pos.mp hn) (Int.toNat_le_toNat hnm)
    (ops.filterMap (keyOp slotBytes))
  have hincl : ∀ k, c.contains k = true → d.contains k = true := by
    intro k hk
    rw [← hdord.mem_iff]
    exact hnest.sublist.subset (hcord.mem_iff.mpr hk)
  refine ⟨hincl, fun k bytes r c' hacq hhit => ?_⟩
  have hcrun := run_inv hcinv hn ops
  have hdrun := run_inv hdinv hm ops
  have hbytes : bytes ≤ slotBytes := by
    by_contra hlt
    rw [VramCacheManager.acquire, if_pos (hcrun.slotBytes_eq.symm ▸ not_le.mp hlt)] at hacq
    cases hacq
  obtain ⟨r₁, c₁, he, hr, -⟩ := hcord.acquire hcrun hn k hbytes
  rw [he] at hacq
  cases hacq
  obtain ⟨r', d', he', hr', -⟩ := hdord.acquire hdrun hm k hbytes
  exact ⟨r', d', he', hr'.trans (hincl k (hr ▸ hhit))⟩

/-- One slot against two. -/
theorem run_inclusion_one_two :
    ∃ c₀ d₀ : VramCacheManager ℤ,
      construct (.newestFirst _ _) (fun _ => 100) (fun _ _ _ => 0) 8 1 = .ok c₀ ∧
      construct (.newestFirst _ _) (fun _ => 100) (fun _ _ _ => 0) 8 2 = .ok d₀ ∧
      ∀ k, (run step c₀ [.acquire ⟨0, 0⟩ 8, .acquire ⟨0, 1⟩ 8]).contains k = true →
        (run step d₀ [.acquire ⟨0, 0⟩ 8, .acquire ⟨0, 1⟩ 8]).contains k = true := by
  have hc : construct (.newestFirst _ _) (fun _ => 100) (fun _ _ _ => 0) 8 1 =
    .ok (⟨fun _ _ _ => 0, 8, 1, 100, [0], .empty (.newestFirst _ _), 0, ⟨-1, -1⟩⟩ :
      VramCacheManager ℤ) := rfl
  have hd : construct (.newestFirst _ _) (fun _ => 100) (fun _ _ _ => 0) 8 2 =
    .ok (⟨fun _ _ _ => 0, 8, 2, 100, [0, 1], .empty (.newestFirst _ _), 0, ⟨-1, -1⟩⟩ :
      VramCacheManager ℤ) := rfl
  exact ⟨_, _, hc, hd, (run_inclusion (fun _ _ => 0) (by decide) hc hd _).1⟩

end Dee.SlotCache.VramCacheManager
