import Dee.SlotCache

/-! The slots of the arena are shared out between the cached experts and the free list,
after every run. So the free list is only empty when some expert is cached, and then
there is a victim. -/
namespace Dee.SlotCache.VramCacheManager
open GuardedRuns
variable {P : Type*}

/-- The cached experts and the slots in `spare` share out the slots of the arena; `spare`
is the free list, and during a call also the slot that the call has taken. -/
structure Partition (spare : List ℕ) (c : VramCacheManager P) : Prop where
  own_key : ∀ e ∈ c.cached.entries, e.2.key = e.1
  slots_inj : ∀ e ∈ c.cached.entries, ∀ e' ∈ c.cached.entries, e.2.slot = e'.2.slot → e.1 = e'.1
  spare_nodup : spare.Nodup
  disjoint : ∀ e ∈ c.cached.entries, e.2.slot ∉ spare
  cover : ∀ i : ℕ, (∃ e ∈ c.cached.entries, e.2.slot = i) ∨ i ∈ spare ↔ (i : ℤ) < c.numSlots
  stamps_inj : ∀ e ∈ c.cached.entries, ∀ e' ∈ c.cached.entries,
    e.2.lastUsed = e'.2.lastUsed → e.1 = e'.1
  stamp_le : ∀ e ∈ c.cached.entries, e.2.lastUsed ≤ c.clock

/-- A key that leaves the cache from `c` to `c'`. -/
def Evicts (c c' : VramCacheManager P) (k : ExpertKey) : Prop :=
  c.contains k = true ∧ c'.contains k = false

/-- What an operation may do to the keys that are cached. -/
structure Keeps (c c' : VramCacheManager P) : Prop where
  slotOf_eq : ∀ k, c.contains k = true → c'.contains k = true → c'.slotOf k = c.slotOf k
  evicts_unique : ∀ k k', Evicts c c' k → Evicts c c' k' → k = k'

theorem partition_construct (order : IterationOrder ExpertKey (CachedExpert P))
    (oracle : ℕ → Int32 → Int32 → P) (slotBytes arena : ℕ) (numSlots : ℤ) :
    Partition (List.range numSlots.toNat) (⟨oracle, slotBytes, numSlots, arena,
      List.range numSlots.toNat, .empty order, 0, ⟨-1, -1⟩⟩ : VramCacheManager P) where
  own_key := by simp [UnorderedMap.empty]
  slots_inj := by simp [UnorderedMap.empty]
  spare_nodup := List.nodup_range
  disjoint := by simp [UnorderedMap.empty]
  cover := by simp [UnorderedMap.empty]
  stamps_inj := by simp [UnorderedMap.empty]
  stamp_le := by simp [UnorderedMap.empty]

/-- Without a free slot some expert is cached, so there is a victim. -/
theorem Partition.cached_ne_nil {c : VramCacheManager P} (h : Partition c.freeList c)
    (hpos : 0 < c.numSlots) (hfree : c.freeList = []) : c.cached.entries ≠ [] := by
  intro hnil
  have hzero := (h.cover 0).mpr hpos
  simp [hfree, hnil] at hzero

theorem Partition.renew {spare : List ℕ} {c : VramCacheManager P} (h : Partition spare c)
    (k : ExpertKey) : Partition spare (c.renew k) where
  own_key := by
    intro e he
    obtain ⟨w, hw, hkey, -⟩ := mem_renew he
    rw [hkey]
    exact h.own_key _ hw
  slots_inj := by
    intro e he e' he' hs
    obtain ⟨w, hw, -, hslot, -⟩ := mem_renew he
    obtain ⟨w', hw', -, hslot', -⟩ := mem_renew he'
    rw [hslot, hslot'] at hs
    exact h.slots_inj (e.1, w) hw (e'.1, w') hw' hs
  spare_nodup := h.spare_nodup
  disjoint := by
    intro e he
    obtain ⟨w, hw, -, hslot, -⟩ := mem_renew he
    rw [hslot]
    exact h.disjoint _ hw
  cover := by
    intro i
    refine Iff.trans (or_congr ?_ Iff.rfl) (h.cover i)
    constructor
    · intro ⟨e, he, hs⟩
      obtain ⟨w, hw, -, hslot, -⟩ := mem_renew he
      exact ⟨_, hw, hslot ▸ hs⟩
    · intro ⟨e, he, hs⟩
      refine ⟨(e.1, _), UnorderedMap.mem_modify.mpr ⟨e.2, he, rfl⟩, ?_⟩
      dsimp only
      split_ifs
      · exact hs
      · exact hs
  stamps_inj := by
    intro e he e' he' hs
    obtain ⟨w, hw, -, -, -, hstamp⟩ := mem_renew he
    obtain ⟨w', hw', -, -, -, hstamp'⟩ := mem_renew he'
    rw [hstamp, hstamp'] at hs
    have hle := h.stamp_le _ hw
    have hle' := h.stamp_le _ hw'
    dsimp only at hle hle'
    split_ifs at hs with hk hk' hk'
    · rw [hk, hk']
    · omega
    · omega
    · exact h.stamps_inj (e.1, w) hw (e'.1, w') hw' hs
  stamp_le := by
    intro e he
    obtain ⟨w, hw, -, -, -, hstamp⟩ := mem_renew he
    have hle := h.stamp_le _ hw
    have hclock : (c.renew k).clock = c.clock + 1 := rfl
    rw [hstamp, hclock]
    split_ifs
    · exact le_rfl
    · exact hle.trans (Nat.le_succ _)

/-- The slot of an expert that leaves the map is spare. -/
theorem Partition.drop {spare : List ℕ} {c : VramCacheManager P} (h : Partition spare c)
    {v : CachedExpert P} (hv : (v.key, v) ∈ c.cached.entries) :
    Partition (v.slot :: spare) (c.drop v) where
  own_key := fun e he => h.own_key e (UnorderedMap.mem_erase.mp he).1
  slots_inj := fun e he e' he' =>
    h.slots_inj e (UnorderedMap.mem_erase.mp he).1 e' (UnorderedMap.mem_erase.mp he').1
  spare_nodup := List.nodup_cons.mpr ⟨h.disjoint _ hv, h.spare_nodup⟩
  disjoint := by
    intro e he hmem
    obtain ⟨he, hne⟩ := UnorderedMap.mem_erase.mp he
    rcases List.mem_cons.mp hmem with hs | hs
    · exact hne (h.slots_inj e he _ hv hs)
    · exact h.disjoint e he hs
  cover := by
    intro i
    refine Iff.trans ?_ (h.cover i)
    rw [List.mem_cons, ← or_assoc]
    refine or_congr ?_ Iff.rfl
    constructor
    · intro hor
      rcases hor with ⟨e, he, hs⟩ | hs
      · exact ⟨e, (UnorderedMap.mem_erase.mp he).1, hs⟩
      · exact ⟨_, hv, hs.symm⟩
    · intro ⟨e, he, hs⟩
      by_cases hk : e.1 = v.key
      · have hmem : (v.key, e.2) ∈ c.cached.entries := hk ▸ he
        rw [c.cached.entry_unique hmem hv] at hs
        exact Or.inr hs.symm
      · exact Or.inl ⟨e, UnorderedMap.mem_erase.mpr ⟨he, hk⟩, hs⟩
  stamps_inj := fun e he e' he' =>
    h.stamps_inj e (UnorderedMap.mem_erase.mp he).1 e' (UnorderedMap.mem_erase.mp he').1
  stamp_le := fun e he => h.stamp_le e (UnorderedMap.mem_erase.mp he).1

/-- A field that tells the entries apart still does when a new entry has a new value. -/
theorem inj_assign {V : Type*} {m : UnorderedMap ExpertKey V} {k : ExpertKey} {v : V}
    {f : V → ℕ} (hk : m.find? k = none)
    (hinj : ∀ e ∈ m.entries, ∀ e' ∈ m.entries, f e.2 = f e'.2 → e.1 = e'.1)
    (hnew : ∀ e ∈ m.entries, f e.2 ≠ f v) : ∀ e ∈ (m.assign k v).entries,
      ∀ e' ∈ (m.assign k v).entries, f e.2 = f e'.2 → e.1 = e'.1 := by
  intro e he e' he' hf
  rcases (UnorderedMap.mem_assign hk).mp he with rfl | he
  · rcases (UnorderedMap.mem_assign hk).mp he' with rfl | he'
    · rfl
    · exact absurd hf.symm (hnew e' he')
  · rcases (UnorderedMap.mem_assign hk).mp he' with rfl | he'
    · exact absurd hf (hnew e he)
    · exact hinj e he e' he' hf

/-- A spare slot becomes the slot of a new expert. -/
theorem Partition.place {spare : List ℕ} {slot : ℕ} {c : VramCacheManager P}
    (h : Partition (slot :: spare) c) {k : ExpertKey} (hk : c.cached.find? k = none) (n : ℕ) :
    Partition spare (c.place k slot n) where
  own_key := by
    intro e he
    rcases (UnorderedMap.mem_assign hk).mp he with rfl | he
    · rfl
    · exact h.own_key e he
  slots_inj := inj_assign hk h.slots_inj fun e he hs =>
    h.disjoint e he (hs ▸ List.mem_cons_self)
  spare_nodup := (List.nodup_cons.mp h.spare_nodup).2
  disjoint := by
    intro e he
    rcases (UnorderedMap.mem_assign hk).mp he with rfl | he
    · exact (List.nodup_cons.mp h.spare_nodup).1
    · exact fun hs => h.disjoint e he (List.mem_cons_of_mem _ hs)
  cover := by
    intro i
    refine Iff.trans ?_ (h.cover i)
    rw [List.mem_cons, ← or_assoc]
    refine or_congr ?_ Iff.rfl
    constructor
    · intro ⟨e, he, hs⟩
      rcases (UnorderedMap.mem_assign hk).mp he with rfl | he
      · exact Or.inr hs.symm
      · exact Or.inl ⟨e, he, hs⟩
    · intro hor
      rcases hor with ⟨e, he, hs⟩ | hs
      · exact ⟨e, (UnorderedMap.mem_assign hk).mpr (Or.inr he), hs⟩
      · exact ⟨_, (UnorderedMap.mem_assign hk).mpr (Or.inl rfl), hs.symm⟩
  stamps_inj := inj_assign hk h.stamps_inj fun e he hs =>
    absurd (hs ▸ h.stamp_le e he) (Nat.not_succ_le_self _)
  stamp_le := by
    intro e he
    rcases (UnorderedMap.mem_assign hk).mp he with rfl | he
    · exact le_rfl
    · exact (h.stamp_le e he).trans (Nat.le_succ _)

theorem find?_isSome_of_contains {c : VramCacheManager P} {k k' : ExpertKey}
    (hk : c.cached.find? k = none) (hk' : c.contains k' = true) : k' ≠ k := by
  intro he
  rw [contains, he, hk] at hk'
  cases hk'

/-- Where every cached key stays in its slot, none goes. -/
theorem keeps_of_stays {c c' : VramCacheManager P}
    (h : ∀ k, c.contains k = true → c'.contains k = true ∧ c'.slotOf k = c.slotOf k) :
    Keeps c c' ∧ ∀ k, ¬ Evicts c c' k := by
  have hno : ∀ k, ¬ Evicts c c' k := by
    intro k ⟨h1, h2⟩
    rw [(h k h1).1] at h2
    cases h2
  exact ⟨⟨fun k h1 _ => (h k h1).2, fun k _ h => absurd h (hno k)⟩, hno⟩

theorem keeps_renew (c : VramCacheManager P) (k : ExpertKey) :
    Keeps c (c.renew k) ∧ ∀ k', ¬ Evicts c (c.renew k) k' :=
  keeps_of_stays fun k' h => ⟨(contains_renew c k k').trans h, slotOf_renew c k k'⟩

/-- A new expert takes nothing from the others. -/
theorem keeps_place {c c₁ : VramCacheManager P} {k : ExpertKey} (hk : c.cached.find? k = none)
    (hc : c₁.cached = c.cached) (slot n : ℕ) :
    Keeps c (c₁.place k slot n) ∧ ∀ k', ¬ Evicts c (c₁.place k slot n) k' := by
  refine keeps_of_stays fun k' hk' => ?_
  have hfind : (c₁.place k slot n).cached.find? k' = c.cached.find? k' := by
    rw [find?_place (hc ▸ hk), if_neg (find?_isSome_of_contains hk hk'), hc]
  rw [slotOf, slotOf, hfind]
  exact ⟨(contains_congr hfind).trans hk', rfl⟩

/-- When the slot comes from a victim, only the victim goes. -/
theorem keeps_drop_place {c : VramCacheManager P} {k : ExpertKey} (hk : c.cached.find? k = none)
    (v : CachedExpert P) (slot n : ℕ) :
    Keeps c ((c.drop v).place k slot n) ∧
      ∀ k', Evicts c ((c.drop v).place k slot n) k' → k' = v.key := by
  have hnone : (c.drop v).cached.find? k = none := by
    rw [find?_drop, hk, ite_self]
  have hfind : ∀ k', c.contains k' = true → k' ≠ v.key →
      ((c.drop v).place k slot n).cached.find? k' = c.cached.find? k' := by
    intro k' hk' hne
    rw [find?_place hnone, if_neg (find?_isSome_of_contains hk hk'), find?_drop, if_neg hne]
  have honly : ∀ k', Evicts c ((c.drop v).place k slot n) k' → k' = v.key := by
    intro k' ⟨h1, h2⟩
    by_contra hne
    rw [contains_congr (hfind k' h1 hne), h1] at h2
    cases h2
  refine ⟨⟨fun k' h1 h2 => ?_, fun k₁ k₂ h1 h2 => (honly k₁ h1).trans (honly k₂ h2).symm⟩, honly⟩
  have hne : k' ≠ v.key := by
    intro he
    have hgone : ((c.drop v).place k slot n).cached.find? k' = none := by
      rw [find?_place hnone, if_neg (find?_isSome_of_contains hk h1), find?_drop, if_pos he]
    rw [contains, hgone] at h2
    cases h2
  rw [slotOf, slotOf, hfind k' h1 hne]

theorem touch_cases (c : VramCacheManager P) (k : ExpertKey) :
    c.contains k = true ∧ c.touch k = c.renew k ∨ c.contains k = false ∧ c.touch k = c := by
  unfold touch contains
  cases c.cached.find? k with
  | none => exact Or.inr ⟨rfl, rfl⟩
  | some ce => exact Or.inl ⟨rfl, rfl⟩

theorem keeps_touch (c : VramCacheManager P) (k : ExpertKey) :
    Keeps c (c.touch k) ∧ ∀ k', ¬ Evicts c (c.touch k) k' := by
  rcases touch_cases c k with ⟨-, he⟩ | ⟨-, he⟩
  · rw [he]
    exact keeps_renew c k
  · rw [he]
    exact keeps_of_stays fun _ h => ⟨h, rfl⟩

/-- What every run of a cache with `numSlots` slots preserves. -/
structure Inv (slotBytes : ℕ) (numSlots : ℤ) (c : VramCacheManager P) : Prop where
  partition : Partition c.freeList c
  slotBytes_eq : c.slotBytes = slotBytes
  numSlots_eq : c.numSlots = numSlots

variable {slotBytes : ℕ} {numSlots : ℤ}

theorem construct_inv {order : IterationOrder ExpertKey (CachedExpert P)} {malloc : ℕ → ℕ}
    {oracle : ℕ → Int32 → Int32 → P} {c : VramCacheManager P}
    (h : construct order malloc oracle slotBytes numSlots = .ok c) :
    0 < numSlots ∧ Inv slotBytes numSlots c := by
  obtain ⟨hpos, arena, rfl⟩ := construct_cases h
  exact ⟨hpos, partition_construct order oracle slotBytes arena numSlots, rfl, rfl⟩

variable [LT P] [DecidableLT P] [BEq P]

theorem Partition.findVictim_mem {spare : List ℕ} {c : VramCacheManager P} (h : Partition spare c)
    {v : CachedExpert P} (hv : c.findVictim = some v) : (v.key, v) ∈ c.cached.entries := by
  rcases (findVictim_foldl c.cached.entries none).2 v hv with hno | ⟨k, hk⟩
  · cases hno
  · rwa [h.own_key _ hk]

/-- The three outcomes of a call that does not throw. -/
theorem Partition.acquire_cases {c : VramCacheManager P} (h : Partition c.freeList c)
    (hpos : 0 < c.numSlots) (k : ExpertKey) {n : ℕ} (hn : n ≤ c.slotBytes) :
    (∃ ce, c.cached.find? k = some ce ∧
      c.acquire k n = .ok (⟨c.slotPtr ce.slot, ce.slot, true⟩, c.renew k)) ∨
    (∃ slot rest, c.cached.find? k = none ∧ c.freeList = slot :: rest ∧
      c.acquire k n = .ok (⟨c.slotPtr slot, slot, false⟩,
        ({ c with freeList := rest } : VramCacheManager P).place k slot n)) ∨
    (∃ v, c.cached.find? k = none ∧ c.freeList = [] ∧ c.findVictim = some v ∧
      c.acquire k n = .ok (⟨c.slotPtr v.slot, v.slot, false⟩, (c.drop v).place k v.slot n)) := by
  unfold acquire
  rw [if_neg hn.not_gt]
  cases hf : c.cached.find? k with
  | some ce => exact Or.inl ⟨ce, rfl, rfl⟩
  | none =>
    cases hl : c.freeList with
    | cons slot rest => exact Or.inr (Or.inl ⟨slot, rest, rfl, rfl, by simp only [takeSlot, hl]⟩)
    | nil =>
      cases hv : c.findVictim with
      | none => exact absurd (findVictim_eq_none hv) (h.cached_ne_nil hpos hl)
      | some v => exact Or.inr (Or.inr ⟨v, rfl, rfl, rfl, by simp only [takeSlot, hl, evictVictim, hv]⟩)

/-- A call that does not throw: the partition stays, a cached key keeps its slot, and at
most one key goes, none of them on a hit or while a slot is free. -/
theorem Partition.acquire_spec {c : VramCacheManager P} (h : Partition c.freeList c)
    (hpos : 0 < c.numSlots) (k : ExpertKey) {n : ℕ} (hn : n ≤ c.slotBytes) :
    ∃ r c', c.acquire k n = .ok (r, c') ∧ Partition c'.freeList c' ∧
      c'.numSlots = c.numSlots ∧ c'.slotBytes = c.slotBytes ∧ r.hit = c.contains k ∧
      Keeps c c' ∧ (r.hit = true ∨ c.freeList ≠ [] → ∀ k', ¬ Evicts c c' k') := by
  rcases h.acquire_cases hpos k hn with ⟨ce, hf, he⟩ | ⟨slot, rest, hf, hl, he⟩ | ⟨v, hf, hl, hv, he⟩
  · obtain ⟨hkeep, hno⟩ := keeps_renew c k
    refine ⟨_, _, he, h.renew k, rfl, rfl, ?_, hkeep, fun _ => hno⟩
    simp only [contains, hf, Option.isSome_some]
  · have hcached : ({ c with freeList := rest } : VramCacheManager P).cached = c.cached := rfl
    obtain ⟨hkeep, hno⟩ := keeps_place hf hcached slot n
    have hpart : Partition (slot :: rest) ({ c with freeList := rest } : VramCacheManager P) := by
      rw [hl] at h
      exact ⟨h.own_key, h.slots_inj, h.spare_nodup, h.disjoint, h.cover, h.stamps_inj, h.stamp_le⟩
    refine ⟨_, _, he, hpart.place hf n, rfl, rfl, ?_, hkeep, fun _ => hno⟩
    simp only [contains, hf, Option.isSome_none]
  · obtain ⟨hkeep, -⟩ := keeps_drop_place hf v v.slot n
    have hdrop : Partition (v.slot :: c.freeList) (c.drop v) := h.drop (h.findVictim_mem hv)
    have hnone : (c.drop v).cached.find? k = none := by
      rw [find?_drop, hf, ite_self]
    refine ⟨_, _, he, hdrop.place hnone n, rfl, rfl, ?_, hkeep, fun hor => ?_⟩
    · simp only [contains, hf, Option.isSome_none]
    · rcases hor with hhit | hfree
      · cases hhit
      · exact absurd hl hfree

theorem Inv.step {c : VramCacheManager P} (h : Inv slotBytes numSlots c) (hpos : 0 < numSlots)
    (op : Op) : Inv slotBytes numSlots (c.step op) := by
  cases op with
  | touch k =>
    rcases touch_cases c k with ⟨-, he⟩ | ⟨-, he⟩
    · rw [VramCacheManager.step, he]
      exact ⟨h.partition.renew k, h.slotBytes_eq, h.numSlots_eq⟩
    · rw [VramCacheManager.step, he]
      exact h
  | acquire k n =>
    by_cases hn : n ≤ c.slotBytes
    · obtain ⟨r, c', he, hpart, hnum, hbytes, -⟩ :=
        h.partition.acquire_spec (h.numSlots_eq ▸ hpos) k hn
      simp only [VramCacheManager.step, he]
      exact ⟨hpart, hbytes.trans h.slotBytes_eq, hnum.trans h.numSlots_eq⟩
    · have he : c.acquire k n =
          .error (.invalidArgument "VramCacheManager: expert_bytes exceeds slot_bytes") :=
        if_pos (not_le.mp hn)
      simp only [VramCacheManager.step, he]
      exact h

theorem run_inv {c : VramCacheManager P} (h : Inv slotBytes numSlots c) (hpos : 0 < numSlots)
    (ops : List Op) : Inv slotBytes numSlots (run step c ops) :=
  invariant_run_of_step (fun _ op hc => hc.step hpos op) h ops

/-- After construction and every sequence of calls, with any priorities: the slots are
shared out, a full cache has a victim, and the next call keeps the slots of what stays. -/
theorem run_partition {order : IterationOrder ExpertKey (CachedExpert P)} {malloc : ℕ → ℕ}
    {oracle : ℕ → Int32 → Int32 → P} {c₀ : VramCacheManager P}
    (hc : construct order malloc oracle slotBytes numSlots = .ok c₀) (ops : List Op) :
    let c := run step c₀ ops
    Partition c.freeList c ∧ c.numSlots = numSlots ∧
      (c.freeList = [] → c.cached.entries ≠ []) ∧
      (∀ k n, n ≤ slotBytes → ∃ r c', c.acquire k n = .ok (r, c') ∧ r.hit = c.contains k ∧
        Keeps c c' ∧ (r.hit = true ∨ c.freeList ≠ [] → ∀ k', ¬ Evicts c c' k')) ∧
      ∀ k, Keeps c (c.touch k) ∧ ∀ k', ¬ Evicts c (c.touch k) k' := by
  intro c
  obtain ⟨hpos, h0⟩ := construct_inv hc
  have h : Inv slotBytes numSlots c := run_inv h0 hpos ops
  have hposc : 0 < c.numSlots := h.numSlots_eq ▸ hpos
  refine ⟨h.partition, h.numSlots_eq, h.partition.cached_ne_nil hposc, fun k n hn => ?_,
    keeps_touch c⟩
  obtain ⟨r, c', he, -, -, -, hhit, hkeep, hno⟩ :=
    h.partition.acquire_spec hposc k (h.slotBytes_eq.symm ▸ hn)
  exact ⟨r, c', he, hhit, hkeep, hno⟩

/-- Two slots and three experts: the third call evicts. -/
theorem run_partition_two_slots :
    ∃ c₀ : VramCacheManager ℤ, construct (.newestFirst _ _) (fun _ => 100) (fun _ _ e => e.toInt)
        8 2 = .ok c₀ ∧
      let c := run step c₀ [.acquire ⟨0, 0⟩ 8, .acquire ⟨0, 1⟩ 4]
      Partition c.freeList c ∧ ∃ r c', c.acquire ⟨0, 2⟩ 8 = .ok (r, c') ∧ Keeps c c' := by
  have hc : construct (.newestFirst _ _) (fun _ => 100) (fun _ _ e => e.toInt) 8 2 =
    .ok (⟨fun _ _ e => e.toInt, 8, 2, 100, [0, 1], .empty (.newestFirst _ _), 0, ⟨-1, -1⟩⟩ :
      VramCacheManager ℤ) := rfl
  refine ⟨_, hc, ?_⟩
  intro c
  obtain ⟨hpart, -, -, hacq, -⟩ := run_partition hc [.acquire ⟨0, 0⟩ 8, .acquire ⟨0, 1⟩ 4]
  obtain ⟨r, c', he, -, hkeep, -⟩ := hacq ⟨0, 2⟩ 8 (by decide)
  exact ⟨hpart, r, c', he, hkeep⟩

end Dee.SlotCache.VramCacheManager
