import Dee.VramCache

/-! The representation invariant of the cache manager: the blocks of the map are
exactly the live blocks of the arena, under distinct ticks. What holds of the map
alone is kept apart, since it does not depend on the sizes requested. -/
namespace Dee.VramCacheManager
open GuardedRuns

def spans (c : VramCacheManager) : List Span := c.blocks.entries.map fun e => e.2.span

/-- Every entry is resident and stored under its own key. -/
structure MapInv (c : VramCacheManager) : Prop where
  resident : ∀ e ∈ c.blocks.entries, e.2.resident = true
  own_key : ∀ e ∈ c.blocks.entries, e.2.key = e.1

structure Inv (c : VramCacheManager) : Prop extends MapInv c where
  ptr_eq : ∀ e ∈ c.blocks.entries, e.2.ptr = c.arena.base + e.2.offset
  tiled : c.arena.Tiled c.spans
  tick_le : ∀ e ∈ c.blocks.entries, e.2.lastUsed ≤ c.tick
  ticks_ne : c.blocks.entries.Pairwise fun e f => e.2.lastUsed ≠ f.2.lastUsed

/-- What an eviction leaves alone, and how it moves the counters. -/
structure Shrunk (c c' : VramCacheManager) : Prop where
  sublist : c'.blocks.entries.Sublist c.blocks.entries
  tick : c'.tick = c.tick
  base : c'.arena.base = c.arena.base
  cap : c'.arena.cap = c.arena.cap
  high : c'.arena.high = c.arena.high
  loads : c'.stats.loads = c.stats.loads
  balance : c'.stats.evictions + c'.blocks.entries.length =
    c.stats.evictions + c.blocks.entries.length

theorem Shrunk.refl (c : VramCacheManager) : Shrunk c c := ⟨.refl _, rfl, rfl, rfl, rfl, rfl, rfl⟩

theorem Shrunk.trans {c c' c'' : VramCacheManager} (h : Shrunk c c') (h' : Shrunk c' c'') :
    Shrunk c c'' :=
  ⟨h'.sublist.trans h.sublist, h'.tick.trans h.tick, h'.base.trans h.base, h'.cap.trans h.cap,
    h'.high.trans h.high, h'.loads.trans h.loads, h'.balance.trans h.balance⟩

theorem Shrunk.mem {c c' : VramCacheManager} (h : Shrunk c c') {e : ExpertKey × ExpertBlock}
    (he : e ∈ c'.blocks.entries) : e ∈ c.blocks.entries := h.sublist.subset he

theorem MapInv.isResident_iff {c : VramCacheManager} (h : c.MapInv) {k : ExpertKey} :
    c.isResident k = true ↔ ∃ b, (k, b) ∈ c.blocks.entries := by
  unfold isResident
  cases hf : c.blocks.find? k with
  | some b =>
    have hb := UnorderedMap.find?_eq_some.mp hf
    exact iff_of_true (h.resident _ hb) ⟨b, hb⟩
  | none =>
    simp only [Bool.false_eq_true, false_iff, not_exists]
    exact fun b hb => UnorderedMap.find?_eq_none.mp hf _ hb rfl

theorem MapInv.resident_filter {c : VramCacheManager} (h : c.MapInv) :
    (c.blocks.entries.filter fun e => e.2.resident) = c.blocks.entries :=
  List.filter_eq_self.mpr h.resident

theorem MapInv.residentCount_eq {c : VramCacheManager} (h : c.MapInv) :
    c.residentCount = c.blocks.entries.length := by
  rw [residentCount, h.resident_filter]

theorem findVictim_eq_argmin (c : VramCacheManager) :
    c.findVictim =
      (c.blocks.entries.filter fun e => e.2.resident).argmin fun e => e.2.evictionScore := by
  rw [findVictim, List.argmin, List.foldl_filter]
  congr 1
  funext victim e
  cases victim <;> rfl

theorem MapInv.findVictim_mem {c : VramCacheManager} {e : ExpertKey × ExpertBlock}
    (he : c.findVictim = some e) : e ∈ c.blocks.entries := by
  rw [findVictim_eq_argmin] at he
  exact List.mem_of_mem_filter (List.argmin_mem he)

theorem MapInv.findVictim_le {c : VramCacheManager} (h : c.MapInv)
    {e f : ExpertKey × ExpertBlock} (he : c.findVictim = some e) (hf : f ∈ c.blocks.entries) :
    e.2.evictionScore ≤ f.2.evictionScore := by
  rw [findVictim_eq_argmin] at he
  exact List.le_of_mem_argmin (f := fun e : ExpertKey × ExpertBlock => e.2.evictionScore) (List.mem_filter.mpr ⟨hf, h.resident f hf⟩) he

theorem MapInv.findVictim_eq_none {c : VramCacheManager} (h : c.MapInv)
    (he : c.findVictim = none) : c.blocks.entries = [] := by
  rw [findVictim_eq_argmin, h.resident_filter] at he
  exact List.argmin_eq_none.mp he

theorem MapInv.evict_blocks {c : VramCacheManager} (h : c.MapInv)
    {e : ExpertKey × ExpertBlock} (he : e ∈ c.blocks.entries) :
    (c.evict e).blocks = c.blocks.erase e.1 := by
  rw [evict, h.own_key e he]
  exact UnorderedMap.erase_modify _ _ _

theorem MapInv.evict {c : VramCacheManager} (h : c.MapInv) {e : ExpertKey × ExpertBlock}
    (he : e ∈ c.blocks.entries) : (c.evict e).MapInv := by
  have hsub : ∀ f ∈ (c.evict e).blocks.entries, f ∈ c.blocks.entries := by
    rw [h.evict_blocks he]
    exact fun f hf => (UnorderedMap.mem_erase.mp hf).1
  exact ⟨fun f hf => h.resident f (hsub f hf), fun f hf => h.own_key f (hsub f hf)⟩

theorem MapInv.evict_shrunk {c : VramCacheManager} (h : c.MapInv)
    {e : ExpertKey × ExpertBlock} (he : e ∈ c.blocks.entries) : Shrunk c (c.evict e) where
  sublist := by
    rw [h.evict_blocks he]
    exact List.filter_sublist
  tick := rfl
  base := Arena.free_base _ _ _
  cap := Arena.free_cap _ _ _
  high := Arena.free_high _ _ _
  loads := rfl
  balance := by
    have hl := UnorderedMap.length_erase (m := c.blocks) (k := e.1) (v := e.2) he
    rw [h.evict_blocks he]
    simp only [VramCacheManager.evict]
    omega

/-- The spans of a manager that lost one block, before that block is freed. -/
theorem MapInv.spans_perm_evict {c : VramCacheManager} (h : c.MapInv)
    {e : ExpertKey × ExpertBlock} (he : e ∈ c.blocks.entries) :
    c.spans.Perm (e.2.span :: (c.evict e).spans) := by
  have hp := (UnorderedMap.perm_erase (m := c.blocks) (k := e.1) (v := e.2) he).map
    fun e => e.2.span
  simpa only [spans, h.evict_blocks he, List.map_cons] using hp

theorem Inv.evict {c : VramCacheManager} (h : c.Inv) {e : ExpertKey × ExpertBlock}
    (he : e ∈ c.blocks.entries) : (c.evict e).Inv where
  toMapInv := h.toMapInv.evict he
  ptr_eq := fun f hf => by
    rw [(h.evict_shrunk he).base]
    exact h.ptr_eq f ((h.evict_shrunk he).mem hf)
  tiled := (h.tiled.perm (h.spans_perm_evict he)).free
  tick_le := fun f hf => h.tick_le f ((h.evict_shrunk he).mem hf)
  ticks_ne := h.ticks_ne.sublist (h.evict_shrunk he).sublist

/-- The induction behind every fact about the eviction loop. -/
theorem evictLoop_induct {P : VramCacheManager → Prop} {need : ℕ}
    (hstep : ∀ c e, P c → c.arena.freeSpace < need → c.findVictim = some e → P (c.evict e))
    {fuel : ℕ} {c : VramCacheManager} (h : P c) : P (evictLoop need fuel c) := by
  induction fuel generalizing c with
  | zero => exact h
  | succ fuel ih =>
    simp only [evictLoop]
    split_ifs with hc
    · cases hv : c.findVictim with
      | none => exact h
      | some e => exact ih (hstep c e h hc.1 hv)
    · exact h

theorem MapInv.evictUntilFree {c : VramCacheManager} (h : c.MapInv) (need : ℕ) :
    (c.evictUntilFree need).MapInv ∧ Shrunk c (c.evictUntilFree need) :=
  evictLoop_induct (P := fun c' => c'.MapInv ∧ Shrunk c c')
    (fun c' e ⟨h', hs⟩ _ hv => by
      have he := MapInv.findVictim_mem hv
      exact ⟨h'.evict he, hs.trans (h'.evict_shrunk he)⟩)
    ⟨h, .refl c⟩

theorem Inv.evictUntilFree {c : VramCacheManager} (h : c.Inv) (need : ℕ) :
    (c.evictUntilFree need).Inv :=
  evictLoop_induct (fun _ _ h' _ hv => h'.evict (MapInv.findVictim_mem hv)) h

theorem evictLoop_eq_self {c : VramCacheManager} {need : ℕ}
    (h : need ≤ c.arena.freeSpace ∨ c.blocks.entries = []) (fuel : ℕ) :
    evictLoop need fuel c = c := by
  cases fuel with
  | zero => rfl
  | succ fuel =>
    rw [evictLoop, if_neg]
    rintro ⟨hlt, hne⟩
    exact h.elim hlt.not_ge hne

/-- Nothing is evicted when there is room already or nothing to evict. -/
theorem evictUntilFree_eq_self {c : VramCacheManager} {need : ℕ}
    (h : need ≤ c.arena.freeSpace ∨ c.blocks.entries = []) : c.evictUntilFree need = c :=
  evictLoop_eq_self h _

theorem MapInv.length_evict {c : VramCacheManager} (h : c.MapInv) {e : ExpertKey × ExpertBlock}
    (he : e ∈ c.blocks.entries) :
    (c.evict e).blocks.entries.length + 1 = c.blocks.entries.length := by
  have hl := (h.evict_shrunk he).balance
  have hev : (c.evict e).stats.evictions = c.stats.evictions + 1 := rfl
  omega

/-- The loop as a relation between the state before it and the state after it. The fuel
suffices: it stops with enough room or with nothing left to evict. -/
theorem MapInv.evictLoop_rel {P : VramCacheManager → VramCacheManager → Prop} {need : ℕ}
    (stop : ∀ c, need ≤ c.arena.freeSpace ∨ c.blocks.entries = [] → P c c)
    (round : ∀ c e c', c.MapInv → c.arena.freeSpace < need → c.findVictim = some e →
      P (c.evict e) c' → P c c')
    {fuel : ℕ} {c : VramCacheManager} (h : c.MapInv) (hf : c.blocks.entries.length ≤ fuel) :
    P c (evictLoop need fuel c) := by
  induction fuel generalizing c with
  | zero => exact stop c (Or.inr (List.eq_nil_of_length_eq_zero (Nat.le_zero.mp hf)))
  | succ fuel ih =>
    by_cases hdone : need ≤ c.arena.freeSpace ∨ c.blocks.entries = []
    · rw [evictLoop_eq_self hdone]
      exact stop c hdone
    · obtain ⟨hlt, hne⟩ := not_or.mp hdone
      rw [evictLoop, if_pos ⟨not_le.mp hlt, hne⟩]
      cases hv : c.findVictim with
      | none => exact absurd (h.findVictim_eq_none hv) hne
      | some e =>
        have he := MapInv.findVictim_mem hv
        have hl := h.length_evict he
        exact round c e _ h (not_le.mp hlt) hv (ih (h.evict he) (by omega))

/-- The statistics play no part in the invariant. -/
theorem Inv.with_stats {c : VramCacheManager} (h : c.Inv) (s : CacheStats) :
    ({ c with stats := s } : VramCacheManager).Inv :=
  ⟨⟨h.resident, h.own_key⟩, h.ptr_eq, h.tiled, h.tick_le, h.ticks_ne⟩

theorem MapInv.countEnsure {c : VramCacheManager} (h : c.MapInv) : c.countEnsure.MapInv := ⟨h.1, h.2⟩

theorem MapInv.countFallback {c : VramCacheManager} (h : c.MapInv) : c.countFallback.MapInv :=
  ⟨h.1, h.2⟩

theorem Inv.countEnsure {c : VramCacheManager} (h : c.Inv) : c.countEnsure.Inv := h.with_stats _

/-- The manager after `ensure` has evicted for a missing expert. -/
def makeRoom (c : VramCacheManager) (n : ℕ) : VramCacheManager := c.countEnsure.evictUntilFree n

/-- The manager after the allocation that follows. -/
def allocated (c : VramCacheManager) (n : ℕ) : VramCacheManager :=
  { c.makeRoom n with arena := ((c.makeRoom n).arena.alloc n).2 }

@[simp] theorem allocated_blocks (c : VramCacheManager) (n : ℕ) :
    (c.allocated n).blocks = (c.makeRoom n).blocks := rfl

@[simp] theorem allocated_stats (c : VramCacheManager) (n : ℕ) :
    (c.allocated n).stats = (c.makeRoom n).stats := rfl

theorem MapInv.makeRoom {c : VramCacheManager} (h : c.MapInv) (n : ℕ) :
    (c.makeRoom n).MapInv ∧ Shrunk c (c.makeRoom n) := by
  obtain ⟨h1, h2⟩ := h.countEnsure.evictUntilFree n
  exact ⟨h1, ⟨h2.sublist, h2.tick, h2.base, h2.cap, h2.high, h2.loads, h2.balance⟩⟩

theorem Inv.makeRoom {c : VramCacheManager} (h : c.Inv) (n : ℕ) : (c.makeRoom n).Inv :=
  h.countEnsure.evictUntilFree n

theorem MapInv.find?_makeRoom {c : VramCacheManager} (h : c.MapInv) {k : ExpertKey}
    (hk : c.isResident k = false) (n : ℕ) : (c.makeRoom n).blocks.find? k = none := by
  refine UnorderedMap.find?_eq_none.mpr fun ⟨k', b⟩ he hek => ?_
  dsimp only at hek
  subst hek
  have := h.isResident_iff.mpr ⟨b, (h.makeRoom n).2.mem he⟩
  simp [hk] at this

/-- The three outcomes of `ensure`: a hit, a refused allocation, a load. -/
theorem ensure_cases (c : VramCacheManager) (k : ExpertKey) (n : ℕ) (p : ℤ) :
    (c.isResident k = true ∧ c.ensure k n p = (true, c.countEnsure.refresh k p)) ∨
    (c.isResident k = false ∧ ((c.makeRoom n).arena.alloc n).1 = npos ∧
      c.ensure k n p = (false, c.allocated n)) ∨
    (c.isResident k = false ∧ ((c.makeRoom n).arena.alloc n).1 ≠ npos ∧
      c.ensure k n p =
        (true, (c.allocated n).place k ((c.makeRoom n).arena.alloc n).1 n p)) := by
  have hres : c.countEnsure.isResident k = c.isResident k := rfl
  unfold ensure
  by_cases hk : c.isResident k = true
  · exact Or.inl ⟨hk, by simp only [hres, hk, if_true]⟩
  · have hk' : c.isResident k = false := by simpa using hk
    by_cases ha : ((c.makeRoom n).arena.alloc n).1 = npos
    · refine Or.inr (Or.inl ⟨hk', ha, ?_⟩)
      simp only [makeRoom] at ha
      simp only [hres, hk', Bool.false_eq_true, if_false, ha, if_true, allocated, makeRoom]
    · refine Or.inr (Or.inr ⟨hk', ha, ?_⟩)
      simp only [makeRoom] at ha
      simp only [hres, hk', Bool.false_eq_true, if_false, ha, allocated, makeRoom]

/-- Updates through a block's address that only renew its tick and priority. -/
structure Renews (c : VramCacheManager) (f : ExpertBlock → ExpertBlock) : Prop where
  key : ∀ b, (f b).key = b.key
  ptr : ∀ b, (f b).ptr = b.ptr
  offset : ∀ b, (f b).offset = b.offset
  size : ∀ b, (f b).size = b.size
  resident : ∀ b, (f b).resident = b.resident
  lastUsed : ∀ b, (f b).lastUsed = c.tick + 1

theorem renews_refresh (c : VramCacheManager) (p : ℤ) :
    Renews c fun b => { b with lastUsed := c.tick + 1, priority := p } :=
  ⟨fun _ => rfl, fun _ => rfl, fun _ => rfl, fun _ => rfl, fun _ => rfl, fun _ => rfl⟩

theorem renews_touch (c : VramCacheManager) : Renews c fun b => { b with lastUsed := c.tick + 1 } :=
  ⟨fun _ => rfl, fun _ => rfl, fun _ => rfl, fun _ => rfl, fun _ => rfl, fun _ => rfl⟩

/-- An entry of the renewed map comes from one with the same placement. -/
theorem Renews.entry {c : VramCacheManager} {f : ExpertBlock → ExpertBlock} (hf : Renews c f)
    {k : ExpertKey} {e : ExpertKey × ExpertBlock} (he : e ∈ (c.blocks.modify k f).entries) :
    ∃ b, (e.1, b) ∈ c.blocks.entries ∧ e.2.key = b.key ∧ e.2.ptr = b.ptr ∧
      e.2.offset = b.offset ∧ e.2.size = b.size ∧ e.2.resident = b.resident := by
  obtain ⟨b, hb, he⟩ := UnorderedMap.mem_modify.mp he
  refine ⟨b, hb, ?_⟩
  rw [he]
  split_ifs
  · exact ⟨hf.key b, hf.ptr b, hf.offset b, hf.size b, hf.resident b⟩
  · exact ⟨rfl, rfl, rfl, rfl, rfl⟩

theorem MapInv.renew {c c' : VramCacheManager} (h : c.MapInv) {f : ExpertBlock → ExpertBlock}
    (hf : Renews c f) {k : ExpertKey} (hb : c'.blocks = c.blocks.modify k f) : c'.MapInv := by
  constructor
  · intro e he
    obtain ⟨b, hb, -, -, -, -, hr⟩ := hf.entry (hb ▸ he)
    rw [hr]
    exact h.resident _ hb
  · intro e he
    obtain ⟨b, hb, hk, -⟩ := hf.entry (hb ▸ he)
    rw [hk]
    exact h.own_key _ hb

theorem Renews.spans_eq {c c' : VramCacheManager} {f : ExpertBlock → ExpertBlock}
    (hf : Renews c f) {k : ExpertKey} (hb : c'.blocks = c.blocks.modify k f) :
    c'.spans = c.spans := by
  rw [spans, hb, spans, UnorderedMap.modify, List.map_map]
  refine List.map_congr_left fun e _ => ?_
  dsimp only [Function.comp]
  split_ifs
  · simp only [ExpertBlock.span, hf.offset, hf.size]
  · rfl

theorem Inv.renew {c c' : VramCacheManager} (h : c.Inv) {f : ExpertBlock → ExpertBlock}
    (hf : Renews c f) {k : ExpertKey} (hb : c'.blocks = c.blocks.modify k f)
    (ha : c'.arena = c.arena) (ht : c'.tick = c.tick + 1) : c'.Inv where
  toMapInv := h.toMapInv.renew hf hb
  ptr_eq := by
    intro e he
    obtain ⟨b, hb, -, hp, ho, -⟩ := hf.entry (hb ▸ he)
    rw [hp, ho, ha]
    exact h.ptr_eq _ hb
  tiled := by
    rw [hf.spans_eq hb, ha]
    exact h.tiled
  tick_le := by
    intro e he
    obtain ⟨b, hm, he⟩ := UnorderedMap.mem_modify.mp (hb ▸ he : e ∈ (c.blocks.modify k f).entries)
    have := h.tick_le _ hm
    rw [he, ht]
    split_ifs
    · exact (hf.lastUsed b).le
    · dsimp only at this
      omega
  ticks_ne := by
    have hkeys : c.blocks.entries.Pairwise fun e f => e.1 ≠ f.1 :=
      List.pairwise_map.mp c.blocks.keys_nodup
    rw [hb, UnorderedMap.modify, List.pairwise_map]
    refine (hkeys.and h.ticks_ne).imp_of_mem fun {e g} he hg hboth => ?_
    obtain ⟨hne, htick⟩ := hboth
    have h1 := h.tick_le e he
    have h2 := h.tick_le g hg
    split_ifs with hek hgk hgk
    · exact absurd (hek.trans hgk.symm) hne
    · simp only [hf.lastUsed]
      omega
    · simp only [hf.lastUsed]
      omega
    · exact htick

theorem Inv.refresh {c : VramCacheManager} (h : c.Inv) (k : ExpertKey) (p : ℤ) :
    (c.refresh k p).Inv := h.renew (renews_refresh c p) rfl rfl rfl

theorem Inv.touch {c : VramCacheManager} (h : c.Inv) (k : ExpertKey) : (c.touch k).Inv := by
  unfold VramCacheManager.touch
  split_ifs
  · exact h.renew (renews_touch c) rfl rfl rfl
  · exact h

/-- Entering a block that the arena has just allocated. -/
theorem Inv.place {c : VramCacheManager} (h : c.Inv) {a : Arena} {k : ExpertKey} {o n : ℕ}
    {p : ℤ} (hk : c.blocks.find? k = none) (hbase : a.base = c.arena.base)
    (ha : a.Tiled (⟨o, n⟩ :: c.spans)) :
    (({ c with arena := a } : VramCacheManager).place k o n p).Inv := by
  have hmem := @UnorderedMap.mem_assign _ _ _ c.blocks k
    (({ c with arena := a } : VramCacheManager).newBlock k o n p) hk
  have hperm := @UnorderedMap.assign_perm _ _ _ c.blocks k
    (({ c with arena := a } : VramCacheManager).newBlock k o n p) hk
  constructor
  · constructor
    · intro e he
      rcases hmem.mp he with rfl | he
      · rfl
      · exact h.resident e he
    · intro e he
      rcases hmem.mp he with rfl | he
      · rfl
      · exact h.own_key e he
  · intro e he
    rcases hmem.mp he with rfl | he
    · rfl
    · exact (h.ptr_eq e he).trans (by rw [← hbase]; rfl)
  · exact ha.perm (hperm.map fun e : ExpertKey × ExpertBlock => e.2.span).symm
  · intro e he
    rcases hmem.mp he with rfl | he
    · exact le_rfl
    · exact (h.tick_le e he).trans (by simp only [VramCacheManager.place]; omega)
  · refine (hperm.pairwise_iff fun h => h.symm).mpr (List.pairwise_cons.mpr ⟨?_, h.ticks_ne⟩)
    intro e he
    have := h.tick_le e he
    simp only [newBlock]
    omega

/-- The high-water sum of the request an operation makes does not wrap. -/
def NoWrap (c : VramCacheManager) : Op → Prop
  | .ensure _ n _ => c.arena.high + n < 2 ^ 64
  | .syncFallback _ n _ => c.arena.high + n < 2 ^ 64
  | _ => True

/-- The step lemma of `ensure`: only a load that comes to the bump pointer could wrap. -/
theorem Inv.ensure_of_bump {c : VramCacheManager} (h : c.Inv) {k : ExpertKey} {n : ℕ} {p : ℤ}
    (hw : c.isResident k = false → (∀ s ∈ (c.makeRoom n).arena.holes, s.size < n) →
      c.arena.high + n < 2 ^ 64) : (c.ensure k n p).2.Inv := by
  have hroom := h.makeRoom n
  have hshr := (h.toMapInv.makeRoom n).2
  rw [← hshr.high] at hw
  rcases ensure_cases c k n p with ⟨-, he⟩ | ⟨hk, ha, he⟩ | ⟨hk, ha, he⟩
  · rw [he]
    exact h.countEnsure.refresh k p
  · rw [he]
    by_cases hn : n = 0
    · subst hn
      exact hroom
    · rcases hroom.tiled.alloc_cases (Nat.pos_of_ne_zero hn) (hw hk)
        with ⟨-, -, hne, -⟩ | ⟨-, hsame⟩
      · exact absurd ha hne
      · rw [allocated, hsame]
        exact hroom
  · rw [he]
    have hn : 0 < n := by
      rcases Nat.eq_zero_or_pos n with rfl | hn
      · exact absurd rfl ha
      · exact hn
    rcases hroom.tiled.alloc_cases hn (hw hk) with ⟨-, -, -, ht⟩ | ⟨-, hsame⟩
    · exact hroom.place (h.find?_makeRoom hk n) (Arena.alloc_base _ _) ht
    · rw [hsame] at ha
      exact absurd rfl ha

theorem Inv.ensure {c : VramCacheManager} (h : c.Inv) {k : ExpertKey} {n : ℕ} {p : ℤ}
    (hw : c.arena.high + n < 2 ^ 64) : (c.ensure k n p).2.Inv :=
  h.ensure_of_bump fun _ _ => hw

theorem Inv.syncFallback {c : VramCacheManager} (h : c.Inv) {k : ExpertKey} {n : ℕ} {p : ℤ}
    (hw : c.arena.high + n < 2 ^ 64) : (c.syncFallback k n p).2.Inv := by
  unfold VramCacheManager.syncFallback
  split_ifs
  · exact h
  · exact (h.with_stats _).ensure hw

/-- Freeing all blocks one after the other leaves an arena without live blocks. -/
theorem clear_arena_tiled {a : Arena} {l : List (ExpertKey × ExpertBlock)}
    (hr : ∀ e ∈ l, e.2.resident = true) (h : a.Tiled (l.map fun e => e.2.span)) :
    (l.foldl (fun a e => if e.2.resident then a.free e.2.offset e.2.size else a) a).Tiled [] := by
  induction l generalizing a with
  | nil => exact h
  | cons e l ih =>
    obtain ⟨he, hl⟩ := List.forall_mem_cons.mp hr
    rw [List.foldl_cons, if_pos he]
    exact ih hl h.free

theorem Inv.clear {c : VramCacheManager} (h : c.Inv) : c.clear.Inv where
  resident := by simp [VramCacheManager.clear, UnorderedMap.clear]
  own_key := by simp [VramCacheManager.clear, UnorderedMap.clear]
  ptr_eq := by simp [VramCacheManager.clear, UnorderedMap.clear]
  tiled := clear_arena_tiled h.resident h.tiled
  tick_le := by simp [VramCacheManager.clear, UnorderedMap.clear]
  ticks_ne := .nil

/-- The step lemma of the representation invariant. -/
theorem Inv.step {c : VramCacheManager} (h : c.Inv) {op : Op} (hw : c.NoWrap op) :
    (c.step op).Inv := by
  cases op with
  | ensure k n p => exact h.ensure hw
  | syncFallback k n p => exact h.syncFallback hw
  | touch k => exact h.touch k
  | clear => exact h.clear

end Dee.VramCacheManager
