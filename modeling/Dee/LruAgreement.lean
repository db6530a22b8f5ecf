import Dee.SlotRecency
import Dee.VramCacheResidency
import Dee.VramCacheStaging

/-! Under one constant priority the byte-granular cache with equal blocks and the slot
cache are the same LRU cache: both follow the recency list. -/
namespace Dee
open GuardedRuns

/-- A request for one block of the byte-granular cache. -/
def RecencyCache.Op.scored {K : Type*} (p : ℤ) : RecencyCache.Op K → ScoredCache.Op K
  | .use k => .use k p
  | .touch k => .touch k

/-- The same request to the slot cache. -/
def RecencyCache.Op.call (s : ℕ) : RecencyCache.Op ExpertKey → SlotCache.VramCacheManager.Op
  | .use k => .acquire k s
  | .touch k => .touch k

namespace ScoredCache
variable {K P : Type*} [DecidableEq K] {p weight : ℤ} {slots : ℕ} {s s' : State K} {l : List K}

/-- The keys by recency; all priorities are `p`. -/
structure Ordered (p : ℤ) (s : State K) (l : List K) : Prop where
  stamped : RecencyCache.Stamped (fun k => (s.entries.lookup k).map Prod.fst) s.clock l
  priority_eq : ∀ k a, s.entries.lookup k = some a → a.2 = p

theorem ordered_empty : Ordered p (State.empty : State K) [] := by
  refine ⟨⟨?_, List.Pairwise.nil, ?_⟩, ?_⟩ <;> simp [State.empty]

theorem Ordered.mem_iff (h : Ordered p s l) {k : K} : k ∈ l ↔ k ∈ s.entries := by
  rw [h.stamped.mem_iff, Option.isSome_map, Finmap.lookup_isSome]

theorem Ordered.length_eq (h : Ordered p s l) : l.length = s.entries.keys.card := by
  have hset : l.toFinset = s.entries.keys := by
    ext k
    rw [List.mem_toFinset, h.mem_iff, Finmap.mem_keys]
  rw [← hset, List.toFinset_card_of_nodup h.stamped.nodup]

theorem Ordered.stamp (h : Ordered p s l) (k : K) :
    Ordered p (s.stamp s.entries k p) (l.erase k ++ [k]) where
  stamped := by
    refine h.stamped.use (lt_add_one s.clock) fun k' => ?_
    simp only [State.stamp]
    by_cases hk : k' = k
    · rw [hk, Finmap.lookup_insert, if_pos rfl]
      rfl
    · rw [Finmap.lookup_insert_of_ne _ hk, if_neg hk]
  priority_eq := by
    intro k' a ha
    simp only [State.stamp] at ha
    by_cases hk : k' = k
    · rw [hk, Finmap.lookup_insert] at ha
      rw [← Option.some.inj ha]
    · rw [Finmap.lookup_insert_of_ne _ hk] at ha
      exact h.priority_eq k' a ha

theorem Ordered.erase (h : Ordered p s l) (v : K) :
    Ordered p ⟨s.clock, s.entries.erase v⟩ (l.erase v) where
  stamped := by
    refine h.stamped.erase fun k' => ?_
    by_cases hk : k' = v
    · rw [hk, Finmap.lookup_erase, if_pos rfl]
      rfl
    · rw [Finmap.lookup_erase_ne hk, if_neg hk]
  priority_eq := by
    intro k' a ha
    by_cases hk : k' = v
    · rw [hk, Finmap.lookup_erase] at ha
      cases ha
    · rw [Finmap.lookup_erase_ne hk] at ha
      exact h.priority_eq k' a ha

variable [LinearOrder P] (q : P)

/-- Among equal priorities the lowest score is the oldest stamp. -/
theorem Ordered.argmin_eq (h : Ordered p s l) {v : K} (hv : s.Minimal weight v) :
    l.argmin (fun _ => q) = some v := by
  obtain ⟨a, ha, hle⟩ := hv
  refine h.stamped.argmin_eq (s := a.1) (by rw [ha]; rfl) fun k t ht => Or.inr ⟨rfl, ?_⟩
  obtain ⟨b, hb, rfl⟩ := Option.map_eq_some_iff.mp ht
  have hscore := hle k b hb
  rw [score, score, h.priority_eq v a ha, h.priority_eq k b hb] at hscore
  exact le_of_add_le_add_right hscore

/-- A step of the scored cache with a constant priority is a step of the recency list. -/
theorem Ordered.step (h : Ordered p s l) {op : RecencyCache.Op K}
    (hstep : Step weight slots s (op.scored p) s') :
    Ordered p s' (RecencyCache.step (fun _ => q) slots l op) := by
  cases op with
  | use k =>
    simp only [RecencyCache.step]
    cases hstep with
    | hit hk =>
      rw [if_pos (h.mem_iff.mpr hk)]
      exact h.stamp k
    | fill hk hlt =>
      have hnot : k ∉ l := fun hmem => hk (h.mem_iff.mp hmem)
      have hroom := h.stamp k
      rw [List.erase_of_not_mem hnot] at hroom
      rw [if_neg hnot, RecencyCache.makeRoom, if_pos (h.length_eq.trans_lt hlt)]
      exact hroom
    | @replace _ _ v hk hfull hmin =>
      have hnot : k ∉ l := fun hmem => hk (h.mem_iff.mp hmem)
      have hroom := (h.erase v).stamp k
      rw [List.erase_of_not_mem fun hmem => hnot (List.mem_of_mem_erase hmem)] at hroom
      rw [if_neg hnot, RecencyCache.makeRoom, if_neg (h.length_eq.trans hfull).not_lt,
        h.argmin_eq q hmin]
      exact hroom
  | touch k =>
    simp only [RecencyCache.step]
    cases hstep with
    | @touchHit _ a ha =>
      have hk : k ∈ s.entries := Finmap.mem_iff.mpr ⟨a, ha⟩
      rw [if_pos (h.mem_iff.mpr hk), h.priority_eq k a ha]
      exact h.stamp k
    | touchMiss hk =>
      rw [if_neg fun hmem => hk (h.mem_iff.mp hmem)]
      exact h

end ScoredCache

namespace VramCacheManager
variable {P : Type*} [LinearOrder P] {s B : ℕ} {p : ℤ} {l : List ExpertKey}

/-- The byte-granular cache follows the recency list. -/
theorem Uniform.run_ordered {c : VramCacheManager} (h : Uniform s c) (hcap : c.arena.cap = B)
    (hs : 0 < s) (hle : s ≤ B) (hord : ScoredCache.Ordered p c.slots l)
    (q : P) (ops : List (RecencyCache.Op ExpertKey)) :
    ScoredCache.Ordered p (run (VramCacheManager.slotStep s) c (ops.map (·.scored p))).slots
      (run (RecencyCache.step (fun _ => q) (B / s)) l ops) := by
  induction ops generalizing c l with
  | nil => exact hord
  | cons op ops ih =>
    have hle' : s ≤ c.arena.cap := hcap.symm ▸ hle
    have hstep := hord.step q (h.refines hs hle' (op.scored p))
    rw [hcap] at hstep
    exact ih (h.slotStep hs hle' _) ((slotStep_cap h.toMapInv _).trans hcap) hstep

theorem Uniform.ensure_hits {c : VramCacheManager} (h : Uniform s c) (hs : 0 < s)
    (hle : s ≤ c.arena.cap) (k : ExpertKey) (p : ℤ) :
    (c.ensure k s p).2.stats.hits = c.stats.hits + if c.isResident k then 1 else 0 := by
  rcases h.ensure_cases hs hle k p with ⟨hk, he⟩ | ⟨hk, he⟩
  · rw [he, hk]
    rfl
  · have hst : ((c.allocated s).place k ((c.makeRoom s).arena.alloc s).1 s p).stats.hits =
        (c.makeRoom s).stats.hits := rfl
    rw [he, hk, hst]
    rcases h.makeRoom_cases hs hle with ⟨-, hr⟩ | ⟨-, e, -, hr⟩
    · rw [hr]
      rfl
    · rw [hr]
      rfl

/-- What is evicted by a request is what is resident before it and not after it. -/
theorem Uniform.evicts_iff_lost {c : VramCacheManager} (h : Uniform s c) (hs : 0 < s)
    (hle : s ≤ c.arena.cap) (k : ExpertKey) (p : ℤ) (v : ExpertKey) :
    c.Evicts k s v ↔ c.isResident v = true ∧ (c.ensure k s p).2.isResident v = false := by
  have hres := h.ensure_isResident hs hle k p v
  constructor
  · intro hev
    refine ⟨hev.2.1, ?_⟩
    by_contra hne
    rcases hres.mp (by simpa using hne) with rfl | ⟨hno, -⟩
    · have hmiss := hev.1
      rw [hev.2.1] at hmiss
      cases hmiss
    · exact hno hev
  · intro ⟨hv, hlost⟩
    by_contra hno
    rw [hres.mpr (Or.inr ⟨hno, hv⟩)] at hlost
    cases hlost

end VramCacheManager

namespace SlotCache.VramCacheManager
variable {P : Type*} [LinearOrder P] {slotBytes : ℕ} {numSlots : ℤ}

/-- The victim of a call is recorded. -/
theorem Inv.lastEvicted_eq {c c' : VramCacheManager P} (h : Inv slotBytes numSlots c)
    (hpos : 0 < numSlots) {k v : ExpertKey} {n : ℕ} (hn : n ≤ slotBytes) {r : AcquireResult}
    (hacq : c.acquire k n = .ok (r, c')) (hv : Evicts c c' v) : c'.lastEvicted = v := by
  rcases h.partition.acquire_cases (h.numSlots_eq ▸ hpos) k (h.slotBytes_eq ▸ hn) with
    ⟨ce, hf, he⟩ | ⟨slot, rest, hf, hl, he⟩ | ⟨w, hf, hl, hw, he⟩
  · rw [he] at hacq
    cases hacq
    exact absurd hv ((keeps_renew c k).2 v)
  · rw [he] at hacq
    cases hacq
    exact absurd hv ((keeps_place hf rfl slot n).2 v)
  · rw [he] at hacq
    cases hacq
    exact ((keeps_drop_place hf w w.slot n).2 v hv).symm

theorem keyOp_call {s : ℕ} (hs : s ≤ slotBytes) (ops : List (RecencyCache.Op ExpertKey)) :
    (ops.map (·.call s)).filterMap (keyOp slotBytes) = ops := by
  induction ops with
  | nil => rfl
  | cons op ops ih =>
    have hop : keyOp slotBytes (op.call s) = some op := by
      cases op with
      | use k => exact if_pos hs
      | touch k => rfl
    rw [List.map_cons, List.filterMap_cons_some hop, ih]

end SlotCache.VramCacheManager

/-- After the same run both caches hold the same keys, those of the recency list. -/
theorem run_isResident_eq_contains {P : Type*} [LinearOrder P] (order : VramCacheManager.Order)
    {order' : IterationOrder ExpertKey (SlotCache.CachedExpert P)} {malloc : ℕ → ℕ}
    {B s N base slotBytes : ℕ} {d₀ : SlotCache.VramCacheManager P} (p : ℤ) (q : P) (hs : 0 < s)
    (hle : s ≤ B) (hfloor : B / s = N) (hB : B < 2 ^ 64) (hfit : s ≤ slotBytes)
    (hd : SlotCache.VramCacheManager.construct order' malloc (fun _ _ _ => q) slotBytes N =
      .ok d₀) (ops : List (RecencyCache.Op ExpertKey)) (k : ExpertKey) :
    (run (VramCacheManager.slotStep s) (VramCacheManager.started order base B)
      (ops.map (·.scored p))).isResident k =
    (run SlotCache.VramCacheManager.step d₀ (ops.map (·.call s))).contains k := by
  obtain ⟨hpos, h0⟩ := SlotCache.VramCacheManager.construct_inv hd
  have hfloorN : (N : ℤ).toNat = B / s := by
    rw [Int.toNat_natCast, hfloor]
  have huniform := VramCacheManager.started_uniform (s := s) order base hB
  have hbyte := huniform.run_ordered (B := B) rfl hs hle ScoredCache.ordered_empty q (p := p) ops
  have hslot := (SlotCache.VramCacheManager.construct_ordered hd).run h0 hpos (ops.map (·.call s))
  rw [SlotCache.VramCacheManager.keyOp_call hfit, hfloorN] at hslot
  have hinv := (VramCacheManager.run_uniform huniform rfl hs hle (ops.map (·.scored p))).1
  rw [Bool.eq_iff_iff, ← hinv.mem_slots, ← hbyte.mem_iff, hslot.mem_iff]

/-- For equal blocks, the same number of slots and constant priorities: after every run
both caches hold the same keys, and the next request hits in both or in none and evicts
the same key. -/
theorem run_lru_agreement {P : Type*} [LinearOrder P] (order : VramCacheManager.Order)
    (be : Backend) {order' : IterationOrder ExpertKey (SlotCache.CachedExpert P)}
    {malloc : ℕ → ℕ} {B s N slotBytes : ℕ} {c₀ : VramCacheManager}
    {d₀ : SlotCache.VramCacheManager P} (p : ℤ) (q : P) (hs : 0 < s) (hN : 1 ≤ N)
    (hfloor : B / s = N) (hB : B < 2 ^ 64) (hfit : s ≤ slotBytes)
    (hc : (VramCacheManager.fresh order).init B be = (true, c₀))
    (hd : SlotCache.VramCacheManager.construct order' malloc (fun _ _ _ => q) slotBytes N =
      .ok d₀) (ops : List (RecencyCache.Op ExpertKey)) :
    let c := run (VramCacheManager.slotStep s) c₀ (ops.map (·.scored p))
    let d := run SlotCache.VramCacheManager.step d₀ (ops.map (·.call s))
    (∀ k, c.isResident k = d.contains k) ∧
      ∀ k, (c.ensure k s p).1 = true ∧ ∃ r d', d.acquire k s = .ok (r, d') ∧
        (c.ensure k s p).2.stats.hits = c.stats.hits + (if r.hit then 1 else 0) ∧
        ∀ v, (c.Evicts k s v ↔ SlotCache.VramCacheManager.Evicts d d' v) ∧
          (c.Evicts k s v → d'.lastEvicted = v) := by
  intro c d
  have hle : s ≤ B := by
    rw [← hfloor] at hN
    exact (Nat.one_le_div_iff hs).mp hN
  obtain ⟨base, -, rfl⟩ := VramCacheManager.init_eq_true hc
  obtain ⟨hpos, h0⟩ := SlotCache.VramCacheManager.construct_inv hd
  have huniform := VramCacheManager.started_uniform (s := s) order base hB
  have hsame : ∀ (ops : List (RecencyCache.Op ExpertKey)) (k : ExpertKey),
      (run (VramCacheManager.slotStep s) (VramCacheManager.started order base B)
        (ops.map (·.scored p))).isResident k =
      (run SlotCache.VramCacheManager.step d₀ (ops.map (·.call s))).contains k :=
    run_isResident_eq_contains order p q hs hle hfloor hB hfit hd
  obtain ⟨hcinv, hcap⟩ := VramCacheManager.run_uniform huniform rfl hs hle (ops.map (·.scored p))
  have hlec : s ≤ c.arena.cap := hle.trans hcap.ge
  have hdinv := SlotCache.VramCacheManager.run_inv h0 hpos (ops.map (·.call s))
  refine ⟨hsame ops, fun k => ⟨hcinv.ensure_succeeds hs hlec k p, ?_⟩⟩
  obtain ⟨r, d', he, -, -, -, hhit, -, -⟩ :=
    hdinv.partition.acquire_spec (hdinv.numSlots_eq ▸ hpos) k (hdinv.slotBytes_eq ▸ hfit)
  have hnext : ∀ v, (c.ensure k s p).2.isResident v = d'.contains v := by
    intro v
    have hbyte : run (VramCacheManager.slotStep s) (VramCacheManager.started order base B)
        ((ops ++ [RecencyCache.Op.use k]).map (·.scored p)) = (c.ensure k s p).2 := by
      rw [List.map_append, run_append]
      rfl
    have hslot : run SlotCache.VramCacheManager.step d₀
        ((ops ++ [RecencyCache.Op.use k]).map (·.call s)) = d' := by
      rw [List.map_append, run_append]
      have hcall : d.step (.acquire k s) = d' := by
        have hacq : d.acquire k s = .ok (r, d') := he
        simp only [SlotCache.VramCacheManager.step, hacq]
      exact hcall
    rw [← hbyte, ← hslot]
    exact hsame (ops ++ [RecencyCache.Op.use k]) v
  refine ⟨r, d', he, ?_, fun v => ?_⟩
  · rw [hcinv.ensure_hits hs hlec k p, hhit, ← hsame ops k]
  · have hev : c.Evicts k s v ↔ SlotCache.VramCacheManager.Evicts d d' v := by
      rw [hcinv.evicts_iff_lost hs hlec k p v, SlotCache.VramCacheManager.Evicts, hsame ops v,
        hnext v]
    exact ⟨hev, fun h => hdinv.lastEvicted_eq hpos hfit he (hev.mp h)⟩

/-- Seven bytes hold two blocks of three, as two slots do. -/
theorem run_lru_agreement_two_slots :
    let ops : List (RecencyCache.Op ExpertKey) := [.use ⟨0, 0⟩, .use ⟨0, 1⟩, .touch ⟨0, 0⟩, .use ⟨0, 2⟩]
    ∃ (c₀ : VramCacheManager) (d₀ : SlotCache.VramCacheManager ℤ),
      (VramCacheManager.fresh (.newestFirst _ _)).init 7 (.host 100) = (true, c₀) ∧
      SlotCache.VramCacheManager.construct (.newestFirst _ _) (fun _ => 100) (fun _ _ _ => 0) 3
        2 = .ok d₀ ∧
      ∀ k, (run (VramCacheManager.slotStep 3) c₀ (ops.map (·.scored 5))).isResident k =
        (run SlotCache.VramCacheManager.step d₀ (ops.map (·.call 3))).contains k := by
  intro ops
  have hd : SlotCache.VramCacheManager.construct (.newestFirst _ _) (fun _ => 100)
    (fun _ _ _ => 0) 3 2 = .ok (⟨fun _ _ _ => 0, 3, 2, 100, [0, 1], .empty (.newestFirst _ _), 0,
      ⟨-1, -1⟩⟩ : SlotCache.VramCacheManager ℤ) := rfl
  have hc : (VramCacheManager.fresh (.newestFirst _ _)).init 7 (.host 100) =
    (true, VramCacheManager.started (.newestFirst _ _) 100 7) := rfl
  exact ⟨_, _, hc, hd, (run_lru_agreement (.newestFirst _ _) (.host 100) 5 0 (s := 3) (N := 2)
    (by decide) (by decide) rfl (by decide) (by decide) hc hd ops).1⟩

end Dee
