import Dee.BumpLimits
import Dee.PrefetchBytes

/-! The room behind a successful request. A hit keeps the size recorded when the block was
loaded, so a request that grows is granted without the room; where no request for a
resident expert grows, every copy of the stream stays inside the block of its expert. -/
namespace Dee
open GuardedRuns

namespace VramCacheManager

theorem sizeOf_of_mem {c : VramCacheManager} (h : c.MapInv) {k : ExpertKey} {b : ExpertBlock}
    (hb : (k, b) ∈ c.blocks.entries) : c.sizeOf k = b.size := by
  have hres : b.resident = true := h.resident _ hb
  simp [sizeOf, UnorderedMap.find?_eq_some.mpr hb, hres]

/-- A hit does not look at the size: it leaves the recorded one. -/
theorem sizeOf_refresh (c : VramCacheManager) (k : ExpertKey) (p : ℤ) (k' : ExpertKey) :
    (c.refresh k p).sizeOf k' = c.sizeOf k' := by
  simp only [sizeOf, refresh, UnorderedMap.find?_modify]
  by_cases hk : k' = k
  · subst hk
    cases c.blocks.find? k' <;> simp
  · simp [hk]

/-- A successful `ensure` provides the requested bytes exactly unless it hits a smaller block. -/
theorem MapInv.ensure_provides_iff {c : VramCacheManager} (h : c.MapInv) {k : ExpertKey} {n : ℕ}
    {p : ℤ} : ((c.ensure k n p).1 = true → n ≤ (c.ensure k n p).2.sizeOf k) ↔
      (c.isResident k = true → n ≤ c.sizeOf k) := by
  rcases ensure_cases c k n p with ⟨hk, he⟩ | ⟨hk, -, he⟩ | ⟨hk, -, he⟩
  · have hsize : (c.countEnsure.refresh k p).sizeOf k = c.sizeOf k := sizeOf_refresh c.countEnsure k p k
    simp only [he, hk, hsize]
  · simp [he, hk]
  · have hnone : (c.allocated n).blocks.find? k = none := h.find?_makeRoom hk n
    have hsize : ((c.allocated n).place k ((c.makeRoom n).arena.alloc n).1 n p).sizeOf k = n := by
      rw [sizeOf, find?_place hnone]
      rfl
    simp [he, hk, hsize]

theorem MapInv.syncFallback_provides_iff {c : VramCacheManager} (h : c.MapInv) {k : ExpertKey}
    {n : ℕ} {p : ℤ} : ((c.syncFallback k n p).1 = true → n ≤ (c.syncFallback k n p).2.sizeOf k) ↔
      (c.isResident k = true → n ≤ c.sizeOf k) := by
  unfold VramCacheManager.syncFallback
  split_ifs with hk
  · simp [hk]
  · exact h.countFallback.ensure_provides_iff

end VramCacheManager

namespace AsyncPrefetcher
open ByteMemory VramCacheManager

/-- The calls that submit and run transfers. -/
def Op.Streams : Op → Prop
  | .prefetch _ _ _ _ => True
  | .wait _ => True
  | .synchronizeAll => True
  | _ => False

/-- The drain up to `idx` copies the transfer at position `i`, one byte of it to `a`. -/
def Writes (p : AsyncPrefetcher) (idx : ℤ) (i a : ℕ) : Prop :=
  (i : ℤ) ≤ idx ∧ ∃ t, p.inflight[i]? = some t ∧ t.pending = true ∧
    t.dst ≤ a ∧ a < t.dst + t.nbytes

/-- Since its submission as transfer `i` of the run, the expert has been resident. -/
def StayedResident (p₀ : AsyncPrefetcher) (ops : List Op) (i : ℕ) (k : ExpertKey) : Prop :=
  ∀ pre, pre <+: ops → i < (run step p₀ pre).inflight.length →
    (run step p₀ pre).cache.isResident k = true

/-- The address lies in the block of the resident expert `k`, and in no other one. -/
def InOwnBlock (c : VramCacheManager) (k : ExpertKey) (a : ℕ) : Prop :=
  ∃ b, c.blocks.find? k = some b ∧ b.ptr ≤ a ∧ a < b.ptr + b.size ∧
    ∀ k' b', c.blocks.find? k' = some b' → k' ≠ k → ¬ (b'.ptr ≤ a ∧ a < b'.ptr + b'.size)

/-- A prefetch of a resident expert asks for no more than its block, and no bump wraps. -/
def Provides (p : AsyncPrefetcher) : Op → Prop
  | .prefetch k _ n pr => p.cache.BumpFits (.ensure k n pr) ∧
      (p.cache.isResident k = true → n ≤ p.cache.sizeOf k)
  | _ => True

/-- Every byte that a drain changes is written by one of its transfers. -/
theorem writes_of_vram_ne {p : AsyncPrefetcher} {idx : ℤ} {a : ℕ}
    (h : (p.drainUntil idx).vram a ≠ p.vram a) : ∃ i, p.Writes idx i a := by
  by_contra hno
  apply h
  simp only [AsyncPrefetcher.drainUntil, drainFirst_vram]
  apply runCopies_of_outside
  rintro c hc ⟨h1, h2⟩
  obtain ⟨t, ht, rfl⟩ := List.mem_map.mp hc
  obtain ⟨ht, hpend⟩ := List.mem_filter.mp ht
  obtain ⟨i, hi, hget⟩ := mem_take ht
  exact hno ⟨i, by omega, t, hget, hpend, h1, h2⟩

/-- The transfer is aimed at the block of its expert and fits it. -/
structure Placed (c : VramCacheManager) (t : Transfer) : Prop where
  block : ∃ b, (t.key, b) ∈ c.blocks.entries ∧ t.dst = b.ptr ∧ t.nbytes ≤ b.size

theorem Placed.inOwnBlock {c : VramCacheManager} (h : c.Inv) {t : Transfer} (ht : Placed c t)
    {a : ℕ} (h1 : t.dst ≤ a) (h2 : a < t.dst + t.nbytes) : InOwnBlock c t.key a := by
  obtain ⟨b, hb, hdst, hn⟩ := ht.block
  refine ⟨b, UnorderedMap.find?_eq_some.mpr hb, by omega, by omega, ?_⟩
  intro k' b' hb' hne hin
  rcases ptr_apart h (UnorderedMap.find?_eq_some.mp hb') hb hne with hd | hd
  · dsimp only at hd
    omega
  · dsimp only at hd
    omega

/-- A transfer whose expert survives an `ensure` stays aimed at its block. -/
theorem Placed.ensure {c : VramCacheManager} (h : c.Inv) {k : ExpertKey} {n : ℕ} {pr : ℤ}
    (h' : (c.ensure k n pr).2.Inv) {t : Transfer} (ht : Placed c t)
    (hres : (c.ensure k n pr).2.isResident t.key = true) : Placed (c.ensure k n pr).2 t := by
  obtain ⟨b, hb, hdst, hn⟩ := ht.block
  obtain ⟨b', hb'⟩ := h'.isResident_iff.mp hres
  obtain ⟨⟨k', d⟩, hd, hk, hp, hs⟩ := ensure_entry h h' hb' (h.isResident_iff.mpr ⟨b, hb⟩)
  obtain rfl : k' = t.key := hk
  obtain rfl : d = b := c.blocks.entry_unique hd hb
  exact ⟨b', hb', hdst.trans hp, hn.trans hs.le⟩

/-- A new transfer is aimed at the block that was hit or loaded for it. -/
theorem placed_new {c : VramCacheManager} (h : c.Inv) {k : ExpertKey} {n : ℕ} {pr : ℤ}
    (h' : (c.ensure k n pr).2.Inv) (ht : (c.ensure k n pr).1 = true)
    (hn : c.isResident k = true → n ≤ c.sizeOf k) (src : HostPtr) :
    Placed (c.ensure k n pr).2 ⟨k, (c.ensure k n pr).2.data k, src, n, false, false⟩ := by
  obtain ⟨b, hb⟩ := h'.isResident_iff.mp (h.toMapInv.ensure_resident ht)
  refine ⟨b, hb, data_of_mem h'.toMapInv hb, ?_⟩
  have hle := h.toMapInv.ensure_provides_iff.mpr hn ht
  rw [sizeOf_of_mem h'.toMapInv hb] at hle
  exact hle

theorem StayedResident.init {p₀ : AsyncPrefetcher} {ops : List Op} {op : Op} {i : ℕ}
    {k : ExpertKey} (h : StayedResident p₀ (ops ++ [op]) i k) : StayedResident p₀ ops i k :=
  fun pre hpre hi => h pre (hpre.trans (List.prefix_append _ _)) hi

theorem StayedResident.last {p₀ : AsyncPrefetcher} {ops : List Op} {i : ℕ} {k : ExpertKey}
    (h : StayedResident p₀ ops i k) (hi : i < (run step p₀ ops).inflight.length) :
    (run step p₀ ops).cache.isResident k = true := h ops (List.prefix_refl _) hi

/-- A drain changes neither the expert of a transfer nor where it is aimed. -/
theorem placed_drainUntil {p : AsyncPrefetcher} {Stayed : ℕ → ExpertKey → Prop}
    (hp : ∀ i t, p.inflight[i]? = some t → Stayed i t.key → Placed p.cache t) (idx : ℤ) {i : ℕ}
    {t' : Transfer} (ht' : (p.drainUntil idx).inflight[i]? = some t') (hs : Stayed i t'.key) :
    Placed p.cache t' := by
  obtain ⟨t, ht, rfl⟩ := Option.map_eq_some_iff.mp ((drainFirst_getElem? ..).symm.trans ht')
  split_ifs at hs ⊢
  · rw [finish_key] at hs
    obtain ⟨b, hb, hdst, hn⟩ := (hp i t ht hs).block
    exact ⟨b, by rwa [finish_key], by rwa [finish_dst], by rwa [finish_nbytes]⟩
  · exact hp i t ht hs

/-- The step lemma: after one more call, the transfers whose experts stayed are placed. -/
theorem placed_step {p : AsyncPrefetcher} (h : p.cache.Inv) {op : Op} (hop : op.Streams)
    (hg : p.Provides op) (Stayed : ℕ → ExpertKey → Prop)
    (hp : ∀ i t, p.inflight[i]? = some t → Stayed i t.key → Placed p.cache t)
    (hres : ∀ i t, (p.step op).inflight[i]? = some t → Stayed i t.key →
      (p.step op).cache.isResident t.key = true) :
    (p.step op).cache.Inv ∧ ∀ i t, (p.step op).inflight[i]? = some t → Stayed i t.key →
      Placed (p.step op).cache t := by
  cases op with
  | prefetch k src n pr =>
    have h' := h.ensure_of_bumpFits hg.1
    simp only [AsyncPrefetcher.step] at hres ⊢
    rw [prefetch_cache] at hres ⊢
    refine ⟨h', ?_⟩
    rcases p.prefetch_cases k src n pr with ⟨-, he⟩ | ⟨htrue, -, he⟩
    · rw [he] at hres ⊢
      exact fun i t ht hs => (hp i t ht hs).ensure h h' (hres i t ht hs)
    · rw [he] at hres ⊢
      intro i t ht hs
      rcases getElem?_push ht with hold | ⟨-, rfl⟩
      · exact (hp i t hold hs).ensure h h' (hres i t ht hs)
      · exact placed_new h h' htrue hg.2 src
  | wait k =>
    simp only [AsyncPrefetcher.step, wait_cache]
    refine ⟨h, fun i t ht hs => ?_⟩
    rcases p.wait_snd k with ⟨st, he⟩ | ⟨idx, st, he⟩
    · rw [he] at ht
      exact hp i t ht hs
    · rw [he] at ht
      exact placed_drainUntil hp idx ht hs
  | synchronizeAll => exact ⟨h, fun i t ht hs => placed_drainUntil hp _ ht hs⟩
  | reset => exact hop.elim
  | touch k => exact hop.elim

/-- The run lemma, by induction on the run from its end. -/
theorem run_placed (p₀ : AsyncPrefetcher) (h₀ : p₀.cache.Inv) (hnil : p₀.inflight = [])
    {ops : List Op} (hops : ∀ op ∈ ops, op.Streams) (hg : Guarded step Provides p₀ ops) :
    (run step p₀ ops).cache.Inv ∧ ∀ i t, (run step p₀ ops).inflight[i]? = some t →
      StayedResident p₀ ops i t.key → Placed (run step p₀ ops).cache t := by
  induction ops using List.reverseRecOn with
  | nil => exact ⟨h₀, fun i t ht => by simp [hnil] at ht⟩
  | append_singleton ops op ih =>
    obtain ⟨hg1, hg2⟩ := guarded_append.mp hg
    obtain ⟨hinv, hplaced⟩ := ih (fun o ho => hops o (by simp [ho])) hg1
    have hstep : run step p₀ (ops ++ [op]) = (run step p₀ ops).step op := by simp
    have hone := placed_step hinv (hops op (by simp)) hg2.1 (StayedResident p₀ (ops ++ [op]))
      (fun i t ht hs => hplaced i t ht hs.init)
      (fun i t ht hs => by
        rw [← hstep] at ht ⊢
        exact hs.last (List.getElem?_eq_some_iff.mp ht).1)
    rw [hstep]
    exact hone

/-- In every reachable state a successful request provides its bytes exactly unless it hits a
smaller block; and in every run of the stream in which no prefetch asks for more than the
block of a resident expert, what a drain writes for an expert that has stayed resident lies
in its own block. -/
theorem run_provides_room (order : Order) (be : Backend) (B : ℕ) {c₀ : VramCacheManager}
    (hB : B < 2 ^ 64) (hinit : (VramCacheManager.fresh order).init B be = (true, c₀)) :
    (∀ (ops : List VramCacheManager.Op) (k : ExpertKey) (n : ℕ) (pr : ℤ), 0 < n →
      let c := run VramCacheManager.step c₀ ops
      (((c.ensure k n pr).1 = true → n ≤ (c.ensure k n pr).2.sizeOf k) ↔
        (c.isResident k = true → n ≤ c.sizeOf k)) ∧
      (((c.syncFallback k n pr).1 = true → n ≤ (c.syncFallback k n pr).2.sizeOf k) ↔
        (c.isResident k = true → n ≤ c.sizeOf k))) ∧
    ∀ (vram : ℕ → UInt8) (ops : List Op), (∀ op ∈ ops, op.Streams) →
      Guarded step Provides (fresh c₀ vram) ops →
      let p := run step (fresh c₀ vram) ops
      ∀ idx : ℤ, (∀ a, (p.drainUntil idx).vram a ≠ p.vram a → ∃ i, p.Writes idx i a) ∧
        ∀ i a t, p.Writes idx i a → p.inflight[i]? = some t →
          StayedResident (fresh c₀ vram) ops i t.key → InOwnBlock p.cache t.key a := by
  obtain ⟨base, hbase, rfl⟩ := init_eq_true hinit
  constructor
  · intro ops k n pr _ c
    have hinv : c.MapInv := (run_slotInv (started_slotInv order hbase B) ops).toMapInv
    exact ⟨hinv.ensure_provides_iff, hinv.syncFallback_provides_iff⟩
  · intro vram ops hops hg p idx
    obtain ⟨hinv, hplaced⟩ := run_placed (fresh (started order base B) vram)
      (started_inv order base hB) rfl hops hg
    refine ⟨fun a ha => writes_of_vram_ne ha, ?_⟩
    rintro i a t ⟨-, u, hu, -, h1, h2⟩ ht hs
    obtain rfl : u = t := Option.some_inj.mp (hu.symm.trans ht)
    exact (hplaced i u ht hs).inOwnBlock hinv h1 h2

/-- Two experts of two bytes each; the second prefetch of the first one asks for one byte. -/
theorem run_provides_room_two :
    let src : HostPtr := ⟨1000, fun _ => 7⟩
    let ops := [Op.prefetch ⟨0, 0⟩ src 2 0, .prefetch ⟨0, 1⟩ src 2 0, .prefetch ⟨0, 0⟩ src 1 0]
    let p := run step (fresh (started (.newestFirst _ _) 100 4) fun _ => 0) ops
    ∀ i a t, p.Writes 2 i a → p.inflight[i]? = some t →
      StayedResident (fresh (started (.newestFirst _ _) 100 4) fun _ => 0) ops i t.key →
        InOwnBlock p.cache t.key a := by
  intro src ops
  have hinit : (VramCacheManager.fresh (.newestFirst _ _)).init 4 (.host 100) =
      (true, started (.newestFirst _ _) 100 4) := rfl
  have h := (run_provides_room (.newestFirst _ _) (.host 100) 4 (by decide) hinit).2 (fun _ => 0)
    ops (by simp [ops, Op.Streams])
    ⟨⟨fun _ _ => by decide, by decide⟩, ⟨fun _ _ => by decide, by decide⟩,
      ⟨fun hno => absurd hno (by decide), by decide⟩, trivial⟩ 2
  exact h.2

/-- A request for four bytes hits the block of two, and its copy reaches into the block of
the other expert, both having stayed resident all along. -/
theorem hit_ignores_size :
    (¬ ∀ (order : Order) (be : Backend) (B : ℕ) (c₀ : VramCacheManager),
      (VramCacheManager.fresh order).init B be = (true, c₀) →
        ∀ (ops : List VramCacheManager.Op) (k : ExpertKey) (n : ℕ) (pr : ℤ), 0 < n →
          ((run VramCacheManager.step c₀ ops).ensure k n pr).1 = true →
            n ≤ ((run VramCacheManager.step c₀ ops).ensure k n pr).2.sizeOf k) ∧
    let src : HostPtr := ⟨1000, fun _ => 7⟩
    let p₀ := fresh (started (.newestFirst _ _) 100 4) fun _ => 0
    let ops := [Op.prefetch ⟨0, 0⟩ src 2 0, .prefetch ⟨0, 1⟩ src 2 0, .synchronizeAll,
      .prefetch ⟨0, 0⟩ src 4 0]
    StayedResident p₀ ops 2 ⟨0, 0⟩ ∧ (run step p₀ ops).Writes 2 2 102 ∧
      ¬ InOwnBlock (run step p₀ ops).cache ⟨0, 0⟩ 102 := by
  constructor
  · intro h
    have hinit : (VramCacheManager.fresh (.newestFirst _ _)).init 4 (.host 100) =
        (true, started (.newestFirst _ _) 100 4) := rfl
    have hsize := h (.newestFirst _ _) (.host 100) 4 _ hinit [.ensure ⟨0, 0⟩ 2 0] ⟨0, 0⟩ 4 0
      (by decide) (by decide)
    revert hsize
    decide
  · intro src p₀ ops
    have hlast : (run step p₀ ops).inflight[2]?.map (fun t => (t.pending, t.dst, t.nbytes)) =
        some (true, 100, 4) := by decide
    obtain ⟨t, ht, he⟩ := Option.map_eq_some_iff.mp hlast
    simp only [Prod.mk.injEq] at he
    refine ⟨fun pre hpre => ?_, ⟨by decide, t, ht, he.1, by omega, by omega⟩, ?_⟩
    · have hall : ∀ pre ∈ ops.inits, 2 < (run step p₀ pre).inflight.length →
          (run step p₀ pre).cache.isResident ⟨0, 0⟩ = true := by decide
      exact hall pre ((List.mem_inits _ _).mpr hpre)
    · rintro ⟨b, -, -, -, hno⟩
      exact hno ⟨0, 1⟩ ⟨⟨0, 1⟩, 102, 2, 2, 2, 0, true⟩ (by decide) (by decide) (by decide)

end AsyncPrefetcher
end Dee
