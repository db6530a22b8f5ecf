import Dee.AsyncPrefetcher
import Dee.VramCacheResidency

/-! The transfer queue over whole runs: the index map points at the last transfer of
each expert, and `wait` reports the state of that transfer, whatever the cache has
evicted meanwhile. -/
namespace Dee.AsyncPrefetcher
open GuardedRuns VramCacheManager

/-- Position `i` of the queue holds the last transfer `t` of the expert `k`. -/
structure LastAt (ts : List Transfer) (k : ExpertKey) (i : ℕ) (t : Transfer) : Prop where
  get : ts[i]? = some t
  key : t.key = k
  last : ∀ j u, i < j → ts[j]? = some u → u.key ≠ k

theorem LastAt.lt {ts : List Transfer} {k : ExpertKey} {i : ℕ} {t : Transfer}
    (h : LastAt ts k i t) : i < ts.length := (List.getElem?_eq_some_iff.mp h.get).1

theorem LastAt.mem {ts : List Transfer} {k : ExpertKey} {i : ℕ} {t : Transfer}
    (h : LastAt ts k i t) : t ∈ ts := List.mem_of_getElem? h.get

/-- A submission becomes the last transfer of its own expert only. -/
theorem lastAt_append {ts : List Transfer} {u : Transfer} {k : ExpertKey} {i : ℕ} {t : Transfer} :
    LastAt (ts ++ [u]) k i t ↔
      u.key = k ∧ i = ts.length ∧ t = u ∨ u.key ≠ k ∧ LastAt ts k i t := by
  have hlast : (ts ++ [u])[ts.length]? = some u := by simp
  constructor
  · intro h
    have hi : i < ts.length + 1 := by simpa using h.lt
    by_cases hu : u.key = k
    · have hi' : i = ts.length := by
        by_contra hne
        exact h.last _ u (by omega) hlast hu
      subst hi'
      exact Or.inl ⟨hu, rfl, Option.some_inj.mp (h.get.symm.trans hlast)⟩
    · have hne : i ≠ ts.length := by
        rintro rfl
        rw [Option.some_inj.mp (hlast.symm.trans h.get)] at hu
        exact hu h.key
      refine Or.inr ⟨hu, ?_, h.key, fun j v hij hv => ?_⟩
      · rw [← h.get, List.getElem?_append_left (by omega)]
      · have hj := (List.getElem?_eq_some_iff.mp hv).1
        exact h.last j v hij (by rw [List.getElem?_append_left hj]; exact hv)
  · rintro (⟨hu, rfl, rfl⟩ | ⟨hu, h⟩)
    · refine ⟨hlast, hu, fun j v hj hv => ?_⟩
      have := (List.getElem?_eq_some_iff.mp hv).1
      simp only [List.length_append, List.length_singleton] at this
      omega
    · refine ⟨by rw [List.getElem?_append_left h.lt]; exact h.get, h.key, fun j v hij hv => ?_⟩
      by_cases hj : j < ts.length
      · exact h.last j v hij (by rw [List.getElem?_append_left hj] at hv; exact hv)
      · have hj' := (List.getElem?_eq_some_iff.mp hv).1
        have hje : j = ts.length := by
          simp only [List.length_append, List.length_singleton] at hj'
          omega
        rw [hje, hlast] at hv
        rw [← Option.some_inj.mp hv]
        exact hu

/-- An expert with a transfer in the queue has a last one. -/
theorem exists_lastAt {ts : List Transfer} {k : ExpertKey} :
    (∃ i t, LastAt ts k i t) ↔ ∃ t ∈ ts, t.key = k := by
  constructor
  · intro ⟨i, t, h⟩
    exact ⟨t, h.mem, h.key⟩
  · induction ts using List.reverseRecOn with
    | nil => simp
    | append_singleton ts u ih =>
      intro ⟨t, ht, hk⟩
      by_cases hu : u.key = k
      · exact ⟨ts.length, u, lastAt_append.mpr (Or.inl ⟨hu, rfl, rfl⟩)⟩
      · rcases List.mem_append.mp ht with ht | ht
        · obtain ⟨i, t, h⟩ := ih ⟨t, ht, hk⟩
          exact ⟨i, t, lastAt_append.mpr (Or.inr ⟨hu, h⟩)⟩
        · rw [List.mem_singleton.mp ht] at hk
          exact absurd hk hu

theorem lastAt_drainFirst {n : ℕ} {ts : List Transfer} {vram : ℕ → UInt8} {k : ExpertKey} {i : ℕ}
    {t' : Transfer} : LastAt (drainFirst n ts vram).1 k i t' ↔
      ∃ t, LastAt ts k i t ∧ t' = if i < n then t.finish else t := by
  have hkey : ∀ (j : ℕ) (u : Transfer), (if j < n then u.finish else u).key = u.key := by
    intro j u
    split_ifs <;> simp
  constructor
  · intro h
    obtain ⟨t, ht, rfl⟩ := Option.map_eq_some_iff.mp ((drainFirst_getElem? ..).symm.trans h.get)
    refine ⟨t, ⟨ht, (hkey i t).symm.trans h.key, fun j u hij hu => ?_⟩, rfl⟩
    rw [← hkey j u]
    exact h.last j _ hij (by rw [drainFirst_getElem?, hu]; rfl)
  · rintro ⟨t, h, rfl⟩
    refine ⟨by rw [drainFirst_getElem?, h.get]; rfl, (hkey i t).trans h.key, ?_⟩
    intro j u hij hu
    obtain ⟨v, hv, rfl⟩ := Option.map_eq_some_iff.mp ((drainFirst_getElem? ..).symm.trans hu)
    rw [hkey]
    exact h.last j v hij hv

/-- A transfer with a source and a destination, which `drain_until` can only finish. -/
structure Armed (t : Transfer) : Prop where
  src_ne : t.src.addr ≠ 0
  dst_ne : t.dst ≠ 0
  kept : t.abandoned = false

theorem Armed.finish_done {t : Transfer} (h : Armed t) : t.finish.done = true := by
  obtain ⟨hs, hd, ha⟩ := h
  unfold Transfer.finish Transfer.pending
  cases hdone : t.done <;> simp [hs, hd, ha, hdone]

theorem Armed.finish {t : Transfer} (h : Armed t) : Armed t.finish := by
  unfold Transfer.finish
  split_ifs
  · exact ⟨h.src_ne, h.dst_ne, h.kept⟩
  · exact h

structure QueueInv (p : AsyncPrefetcher) : Prop where
  indexed : ∀ k i, p.findInflight k = some i ↔ ∃ t, LastAt p.inflight k i t
  armed : ∀ t ∈ p.inflight, Armed t

theorem fresh_queueInv (c : VramCacheManager) (vram : ℕ → UInt8) : (fresh c vram).QueueInv := by
  constructor
  · intro k i
    simp only [findInflight, fresh, reduceCtorEq, false_iff, not_exists]
    exact fun t h => by simpa using h.mem
  · simp [fresh]

theorem QueueInv.push {p : AsyncPrefetcher} (h : p.QueueInv) {t : Transfer} (ht : Armed t) :
    (p.push t).QueueInv := by
  constructor
  · intro k i
    simp only [findInflight, AsyncPrefetcher.push, lastAt_append]
    by_cases hk : t.key = k
    · subst hk
      simp [eq_comm]
    · rw [Function.update_of_ne fun he => hk (packKey_injective he).symm]
      simp only [hk, false_and, false_or, not_false_eq_true, true_and, ne_eq]
      exact h.indexed k i
  · intro u hu
    rcases List.mem_append.mp hu with hu | hu
    · exact h.armed u hu
    · rw [List.mem_singleton.mp hu]
      exact ht

/-- A transfer of the drained queue has the expert of one that was queued. -/
theorem drainUntil_mem {p : AsyncPrefetcher} {idx : ℤ} {t' : Transfer}
    (h : t' ∈ (p.drainUntil idx).inflight) : ∃ t ∈ p.inflight, t' = t.finish ∨ t' = t := by
  obtain ⟨i, hi⟩ := List.mem_iff_getElem?.mp h
  obtain ⟨t, ht, rfl⟩ := Option.map_eq_some_iff.mp ((drainFirst_getElem? ..).symm.trans hi)
  refine ⟨t, List.mem_of_getElem? ht, ?_⟩
  split_ifs
  · exact Or.inl rfl
  · exact Or.inr rfl

theorem QueueInv.drainUntil {p : AsyncPrefetcher} (h : p.QueueInv) (idx : ℤ) :
    (p.drainUntil idx).QueueInv := by
  constructor
  · intro k i
    simp only [findInflight, AsyncPrefetcher.drainUntil, lastAt_drainFirst]
    refine (h.indexed k i).trans ⟨fun ⟨t, ht⟩ => ⟨_, t, ht, rfl⟩, fun ⟨_, t, ht, _⟩ => ⟨t, ht⟩⟩
  · intro t' ht'
    obtain ⟨t, ht, rfl | rfl⟩ := drainUntil_mem ht'
    · exact (h.armed t ht).finish
    · exact h.armed _ ht

theorem QueueInv.reset {p : AsyncPrefetcher} (_ : p.QueueInv) : p.reset.QueueInv :=
  ⟨(fresh_queueInv p.cache p.vram).indexed, (fresh_queueInv p.cache p.vram).armed⟩

theorem getElem?_push {p : AsyncPrefetcher} {t u : Transfer} {j : ℕ}
    (hu : (p.push t).inflight[j]? = some u) :
    p.inflight[j]? = some u ∨ j = p.inflight.length ∧ u = t := by
  by_cases hj : j < p.inflight.length
  · exact Or.inl (by simpa [AsyncPrefetcher.push, List.getElem?_append_left hj] using hu)
  · have hlen := (List.getElem?_eq_some_iff.mp hu).1
    have hje : j = p.inflight.length := by
      simp only [AsyncPrefetcher.push, List.length_append, List.length_singleton] at hlen
      omega
    subst hje
    exact Or.inr ⟨rfl, by simpa [AsyncPrefetcher.push, eq_comm] using hu⟩

/-- The finished transfers are the first `d` of the queue. -/
def DoneTo (p : AsyncPrefetcher) (d : ℕ) : Prop :=
  d ≤ p.inflight.length ∧ ∀ i t, p.inflight[i]? = some t → (t.done = true ↔ i < d)

theorem doneTo_nil {p : AsyncPrefetcher} (h : p.inflight = []) : p.DoneTo 0 :=
  ⟨Nat.zero_le _, by simp [h]⟩

theorem DoneTo.push {p : AsyncPrefetcher} {d : ℕ} (h : p.DoneTo d) {t : Transfer}
    (ht : t.done = false) : (p.push t).DoneTo d := by
  obtain ⟨hd, hdone⟩ := h
  refine ⟨?_, fun i u hu => ?_⟩
  · simp only [AsyncPrefetcher.push, List.length_append]
    omega
  · rcases getElem?_push hu with hu | ⟨rfl, rfl⟩
    · exact hdone i u hu
    · rw [ht]
      simp only [Bool.false_eq_true, false_iff]
      omega

theorem DoneTo.drainUntil {p : AsyncPrefetcher} {d : ℕ} (h : p.DoneTo d)
    (harmed : ∀ t ∈ p.inflight, Armed t) (idx : ℤ) :
    (p.drainUntil idx).DoneTo (max d (min (idx + 1).toNat p.inflight.length)) := by
  obtain ⟨hd, hdone⟩ := h
  have hlen : (p.drainUntil idx).inflight.length = p.inflight.length := drainFirst_length ..
  refine ⟨by omega, fun i t' ht' => ?_⟩
  obtain ⟨t, ht, rfl⟩ := Option.map_eq_some_iff.mp ((drainFirst_getElem? ..).symm.trans ht')
  have hi := (List.getElem?_eq_some_iff.mp ht).1
  split_ifs with hlt
  · exact iff_of_true (harmed t (List.mem_of_getElem? ht)).finish_done (by omega)
  · rw [hdone i t ht]
    omega

/-- The two outcomes of `wait`: never issued, or drained up to the last transfer. -/
theorem QueueInv.wait_cases {p : AsyncPrefetcher} (h : p.QueueInv) (k : ExpertKey) :
    ((∀ t ∈ p.inflight, t.key ≠ k) ∧ (p.wait k).1 = false ∧ (p.wait k).2.inflight = p.inflight ∧
      (p.wait k).2.vram = p.vram) ∨
    ∃ i t, LastAt p.inflight k i t ∧ (p.wait k).1 = true ∧
      (p.wait k).2.inflight = (p.drainUntil i).inflight ∧
      (p.wait k).2.vram = (p.drainUntil i).vram := by
  cases hf : p.findInflight k with
  | none =>
    left
    have hf' : p.keyToIdx (packKey k) = none := hf
    refine ⟨fun t ht hk => ?_, ?_⟩
    · obtain ⟨i, u, hu⟩ := exists_lastAt.mpr ⟨t, ht, hk⟩
      rw [(h.indexed k i).mpr ⟨u, hu⟩] at hf
      cases hf
    · simp [wait, findInflight, hf']
  | some i =>
    right
    have hf' : p.keyToIdx (packKey k) = some i := hf
    obtain ⟨t, ht⟩ := (h.indexed k i).mp hf
    have hlast : LastAt (drainFirst (i + 1) p.inflight p.vram).1 k i t.finish :=
      lastAt_drainFirst.mpr ⟨t, ht, (if_pos (by omega)).symm⟩
    refine ⟨i, t, ht, ?_, ?_⟩
    · simp [wait, findInflight, hf', AsyncPrefetcher.drainUntil, hlast.get,
        (h.armed t ht.mem).finish_done]
    · simp [wait, findInflight, hf', AsyncPrefetcher.drainUntil]

/-- `wait` succeeds exactly on the experts with a transfer in the queue. -/
theorem QueueInv.wait_eq_true_iff {p : AsyncPrefetcher} (h : p.QueueInv) {k : ExpertKey} :
    (p.wait k).1 = true ↔ ∃ t ∈ p.inflight, t.key = k := by
  rcases h.wait_cases k with ⟨hno, hw, -⟩ | ⟨i, t, ht, hw, -⟩
  · simp only [hw, Bool.false_eq_true, false_iff, not_exists, not_and]
    exact hno
  · exact iff_of_true hw ⟨t, ht.mem, ht.key⟩

/-- Apart from the statistics, `wait` drains up to a position or does nothing. -/
theorem wait_snd (p : AsyncPrefetcher) (k : ExpertKey) :
    (∃ st, (p.wait k).2 = { p with stats := st }) ∨
      ∃ i st, (p.wait k).2 = { p.drainUntil i with stats := st } := by
  unfold wait
  dsimp only
  split
  · exact Or.inl ⟨_, rfl⟩
  · exact Or.inr ⟨_, _, rfl⟩

theorem wait_length (p : AsyncPrefetcher) (k : ExpertKey) :
    (p.wait k).2.inflight.length = p.inflight.length := by
  rcases p.wait_snd k with ⟨st, he⟩ | ⟨i, st, he⟩
  · rw [he]
  · rw [he]
    exact drainFirst_length ..

theorem QueueInv.wait {p : AsyncPrefetcher} (h : p.QueueInv) (k : ExpertKey) :
    (p.wait k).2.QueueInv := by
  rcases p.wait_snd k with ⟨st, he⟩ | ⟨i, st, he⟩
  · rw [he]
    exact ⟨h.indexed, h.armed⟩
  · have hd := h.drainUntil i
    rw [he]
    exact ⟨hd.indexed, hd.armed⟩

theorem QueueInv.prefetch {p : AsyncPrefetcher} (h : p.QueueInv) {k : ExpertKey} {src : HostPtr}
    (hsrc : src.addr ≠ 0) (n : ℕ) (pr : ℤ) : (p.prefetch k src n pr).2.QueueInv := by
  rcases p.prefetch_cases k src n pr with ⟨-, he⟩ | ⟨-, hd, he⟩
  · rw [he]
    exact ⟨h.indexed, h.armed⟩
  · rw [he]
    exact QueueInv.push (p := { p with cache := (p.cache.ensure k n pr).2 })
      ⟨h.indexed, h.armed⟩ ⟨hsrc, hd, rfl⟩

/-- No prefetch of the operation has a null source. -/
def Op.NonNull : Op → Prop
  | .prefetch _ src _ _ => src.addr ≠ 0
  | _ => True

/-- The step lemma of the queue invariant. -/
theorem QueueInv.step {p : AsyncPrefetcher} (h : p.QueueInv) {op : Op} (hop : op.NonNull) :
    (p.step op).QueueInv := by
  cases op with
  | prefetch k src n pr => exact h.prefetch hop n pr
  | wait k => exact h.wait k
  | synchronizeAll => exact h.drainUntil _
  | reset => exact h.reset
  | touch k => exact ⟨h.indexed, h.armed⟩

theorem step_slotInv {p : AsyncPrefetcher} (h : p.cache.SlotInv) (op : Op) :
    (p.step op).cache.SlotInv := by
  cases op with
  | prefetch k src n pr =>
    simp only [step]
    rcases p.prefetch_cases k src n pr with ⟨-, he⟩ | ⟨-, -, he⟩ <;> rw [he] <;>
      exact h.ensure k n pr
  | wait k => simpa [step] using h
  | synchronizeAll => exact h
  | reset => exact h
  | touch k => exact h.touch k

/-- The expert has a transfer in the queue. -/
def Queued (p : AsyncPrefetcher) (k : ExpertKey) : Prop := ∃ t ∈ p.inflight, t.key = k

theorem Queued.drainUntil {p : AsyncPrefetcher} {k : ExpertKey} (h : p.Queued k) (idx : ℤ) :
    (p.drainUntil idx).Queued k := by
  obtain ⟨i, t, ht⟩ := exists_lastAt.mpr h
  exact exists_lastAt.mp ⟨i, _, lastAt_drainFirst.mpr ⟨t, ht, rfl⟩⟩

theorem Queued.wait {p : AsyncPrefetcher} {k : ExpertKey} (h : p.Queued k) (k' : ExpertKey) :
    (p.wait k').2.Queued k := by
  rcases p.wait_snd k' with ⟨st, he⟩ | ⟨i, st, he⟩
  · rw [he]
    exact h
  · rw [he]
    exact h.drainUntil i

/-- The experts of the list that are resident are queued. -/
def QueuedAll (p : AsyncPrefetcher) (layer : Int32) (xs : List Int32) : Prop :=
  ∀ x ∈ xs, p.cache.isResident ⟨layer, x⟩ = true → p.Queued ⟨layer, x⟩

/-- Waiting for the first expert leaves the others queued. -/
theorem QueuedAll.wait {p : AsyncPrefetcher} {layer x : Int32} {xs : List Int32}
    (h : p.QueuedAll layer (x :: xs)) (k : ExpertKey) : (p.wait k).2.QueuedAll layer xs := by
  intro y hy hyes
  rw [wait_cache] at hyes
  exact (h y (List.mem_cons_of_mem x hy) hyes).wait k

theorem Queued.prefetch {p : AsyncPrefetcher} {k : ExpertKey} (h : p.Queued k) (k' : ExpertKey)
    (src : HostPtr) (n : ℕ) (pr : ℤ) : (p.prefetch k' src n pr).2.Queued k := by
  obtain ⟨t, ht, hk⟩ := h
  rcases p.prefetch_cases k' src n pr with ⟨-, he⟩ | ⟨-, -, he⟩
  · rw [he]
    exact ⟨t, ht, hk⟩
  · rw [he]
    exact ⟨t, List.mem_append_left _ ht, hk⟩

/-- A prefetch that gets its slot is queued. -/
theorem prefetch_queued {p : AsyncPrefetcher} (hc : p.cache.SlotInv) {k : ExpertKey} {n : ℕ} {pr : ℤ}
    (ht : (p.cache.ensure k n pr).1 = true) (src : HostPtr) : (p.prefetch k src n pr).2.Queued k := by
  have hdata := (hc.ensure k n pr).data_ne_zero.mpr (hc.ensure_resident ht)
  rcases p.prefetch_cases k src n pr with ⟨hno | hno, -⟩ | ⟨-, -, he⟩
  · rw [ht] at hno
    cases hno
  · exact absurd hno hdata
  · rw [he]
    exact ⟨_, List.mem_append_right _ (List.mem_singleton.mpr rfl), rfl⟩

/-- Every expert with a transfer in the queue is resident. -/
def QueuedResident (p : AsyncPrefetcher) : Prop :=
  ∀ t ∈ p.inflight, p.cache.isResident t.key = true

/-- The operation evicts no expert that has a transfer in the queue. -/
def KeepsQueued (p : AsyncPrefetcher) : Op → Prop
  | .prefetch k _ n _ => ∀ t ∈ p.inflight, ¬ p.cache.Evicts k n t.key
  | _ => True

theorem prefetch_queuedResident_iff {p : AsyncPrefetcher} (hc : p.cache.SlotInv)
    (hq : p.QueuedResident) (k : ExpertKey) (src : HostPtr) (n : ℕ) (pr : ℤ) :
    (p.prefetch k src n pr).2.QueuedResident ↔ ∀ t ∈ p.inflight, ¬ p.cache.Evicts k n t.key := by
  have hres := hc.toMapInv.ensure_isResident k n pr
  -- an expert that was resident is still resident after the call unless it was evicted
  have hkeep : ∀ t ∈ p.inflight, (p.cache.ensure k n pr).2.isResident t.key = true ↔
      ¬ p.cache.Evicts k n t.key := by
    intro t ht
    rw [hres]
    constructor
    · rintro (⟨hno, -⟩ | ⟨hk, -⟩)
      · exact hno
      · exact fun hev => absurd (hq t ht) (by rw [hk]; simp [hev.1])
    · exact fun hno => Or.inl ⟨hno, hq t ht⟩
  rcases p.prefetch_cases k src n pr with ⟨-, he⟩ | ⟨htrue, -, he⟩
  · rw [he]
    exact forall₂_congr hkeep
  · rw [he]
    constructor
    · exact fun h t ht => (hkeep t ht).mp (h t (List.mem_append_left _ ht))
    · intro h t ht
      rcases List.mem_append.mp ht with ht | ht
      · exact (hkeep t ht).mpr (h t ht)
      · rw [List.mem_singleton.mp ht]
        exact hc.ensure_resident htrue

theorem QueuedResident.drainUntil {p : AsyncPrefetcher} (h : p.QueuedResident) (idx : ℤ) :
    (p.drainUntil idx).QueuedResident := by
  intro t' ht'
  obtain ⟨t, ht, rfl | rfl⟩ := drainUntil_mem ht'
  · rw [finish_key]
    exact h t ht
  · exact h _ ht

/-- The step lemma: the queued experts stay resident exactly when none is evicted. -/
theorem step_queuedResident_iff {p : AsyncPrefetcher} (hc : p.cache.SlotInv)
    (hq : p.QueuedResident) (op : Op) : (p.step op).QueuedResident ↔ p.KeepsQueued op := by
  cases op with
  | prefetch k src n pr => exact prefetch_queuedResident_iff hc hq k src n pr
  | wait k =>
    refine iff_of_true ?_ trivial
    simp only [step]
    rcases p.wait_snd k with ⟨st, he⟩ | ⟨i, st, he⟩
    · rw [he]
      exact hq
    · rw [he]
      exact hq.drainUntil i
  | synchronizeAll => exact iff_of_true (hq.drainUntil _) trivial
  | reset => exact iff_of_true (fun t ht => by simp [step, AsyncPrefetcher.reset] at ht) trivial
  | touch k =>
    refine iff_of_true (fun t ht => ?_) trivial
    simp only [step, AsyncPrefetcher.touch, touch_isResident hc.toMapInv]
    exact hq t ht

/-- `wait` means ready: whenever it returns true the expert has an address. -/
def WaitMeansReady (p : AsyncPrefetcher) : Prop :=
  ∀ k, (p.wait k).1 = true → (p.wait k).2.cache.data k ≠ 0

theorem waitMeansReady_iff {p : AsyncPrefetcher} (h : p.QueueInv) (hc : p.cache.SlotInv) :
    p.WaitMeansReady ↔ p.QueuedResident := by
  simp only [WaitMeansReady, wait_cache, hc.data_ne_zero, h.wait_eq_true_iff]
  constructor
  · exact fun hw t ht => hw t.key ⟨t, ht, rfl⟩
  · rintro hq k ⟨t, ht, rfl⟩
    exact hq t ht

/-! The waits that a run performs -/

/-- The expert has a transfer in the queue and no slot. -/
def Stale (p : AsyncPrefetcher) (k : ExpertKey) : Prop :=
  p.Queued k ∧ p.cache.isResident k = false

/-- The operation evicts the expert while it has a transfer in the queue. -/
def Drops (k : ExpertKey) (p : AsyncPrefetcher) : Op → Prop
  | .prefetch k' _ n _ => p.Queued k ∧ p.cache.Evicts k' n k
  | _ => False

/-- The operation gives the expert a slot, or empties the queue. -/
def Renews (k : ExpertKey) (p : AsyncPrefetcher) : Op → Prop
  | .prefetch k' _ n pr => k' = k ∧ (p.cache.ensure k' n pr).1 = true
  | .reset => True
  | _ => False

theorem queued_drainUntil_iff {p : AsyncPrefetcher} {k : ExpertKey} (idx : ℤ) :
    (p.drainUntil idx).Queued k ↔ p.Queued k := by
  refine ⟨fun ⟨t', ht', hk⟩ => ?_, fun h => h.drainUntil idx⟩
  obtain ⟨t, ht, rfl | rfl⟩ := drainUntil_mem ht'
  · exact ⟨t, ht, (finish_key t).symm.trans hk⟩
  · exact ⟨_, ht, hk⟩

theorem queued_wait_iff {p : AsyncPrefetcher} {k k' : ExpertKey} :
    (p.wait k').2.Queued k ↔ p.Queued k := by
  refine ⟨fun h => ?_, fun h => h.wait k'⟩
  rcases p.wait_snd k' with ⟨st, he⟩ | ⟨i, st, he⟩
  · rw [he] at h
    exact h
  · rw [he] at h
    exact (queued_drainUntil_iff i).mp h

/-- A prefetch queues no other expert, and none when it is refused. -/
theorem prefetch_queued_iff {p : AsyncPrefetcher} {k k' : ExpertKey} {n : ℕ} {pr : ℤ}
    (hnew : ¬ (k' = k ∧ (p.cache.ensure k' n pr).1 = true)) (src : HostPtr) :
    (p.prefetch k' src n pr).2.Queued k ↔ p.Queued k := by
  refine ⟨fun ⟨t, ht, hk⟩ => ?_, fun h => h.prefetch k' src n pr⟩
  rcases p.prefetch_cases k' src n pr with ⟨-, he⟩ | ⟨hok, -, he⟩
  · rw [he] at ht
    exact ⟨t, ht, hk⟩
  · rw [he] at ht
    rcases List.mem_append.mp ht with ht | ht
    · exact ⟨t, ht, hk⟩
    · rw [List.mem_singleton.mp ht] at hk
      exact absurd ⟨hk, hok⟩ hnew

theorem prefetch_stale_iff {p : AsyncPrefetcher} (hc : p.cache.SlotInv) {k k' : ExpertKey}
    (src : HostPtr) (n : ℕ) (pr : ℤ) : (p.prefetch k' src n pr).2.Stale k ↔
      p.Queued k ∧ p.cache.Evicts k' n k ∨
        p.Stale k ∧ ¬ (k' = k ∧ (p.cache.ensure k' n pr).1 = true) := by
  have hres := hc.toMapInv.ensure_isResident k' n pr k
  -- a request does not evict the expert it is for
  have hself : k' = k → ¬ p.cache.Evicts k' n k := by
    rintro rfl ⟨hno, hyes, -⟩
    rw [hno] at hyes
    cases hyes
  have hgone : ¬ (k' = k ∧ (p.cache.ensure k' n pr).1 = true) →
      ((p.cache.ensure k' n pr).2.isResident k = false ↔
        p.cache.Evicts k' n k ∨ p.cache.isResident k = false) := by
    intro hnot
    have hnot' : ¬ (k = k' ∧ (p.cache.ensure k' n pr).1 = true) := fun h => hnot ⟨h.1.symm, h.2⟩
    rw [← Bool.not_eq_true, hres, or_iff_left hnot', not_and_or, not_not, Bool.not_eq_true]
  by_cases hnew : k' = k ∧ (p.cache.ensure k' n pr).1 = true
  · obtain ⟨rfl, hok⟩ := hnew
    refine iff_of_false (fun h => ?_) ?_
    · have hyes : (p.prefetch k' src n pr).2.cache.isResident k' = true := by
        rw [prefetch_cache]
        exact hc.ensure_resident hok
      rw [h.2] at hyes
      cases hyes
    · rintro (⟨-, hev⟩ | ⟨-, hnot⟩)
      · exact hself rfl hev
      · exact hnot ⟨rfl, hok⟩
  · rw [Stale, prefetch_queued_iff hnew src, prefetch_cache, hgone hnew, Stale, and_or_left,
      and_iff_left hnew]

/-- The step lemma: what makes an expert stale, and what ends it. -/
theorem step_stale_iff {p : AsyncPrefetcher} (hc : p.cache.SlotInv) (k : ExpertKey) (op : Op) :
    (p.step op).Stale k ↔ p.Drops k op ∨ p.Stale k ∧ ¬ p.Renews k op := by
  cases op with
  | prefetch k' src n pr => exact prefetch_stale_iff hc src n pr
  | wait k' => simp only [step, Stale, queued_wait_iff, wait_cache, Drops, Renews, false_or,
      not_false_eq_true, and_true]
  | synchronizeAll =>
    simp only [step, Stale, Drops, Renews, false_or, not_false_eq_true, and_true]
    exact and_congr_left' (queued_drainUntil_iff _)
  | reset =>
    simp only [step, Stale, Drops, Renews, false_or, not_true_eq_false, and_false, iff_false]
    rintro ⟨⟨t, ht, -⟩, -⟩
    exact List.not_mem_nil ht
  | touch k' =>
    simp only [step, Stale, Drops, Renews, false_or, not_false_eq_true, and_true,
      AsyncPrefetcher.touch, touch_isResident hc.toMapInv]
    rfl

/-- A wait that the run performs reports an expert without a slot when it is stale. -/
theorem wait_ready_iff {p : AsyncPrefetcher} (h : p.QueueInv) (hc : p.cache.SlotInv)
    (k : ExpertKey) : ((p.wait k).1 = true → (p.wait k).2.cache.data k ≠ 0) ↔ ¬ p.Stale k := by
  rw [wait_cache, hc.data_ne_zero, h.wait_eq_true_iff, Stale, not_and, Bool.not_eq_false]
  rfl

/-- In every run over a fresh cache, `wait` means ready after each step exactly when no
prefetch evicts an expert that has a transfer in the queue. The waits that the run performs
mean ready exactly when none is for an expert that was evicted so, and has since neither got
a slot again nor left the queue. -/
theorem run_wait_means_ready_iff (order : Order) (be : Backend) (B : ℕ) {c₀ : VramCacheManager}
    (hinit : (VramCacheManager.fresh order).init B be = (true, c₀)) (vram : ℕ → UInt8)
    (ops : List Op) (hsrc : ∀ op ∈ ops, op.NonNull) :
    ((∀ pre, pre <+: ops → (run step (fresh c₀ vram) pre).WaitMeansReady) ↔
      Guarded step KeepsQueued (fresh c₀ vram) ops) ∧
    ((∀ pre k post, ops = pre ++ .wait k :: post →
        let r := (run step (fresh c₀ vram) pre).wait k
        r.1 = true → r.2.cache.data k ≠ 0) ↔
      ∀ pre k post, ops = pre ++ .wait k :: post →
        ¬ Since step (Drops k) (Renews k) (fresh c₀ vram) pre) := by
  obtain ⟨base, hbase, rfl⟩ := init_eq_true hinit
  have h0 := started_slotInv order hbase B
  have hstep : ∀ (p : AsyncPrefetcher) op, p.QueueInv ∧ p.cache.SlotInv → op.NonNull →
      (p.step op).QueueInv ∧ (p.step op).cache.SlotInv :=
    fun p op ⟨hq, hc⟩ hop => ⟨hq.step hop, step_slotInv hc op⟩
  have hguard : ∀ pre, pre <+: ops →
      Guarded step (fun _ op => op.NonNull) (fresh (started order base B) vram) pre :=
    fun pre hpre => guarded_of_forall fun op hop => hsrc op (hpre.subset hop)
  have hinv : ∀ pre, pre <+: ops →
      (run step (fresh (started order base B) vram) pre).QueueInv ∧
        (run step (fresh (started order base B) vram) pre).cache.SlotInv :=
    fun pre hpre => invariant_run hstep ⟨fresh_queueInv _ vram, h0⟩ (hguard pre hpre)
  constructor
  · rw [forall₂_congr fun pre hpre => waitMeansReady_iff (hinv pre hpre).1 (hinv pre hpre).2]
    apply forall_prefix_iff_guarded (P := fun p => p.cache.SlotInv) (C := fun _ => True)
    · exact fun p op hc _ => step_slotInv hc op
    · exact fun p op hc _ hq => step_queuedResident_iff hc hq op
    · exact h0
    · exact fun t ht => by simp [fresh] at ht
    · exact fun _ _ => trivial
  · refine forall₄_congr fun pre k post hops => ?_
    have hpre : pre <+: ops := ⟨_, hops.symm⟩
    have hempty : ¬ (fresh (started order base B) vram).Stale k := by
      rintro ⟨⟨t, ht, -⟩, -⟩
      exact List.not_mem_nil ht
    exact (wait_ready_iff (hinv pre hpre).1 (hinv pre hpre).2 k).trans <| not_congr <|
      holds_run_iff_since (Q := fun p => p.Stale k) hstep (fun p op h _ => step_stale_iff h.2 k op)
        ⟨fresh_queueInv _ vram, h0⟩ hempty (hguard pre hpre)

/-- With one slot: expert 1 takes it from expert 0 and loses it again, so the wait that the
run performs is for an expert that has it back. -/
theorem run_wait_means_ready_iff_small :
    let p₀ := fresh (started (.newestFirst _ _) 100 4) fun _ => 0
    let src : HostPtr := ⟨1000, fun _ => 7⟩
    let pre := [Op.prefetch ⟨0, 0⟩ src 4 0, .prefetch ⟨0, 1⟩ src 4 0, .prefetch ⟨0, 0⟩ src 4 0]
    ¬ (run step p₀ pre).WaitMeansReady ∧ ((run step p₀ pre).wait ⟨0, 0⟩).1 = true ∧
      ((run step p₀ pre).wait ⟨0, 0⟩).2.cache.data ⟨0, 0⟩ ≠ 0 := by
  intro p₀ src pre
  have hinit : (VramCacheManager.fresh (.newestFirst _ _)).init 4 (.host 100) =
      (true, started (.newestFirst _ _) 100 4) := rfl
  obtain ⟨-, hwaits⟩ := run_wait_means_ready_iff (.newestFirst _ _) (.host 100) 4 hinit (fun _ => 0)
    (pre ++ [.wait ⟨0, 0⟩]) (by simp [pre, src, Op.NonNull])
  have hback : ∀ pre' k post, pre ++ [.wait ⟨0, 0⟩] = pre' ++ .wait k :: post →
      ¬ Since step (Drops k) (Renews k) p₀ pre' := by
    intro pre' k post h
    rcases pre' with _ | ⟨a, _ | ⟨b, _ | ⟨c, _ | ⟨d, pre'⟩⟩⟩⟩ <;>
      simp only [pre, List.cons_append, List.nil_append, List.cons.injEq, Op.wait.injEq,
        reduceCtorEq, false_and, and_false] at h
    · obtain ⟨rfl, rfl, rfl, rfl, rfl⟩ := h
      rw [show
        [Op.prefetch ⟨0, 0⟩ src 4 0, .prefetch ⟨0, 1⟩ src 4 0, .prefetch ⟨0, 0⟩ src 4 0] =
        [Op.prefetch ⟨0, 0⟩ src 4 0, .prefetch ⟨0, 1⟩ src 4 0] ++ [.prefetch ⟨0, 0⟩ src 4 0] from rfl,
        since_concat]
      rintro (⟨-, hno, hyes, -⟩ | ⟨-, hkept⟩)
      · rw [hno] at hyes
        cases hyes
      · exact hkept ⟨rfl, by decide⟩
    · simp at h
  have hready : ((run step p₀ pre).wait ⟨0, 0⟩).1 = true := by decide
  have hslot := hwaits.mpr hback pre ⟨0, 0⟩ [] rfl hready
  refine ⟨fun hall => hall ⟨0, 1⟩ (by decide) (by decide), hready, ?_⟩
  dsimp only [p₀]
  exact hslot

/-- With one slot, the second prefetch evicts the first expert, and `wait` still says that
the first one is ready. -/
theorem wait_reports_evicted_expert :
    let src : HostPtr := ⟨1000, fun _ => 7⟩
    let p := run step (fresh (started (.newestFirst _ _) 100 4) fun _ => 0)
      [Op.prefetch ⟨0, 0⟩ src 4 0, .prefetch ⟨0, 1⟩ src 4 0]
    (p.wait ⟨0, 0⟩).1 = true ∧ (p.wait ⟨0, 0⟩).2.cache.data ⟨0, 0⟩ = 0 := by
  decide

end Dee.AsyncPrefetcher
