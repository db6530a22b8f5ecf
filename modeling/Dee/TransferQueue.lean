import Dee.PrefetchQueue

/-! The transfer queue with its positions in an `int`, as the source has them. While fewer
than `2 ^ 31` transfers are queued it is the queue of natural positions. Every transfer has
an id, the number that `prefetch` returned for it, and the copies of a run are listed by
these ids. -/
namespace Dee.AsyncPrefetcher
open ByteMemory GuardedRuns

/-! Ids and copies -/

/-- The id of the transfer at the front of the queue. -/
def firstId (p : AsyncPrefetcher) : ℕ := p.nextId - p.inflight.length

/-- The copies of `drain_until(idx)`, each with the id of its transfer. -/
def drainCopies (p : AsyncPrefetcher) (idx : ℤ) : List (Transfer × ℕ) :=
  ((p.inflight.zipIdx p.firstId).take (idx + 1).toNat).filter fun e => e.1.pending

theorem drainUntil_vram (p : AsyncPrefetcher) (idx : ℤ) : (p.drainUntil idx).vram =
    runCopies p.vram ((p.drainCopies idx).map fun e => e.1.copy) := by
  have hfilter : (p.drainCopies idx).map Prod.fst =
      (p.inflight.take (idx + 1).toNat).filter Transfer.pending := by
    have hmap : (p.inflight.take (idx + 1).toNat).filter Transfer.pending =
        (((p.inflight.zipIdx p.firstId).take (idx + 1).toNat).map Prod.fst).filter
          Transfer.pending := by
      rw [List.map_take, List.zipIdx_map_fst]
    rw [hmap, List.filter_map]
    rfl
  have hvram : (p.drainUntil idx).vram = runCopies p.vram
      (((p.inflight.take (idx + 1).toNat).filter Transfer.pending).map Transfer.copy) :=
    drainFirst_vram _ _ _
  rw [hvram, ← hfilter, List.map_map]
  rfl

theorem mem_drainCopies {p : AsyncPrefetcher} {idx : ℤ} {e : Transfer × ℕ}
    (h : e ∈ p.drainCopies idx) :
    ∃ i, i < (idx + 1).toNat ∧ e.2 = p.firstId + i ∧ p.inflight[i]? = some e.1 ∧
      e.1.pending = true := by
  obtain ⟨hmem, hpending⟩ := List.mem_filter.mp h
  obtain ⟨i, hi⟩ := List.mem_iff_getElem?.mp hmem
  rw [List.getElem?_take] at hi
  split_ifs at hi with hlt
  rw [List.getElem?_zipIdx] at hi
  obtain ⟨t, ht, rfl⟩ := Option.map_eq_some_iff.mp hi
  exact ⟨i, hlt, rfl, ht, hpending⟩

/-- The copies of one drain are in the order of submission. -/
theorem drainCopies_pairwise (p : AsyncPrefetcher) (idx : ℤ) :
    (p.drainCopies idx).Pairwise fun e e' => e.2 < e'.2 := by
  have hids : (p.inflight.zipIdx p.firstId).Pairwise fun e e' => e.2 < e'.2 := by
    rw [← List.pairwise_map (f := Prod.snd), List.zipIdx_map_snd]
    exact List.pairwise_lt_range'
  exact hids.sublist (List.filter_sublist.trans (List.take_sublist _ _))

/-! Positions in an `int` -/

namespace IntQueue

/-- `(int)` -/
def toInt (n : ℕ) : ℤ := (Int32.ofNat n).toInt

theorem toInt_of_lt {n : ℕ} (h : n < 2 ^ 31) : toInt n = n := Int32.toInt_ofNat_of_lt h

/-- The map holds the position as an `int`. -/
def findInflight (p : AsyncPrefetcher) (k : ExpertKey) : ℤ :=
  match p.findInflight k with
  | none => -1
  | some idx => toInt idx

/-- The loop runs while `i <= idx && i < (int)inflight_.size()`. -/
def lastDrained (p : AsyncPrefetcher) (idx : ℤ) : ℤ := min idx (toInt p.inflight.length - 1)

def drainUntil (p : AsyncPrefetcher) (idx : ℤ) : AsyncPrefetcher :=
  p.drainUntil (lastDrained p idx)

def wait (p : AsyncPrefetcher) (k : ExpertKey) : Bool × AsyncPrefetcher :=
  let p₁ := { p with stats := { p.stats with waited := p.stats.waited + 1 } }
  let idx := findInflight p₁ k
  if idx < 0 then
    (false, { p₁ with stats := { p₁.stats with fallbacks := p₁.stats.fallbacks + 1 } })
  else
    let p₂ := drainUntil p₁ idx
    (p₂.inflight[idx.toNat]?.any Transfer.done, p₂)

def synchronizeAll (p : AsyncPrefetcher) : AsyncPrefetcher :=
  drainUntil p (toInt p.inflight.length - 1)

def step (p : AsyncPrefetcher) : Op → AsyncPrefetcher
  | .prefetch k src n pr => (p.prefetch k src n pr).2
  | .wait k => (wait p k).2
  | .synchronizeAll => synchronizeAll p
  | .reset => p.reset
  | .touch k => p.touch k

/-- The copies that an operation runs; a negative position runs none. -/
def copies (p : AsyncPrefetcher) : Op → List (Transfer × ℕ)
  | .wait k => p.drainCopies (lastDrained p (findInflight p k))
  | .synchronizeAll => p.drainCopies (lastDrained p (toInt p.inflight.length - 1))
  | _ => []

theorem drainUntil_of_neg (p : AsyncPrefetcher) {idx : ℤ} (h : idx < 0) : p.drainUntil idx = p := by
  have hzero : (idx + 1).toNat = 0 := by omega
  rw [AsyncPrefetcher.drainUntil, hzero]
  rfl

/-- Apart from the statistics, `wait` drains up to the position of the expert. -/
theorem wait_snd (p : AsyncPrefetcher) (k : ExpertKey) :
    ∃ st, (wait p k).2 = { drainUntil p (findInflight p k) with stats := st } := by
  have hfind : ∀ st, findInflight { p with stats := st } k = findInflight p k := fun st => rfl
  simp only [wait, hfind]
  split_ifs with hneg
  · have hlast : lastDrained p (findInflight p k) < 0 := (min_le_left _ _).trans_lt hneg
    rw [drainUntil, drainUntil_of_neg p hlast]
    exact ⟨_, rfl⟩
  · exact ⟨_, rfl⟩

theorem step_vram (p : AsyncPrefetcher) (op : Op) :
    (step p op).vram = runCopies p.vram ((copies p op).map fun e => e.1.copy) := by
  cases op with
  | prefetch k src n pr =>
    simp only [step]
    rcases p.prefetch_cases k src n pr with ⟨-, he⟩ | ⟨-, -, he⟩
    · rw [he]
      rfl
    · rw [he]
      rfl
  | wait k =>
    obtain ⟨st, he⟩ := wait_snd p k
    simp only [step, he]
    exact drainUntil_vram p _
  | synchronizeAll => exact drainUntil_vram p _
  | reset => rfl
  | touch k => rfl

/-! Below `2 ^ 31` transfers -/

theorem lastDrained_of_lt {p : AsyncPrefetcher} (h : p.inflight.length < 2 ^ 31) (idx : ℤ) :
    lastDrained p idx = min idx ((p.inflight.length : ℤ) - 1) := by
  rw [lastDrained, toInt_of_lt h]

theorem findInflight_cases {p : AsyncPrefetcher} (hq : p.QueueInv)
    (h : p.inflight.length < 2 ^ 31) (k : ExpertKey) :
    (p.findInflight k = none ∧ findInflight p k = -1) ∨
      ∃ i, p.findInflight k = some i ∧ findInflight p k = i ∧ i < p.inflight.length := by
  cases hf : p.findInflight k with
  | none =>
    refine Or.inl ⟨rfl, ?_⟩
    rw [findInflight, hf]
  | some i =>
    obtain ⟨t, ht⟩ := (hq.indexed k i).mp hf
    refine Or.inr ⟨i, rfl, ?_, ht.lt⟩
    rw [findInflight, hf]
    exact toInt_of_lt (ht.lt.trans h)

/-- Waiting in the queue with positions in an `int` is waiting in that of natural positions. -/
theorem wait_eq {p : AsyncPrefetcher} (hq : p.QueueInv) (h : p.inflight.length < 2 ^ 31)
    (k : ExpertKey) : wait p k = p.wait k := by
  have hint : ∀ st, findInflight { p with stats := st } k = findInflight p k := fun st => rfl
  have hnat : ∀ st, ({ p with stats := st } : AsyncPrefetcher).findInflight k =
      p.findInflight k := fun st => rfl
  simp only [wait, AsyncPrefetcher.wait, hint, hnat]
  rcases findInflight_cases hq h k with ⟨hnone, hneg⟩ | ⟨i, hsome, hpos, hi⟩
  · rw [hnone, hneg]
    rfl
  · have hlast : lastDrained p i = i := by
      rw [lastDrained_of_lt h]
      exact min_eq_left (by omega)
    have hstats : ∀ st, lastDrained { p with stats := st } i = i := fun st => hlast
    rw [hsome, hpos, if_neg (by omega)]
    simp only [drainUntil, hstats]
    rfl

/-- The queue with positions in an `int` is the queue of natural positions. -/
theorem step_eq {p : AsyncPrefetcher} (hq : p.QueueInv) (h : p.inflight.length < 2 ^ 31) (op : Op) :
    step p op = p.step op := by
  cases op with
  | prefetch k src n pr => rfl
  | wait k => exact congrArg Prod.snd (wait_eq hq h k)
  | synchronizeAll =>
    simp only [step, AsyncPrefetcher.step, synchronizeAll, AsyncPrefetcher.synchronizeAll, drainUntil,
      lastDrained, toInt_of_lt h, min_self]
  | reset => rfl
  | touch k => rfl

/-! Runs -/

/-- A prefetch that is accepted leaves fewer than `2 ^ 31` transfers in the queue. -/
def HasRoom (p : AsyncPrefetcher) : Op → Prop
  | .prefetch k _ n pr => (p.cache.ensure k n pr).1 = true →
      (p.cache.ensure k n pr).2.data k ≠ 0 → p.inflight.length + 1 < 2 ^ 31
  | _ => True

theorem wait_length (p : AsyncPrefetcher) (k : ExpertKey) :
    (wait p k).2.inflight.length = p.inflight.length := by
  obtain ⟨st, he⟩ := wait_snd p k
  rw [he]
  exact drainFirst_length ..

theorem step_short {p : AsyncPrefetcher} (h : p.inflight.length < 2 ^ 31) {op : Op}
    (hroom : HasRoom p op) : (step p op).inflight.length < 2 ^ 31 := by
  cases op with
  | prefetch k src n pr =>
    simp only [step]
    rcases p.prefetch_cases k src n pr with ⟨-, he⟩ | ⟨htrue, hdata, he⟩
    · rw [he]
      exact h
    · rw [he, push, List.length_append]
      exact hroom htrue hdata
  | wait k => exact (wait_length p k).trans_lt h
  | synchronizeAll => exact (drainFirst_length ..).trans_lt h
  | reset => simp [step, AsyncPrefetcher.reset]
  | touch k => exact h

/-- The transfers with ids below `m` are finished, and no other that is queued. -/
structure Streaming (p : AsyncPrefetcher) (m : ℕ) : Prop where
  queue : p.QueueInv
  short : p.inflight.length < 2 ^ 31
  ids : p.inflight.length ≤ p.nextId
  done : ∃ d, p.DoneTo d ∧ m = p.firstId + d

namespace Streaming
variable {p : AsyncPrefetcher} {m : ℕ}

theorem with_stats (h : Streaming p m) (st : PrefetchStats) :
    Streaming { p with stats := st } m :=
  ⟨⟨h.queue.indexed, h.queue.armed⟩, h.short, h.ids, h.done⟩

theorem with_cache (h : Streaming p m) (c : VramCacheManager) : Streaming { p with cache := c } m :=
  ⟨⟨h.queue.indexed, h.queue.armed⟩, h.short, h.ids, h.done⟩

/-- A drain copies unfinished transfers only, and finishes them. -/
theorem drainUntil (h : Streaming p m) (idx : ℤ) : ∃ m', m ≤ m' ∧ Streaming (p.drainUntil idx) m' ∧
    ∀ e ∈ p.drainCopies idx, m ≤ e.2 ∧ e.2 < m' := by
  obtain ⟨d, hd, rfl⟩ := h.done
  have hlen : (p.drainUntil idx).inflight.length = p.inflight.length := drainFirst_length ..
  have hfirst : (p.drainUntil idx).firstId = p.firstId := by
    rw [firstId, hlen]
    rfl
  refine ⟨p.firstId + max d (min (idx + 1).toNat p.inflight.length), by omega,
    ⟨h.queue.drainUntil idx, hlen ▸ h.short, hlen ▸ h.ids, _,
      hd.drainUntil h.queue.armed idx, by rw [hfirst]⟩, fun e he => ?_⟩
  obtain ⟨i, hi, hid, hget, hpending⟩ := mem_drainCopies he
  have hlt := (List.getElem?_eq_some_iff.mp hget).1
  have hnot : ¬ i < d := by
    rw [← hd.2 i e.1 hget]
    intro hdone
    simp [Transfer.pending, hdone] at hpending
  omega

theorem push (h : Streaming p m) {t : Transfer} (ht : Armed t) (hdone : t.done = false)
    (hroom : p.inflight.length + 1 < 2 ^ 31) : Streaming (p.push t) m := by
  obtain ⟨d, hd, rfl⟩ := h.done
  have hlen : (p.push t).inflight.length = p.inflight.length + 1 := List.length_append
  have hnext : (p.push t).nextId = p.nextId + 1 := rfl
  have hids := h.ids
  refine ⟨h.queue.push ht, by omega, by omega, d, hd.push hdone, ?_⟩
  rw [firstId, firstId, hlen, hnext]
  omega

theorem step (h : Streaming p m) {op : Op} (hop : op.NonNull ∧ HasRoom p op) :
    ∃ m', m ≤ m' ∧ Streaming (step p op) m' ∧
      (copies p op).Pairwise (fun e e' => e.2 < e'.2) ∧ ∀ e ∈ copies p op, m ≤ e.2 ∧ e.2 < m' := by
  cases op with
  | prefetch k src n pr =>
    refine ⟨m, le_rfl, ?_, List.Pairwise.nil, by simp [copies]⟩
    simp only [IntQueue.step]
    rcases p.prefetch_cases k src n pr with ⟨-, he⟩ | ⟨htrue, hdata, he⟩
    · rw [he]
      exact h.with_cache _
    · rw [he]
      exact (h.with_cache _).push ⟨hop.1, hdata, rfl⟩ rfl (hop.2 htrue hdata)
  | wait k =>
    obtain ⟨m', hm, hdrained, hcopies⟩ := h.drainUntil (lastDrained p (findInflight p k))
    obtain ⟨st, he⟩ := wait_snd p k
    refine ⟨m', hm, ?_, drainCopies_pairwise _ _, hcopies⟩
    simp only [IntQueue.step, he]
    exact hdrained.with_stats st
  | synchronizeAll =>
    obtain ⟨m', hm, hdrained, hcopies⟩ :=
      h.drainUntil (lastDrained p (toInt p.inflight.length - 1))
    exact ⟨m', hm, hdrained, drainCopies_pairwise _ _, hcopies⟩
  | reset =>
    obtain ⟨d, hd, rfl⟩ := h.done
    have hids := h.ids
    refine ⟨p.nextId, ?_, ⟨h.queue.reset, by simp [IntQueue.step, AsyncPrefetcher.reset],
      Nat.zero_le _, 0, doneTo_nil rfl, rfl⟩, List.Pairwise.nil, by simp [copies]⟩
    have hle := hd.1
    unfold firstId
    omega
  | touch k => exact ⟨m, le_rfl, h.with_cache _, List.Pairwise.nil, by simp [copies]⟩

end Streaming

theorem streaming_fresh (c : VramCacheManager) (vram : ℕ → UInt8) :
    Streaming (fresh c vram) 0 :=
  ⟨fresh_queueInv c vram, by simp [fresh], le_rfl, 0, doneTo_nil rfl, rfl⟩

theorem exists_streaming_step (p : AsyncPrefetcher) (op : Op) (h : ∃ m, Streaming p m)
    (hop : op.NonNull ∧ HasRoom p op) : ∃ m, Streaming (step p op) m := by
  obtain ⟨m, h⟩ := h
  obtain ⟨m', -, h', -⟩ := h.step hop
  exact ⟨m', h'⟩

/-- The run lemma. -/
theorem Streaming.run {p : AsyncPrefetcher} {m : ℕ} (h : Streaming p m) {ops : List Op}
    (hg : Guarded IntQueue.step (fun p op => op.NonNull ∧ HasRoom p op) p ops) :
    ∃ m', Streaming (GuardedRuns.run IntQueue.step p ops) m' :=
  invariant_run (P := fun p => ∃ m, Streaming p m) exists_streaming_step ⟨m, h⟩ hg

/-- What holds along the runs with natural positions holds along these. -/
theorem run_eq {p : AsyncPrefetcher} {m : ℕ} (h : Streaming p m) {ops : List Op}
    (hg : Guarded step (fun p op => op.NonNull ∧ HasRoom p op) p ops) :
    run step p ops = run AsyncPrefetcher.step p ops := by
  refine run_congr (P := fun p => ∃ m, Streaming p m) exists_streaming_step ?_ ⟨m, h⟩ hg
  intro p op hp _
  obtain ⟨m, hp⟩ := hp
  exact step_eq hp.queue hp.short op

/-! What was issued -/

/-- The experts of the accepted prefetches since the last reset. -/
def record (p : AsyncPrefetcher) (issued : List ExpertKey) : Op → List ExpertKey
  | .prefetch k src n pr => if (p.prefetch k src n pr).1 = -1 then issued else issued ++ [k]
  | .reset => []
  | _ => issued

def history (p : AsyncPrefetcher) (issued : List ExpertKey) : List Op → List ExpertKey
  | [] => issued
  | op :: ops => history (step p op) (record p issued op) ops

theorem drainUntil_keys (p : AsyncPrefetcher) (idx : ℤ) :
    (p.drainUntil idx).inflight.map Transfer.key = p.inflight.map Transfer.key := by
  refine List.ext_getElem? fun i => ?_
  have hget : (p.drainUntil idx).inflight[i]? =
      p.inflight[i]?.map fun t => if i < (idx + 1).toNat then t.finish else t :=
    drainFirst_getElem? ..
  rw [List.getElem?_map, List.getElem?_map, hget, Option.map_map]
  congr 1
  funext t
  simp only [Function.comp_apply]
  split_ifs
  · exact finish_key t
  · rfl

theorem step_keys (p : AsyncPrefetcher) (op : Op) :
    (step p op).inflight.map Transfer.key = record p (p.inflight.map Transfer.key) op := by
  cases op with
  | prefetch k src n pr =>
    simp only [step, record]
    rcases p.prefetch_cases k src n pr with ⟨-, he⟩ | ⟨-, -, he⟩
    · rw [he]
      rfl
    · have hid : (p.nextId : ℤ) ≠ -1 := by omega
      rw [he, if_neg hid]
      exact List.map_append
  | wait k =>
    obtain ⟨st, he⟩ := wait_snd p k
    simp only [step, he]
    exact drainUntil_keys p _
  | synchronizeAll => exact drainUntil_keys p _
  | reset => rfl
  | touch k => rfl

theorem run_keys (p : AsyncPrefetcher) (ops : List Op) :
    (run step p ops).inflight.map Transfer.key = history p (p.inflight.map Transfer.key) ops := by
  induction ops generalizing p with
  | nil => rfl
  | cons op ops ih => rw [run_cons, ih, history, step_keys]

/-- The last position of an element, or `-1`. -/
def IsLastIndex {α : Type} (l : List α) (a : α) (i : ℤ) : Prop :=
  (i = -1 ∧ a ∉ l) ∨ ∃ n : ℕ, i = n ∧ l[n]? = some a ∧ ∀ m > n, l[m]? ≠ some a

theorem LastAt.isLastIndex {ts : List Transfer} {k : ExpertKey} {i : ℕ} {t : Transfer}
    (h : LastAt ts k i t) : IsLastIndex (ts.map Transfer.key) k i := by
  refine Or.inr ⟨i, rfl, ?_, fun j hj hk => ?_⟩
  · rw [List.getElem?_map, h.get, Option.map_some, h.key]
  · rw [List.getElem?_map] at hk
    obtain ⟨u, hu, hkey⟩ := Option.map_eq_some_iff.mp hk
    exact h.last j u hj hu hkey

theorem findInflight_isLastIndex {p : AsyncPrefetcher} (hq : p.QueueInv)
    (h : p.inflight.length < 2 ^ 31) (k : ExpertKey) :
    IsLastIndex (p.inflight.map Transfer.key) k (findInflight p k) := by
  rcases findInflight_cases hq h k with ⟨hnone, hneg⟩ | ⟨i, hsome, hpos, -⟩
  · refine Or.inl ⟨hneg, fun hmem => ?_⟩
    obtain ⟨i, t, ht⟩ := exists_lastAt.mpr (List.mem_map.mp hmem)
    rw [(hq.indexed k i).mpr ⟨t, ht⟩] at hnone
    cases hnone
  · obtain ⟨t, ht⟩ := (hq.indexed k i).mp hsome
    rw [hpos]
    exact LastAt.isLastIndex ht

/-- What `wait` copies was submitted no later than the last transfer of the expert. -/
theorem wait_copies {p : AsyncPrefetcher} {k : ExpertKey} {e : Transfer × ℕ}
    (he : e ∈ copies p (.wait k)) : ∃ i : ℕ, findInflight p k = i ∧ e.2 ≤ p.firstId + i := by
  obtain ⟨j, hj, hid, -⟩ := mem_drainCopies he
  have hle : lastDrained p (findInflight p k) ≤ findInflight p k := min_le_left _ _
  refine ⟨(findInflight p k).toNat, by omega, by omega⟩

/-- Along every run that keeps fewer than `2 ^ 31` transfers queued, the index map names the
last transfer of each expert, the finished transfers are a prefix, each transfer is copied at
most once and in the order of submission, and `wait` copies nothing behind its expert. -/
theorem run_transfer_queue (c : VramCacheManager) (vram : ℕ → UInt8) {ops : List Op}
    (hsrc : ∀ op ∈ ops, op.NonNull) (hroom : Guarded step HasRoom (fresh c vram) ops) :
    let p := run step (fresh c vram) ops
    let issued := history (fresh c vram) [] ops
    let copied := outputs copies step (fresh c vram) ops
    (p.inflight.map Transfer.key = issued ∧ ∀ k, IsLastIndex issued k (findInflight p k)) ∧
      (∃ d : ℕ, ∀ i t, p.inflight[i]? = some t → (t.done = true ↔ i < d)) ∧
      (copied.Pairwise (fun e e' => e.2 < e'.2) ∧
        p.vram = runCopies vram (copied.map fun e => e.1.copy)) ∧
      ∀ k, ∀ e ∈ copies p (.wait k), ∃ i : ℕ, findInflight p k = i ∧ e.2 ≤ p.firstId + i := by
  intro p issued copied
  have hsrcs : Guarded step (fun _ op => op.NonNull) (fresh c vram) ops := guarded_of_forall hsrc
  have hguard := hsrcs.and hroom
  obtain ⟨m, hstream⟩ : ∃ m, Streaming p m := (streaming_fresh c vram).run hguard
  have hkeys : p.inflight.map Transfer.key = issued := run_keys (fresh c vram) ops
  refine ⟨⟨hkeys, fun k => ?_⟩, ?_, ⟨?_, ?_⟩, fun k e he => wait_copies he⟩
  · rw [← hkeys]
    exact findInflight_isLastIndex hstream.queue hstream.short k
  · obtain ⟨d, hd, -⟩ := hstream.done
    exact ⟨d, hd.2⟩
  · exact (pairwise_outputs Prod.snd (fun p m op h hop => h.step hop)
      (streaming_fresh c vram) hguard).1
  · have hsteps : ∀ p op, (step p op).vram =
        (copies p op).foldl (fun mem e => e.1.copy.run mem) p.vram := by
      intro p op
      rw [step_vram, runCopies, List.foldl_map]
    rw [runCopies, List.foldl_map]
    exact run_eq_foldl_outputs _ AsyncPrefetcher.vram hsteps (fresh c vram) ops

/-- Negative numbers, a second transfer of an expert, a reset. -/
theorem run_transfer_queue_reset :
    let ops := [Op.prefetch ⟨-1, 3⟩ ⟨1000, fun _ => 7⟩ 2 0, .reset,
      .prefetch ⟨0, -1⟩ ⟨1000, fun _ => 8⟩ 2 0, .prefetch ⟨-1, 3⟩ ⟨2000, fun _ => 9⟩ 2 0,
      .wait ⟨0, -1⟩, .prefetch ⟨0, -1⟩ ⟨1000, fun _ => 8⟩ 2 0]
    let p₀ := fresh (VramCacheManager.started (.newestFirst _ _) 100 4) fun _ => 0
    IsLastIndex (history p₀ [] ops) ⟨0, -1⟩ (findInflight (run step p₀ ops) ⟨0, -1⟩) := by
  intro ops p₀
  exact (run_transfer_queue (VramCacheManager.started (.newestFirst _ _) 100 4) (fun _ => 0)
    (by simp [ops, Op.NonNull]) (by simp only [ops, Guarded, HasRoom]; decide)).1.2 ⟨0, -1⟩

/-! From `2 ^ 31` transfers on -/

/-- A prefetch that gets its slot is queued last, aimed at that slot. -/
theorem prefetch_of_ensure {p : AsyncPrefetcher} (hc : p.cache.SlotInv) {k : ExpertKey} {n : ℕ}
    {pr : ℤ} (htrue : (p.cache.ensure k n pr).1 = true) (src : HostPtr) :
    ∃ dst, dst ≠ 0 ∧ (p.prefetch k src n pr).2 =
      ({ p with cache := (p.cache.ensure k n pr).2 }).push ⟨k, dst, src, n, false, false⟩ := by
  rcases p.prefetch_cases k src n pr with ⟨hno | hno, -⟩ | ⟨-, hdata, he⟩
  · rw [htrue] at hno
    cases hno
  · exact absurd hno ((hc.ensure k n pr).data_ne_zero.mpr (hc.ensure_resident htrue))
  · exact ⟨_, hdata, congrArg Prod.snd he⟩

theorem push_findInflight (p : AsyncPrefetcher) (t : Transfer) :
    (p.push t).findInflight t.key = some p.inflight.length := Function.update_self ..

/-- A prefetch of an expert that gets its slot gets it again. -/
theorem prefetch_again {p : AsyncPrefetcher} (hc : p.cache.SlotInv) {k : ExpertKey} {n : ℕ}
    {pr : ℤ} (htrue : (p.cache.ensure k n pr).1 = true) (src : HostPtr) :
    (p.prefetch k src n pr).2.cache.SlotInv ∧
      ((p.prefetch k src n pr).2.cache.ensure k n pr).1 = true ∧
      (p.prefetch k src n pr).2.inflight.length = p.inflight.length + 1 ∧
      (p.prefetch k src n pr).2.findInflight k = some p.inflight.length := by
  have hagain : ((p.cache.ensure k n pr).2.ensure k n pr).1 = true := by
    have hcount : (p.cache.ensure k n pr).2.countEnsure.isResident k = true :=
      hc.ensure_resident htrue
    rw [VramCacheManager.ensure, if_pos hcount]
  obtain ⟨dst, -, he⟩ := prefetch_of_ensure hc htrue src
  rw [he]
  exact ⟨hc.ensure k n pr, hagain, List.length_append, push_findInflight _ _⟩

theorem findInflight_replicate {p : AsyncPrefetcher} (hc : p.cache.SlotInv) {k : ExpertKey} {n : ℕ}
    {pr : ℤ} (htrue : (p.cache.ensure k n pr).1 = true) (src : HostPtr) (m : ℕ) :
    findInflight (run step p (List.replicate (m + 1) (.prefetch k src n pr))) k =
      toInt (p.inflight.length + m) := by
  induction m generalizing p with
  | zero =>
    obtain ⟨-, -, -, hfind⟩ := prefetch_again hc htrue src
    change findInflight (p.prefetch k src n pr).2 k = toInt p.inflight.length
    rw [findInflight, hfind]
  | succ m ih =>
    obtain ⟨hslot, hagain, hlen, -⟩ := prefetch_again hc htrue src
    rw [List.replicate_succ, run_cons]
    change findInflight (run step (p.prefetch k src n pr).2 _) k = _
    rw [ih hslot hagain, hlen]
    congr 1
    omega

/-- After `2 ^ 31 + 1` prefetches of one expert its position is negative. -/
theorem findInflight_wraps : ¬ ∀ (c : VramCacheManager) (vram : ℕ → UInt8) (ops : List Op),
    (∀ op ∈ ops, op.NonNull) → ∀ k, IsLastIndex (history (fresh c vram) [] ops) k
      (findInflight (run step (fresh c vram) ops) k) := by
  intro h
  obtain ⟨c, hc, htrue⟩ : ∃ c : VramCacheManager, c.SlotInv ∧ (c.ensure ⟨0, 0⟩ 2 0).1 = true :=
    ⟨_, VramCacheManager.started_slotInv (.newestFirst _ _) (by decide : 100 ≠ 0) 4, by decide⟩
  obtain ⟨m, hm⟩ : ∃ m : ℕ, m = 2147483648 := ⟨_, rfl⟩
  have hneg : toInt m = -2147483648 := by
    rw [hm]
    decide
  have hzero : (fresh c fun _ => 0).inflight.length + m = m := Nat.zero_add m
  have hlast := h c (fun _ => 0) (List.replicate (m + 1) (.prefetch ⟨0, 0⟩ ⟨1000, fun _ => 7⟩ 2 0))
    (fun op hop => by simp [List.eq_of_mem_replicate hop, Op.NonNull]) ⟨0, 0⟩
  rw [findInflight_replicate (p := fresh c fun _ => 0) hc htrue, hzero, hneg] at hlast
  rcases hlast with ⟨hne, -⟩ | ⟨i, hi, -⟩
  · omega
  · omega

end IntQueue

end Dee.AsyncPrefetcher
