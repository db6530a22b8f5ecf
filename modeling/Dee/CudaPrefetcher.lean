import Dee.PrefetchBytes
import Dee.TransferQueue

/-! The streaming layer on the CUDA backend. The copies run on a secondary stream, one after
the other but at any time, and `wait` blocks the host until the event behind one of them.
Every interleaving of the host with the stream delivers the bytes that the mock delivers.
Calls of the CUDA runtime succeed; events are numbered by the copies before them. -/
namespace Dee
open ByteMemory GuardedRuns VramCacheManager

/-- `host.vram` is the device memory; `stream` holds the copies that have not run yet. -/
structure CudaPrefetcher where
  host : AsyncPrefetcher
  /-- the event of each transfer of the queue -/
  events : List ℕ
  stream : List (Copy UInt8)
  completed : ℕ

namespace CudaPrefetcher

def fresh (cache : VramCacheManager) (vram : ℕ → UInt8) : CudaPrefetcher :=
  ⟨.fresh cache vram, [], [], 0⟩

/-- `cudaMemcpyAsync` on the stream, and a new event recorded behind the copy. -/
def cudaSubmit (s : CudaPrefetcher) (t : Transfer) : CudaPrefetcher :=
  { s with
    stream := s.stream ++ [t.copy]
    events := s.events ++ [s.completed + s.stream.length + 1] }

def prefetch (s : CudaPrefetcher) (k : ExpertKey) (src : HostPtr) (nbytes : ℕ) (priority : ℤ) :
    ℤ × CudaPrefetcher :=
  let r := s.host.cache.ensure k nbytes priority
  let host := { s.host with cache := r.2 }
  if r.1 = false then (-1, { s with host := host })
  else
    let dst := r.2.data k
    if dst = 0 then (-1, { s with host := host })
    else
      let t : Transfer := ⟨k, dst, src, nbytes, false, false⟩
      (s.host.nextId, { s with host := host.push t }.cudaSubmit t)

def wait (s : CudaPrefetcher) (k : ExpertKey) : Bool × CudaPrefetcher :=
  let st := { s.host.stats with waited := s.host.stats.waited + 1 }
  let idx := AsyncPrefetcher.IntQueue.findInflight s.host k
  if idx < 0 then
    (false, { s with host := { s.host with stats := { st with fallbacks := st.fallbacks + 1 } } })
  else
    (true, { s with host := { s.host with
      stats := st
      inflight := s.host.inflight.modify idx.toNat fun t => { t with done := true } } })

/-- The host calls; the copies of `synchronize_all` run before it returns. -/
def call (s : CudaPrefetcher) : AsyncPrefetcher.Op → CudaPrefetcher
  | .prefetch k src n pr => (s.prefetch k src n pr).2
  | .wait k => (s.wait k).2
  | .synchronizeAll => s
  | .reset => { s with host := s.host.reset, events := [] }
  | .touch k => { s with host := s.host.touch k }

/-- The stream runs its oldest copy. -/
def runCopy (s : CudaPrefetcher) : CudaPrefetcher :=
  match s.stream with
  | [] => s
  | c :: rest =>
    { s with
      host := { s.host with vram := c.run s.host.vram }
      stream := rest
      completed := s.completed + 1 }

/-- `cudaEventSynchronize` returns: the copies before the event have run. -/
def EventDone (s : CudaPrefetcher) (k : ExpertKey) : Prop :=
  let idx := AsyncPrefetcher.IntQueue.findInflight s.host k
  0 ≤ idx → ∀ n, s.events[idx.toNat]? = some n → n ≤ s.completed

/-- The host and the stream take turns in any order. -/
inductive Action
  | host (op : AsyncPrefetcher.Op)
  | copy

def step (s : CudaPrefetcher) : Action → CudaPrefetcher
  | .host op => s.call op
  | .copy => s.runCopy

/-- What may happen next: the blocking calls return only when their copies have run. -/
def Enabled (s : CudaPrefetcher) : Action → Prop
  | .host (.wait k) => s.EventDone k
  | .host .synchronizeAll => s.stream = []
  | .host _ => True
  | .copy => s.stream ≠ []

instance (s : CudaPrefetcher) (k : ExpertKey) : Decidable (s.EventDone k) :=
  decidable_of_iff (0 ≤ AsyncPrefetcher.IntQueue.findInflight s.host k →
    ((s.events[(AsyncPrefetcher.IntQueue.findInflight s.host k).toNat]?).all fun n =>
      decide (n ≤ s.completed)) = true) (by simp [EventDone, Option.all_eq_true])

instance (s : CudaPrefetcher) (act : Action) : Decidable (s.Enabled act) :=
  match act with
  | .host (.wait k) => inferInstanceAs (Decidable (s.EventDone k))
  | .host .synchronizeAll => decidable_of_iff (s.stream.isEmpty = true) List.isEmpty_iff
  | .host (.prefetch ..) => inferInstanceAs (Decidable True)
  | .host .reset => inferInstanceAs (Decidable True)
  | .host (.touch _) => inferInstanceAs (Decidable True)
  | .copy => decidable_of_iff (¬ s.stream.isEmpty = true) (not_congr List.isEmpty_iff)

theorem prefetch_cases (s : CudaPrefetcher) (k : ExpertKey) (src : HostPtr) (n : ℕ) (pr : ℤ) :
    (((s.host.cache.ensure k n pr).1 = false ∨ (s.host.cache.ensure k n pr).2.data k = 0) ∧
      s.prefetch k src n pr =
        (-1, { s with host := { s.host with cache := (s.host.cache.ensure k n pr).2 } })) ∨
    ((s.host.cache.ensure k n pr).1 = true ∧ (s.host.cache.ensure k n pr).2.data k ≠ 0 ∧
      s.prefetch k src n pr = ((s.host.nextId : ℤ), { s with
        host := ({ s.host with cache := (s.host.cache.ensure k n pr).2 }).push
          ⟨k, (s.host.cache.ensure k n pr).2.data k, src, n, false, false⟩ }.cudaSubmit
          ⟨k, (s.host.cache.ensure k n pr).2.data k, src, n, false, false⟩)) := by
  unfold prefetch
  cases he : (s.host.cache.ensure k n pr).1 with
  | false => exact Or.inl ⟨Or.inl rfl, by simp [he]⟩
  | true =>
    by_cases hd : (s.host.cache.ensure k n pr).2.data k = 0
    · exact Or.inl ⟨Or.inr hd, by simp [he, hd]⟩
    · exact Or.inr ⟨rfl, hd, by simp [he, hd]⟩

/-- The two outcomes of `wait`. -/
theorem wait_cases (s : CudaPrefetcher) (k : ExpertKey) :
    (AsyncPrefetcher.IntQueue.findInflight s.host k < 0 ∧
      s.wait k = (false, { s with host := { s.host with
        stats := { s.host.stats with
          waited := s.host.stats.waited + 1
          fallbacks := s.host.stats.fallbacks + 1 } } })) ∨
    ∃ idx : ℕ, AsyncPrefetcher.IntQueue.findInflight s.host k = idx ∧
      s.wait k = (true, { s with host := { s.host with
        stats := { s.host.stats with waited := s.host.stats.waited + 1 }
        inflight := s.host.inflight.modify idx fun t => { t with done := true } } }) := by
  by_cases hneg : AsyncPrefetcher.IntQueue.findInflight s.host k < 0
  · exact Or.inl ⟨hneg, by simp only [wait, if_pos hneg]⟩
  · obtain ⟨idx, hf⟩ := Int.eq_ofNat_of_zero_le (not_lt.mp hneg)
    exact Or.inr ⟨idx, hf, by
      rw [hf] at hneg
      simp only [wait, hf, if_neg hneg, Int.toNat_natCast]⟩

/-! The ledger: all transfers ever submitted, as a mock queue that is never reset and whose
finished transfers are those that the stream has run. -/

section Ledger
variable {tbl : AsyncPrefetcher.ExpertTable} {a : Arena} {log : AsyncPrefetcher}
  {s : CudaPrefetcher}
open AsyncPrefetcher

structure Tracks (tbl : ExpertTable) (a : Arena) (log : AsyncPrefetcher) (s : CudaPrefetcher) :
    Prop where
  bytes : log.BytesInv tbl
  base_eq : log.cache.arena.base = a.base
  cap_eq : log.cache.arena.cap = a.cap
  cache : log.cache = s.host.cache
  vram : log.vram = s.host.vram
  submitted : log.inflight.length = s.completed + s.stream.length
  stream : s.stream = (log.inflight.drop s.completed).map Transfer.copy
  done : log.DoneTo s.completed
  events_length : s.events.length = s.host.inflight.length
  event : ∀ k idx, s.host.findInflight k = some idx →
    ∃ i t, LastAt log.inflight k i t ∧ s.events[idx]? = some (i + 1)

theorem fresh_tracks {c : VramCacheManager} {vram : ℕ → UInt8}
    (h : (AsyncPrefetcher.fresh c vram).BytesInv tbl) :
    Tracks tbl c.arena (.fresh c vram) (fresh c vram) where
  bytes := h
  base_eq := rfl
  cap_eq := rfl
  cache := rfl
  vram := rfl
  submitted := rfl
  stream := rfl
  done := doneTo_nil rfl
  events_length := rfl
  event := fun k idx hf => by cases hf

/-- The last transfer of the expert has run. -/
def Arrived (log : AsyncPrefetcher) (s : CudaPrefetcher) (k : ExpertKey) : Prop :=
  ∃ i t, LastAt log.inflight k i t ∧ i < s.completed

/-- The bytes of an arrived expert are those of its source. -/
theorem Tracks.holds (h : Tracks tbl a log s) {k : ExpertKey} (ha : Arrived log s k)
    (hres : s.host.cache.isResident k = true) :
    Holds s.host.vram (s.host.cache.data k) (tbl.source k).bytes (tbl.size k) := by
  obtain ⟨i, t, ht, hi⟩ := ha
  rw [← h.cache] at hres ⊢
  rw [← h.vram]
  obtain ⟨b, hb⟩ := h.bytes.cache.isResident_iff.mp hres
  rw [data_of_mem h.bytes.cache.toMapInv hb]
  exact (h.bytes.settled _ hb).holds i t ht ((h.done.2 i t ht.get).mpr hi)

/-- The positions of the queue, when they fit in an `int`. -/
theorem Tracks.findInflight_cases (h : Tracks tbl a log s)
    (hshort : s.host.inflight.length < 2 ^ 31) (k : ExpertKey) : IntQueue.findInflight s.host k = -1 ∨
      ∃ idx : ℕ, s.host.findInflight k = some idx ∧ IntQueue.findInflight s.host k = idx := by
  cases hf : s.host.findInflight k with
  | none =>
    left
    rw [IntQueue.findInflight, hf]
  | some idx =>
    right
    obtain ⟨i, t, -, hev⟩ := h.event k idx hf
    have hlt := (List.getElem?_eq_some_iff.mp hev).1
    rw [h.events_length] at hlt
    refine ⟨idx, rfl, ?_⟩
    rw [IntQueue.findInflight, hf]
    exact IntQueue.toInt_of_lt (hlt.trans hshort)

/-- A wait that returns true returns on an arrived expert. -/
theorem Tracks.arrived (h : Tracks tbl a log s) (hshort : s.host.inflight.length < 2 ^ 31)
    {k : ExpertKey} (hd : s.EventDone k) (hw : (s.wait k).1 = true) : Arrived log s k := by
  rcases h.findInflight_cases hshort k with hneg | ⟨idx, hf, hpos⟩
  · rcases s.wait_cases k with ⟨-, he⟩ | ⟨idx, hpos, -⟩
    · rw [he] at hw
      cases hw
    · rw [hneg] at hpos
      omega
  · obtain ⟨i, t, ht, hev⟩ := h.event k idx hf
    have hn := hd (by rw [hpos]; exact Int.natCast_nonneg idx) (i + 1)
    rw [hpos, Int.toNat_natCast] at hn
    exact ⟨i, t, ht, hn hev⟩

/-- Of the first `completed + 1` transfers only the last one has not run. -/
theorem Tracks.pending_take (h : Tracks tbl a log s) {t : Transfer}
    (ht : log.inflight[s.completed]? = some t) :
    (log.inflight.take (s.completed + 1)).filter Transfer.pending = [t] := by
  have hdone : ∀ t ∈ log.inflight.take s.completed, ¬ t.pending = true := by
    intro t ht
    obtain ⟨j, hj, hget⟩ := mem_take ht
    simp [Transfer.pending, (h.done.2 j t hget).mpr hj]
  have harmed := h.bytes.queue.armed t (List.mem_of_getElem? ht)
  have hnot : t.done = false := by
    by_contra hyes
    exact lt_irrefl _ ((h.done.2 _ _ ht).mp (by simpa using hyes))
  rw [List.take_add_one, ht, Option.toList_some, List.filter_append,
    List.filter_eq_nil_iff.mpr hdone, List.nil_append, List.filter_cons_of_pos, List.filter_nil]
  simp [Transfer.pending, hnot, harmed.src_ne, harmed.dst_ne, harmed.kept]

/-- Draining changes no copy. -/
theorem drainUntil_map_copy (p : AsyncPrefetcher) (idx : ℤ) :
    (p.drainUntil idx).inflight.map Transfer.copy = p.inflight.map Transfer.copy := by
  apply List.ext_getElem?
  intro j
  rw [List.getElem?_map, List.getElem?_map, AsyncPrefetcher.drainUntil, drainFirst_getElem?]
  cases p.inflight[j]? with
  | none => rfl
  | some t =>
    simp only [Option.map_some, Transfer.copy]
    split_ifs <;> simp

/-- The stream runs a copy: the ledger drains one more transfer. -/
theorem Tracks.runCopy (h : Tracks tbl a log s) (hne : s.stream ≠ []) :
    Tracks tbl a (log.drainUntil s.completed) s.runCopy := by
  obtain ⟨c, rest, hcr⟩ := List.exists_cons_of_ne_nil hne
  have hsub := h.submitted
  rw [hcr, List.length_cons] at hsub
  have hlt : s.completed < log.inflight.length := by omega
  have hdrop := List.drop_eq_getElem_cons hlt
  have hstream := h.stream
  rw [hcr, hdrop, List.map_cons] at hstream
  obtain ⟨rfl, hrest⟩ := List.cons.inj hstream
  have hget : log.inflight[s.completed]? = some log.inflight[s.completed] :=
    List.getElem?_eq_getElem hlt
  have hdoneTo := h.done.drainUntil h.bytes.queue.armed s.completed
  have hmax : max s.completed (min ((s.completed : ℤ) + 1).toNat log.inflight.length) =
      s.completed + 1 := by omega
  rw [hmax] at hdoneTo
  have hlen : (log.drainUntil s.completed).inflight.length = log.inflight.length :=
    drainFirst_length ..
  have hvram : (log.drainUntil s.completed).vram =
      log.inflight[s.completed].copy.run s.host.vram := by
    have hn : ((s.completed : ℤ) + 1).toNat = s.completed + 1 := by omega
    rw [AsyncPrefetcher.drainUntil, hn]
    simp only [drainFirst_vram, h.pending_take hget, List.map_cons, List.map_nil, runCopies_cons,
      runCopies_nil, h.vram]
  simp only [CudaPrefetcher.runCopy, hcr]
  constructor
  · exact h.bytes.drainUntil _
  · exact h.base_eq
  · exact h.cap_eq
  · exact h.cache
  · exact hvram
  · rw [hlen]
    dsimp only
    omega
  · dsimp only
    rw [hrest, List.map_drop, List.map_drop, drainUntil_map_copy]
  · exact hdoneTo
  · exact h.events_length
  · intro k idx hf
    obtain ⟨i, t, ht, hev⟩ := h.event k idx hf
    exact ⟨i, _, lastAt_drainFirst.mpr ⟨t, ht, rfl⟩, hev⟩

/-- A submission is entered in the ledger. -/
theorem Tracks.push (h : Tracks tbl a log s) {c : VramCacheManager} {t : Transfer}
    (hdone : t.done = false) (hbytes : ({ log with cache := c }.push t).BytesInv tbl)
    (hbase : c.arena.base = a.base) (hcap : c.arena.cap = a.cap) :
    Tracks tbl a ({ log with cache := c }.push t)
      ({ s with host := { s.host with cache := c }.push t }.cudaSubmit t) := by
  have hsub := h.submitted
  have hlen := h.events_length
  constructor
  · exact hbytes
  · exact hbase
  · exact hcap
  · rfl
  · exact h.vram
  · simp only [AsyncPrefetcher.push, cudaSubmit, List.length_append, List.length_singleton]
    omega
  · simp only [AsyncPrefetcher.push, cudaSubmit]
    rw [List.drop_append_of_le_length (by omega), List.map_append, ← h.stream]
    rfl
  · exact DoneTo.push (p := { log with cache := c }) h.done hdone
  · simp only [AsyncPrefetcher.push, cudaSubmit, List.length_append, List.length_singleton, hlen]
  · intro k idx hf
    simp only [findInflight, AsyncPrefetcher.push, cudaSubmit] at hf ⊢
    by_cases hk : t.key = k
    · subst hk
      rw [Function.update_self, Option.some.injEq] at hf
      refine ⟨log.inflight.length, t, lastAt_append.mpr (Or.inl ⟨rfl, rfl, rfl⟩), ?_⟩
      rw [← hf, ← hlen, List.getElem?_append_right le_rfl, Nat.sub_self, hsub]
      rfl
    · rw [Function.update_of_ne fun he => hk (packKey_injective he).symm] at hf
      obtain ⟨i, u, hu, hev⟩ := h.event k idx hf
      refine ⟨i, u, lastAt_append.mpr (Or.inr ⟨hk, hu⟩), ?_⟩
      rw [List.getElem?_append_left (List.getElem?_eq_some_iff.mp hev).1, hev]

/-- Calls that change neither the memory nor what has been submitted. -/
theorem Tracks.with_host (h : Tracks tbl a log s) {host : AsyncPrefetcher}
    (hcache : host.cache = s.host.cache) (hvram : host.vram = s.host.vram)
    (hlen : host.inflight.length = s.host.inflight.length)
    (hfind : host.keyToIdx = s.host.keyToIdx) : Tracks tbl a log { s with host := host } where
  bytes := h.bytes
  base_eq := h.base_eq
  cap_eq := h.cap_eq
  cache := h.cache.trans hcache.symm
  vram := h.vram.trans hvram.symm
  submitted := h.submitted
  stream := h.stream
  done := h.done
  events_length := h.events_length.trans hlen.symm
  event := fun k idx hf => h.event k idx (by
    rw [findInflight, hfind] at hf
    exact hf)

theorem Tracks.wait (h : Tracks tbl a log s) (k : ExpertKey) : Tracks tbl a log (s.wait k).2 := by
  rcases s.wait_cases k with ⟨-, he⟩ | ⟨idx, -, he⟩
  · rw [he]
    exact h.with_host rfl rfl rfl rfl
  · rw [he]
    exact h.with_host rfl rfl (List.length_modify ..) rfl

/-- What has arrived is not affected by a wait or by a copy. -/
theorem Arrived.wait {k' : ExpertKey} (ha : Arrived log s k') (k : ExpertKey) :
    Arrived log (s.wait k).2 k' := by
  obtain ⟨i, t, ht, hi⟩ := ha
  rcases s.wait_cases k with ⟨-, he⟩ | ⟨idx, -, he⟩
  · exact ⟨i, t, ht, by rwa [he]⟩
  · exact ⟨i, t, ht, by rwa [he]⟩

theorem Arrived.runCopy {k : ExpertKey} (ha : Arrived log s k) (hne : s.stream ≠ []) :
    Arrived (log.drainUntil s.completed) s.runCopy k := by
  obtain ⟨i, t, ht, hi⟩ := ha
  obtain ⟨c, rest, hcr⟩ := List.exists_cons_of_ne_nil hne
  refine ⟨i, _, lastAt_drainFirst.mpr ⟨t, ht, rfl⟩, ?_⟩
  simp only [CudaPrefetcher.runCopy, hcr]
  omega

/-- A prefetch is entered in the ledger; the other experts stay where they are. -/
theorem Tracks.submit (h : Tracks tbl a log s) {k : ExpertKey} {src : HostPtr} {n : ℕ} (pr : ℤ)
    (hbytes : (log.prefetch k src n pr).2.BytesInv tbl) :
    ∃ log', Tracks tbl a log' (s.prefetch k src n pr).2 ∧
      ∀ k', k ≠ k' → Arrived log s k' → Arrived log' (s.prefetch k src n pr).2 k' := by
  obtain ⟨hbase, hcap⟩ := ensure_base_cap log.cache h.bytes.cache.toMapInv k n pr
  rw [h.base_eq] at hbase
  rw [h.cap_eq] at hcap
  have hlog := log.prefetch_cases k src n pr
  rw [h.cache] at hlog hbase hcap
  rcases s.prefetch_cases k src n pr with ⟨hno, he⟩ | ⟨hyes, hd, he⟩
  · rcases hlog with ⟨-, hl⟩ | ⟨hyes, hd, -⟩
    · rw [hl] at hbytes
      rw [he]
      exact ⟨_, ⟨hbytes, hbase, hcap, rfl, h.vram, h.submitted, h.stream, h.done,
        h.events_length, h.event⟩, fun k' _ ha => ha⟩
    · rcases hno with hno | hno
      · rw [hyes] at hno
        cases hno
      · exact absurd hno hd
  · rcases hlog with ⟨hno, -⟩ | ⟨-, -, hl⟩
    · rcases hno with hno | hno
      · rw [hyes] at hno
        cases hno
      · exact absurd hno hd
    · rw [hl] at hbytes
      rw [he]
      refine ⟨_, h.push rfl hbytes hbase hcap, fun k' hk ha => ?_⟩
      obtain ⟨i, t, ht, hi⟩ := ha
      exact ⟨i, t, lastAt_append.mpr (Or.inr ⟨hk, ht⟩), hi⟩

theorem Tracks.prefetch (h : Tracks tbl a log s) (hb : a.base ≠ 0)
    (hfit : a.base + a.cap ≤ 2 ^ 64) {k : ExpertKey} {src : HostPtr} {n : ℕ} (pr : ℤ)
    (hop : (Op.prefetch k src n pr).Follows tbl a) :
    ∃ log', Tracks tbl a log' (s.prefetch k src n pr).2 ∧
      ∀ k', k ≠ k' → Arrived log s k' → Arrived log' (s.prefetch k src n pr).2 k' :=
  h.submit pr (h.bytes.step hb hfit h.base_eq h.cap_eq hop).1

/-- The action prefetches the expert. -/
def Action.Prefetches (k : ExpertKey) : Action → Prop
  | .host (.prefetch k' _ _ _) => k' = k
  | _ => False

/-- Prefetches follow the table, whose buffers are real memory. -/
def Action.Follows (tbl : ExpertTable) (a : Arena) : Action → Prop
  | .host op => op.Follows tbl a
  | .copy => True

/-- The step lemma: the ledger keeps up, and what has arrived stays until it is
prefetched again. -/
theorem Tracks.step (h : Tracks tbl a log s) (hb : a.base ≠ 0)
    (hfit : a.base + a.cap ≤ 2 ^ 64) {act : Action} (hen : s.Enabled act)
    (hact : act.Follows tbl a) :
    ∃ log', Tracks tbl a log' (s.step act) ∧
      ∀ k, ¬ act.Prefetches k → Arrived log s k → Arrived log' (s.step act) k := by
  cases act with
  | copy => exact ⟨_, h.runCopy hen, fun k _ ha => ha.runCopy hen⟩
  | host op =>
    cases op with
    | prefetch k src n pr =>
      obtain ⟨log', h', hkeep⟩ := h.prefetch hb hfit pr hact
      exact ⟨log', h', fun k' hk ha => hkeep k' hk ha⟩
    | wait k => exact ⟨log, h.wait k, fun k' _ ha => ha.wait k⟩
    | synchronizeAll => exact ⟨log, h, fun _ _ ha => ha⟩
    | reset =>
      refine ⟨log, ⟨h.bytes, h.base_eq, h.cap_eq, h.cache, h.vram, h.submitted, h.stream, h.done,
        rfl, fun k idx hf => by cases hf⟩, fun _ _ ha => ha⟩
    | touch k =>
      have hop : AsyncPrefetcher.Op.Follows tbl a (.touch k) := trivial
      obtain ⟨hbytes, hbase, hcap⟩ := h.bytes.step hb hfit h.base_eq h.cap_eq hop
      have hcache : (log.touch k).cache = (s.host.touch k).cache := by
        simp only [AsyncPrefetcher.touch, h.cache]
      exact ⟨log.touch k, ⟨hbytes, hbase, hcap, hcache, h.vram, h.submitted, h.stream, h.done,
        h.events_length, h.event⟩, fun _ _ ha => ha⟩

/-- The run lemma. -/
theorem Tracks.run (h : Tracks tbl a log s) (hb : a.base ≠ 0) (hfit : a.base + a.cap ≤ 2 ^ 64)
    {acts : List Action} (hen : Guarded CudaPrefetcher.step Enabled s acts)
    (hacts : ∀ act ∈ acts, act.Follows tbl a) :
    ∃ log', Tracks tbl a log' (run CudaPrefetcher.step s acts) ∧
      ∀ k, (∀ act ∈ acts, ¬ act.Prefetches k) → Arrived log s k →
        Arrived log' (run CudaPrefetcher.step s acts) k := by
  induction acts generalizing log s with
  | nil => exact ⟨log, h, fun _ _ ha => ha⟩
  | cons act acts ih =>
    obtain ⟨hact, hrest⟩ := List.forall_mem_cons.mp hacts
    obtain ⟨log₁, h₁, hkeep₁⟩ := h.step hb hfit hen.1 hact
    obtain ⟨log', h', hkeep⟩ := ih h₁ hen.2 hrest
    refine ⟨log', h', fun k hk ha => ?_⟩
    obtain ⟨hk₁, hk⟩ := List.forall_mem_cons.mp hk
    exact hkeep k hk (hkeep₁ k hk₁ ha)

end Ledger

/-- In every interleaving of the host with the stream: when `wait` has returned true, on a
queue of fewer than `2 ^ 31` transfers, and as long as the expert is not prefetched again,
its bytes are those of its source for as long as it is resident, whatever else is
prefetched, copied or dropped meanwhile. -/
theorem run_wait_delivers (order : Order) (be : Backend) (B : ℕ) {c₀ : VramCacheManager}
    (hinit : (VramCacheManager.fresh order).init B be = (true, c₀))
    (hfit : c₀.arena.base + B ≤ 2 ^ 64) (vram : ℕ → UInt8) (tbl : AsyncPrefetcher.ExpertTable)
    (before after : List Action) (k : ExpertKey)
    (hacts : ∀ act ∈ before ++ .host (.wait k) :: after, act.Follows tbl c₀.arena)
    (hen : Guarded step Enabled (fresh c₀ vram) (before ++ .host (.wait k) :: after))
    (hroom : (run step (fresh c₀ vram) before).host.inflight.length < 2 ^ 31)
    (hw : ((run step (fresh c₀ vram) before).wait k).1 = true)
    (hno : ∀ act ∈ after, ¬ act.Prefetches k) :
    let s := run step (fresh c₀ vram) (before ++ .host (.wait k) :: after)
    s.host.cache.isResident k = true → ∀ i < tbl.size k,
      s.host.vram (s.host.cache.data k + i) = (tbl.source k).bytes i := by
  obtain ⟨base, hbase, rfl⟩ := init_eq_true hinit
  have hfit' : base + B ≤ 2 ^ 64 := hfit
  have h0 := fresh_tracks (AsyncPrefetcher.fresh_bytesInv tbl
    (started_inv order base (B := B) (by omega)) hbase rfl vram)
  obtain ⟨hacts₁, hacts₂⟩ := List.forall_mem_append.mp hacts
  obtain ⟨hen₁, hen₂⟩ := guarded_append.mp hen
  obtain ⟨log₁, h₁, -⟩ := h0.run hbase hfit hen₁ hacts₁
  intro s hres
  have hsame : s = run step (run step (fresh (started order base B) vram) before)
      (.host (.wait k) :: after) := run_append ..
  -- the wait finds the expert arrived, and nothing takes that back
  have harr := h₁.arrived hroom hen₂.1 hw
  have hnone : ∀ act ∈ Action.host (.wait k) :: after, ¬ act.Prefetches k := by
    intro act hact
    rcases List.mem_cons.mp hact with rfl | hact
    · exact id
    · exact hno act hact
  obtain ⟨log₂, h₂, hkeep⟩ := h₁.run hbase hfit hen₂ hacts₂
  rw [hsame] at hres ⊢
  exact h₂.holds (hkeep k hnone harr) hres

/-- The stale copy of an evicted expert and the copy of its successor run after a `reset`. -/
theorem run_wait_delivers_small :
    let tbl : AsyncPrefetcher.ExpertTable := ⟨fun k => if k.expert = 0 then 3 else 2,
      fun k => ⟨1000, fun _ => if k.expert = 0 then 7 else 9⟩⟩
    let s := run step (fresh (started (.newestFirst _ _) 100 4) fun _ => 0)
      ([.host (.prefetch ⟨0, 0⟩ (tbl.source ⟨0, 0⟩) 3 0), .host .reset,
        .host (.prefetch ⟨0, 1⟩ (tbl.source ⟨0, 1⟩) 2 0), .copy, .copy] ++
        .host (.wait ⟨0, 1⟩) :: [.host .reset, .host .synchronizeAll])
    ∀ i < tbl.size ⟨0, 1⟩,
      s.host.vram (s.host.cache.data ⟨0, 1⟩ + i) = (tbl.source ⟨0, 1⟩).bytes i := by
  intro tbl s
  have hreal : ∀ n, 0 < n → n ≤ 3 → ∀ v,
      AsyncPrefetcher.RealSource (started (.newestFirst _ _) 100 4).arena ⟨1000, v⟩ n := by
    intro n h0 h3 v
    have hfit : 1000 + n ≤ 2 ^ 64 := by omega
    have hne : 1000 ≠ 0 := by decide
    have hapart : 100 + 4 ≤ 1000 := by decide
    exact ⟨h0, hne, hfit, Or.inr hapart⟩
  have hinit : (VramCacheManager.fresh (.newestFirst _ _)).init 4 (.host 100) =
      (true, started (.newestFirst _ _) 100 4) := rfl
  have h := run_wait_delivers (.newestFirst _ _) (.host 100) 4 hinit (by decide) (fun _ => 0) tbl
    [.host (.prefetch ⟨0, 0⟩ (tbl.source ⟨0, 0⟩) 3 0), .host .reset,
      .host (.prefetch ⟨0, 1⟩ (tbl.source ⟨0, 1⟩) 2 0), .copy, .copy]
    [.host .reset, .host .synchronizeAll] ⟨0, 1⟩
    (by
      simp only [List.cons_append, List.nil_append, List.forall_mem_cons, Action.Follows,
        AsyncPrefetcher.Op.Follows]
      exact ⟨⟨trivial, rfl, hreal 3 (by decide) (by decide) _⟩, trivial,
        ⟨trivial, rfl, hreal 2 (by decide) (by decide) _⟩, trivial, trivial, trivial, trivial,
        trivial, by simp⟩)
    (by
      simp only [List.cons_append, List.nil_append, Guarded]
      decide)
    (by decide) (by decide) (by simp [Action.Prefetches])
  have hres : s.host.cache.isResident ⟨0, 1⟩ = true := by decide
  simpa only [s] using h hres

/-! The host does not see the backend. -/

section Mock
open AsyncPrefetcher

/-- What a call of the mock returns; the other calls return nothing. -/
def mockResult (p : AsyncPrefetcher) : AsyncPrefetcher.Op → List ℤ
  | .prefetch k src n pr => [(p.prefetch k src n pr).1]
  | .wait k => [if (IntQueue.wait p k).1 then 1 else 0]
  | _ => []

def result (s : CudaPrefetcher) : Action → List ℤ
  | .host (.prefetch k src n pr) => [(s.prefetch k src n pr).1]
  | .host (.wait k) => [if (s.wait k).1 then 1 else 0]
  | _ => []

/-- The calls of the host in a schedule. -/
def Action.call? : Action → Option AsyncPrefetcher.Op
  | .host op => some op
  | .copy => none

/-- The mock and the CUDA backend in the same state as far as the host can tell. -/
structure SameHost (m : AsyncPrefetcher) (s : CudaPrefetcher) : Prop where
  queue : m.QueueInv
  cache : m.cache = s.host.cache
  length : m.inflight.length = s.host.inflight.length
  keyToIdx : m.keyToIdx = s.host.keyToIdx
  nextId : m.nextId = s.host.nextId
  stats : m.stats = s.host.stats

theorem SameHost.prefetch {m : AsyncPrefetcher} {s : CudaPrefetcher} (h : SameHost m s)
    (k : ExpertKey) {src : HostPtr} (hsrc : src.addr ≠ 0) (n : ℕ) (pr : ℤ) :
    (s.prefetch k src n pr).1 = (m.prefetch k src n pr).1 ∧
      SameHost (m.prefetch k src n pr).2 (s.prefetch k src n pr).2 := by
  have hq := h.queue.prefetch (k := k) hsrc n pr
  have hmock := m.prefetch_cases k src n pr
  have hcuda := s.prefetch_cases k src n pr
  rw [← h.cache] at hcuda
  rcases hmock with ⟨hno, hm⟩ | ⟨hyes, hd, hm⟩
  · rcases hcuda with ⟨-, hs⟩ | ⟨hyes, hd, -⟩
    · rw [hm] at hq ⊢
      rw [hs]
      exact ⟨rfl, hq, rfl, h.length, h.keyToIdx, h.nextId, h.stats⟩
    · rcases hno with hno | hno
      · rw [hyes] at hno
        cases hno
      · exact absurd hno hd
  · rcases hcuda with ⟨hno, -⟩ | ⟨-, -, hs⟩
    · rcases hno with hno | hno
      · rw [hyes] at hno
        cases hno
      · exact absurd hno hd
    · rw [hm] at hq ⊢
      rw [hs]
      refine ⟨by rw [h.nextId], hq, rfl, ?_, ?_, ?_, ?_⟩
      · simp only [AsyncPrefetcher.push, cudaSubmit, List.length_append, h.length]
      · simp only [AsyncPrefetcher.push, cudaSubmit, h.length, h.keyToIdx]
      · simp only [AsyncPrefetcher.push, cudaSubmit, h.nextId]
      · simp only [AsyncPrefetcher.push, cudaSubmit, h.stats]

theorem SameHost.wait {m : AsyncPrefetcher} {s : CudaPrefetcher} (h : SameHost m s)
    (hshort : m.inflight.length < 2 ^ 31) (k : ExpertKey) :
    (s.wait k).1 = (m.wait k).1 ∧ SameHost (m.wait k).2 (s.wait k).2 := by
  have hq := h.queue.wait k
  have hint : IntQueue.findInflight m k = IntQueue.findInflight s.host k := by
    simp only [IntQueue.findInflight, findInflight, h.keyToIdx]
  have hcases := IntQueue.findInflight_cases h.queue hshort k
  rw [hint] at hcases
  rcases s.wait_cases k with ⟨hf, hs⟩ | ⟨idx, hf, hs⟩
  · have hm : m.keyToIdx (packKey k) = none := by
      rcases hcases with ⟨hnone, -⟩ | ⟨i, -, hpos, -⟩
      · exact hnone
      · omega
    rw [hs]
    have hwait : m.wait k = (false, { m with stats := { m.stats with
        waited := m.stats.waited + 1, fallbacks := m.stats.fallbacks + 1 } }) := by
      simp only [AsyncPrefetcher.wait, findInflight, hm]
    rw [hwait] at hq ⊢
    exact ⟨rfl, hq, h.cache, h.length, h.keyToIdx, h.nextId, by simp only [h.stats]⟩
  · have hm : m.keyToIdx (packKey k) = some idx := by
      rcases hcases with ⟨-, hneg⟩ | ⟨i, hsome, hpos, -⟩
      · omega
      · rwa [show idx = i by omega]
    rw [hs]
    obtain ⟨t, ht⟩ := (h.queue.indexed k idx).mp hm
    have htrue : (m.wait k).1 = true := h.queue.wait_eq_true_iff.mpr ⟨t, ht.mem, ht.key⟩
    have hstats : (m.wait k).2 = { m.drainUntil idx with
        stats := { m.stats with waited := m.stats.waited + 1 } } := by
      simp only [AsyncPrefetcher.wait, findInflight, hm]
      rfl
    rw [hstats] at hq ⊢
    refine ⟨htrue.symm, hq, h.cache, ?_, h.keyToIdx, h.nextId, by simp only [h.stats]⟩
    simp only [AsyncPrefetcher.drainUntil, drainFirst_length, List.length_modify, h.length]

/-- The stream is not seen. -/
theorem SameHost.runCopy {m : AsyncPrefetcher} {s : CudaPrefetcher} (h : SameHost m s) :
    SameHost m s.runCopy := by
  unfold CudaPrefetcher.runCopy
  split <;> exact ⟨h.queue, h.cache, h.length, h.keyToIdx, h.nextId, h.stats⟩

/-- The step lemma: a call of the host is the same call of the mock. -/
theorem SameHost.step {m : AsyncPrefetcher} {s : CudaPrefetcher} (h : SameHost m s)
    (hshort : m.inflight.length < 2 ^ 31) {act : Action}
    (hact : ∀ op, act.call? = some op → op.NonNull) :
    s.result act = (act.call?.map fun op => mockResult m op).getD [] ∧
      SameHost ((act.call?.map fun op => IntQueue.step m op).getD m) (s.step act) := by
  cases act with
  | copy => exact ⟨rfl, h.runCopy⟩
  | host op =>
    have hop : op.NonNull := hact op rfl
    simp only [Action.call?, Option.map_some, Option.getD_some, CudaPrefetcher.step,
      IntQueue.step_eq h.queue hshort]
    cases op with
    | prefetch k src n pr =>
      obtain ⟨hres, hsame⟩ := h.prefetch k hop n pr
      exact ⟨by simp only [result, mockResult, hres], hsame⟩
    | wait k =>
      obtain ⟨hres, hsame⟩ := h.wait hshort k
      exact ⟨by simp only [result, mockResult, hres, IntQueue.wait_eq h.queue hshort], hsame⟩
    | synchronizeAll =>
      refine ⟨rfl, h.queue.drainUntil _, h.cache, ?_, h.keyToIdx, h.nextId, h.stats⟩
      exact (drainFirst_length ..).trans h.length
    | reset => exact ⟨rfl, h.queue.reset, h.cache, rfl, rfl, h.nextId, h.stats⟩
    | touch k =>
      refine ⟨rfl, ⟨h.queue.indexed, h.queue.armed⟩, ?_, h.length, h.keyToIdx, h.nextId, h.stats⟩
      simp only [AsyncPrefetcher.step, AsyncPrefetcher.touch, call, h.cache]

/-- The run lemma. -/
theorem SameHost.run {m : AsyncPrefetcher} {s : CudaPrefetcher} (h : SameHost m s)
    (hshort : m.inflight.length < 2 ^ 31) {acts : List Action}
    (hacts : ∀ act ∈ acts, ∀ op, act.call? = some op → op.NonNull)
    (hroom : Guarded IntQueue.step IntQueue.HasRoom m (acts.filterMap Action.call?)) :
    outputs result CudaPrefetcher.step s acts =
        outputs mockResult IntQueue.step m (acts.filterMap Action.call?) ∧
      SameHost (GuardedRuns.run IntQueue.step m (acts.filterMap Action.call?))
        (GuardedRuns.run CudaPrefetcher.step s acts) := by
  induction acts generalizing m s with
  | nil => exact ⟨rfl, h⟩
  | cons act acts ih =>
    obtain ⟨hact, hrest⟩ := List.forall_mem_cons.mp hacts
    obtain ⟨hres, hsame⟩ := h.step hshort hact
    cases hcall : act.call? with
    | none =>
      rw [hcall] at hres hsame
      rw [List.filterMap_cons_none hcall] at hroom
      obtain ⟨hout, hrun⟩ := ih (m := m) hsame hshort hrest hroom
      rw [outputs, hres, hout, List.filterMap_cons_none hcall]
      exact ⟨rfl, hrun⟩
    | some op =>
      rw [hcall] at hres hsame
      rw [List.filterMap_cons_some hcall] at hroom
      obtain ⟨hout, hrun⟩ := ih (m := IntQueue.step m op) hsame (IntQueue.step_short hshort hroom.1)
        hrest hroom.2
      rw [outputs, hres, hout, List.filterMap_cons_some hcall]
      exact ⟨rfl, hrun⟩

end Mock

/-- No event lies behind a copy that has not been submitted. -/
def EventsSubmitted (s : CudaPrefetcher) : Prop := ∀ n ∈ s.events, n ≤ s.completed + s.stream.length

theorem EventsSubmitted.step {s : CudaPrefetcher} (h : s.EventsSubmitted) (act : Action) :
    (s.step act).EventsSubmitted := by
  cases act with
  | copy =>
    simp only [CudaPrefetcher.step, runCopy]
    split
    · exact h
    · next c rest hcr =>
      intro n hn
      have := h n hn
      simp only [hcr, List.length_cons] at this
      dsimp only
      omega
  | host op =>
    cases op with
    | prefetch k src n pr =>
      simp only [CudaPrefetcher.step, call]
      rcases s.prefetch_cases k src n pr with ⟨-, he⟩ | ⟨-, -, he⟩
      · rw [he]
        exact h
      · rw [he]
        intro n' hn'
        simp only [cudaSubmit, List.mem_append, List.mem_singleton] at hn'
        simp only [cudaSubmit, List.length_append, List.length_singleton]
        rcases hn' with hn' | rfl
        · have := h n' hn'
          omega
        · omega
    | wait k =>
      simp only [CudaPrefetcher.step, call]
      rcases s.wait_cases k with ⟨-, he⟩ | ⟨idx, -, he⟩ <;> rw [he] <;> exact h
    | reset => exact fun n hn => absurd hn List.not_mem_nil
    | _ => exact h

/-- The stream can always run dry. -/
theorem runCopy_drains (s : CudaPrefetcher) :
    Guarded step Enabled s (List.replicate s.stream.length .copy) ∧
      (run step s (List.replicate s.stream.length .copy)).stream = [] ∧
      (run step s (List.replicate s.stream.length .copy)).completed =
        s.completed + s.stream.length ∧
      (run step s (List.replicate s.stream.length .copy)).events = s.events ∧
      (run step s (List.replicate s.stream.length .copy)).host.keyToIdx = s.host.keyToIdx := by
  generalize hn : s.stream.length = n
  induction n generalizing s with
  | zero => exact ⟨trivial, List.eq_nil_of_length_eq_zero hn, rfl, rfl, rfl⟩
  | succ n ih =>
    obtain ⟨c, rest, hcr⟩ := List.exists_cons_of_length_eq_add_one hn
    have hstep : s.step .copy = { s with
        host := { s.host with vram := c.run s.host.vram }
        stream := rest
        completed := s.completed + 1 } := by
      simp only [step, runCopy, hcr]
    have hrest : rest.length = n := by
      rw [hcr, List.length_cons] at hn
      omega
    obtain ⟨h1, h2, h3, h4, h5⟩ := ih (s.step .copy) (by rw [hstep]; exact hrest)
    rw [List.replicate_succ, run_cons]
    refine ⟨⟨?_, h1⟩, h2, ?_, ?_, ?_⟩
    · simp only [Enabled, hcr]
      exact List.cons_ne_nil c rest
    · rw [h3, hstep]
      dsimp only
      omega
    · rw [h4, hstep]
    · rw [h5, hstep]

/-- In every interleaving the host gets the results, the cache and the statistics that the
same calls of the mock give, while they leave fewer than `2 ^ 31` transfers queued. It is
never blocked for good: from every state that is reached, the copies that are left let any
call return. -/
theorem run_refines_mock (cache : VramCacheManager) (vram : ℕ → UInt8) (acts : List Action)
    (hacts : ∀ act ∈ acts, ∀ op, act.call? = some op → op.NonNull) :
    let s := run step (fresh cache vram) acts
    let ops := acts.filterMap Action.call?
    let m := run AsyncPrefetcher.IntQueue.step (.fresh cache vram) ops
    (Guarded AsyncPrefetcher.IntQueue.step AsyncPrefetcher.IntQueue.HasRoom
        (.fresh cache vram) ops →
      outputs result step (fresh cache vram) acts =
          outputs mockResult AsyncPrefetcher.IntQueue.step (.fresh cache vram) ops ∧
        s.host.cache = m.cache ∧ s.host.stats = m.stats) ∧
      ∀ op, ∃ n, Guarded step Enabled s (List.replicate n .copy ++ [.host op]) := by
  intro s ops m
  have h0 : SameHost (.fresh cache vram) (fresh cache vram) :=
    ⟨AsyncPrefetcher.fresh_queueInv cache vram, rfl, rfl, rfl, rfl, rfl⟩
  have hev : s.EventsSubmitted :=
    invariant_run_of_step (fun _ act hs => hs.step act)
      (fun n hn => absurd hn List.not_mem_nil) acts
  refine ⟨fun hroom => ?_, fun op => ⟨s.stream.length, ?_⟩⟩
  · obtain ⟨hout, hsame⟩ := h0.run (by simp [AsyncPrefetcher.fresh]) hacts hroom
    exact ⟨hout, hsame.cache.symm, hsame.stats.symm⟩
  obtain ⟨hcopies, hnil, hdone, hevents, hfind⟩ := s.runCopy_drains
  refine guarded_append.mpr ⟨hcopies, ?_, trivial⟩
  cases op with
  | wait k =>
    intro _ n hn
    rw [hevents] at hn
    rw [hdone]
    exact hev n (List.mem_of_getElem? hn)
  | synchronizeAll => exact hnil
  | _ => trivial

/-- Two prefetches, of which the second evicts the first, and two waits. -/
theorem run_refines_mock_small :
    let acts : List Action := [.host (.prefetch ⟨0, 0⟩ ⟨1000, fun _ => 7⟩ 3 0),
      .host (.prefetch ⟨0, 1⟩ ⟨2000, fun _ => 9⟩ 2 0), .copy, .host (.wait ⟨0, 0⟩), .copy,
      .host (.wait ⟨0, 1⟩), .host (.wait ⟨5, 5⟩)]
    outputs result step (fresh (started (.newestFirst _ _) 100 4) fun _ => 0) acts =
      [0, 1, 1, 1, 0] := by
  intro acts
  obtain ⟨hsame, -⟩ := run_refines_mock (started (.newestFirst _ _) 100 4) (fun _ => 0) acts
    (by simp [acts, Action.call?, AsyncPrefetcher.Op.NonNull])
  obtain ⟨hout, -⟩ := hsame (by
    simp only [acts, Action.call?, List.filterMap_cons, List.filterMap_nil, Guarded,
      AsyncPrefetcher.IntQueue.HasRoom]
    decide)
  rw [hout]
  decide

end CudaPrefetcher
end Dee
