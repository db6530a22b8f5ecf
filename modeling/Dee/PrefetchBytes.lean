import Dee.PrefetchQueue

/-! Resident bytes. Stale transfers still run when the queue is drained, into addresses
that have been given away; no such copy can reach the bytes of an expert after its own
last transfer has run. -/
namespace Dee.AsyncPrefetcher
open ByteMemory GuardedRuns VramCacheManager

/-- The fixed size and source buffer of every expert. -/
structure ExpertTable where
  size : ExpertKey → ℕ
  source : ExpertKey → HostPtr

/-- What the last transfer of a resident expert says about its bytes. -/
structure Settled (tbl : ExpertTable) (ts : List Transfer) (vram : ℕ → UInt8)
    (e : ExpertKey × ExpertBlock) : Prop where
  aimed : ∀ i t, LastAt ts e.1 i t → t.dst = e.2.ptr
  later_apart : ∀ i t, LastAt ts e.1 i t → ∀ j u, i < j → ts[j]? = some u →
    Disjoint u.dst u.nbytes e.2.ptr (tbl.size e.1)
  holds : ∀ i t, LastAt ts e.1 i t → t.done = true →
    Holds vram e.2.ptr (tbl.source e.1).bytes (tbl.size e.1)

/-- The queue and the cache when every expert is always transferred as the table says. -/
structure StreamInv (tbl : ExpertTable) (p : AsyncPrefetcher) : Prop where
  cache : p.cache.Inv
  base_ne : p.cache.arena.base ≠ 0
  queue : p.QueueInv
  size_eq : ∀ e ∈ p.cache.blocks.entries, e.2.size = tbl.size e.1
  queued : ∀ t ∈ p.inflight, t.src = tbl.source t.key ∧ t.nbytes = tbl.size t.key
  /-- the finished transfers are a prefix of the queue -/
  drained : ∃ d ≤ p.inflight.length, ∀ i t, p.inflight[i]? = some t → (t.done = true ↔ i < d)

structure BytesInv (tbl : ExpertTable) (p : AsyncPrefetcher) : Prop extends StreamInv tbl p where
  settled : ∀ e ∈ p.cache.blocks.entries, Settled tbl p.inflight p.vram e

variable {tbl : ExpertTable}

theorem StreamInv.slot {p : AsyncPrefetcher} (h : p.StreamInv tbl) : p.cache.SlotInv :=
  ⟨h.cache.toMapInv, h.base_ne, fun e he => by
    have := h.cache.ptr_eq e he
    have := h.base_ne
    omega⟩

/-- Distinct resident experts lie in disjoint regions. -/
theorem ptr_apart {c : VramCacheManager} (h : c.Inv) {e f : ExpertKey × ExpertBlock}
    (he : e ∈ c.blocks.entries) (hf : f ∈ c.blocks.entries) (hne : e.1 ≠ f.1) :
    Disjoint e.2.ptr e.2.size f.2.ptr f.2.size := by
  rw [h.ptr_eq e he, h.ptr_eq f hf]
  rcases h.representation.disjoint e he f hf hne with hd | hd
  · exact Or.inl (by omega)
  · exact Or.inr (by omega)

/-- A block that survives `ensure` has kept its place. -/
theorem ensure_entry {c : VramCacheManager} (h : c.Inv) {k : ExpertKey} {n : ℕ} {pr : ℤ}
    (h' : (c.ensure k n pr).2.Inv) {e' : ExpertKey × ExpertBlock}
    (he' : e' ∈ (c.ensure k n pr).2.blocks.entries) (hold : c.isResident e'.1 = true) :
    ∃ e ∈ c.blocks.entries, e.1 = e'.1 ∧ e.2.ptr = e'.2.ptr ∧ e.2.size = e'.2.size := by
  obtain ⟨b, hb⟩ := h.isResident_iff.mp hold
  obtain ⟨ho, hs⟩ := ensure_keeps_placement h.toMapInv hb he'
  have hp := h.ptr_eq _ hb
  have hp' := h'.ptr_eq _ he'
  rw [(ensure_base_cap c h.toMapInv k n pr).1, ho] at hp'
  exact ⟨(e'.1, b), hb, rfl, hp.trans hp'.symm, hs.symm⟩

theorem StreamInv.ensure {p : AsyncPrefetcher} (h : p.StreamInv tbl) {k : ExpertKey} {pr : ℤ}
    (h' : (p.cache.ensure k (tbl.size k) pr).2.Inv) :
    StreamInv tbl { p with cache := (p.cache.ensure k (tbl.size k) pr).2 } where
  cache := h'
  base_ne := by
    rw [(ensure_base_cap p.cache h.cache.toMapInv k _ pr).1]
    exact h.base_ne
  queue := ⟨h.queue.indexed, h.queue.armed⟩
  size_eq := by
    intro ⟨k', b⟩ he
    cases hold : p.cache.isResident k' with
    | true =>
      obtain ⟨f, hf, hk, -, hs⟩ := ensure_entry h.cache h' he hold
      rw [← hs, h.size_eq f hf, hk]
    | false =>
      have hres := h'.isResident_iff.mpr ⟨b, he⟩
      rcases (h.cache.ensure_isResident k _ pr k').mp hres with ⟨-, hr⟩ | ⟨rfl, -⟩
      · simp [hold] at hr
      · exact h.cache.ensure_size_of_miss hold he
  queued := h.queued
  drained := h.drained

/-- Blocks that were resident before the call stay settled. -/
theorem BytesInv.settled_ensure {p : AsyncPrefetcher} (h : p.BytesInv tbl) {k : ExpertKey} {pr : ℤ}
    (h' : (p.cache.ensure k (tbl.size k) pr).2.Inv) {e' : ExpertKey × ExpertBlock}
    (he' : e' ∈ (p.cache.ensure k (tbl.size k) pr).2.blocks.entries)
    (hold : p.cache.isResident e'.1 = true) : Settled tbl p.inflight p.vram e' := by
  obtain ⟨e, he, hk, hp, -⟩ := ensure_entry h.cache h' he' hold
  obtain ⟨h1, h2, h3⟩ := h.settled e he
  rw [hk, hp] at *
  exact ⟨h1, h2, h3⟩

/-- A block is settled by the transfer submitted last, which has not run yet. -/
theorem settled_push {p : AsyncPrefetcher} {t : Transfer} {e : ExpertKey × ExpertBlock}
    (hkey : t.key = e.1) (hdst : t.dst = e.2.ptr) (hdone : t.done = false) :
    Settled tbl (p.push t).inflight (p.push t).vram e := by
  have hlast : ∀ i u, LastAt (p.push t).inflight e.1 i u → i = p.inflight.length ∧ u = t := by
    intro i u hu
    rcases lastAt_append.mp hu with ⟨-, hi, hu⟩ | ⟨hne, -⟩
    · exact ⟨hi, hu⟩
    · exact absurd hkey hne
  constructor
  · intro i u hu
    rw [(hlast i u hu).2, hdst]
  · intro i u hu j v hij hv
    have hj := (List.getElem?_eq_some_iff.mp hv).1
    have hi := (hlast i u hu).1
    simp only [AsyncPrefetcher.push, List.length_append, List.length_singleton] at hj
    omega
  · intro i u hu hd
    rw [(hlast i u hu).2, hdone] at hd
    cases hd

/-- A transfer of another expert, into another region, leaves a block settled. -/
theorem Settled.push {p : AsyncPrefetcher} {t : Transfer} {e : ExpertKey × ExpertBlock}
    (h : Settled tbl p.inflight p.vram e) (hkey : t.key ≠ e.1)
    (hapart : Disjoint t.dst t.nbytes e.2.ptr (tbl.size e.1)) :
    Settled tbl (p.push t).inflight (p.push t).vram e := by
  have hlast : ∀ i u, LastAt (p.push t).inflight e.1 i u → LastAt p.inflight e.1 i u := by
    intro i u hu
    rcases lastAt_append.mp hu with ⟨hk, -⟩ | ⟨-, hu⟩
    · exact absurd hk hkey
    · exact hu
  constructor
  · exact fun i u hu => h.aimed i u (hlast i u hu)
  · intro i u hu j v hij hv
    rcases getElem?_push hv with hv | ⟨-, rfl⟩
    · exact h.later_apart i u (hlast i u hu) j v hij hv
    · exact hapart
  · exact fun i u hu hd => h.holds i u (hlast i u hu) hd

/-- Submitting the transfer of a resident expert settles it. -/
theorem StreamInv.push {p : AsyncPrefetcher} (h : p.StreamInv tbl) {e : ExpertKey × ExpertBlock}
    (he : e ∈ p.cache.blocks.entries) (hsrc : (tbl.source e.1).addr ≠ 0)
    (hset : ∀ f ∈ p.cache.blocks.entries, f.1 ≠ e.1 → Settled tbl p.inflight p.vram f) :
    (p.push ⟨e.1, e.2.ptr, tbl.source e.1, tbl.size e.1, false, false⟩).BytesInv tbl where
  cache := h.cache
  base_ne := h.base_ne
  queue := h.queue.push ⟨hsrc, h.slot.ptr_ne e he, rfl⟩
  size_eq := h.size_eq
  queued := by
    intro t ht
    rcases List.mem_append.mp ht with ht | ht
    · exact h.queued t ht
    · rw [List.mem_singleton.mp ht]
      exact ⟨rfl, rfl⟩
  drained := by
    obtain ⟨d, hd⟩ := h.drained
    exact ⟨d, DoneTo.push hd rfl⟩
  settled := by
    intro f hf
    by_cases hk : e.1 = f.1
    · have hb : e.2 = f.2 := p.cache.blocks.entry_unique (k := f.1) (hk ▸ he) hf
      exact settled_push hk (congrArg ExpertBlock.ptr hb) rfl
    · have hd := ptr_apart h.cache he hf hk
      rw [h.size_eq e he, h.size_eq f hf] at hd
      exact (hset f hf (Ne.symm hk)).push hk hd

/-- A prefetch that follows the table. -/
theorem BytesInv.prefetch {p : AsyncPrefetcher} (h : p.BytesInv tbl) {k : ExpertKey} {pr : ℤ}
    (hsrc : (tbl.source k).addr ≠ 0) (h' : (p.cache.ensure k (tbl.size k) pr).2.Inv) :
    (p.prefetch k (tbl.source k) (tbl.size k) pr).2.BytesInv tbl := by
  have hs := h.toStreamInv.ensure h'
  rcases p.prefetch_cases k (tbl.source k) (tbl.size k) pr with ⟨hno, he⟩ | ⟨htrue, -, he⟩
  · have hfalse : (p.cache.ensure k (tbl.size k) pr).1 = false := by
      rcases hno with hno | hdata
      · exact hno
      · by_contra hne
        have hres := h.cache.ensure_resident (by simpa using hne)
        exact hs.slot.data_ne_zero.mpr hres hdata
    rw [he]
    refine ⟨hs, fun e' he' => ?_⟩
    have hres := h'.isResident_iff.mpr ⟨e'.2, he'⟩
    rcases (h.cache.ensure_isResident k _ pr e'.1).mp hres with ⟨-, hold⟩ | ⟨-, htrue⟩
    · exact h.settled_ensure h' he' hold
    · rw [hfalse] at htrue
      cases htrue
  · obtain ⟨b, hb⟩ := h'.isResident_iff.mp (h.cache.ensure_resident htrue)
    rw [he, data_of_mem h'.toMapInv hb]
    refine hs.push hb hsrc fun e' he' hne => ?_
    have hres := h'.isResident_iff.mpr ⟨e'.2, he'⟩
    rcases (h.cache.ensure_isResident k _ pr e'.1).mp hres with ⟨-, hold⟩ | ⟨hk, -⟩
    · exact h.settled_ensure h' he' hold
    · exact absurd hk hne

theorem eq_take_append_drop {α : Type*} {l : List α} {i : ℕ} {a : α} (h : l[i]? = some a) :
    l = l.take i ++ a :: l.drop (i + 1) := by
  obtain ⟨hi, rfl⟩ := List.getElem?_eq_some_iff.mp h
  rw [← List.drop_eq_getElem_cons hi, List.take_append_drop]

theorem mem_take {α : Type*} {l : List α} {n : ℕ} {a : α} (h : a ∈ l.take n) :
    ∃ j, j < n ∧ l[j]? = some a := by
  obtain ⟨j, hj⟩ := List.mem_iff_getElem?.mp h
  rw [List.getElem?_take] at hj
  split_ifs at hj with hlt
  exact ⟨j, hlt, hj⟩

/-- The pending copies of a drain miss a block whose last transfer has run: the finished
transfers are a prefix of the queue, so these copies lie behind it. -/
theorem Settled.holds_of_done {ts : List Transfer} {vram : ℕ → UInt8}
    {e : ExpertKey × ExpertBlock} (h : Settled tbl ts vram e) {d : ℕ}
    (hd : ∀ i t, ts[i]? = some t → (t.done = true ↔ i < d)) (n : ℕ) {i : ℕ} {t : Transfer}
    (ht : LastAt ts e.1 i t) (hdone : t.done = true) :
    Holds (runCopies vram (((ts.take n).filter Transfer.pending).map Transfer.copy)) e.2.ptr
      (tbl.source e.1).bytes (tbl.size e.1) := by
  have hi := (hd i t ht.get).mp hdone
  apply (h.holds i t ht hdone).runCopies
  intro c hc
  obtain ⟨u, hu, rfl⟩ := List.mem_map.mp hc
  obtain ⟨hu, hpend⟩ := List.mem_filter.mp hu
  obtain ⟨j, -, hj⟩ := mem_take hu
  have hij : i < j := by
    by_contra hle
    have hjd := (hd j u hj).mpr (by omega)
    simp [Transfer.pending, hjd] at hpend
  exact h.later_apart i t ht j u hij hj

/-- A drain that runs the last transfer of a block leaves its bytes there: what it runs
afterwards misses the block. -/
theorem Settled.holds_of_pending {ts : List Transfer} {vram : ℕ → UInt8}
    {e : ExpertKey × ExpertBlock} (h : Settled tbl ts vram e)
    (hq : ∀ t ∈ ts, t.src = tbl.source t.key ∧ t.nbytes = tbl.size t.key) {n i : ℕ}
    {t : Transfer} (ht : LastAt ts e.1 i t) (hi : i < n) (hpend : t.pending = true) :
    Holds (runCopies vram (((ts.take n).filter Transfer.pending).map Transfer.copy)) e.2.ptr
      (tbl.source e.1).bytes (tbl.size e.1) := by
  have hget : (ts.take n)[i]? = some t := by
    rw [List.getElem?_take, if_pos hi]
    exact ht.get
  obtain ⟨hsrc, hn⟩ := hq t ht.mem
  have hcopy : t.copy = ⟨e.2.ptr, (tbl.source e.1).bytes, tbl.size e.1⟩ := by
    rw [Transfer.copy, hsrc, hn, h.aimed i t ht, ht.key]
  rw [eq_take_append_drop hget, List.filter_append, List.filter_cons_of_pos hpend,
    List.map_append, List.map_cons, hcopy]
  apply holds_runCopies
  intro c hc
  obtain ⟨u, hu, rfl⟩ := List.mem_map.mp hc
  obtain ⟨j, hj⟩ := List.mem_iff_getElem?.mp (List.mem_of_mem_filter hu)
  rw [List.getElem?_drop, List.getElem?_take] at hj
  split_ifs at hj
  exact h.later_apart i t ht _ u (by omega) hj

/-- The step lemma of the drain: the copies that can reach a block are its own transfer
and earlier ones, and those that have already run do not run again. -/
theorem Settled.drainFirst {ts : List Transfer} {vram : ℕ → UInt8} {e : ExpertKey × ExpertBlock}
    (h : Settled tbl ts vram e) (hq : ∀ t ∈ ts, t.src = tbl.source t.key ∧ t.nbytes = tbl.size t.key)
    {d : ℕ} (hd : ∀ i t, ts[i]? = some t → (t.done = true ↔ i < d)) (n : ℕ) :
    Settled tbl (drainFirst n ts vram).1 (drainFirst n ts vram).2 e := by
  constructor
  · intro i t' ht'
    obtain ⟨t, ht, rfl⟩ := lastAt_drainFirst.mp ht'
    split_ifs
    · rw [finish_dst]
      exact h.aimed i t ht
    · exact h.aimed i t ht
  · intro i t' ht' j u' hij hu'
    obtain ⟨t, ht, -⟩ := lastAt_drainFirst.mp ht'
    obtain ⟨u, hu, rfl⟩ := Option.map_eq_some_iff.mp ((drainFirst_getElem? ..).symm.trans hu')
    have hap := h.later_apart i t ht j u hij hu
    split_ifs
    · rw [finish_dst, finish_nbytes]
      exact hap
    · exact hap
  · intro i t' ht' hdone
    obtain ⟨t, ht, rfl⟩ := lastAt_drainFirst.mp ht'
    rw [drainFirst_vram]
    cases htd : t.done with
    | true => exact h.holds_of_done hd n ht htd
    | false =>
      have hi : i < n := by
        by_contra hle
        rw [if_neg hle, htd] at hdone
        cases hdone
      have hpend : t.pending = true := by
        by_contra hne
        rw [if_pos hi, Transfer.finish, if_neg hne, htd] at hdone
        cases hdone
      exact h.holds_of_pending hq ht hi hpend

theorem BytesInv.drainUntil {p : AsyncPrefetcher} (h : p.BytesInv tbl) (idx : ℤ) :
    (p.drainUntil idx).BytesInv tbl where
  cache := h.cache
  base_ne := h.base_ne
  queue := h.queue.drainUntil idx
  size_eq := h.size_eq
  queued := by
    intro t' ht'
    obtain ⟨t, ht, rfl | rfl⟩ := drainUntil_mem ht'
    · rw [finish_src, finish_nbytes, finish_key]
      exact h.queued t ht
    · exact h.queued _ ht
  drained := by
    obtain ⟨d, hd⟩ := h.drained
    exact ⟨_, DoneTo.drainUntil hd h.queue.armed idx⟩
  settled := by
    obtain ⟨d, -, hdone⟩ := h.drained
    exact fun e he => (h.settled e he).drainFirst h.queued hdone _

theorem BytesInv.with_stats {p : AsyncPrefetcher} (h : p.BytesInv tbl) (st : PrefetchStats) :
    BytesInv tbl { p with stats := st } :=
  ⟨⟨h.cache, h.base_ne, ⟨h.queue.indexed, h.queue.armed⟩, h.size_eq, h.queued, h.drained⟩,
    h.settled⟩

theorem BytesInv.wait {p : AsyncPrefetcher} (h : p.BytesInv tbl) (k : ExpertKey) :
    (p.wait k).2.BytesInv tbl := by
  rcases p.wait_snd k with ⟨st, he⟩ | ⟨i, st, he⟩
  · rw [he]
    exact h.with_stats st
  · rw [he]
    exact (h.drainUntil i).with_stats st

theorem BytesInv.reset {p : AsyncPrefetcher} (h : p.BytesInv tbl) : p.reset.BytesInv tbl where
  cache := h.cache
  base_ne := h.base_ne
  queue := h.queue.reset
  size_eq := h.size_eq
  queued := by simp [AsyncPrefetcher.reset]
  drained := ⟨0, doneTo_nil rfl⟩
  settled := by
    have hnil : ∀ e i t, ¬ LastAt p.reset.inflight e i t :=
      fun e i t ht => absurd ht.mem List.not_mem_nil
    exact fun e _ => ⟨fun i t ht => absurd ht (hnil _ i t), fun i t ht => absurd ht (hnil _ i t),
      fun i t ht => absurd ht (hnil _ i t)⟩

theorem BytesInv.touch {p : AsyncPrefetcher} (h : p.BytesInv tbl) (k : ExpertKey) :
    (p.touch k).BytesInv tbl := by
  have hent : ∀ e' ∈ (p.cache.touch k).blocks.entries, ∃ e ∈ p.cache.blocks.entries,
      e.1 = e'.1 ∧ e.2.ptr = e'.2.ptr ∧ e.2.size = e'.2.size := by
    unfold VramCacheManager.touch
    split_ifs
    · intro e' he'
      obtain ⟨b, hb, -, hp, -, hs, -⟩ := (renews_touch p.cache).entry he'
      exact ⟨(e'.1, b), hb, rfl, hp.symm, hs.symm⟩
    · exact fun e' he' => ⟨e', he', rfl, rfl, rfl⟩
  constructor
  · constructor
    · exact h.cache.touch k
    · simp only [AsyncPrefetcher.touch, touch_arena]
      exact h.base_ne
    · exact ⟨h.queue.indexed, h.queue.armed⟩
    · intro e' he'
      obtain ⟨e, he, hk, -, hs⟩ := hent e' he'
      rw [← hk, ← hs]
      exact h.size_eq e he
    · exact h.queued
    · exact h.drained
  · intro e' he'
    obtain ⟨e, he, hk, hp, -⟩ := hent e' he'
    obtain ⟨h1, h2, h3⟩ := h.settled e he
    rw [hk, hp] at *
    exact ⟨h1, h2, h3⟩

theorem fresh_bytesInv (tbl : ExpertTable) {c : VramCacheManager} (hc : c.Inv)
    (hb : c.arena.base ≠ 0) (hnil : c.blocks.entries = []) (vram : ℕ → UInt8) :
    (fresh c vram).BytesInv tbl where
  cache := hc
  base_ne := hb
  queue := fresh_queueInv c vram
  size_eq := by simp [fresh, hnil]
  queued := by simp [fresh]
  drained := ⟨0, doneTo_nil rfl⟩
  settled := by simp [fresh, hnil]

/-- The expert `k` is resident at `ptr` and its last transfer has completed. -/
structure Delivered (tbl : ExpertTable) (k : ExpertKey) (ptr : ℕ) (p : AsyncPrefetcher) : Prop
    extends BytesInv tbl p where
  data_eq : p.cache.data k = ptr
  last_done : ∃ i t, LastAt p.inflight k i t ∧ t.done = true

/-- The bytes of a delivered expert are those of its source buffer. -/
theorem Delivered.holds {p : AsyncPrefetcher} {k : ExpertKey} {ptr : ℕ}
    (h : p.Delivered tbl k ptr) (hptr : ptr ≠ 0) :
    Holds p.vram ptr (tbl.source k).bytes (tbl.size k) := by
  obtain ⟨i, t, ht, hdone⟩ := h.last_done
  have hres := h.slot.data_ne_zero.mp (by rw [h.data_eq]; exact hptr)
  obtain ⟨b, hb⟩ := h.cache.isResident_iff.mp hres
  have hp := data_of_mem h.cache.toMapInv hb
  rw [h.data_eq] at hp
  rw [hp]
  exact (h.settled _ hb).holds i t ht hdone

theorem Delivered.drainUntil {p : AsyncPrefetcher} {k : ExpertKey} {ptr : ℕ}
    (h : p.Delivered tbl k ptr) (idx : ℤ) : (p.drainUntil idx).Delivered tbl k ptr where
  toBytesInv := h.toBytesInv.drainUntil idx
  data_eq := h.data_eq
  last_done := by
    obtain ⟨i, t, ht, hdone⟩ := h.last_done
    have hfin : t.finish.done = true := by
      unfold Transfer.finish
      split_ifs
      · rfl
      · exact hdone
    refine ⟨i, _, lastAt_drainFirst.mpr ⟨t, ht, rfl⟩, ?_⟩
    split_ifs
    · exact hfin
    · exact hdone

/-- Calls that neither submit nor drop transfers. -/
def Op.Quiet : Op → Prop
  | .wait _ => True
  | .synchronizeAll => True
  | .touch _ => True
  | _ => False

/-- The step lemma of a delivered expert. -/
theorem Delivered.step {p : AsyncPrefetcher} {k : ExpertKey} {ptr : ℕ}
    (h : p.Delivered tbl k ptr) {op : Op} (hop : op.Quiet) : (p.step op).Delivered tbl k ptr := by
  cases op with
  | prefetch => exact hop.elim
  | wait k' =>
    simp only [AsyncPrefetcher.step]
    rcases p.wait_snd k' with ⟨st, he⟩ | ⟨i, st, he⟩
    · rw [he]
      exact ⟨h.with_stats st, h.data_eq, h.last_done⟩
    · have hd := h.drainUntil i
      rw [he]
      exact ⟨hd.with_stats st, hd.data_eq, hd.last_done⟩
  | synchronizeAll => exact h.drainUntil _
  | reset => exact hop.elim
  | touch k' => exact ⟨h.toBytesInv.touch k', (touch_data k' k).trans h.data_eq, h.last_done⟩

theorem BytesInv.wait_delivered {p : AsyncPrefetcher} (h : p.BytesInv tbl) {k : ExpertKey}
    (hw : (p.wait k).1 = true) : (p.wait k).2.Delivered tbl k (p.cache.data k) where
  toBytesInv := h.wait k
  data_eq := by rw [wait_cache]
  last_done := by
    rcases h.queue.wait_cases k with ⟨-, hfalse, -⟩ | ⟨i, t, ht, -, hq, -⟩
    · rw [hfalse] at hw
      cases hw
    · rw [hq]
      exact ⟨i, _, lastAt_drainFirst.mpr ⟨t, ht, (if_pos (by omega)).symm⟩,
        (h.queue.armed t ht.mem).finish_done⟩

/-- A source buffer is a nonempty object of the 64-bit address space that does not
overlap the arena. -/
structure RealSource (a : Arena) (src : HostPtr) (n : ℕ) : Prop where
  pos : 0 < n
  addr_ne : src.addr ≠ 0
  fits : src.addr + n ≤ 2 ^ 64
  apart : Disjoint src.addr n a.base a.cap

/-- Prefetches follow the table, whose buffers are real memory. -/
def Op.Follows (tbl : ExpertTable) (a : Arena) : Op → Prop
  | .prefetch k src n _ => src = tbl.source k ∧ n = tbl.size k ∧ RealSource a src n
  | _ => True

/-- Two objects share the address space, so no high-water sum wraps. -/
theorem RealSource.no_wrap {a : Arena} {src : HostPtr} {n : ℕ} (h : RealSource a src n)
    (hb : a.base ≠ 0) (hfit : a.base + a.cap ≤ 2 ^ 64) : a.cap + n < 2 ^ 64 := by
  have := h.addr_ne
  have := h.fits
  rcases h.apart with hd | hd <;> omega

/-- The step lemma: the invariant over a fixed arena region. -/
theorem BytesInv.step {a : Arena} (hb : a.base ≠ 0) (hfit : a.base + a.cap ≤ 2 ^ 64)
    {p : AsyncPrefetcher} (h : p.BytesInv tbl) (hbase : p.cache.arena.base = a.base)
    (hcap : p.cache.arena.cap = a.cap) {op : Op} (hop : op.Follows tbl a) :
    (p.step op).BytesInv tbl ∧ (p.step op).cache.arena.base = a.base ∧
      (p.step op).cache.arena.cap = a.cap := by
  cases op with
  | prefetch k src n pr =>
    obtain ⟨rfl, rfl, hreal⟩ := hop
    have hno := hreal.no_wrap hb hfit
    have hhigh := h.cache.tiled.high_le
    have h' : (p.cache.ensure k (tbl.size k) pr).2.Inv := h.cache.ensure (by omega)
    obtain ⟨hb', hc'⟩ := ensure_base_cap p.cache h.cache.toMapInv k (tbl.size k) pr
    refine ⟨h.prefetch hreal.addr_ne h', ?_⟩
    simp only [AsyncPrefetcher.step]
    rcases p.prefetch_cases k (tbl.source k) (tbl.size k) pr with ⟨-, he⟩ | ⟨-, -, he⟩ <;>
      rw [he] <;> exact ⟨hb'.trans hbase, hc'.trans hcap⟩
  | wait k =>
    refine ⟨h.wait k, ?_⟩
    simp only [AsyncPrefetcher.step, wait_cache]
    exact ⟨hbase, hcap⟩
  | synchronizeAll => exact ⟨h.drainUntil _, hbase, hcap⟩
  | reset => exact ⟨h.reset, hbase, hcap⟩
  | touch k =>
    refine ⟨h.touch k, ?_⟩
    simp only [AsyncPrefetcher.step, AsyncPrefetcher.touch, touch_arena]
    exact ⟨hbase, hcap⟩

/-- In every run in which each expert keeps its size and its source buffer: when `wait`
returns true and the expert has an address, its bytes there are those of its source, and
they stay so until the next prefetch or reset. -/
theorem run_wait_bytes (order : Order) (be : Backend) (B : ℕ) {c₀ : VramCacheManager}
    (hinit : (VramCacheManager.fresh order).init B be = (true, c₀))
    (hfit : c₀.arena.base + B ≤ 2 ^ 64) (vram : ℕ → UInt8) (tbl : ExpertTable) (ops : List Op)
    (hops : ∀ op ∈ ops, op.Follows tbl c₀.arena) (k : ExpertKey) :
    let p := run step (fresh c₀ vram) ops
    (p.wait k).1 = true → p.cache.isResident k = true → ∀ quiet : List Op, (∀ op ∈ quiet, op.Quiet) →
      (run step (p.wait k).2 quiet).cache.data k = p.cache.data k ∧
        ∀ i < tbl.size k, (run step (p.wait k).2 quiet).vram (p.cache.data k + i) =
          (tbl.source k).bytes i := by
  intro p hw hres quiet hquiet
  obtain ⟨base, hbase, rfl⟩ := init_eq_true hinit
  have hfit' : base + B ≤ 2 ^ 64 := hfit
  have hinv := invariant_run
    (P := fun p : AsyncPrefetcher => p.BytesInv tbl ∧ p.cache.arena.base = base ∧ p.cache.arena.cap = B)
    (G := fun _ op => Op.Follows tbl (started order base B).arena op)
    (fun p op ⟨hp, hpb, hpc⟩ hop => hp.step hbase hfit hpb hpc hop)
    ⟨fresh_bytesInv tbl (started_inv order base (by omega)) hbase rfl vram, rfl, rfl⟩
    (guarded_of_forall hops)
  have hrun := invariant_run (P := Delivered tbl k (p.cache.data k))
    (G := fun _ op => Op.Quiet op) (fun p op hp hop => hp.step hop) (hinv.1.wait_delivered hw)
    (guarded_of_forall hquiet)
  exact ⟨hrun.data_eq, hrun.holds (hinv.1.slot.data_ne_zero.mpr hres)⟩

end Dee.AsyncPrefetcher
