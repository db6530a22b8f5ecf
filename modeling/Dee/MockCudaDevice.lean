import Dee.ByteMemory
import Dee.GuardedRuns

/-! The mock device: streams of pending copies with sequence numbers, and events that
remember how far a stream had come. Streams and events are named by arbitrary types and
are as created; sequence numbers are unbounded. -/
namespace Dee
open ByteMemory GuardedRuns

/-- One copy, with the unchanging bytes behind its source. -/
structure MockCopy extends Copy UInt8 where
  seq : ℕ

/-- The oldest pending copy comes first. -/
structure MockStream where
  pending : List MockCopy
  nextSeq : ℕ

structure MockEvent (S : Type*) where
  stream : Option S
  watermark : ℕ

/-- `executed` is the history of the copies that have run, which the code does not keep. -/
structure MockCudaDevice (S E : Type*) where
  streams : S → MockStream
  events : E → MockEvent S
  mem : ℕ → UInt8
  executed : List (S × MockCopy)

namespace MockCudaDevice
variable {S E : Type*}

def fresh (S E : Type*) (mem : ℕ → UInt8) : MockCudaDevice S E :=
  ⟨fun _ => ⟨[], 0⟩, fun _ => ⟨none, 0⟩, mem, []⟩

def pending (d : MockCudaDevice S E) (s : S) : List MockCopy := (d.streams s).pending

/-- The `memcpy` of one pending copy. -/
def execute (d : MockCudaDevice S E) (s : S) (c : MockCopy) : MockCudaDevice S E :=
  { d with mem := memcpy d.mem c.dst c.src c.nbytes, executed := d.executed ++ [(s, c)] }

variable [DecidableEq S]

def setPending (d : MockCudaDevice S E) (s : S) (q : List MockCopy) : MockCudaDevice S E :=
  { d with streams := Function.update d.streams s { d.streams s with pending := q } }

def memcpyH2dAsync (d : MockCudaDevice S E) (dst : ℕ) (src : HostPtr UInt8) (bytes : ℕ) (s : S) :
    MockCudaDevice S E :=
  let st := d.streams s
  { d with
    streams := Function.update d.streams s
      ⟨st.pending ++ [⟨⟨dst, src.bytes, bytes⟩, st.nextSeq⟩], st.nextSeq + 1⟩ }

def eventRecord [DecidableEq E] (d : MockCudaDevice S E) (e : E) (s : S) : MockCudaDevice S E :=
  { d with events := Function.update d.events e ⟨some s, (d.streams s).nextSeq⟩ }

/-- `while (!q.empty() && q.front().seq < ev->watermark)`: run the front and drop it. -/
def drain (s : S) (watermark : ℕ) : List MockCopy → MockCudaDevice S E → MockCudaDevice S E
  | [], d => d.setPending s []
  | c :: q, d => if c.seq < watermark then drain s watermark q (d.execute s c)
    else d.setPending s (c :: q)

def eventSynchronize (d : MockCudaDevice S E) (e : E) : MockCudaDevice S E :=
  match (d.events e).stream with
  | none => d
  | some s => drain s (d.events e).watermark (d.pending s) d

def streamSynchronize (d : MockCudaDevice S E) (s : S) : MockCudaDevice S E :=
  ((d.pending s).foldl (fun d c => d.execute s c) d).setPending s []

inductive Op (S E : Type*)
  | memcpyH2dAsync (dst : ℕ) (src : HostPtr UInt8) (bytes : ℕ) (stream : S)
  | eventRecord (event : E) (stream : S)
  | eventSynchronize (event : E)
  | streamSynchronize (stream : S)

def step [DecidableEq E] (d : MockCudaDevice S E) : Op S E → MockCudaDevice S E
  | .memcpyH2dAsync dst src bytes s => d.memcpyH2dAsync dst src bytes s
  | .eventRecord e s => d.eventRecord e s
  | .eventSynchronize e => d.eventSynchronize e
  | .streamSynchronize s => d.streamSynchronize s

/-- The copy that a call enqueues on the stream. -/
def copyOn (s : S) : Op S E → Option (Copy UInt8)
  | .memcpyH2dAsync dst src bytes t => if t = s then some ⟨dst, src.bytes, bytes⟩ else none
  | _ => none

/-- All copies enqueued on the stream, in order. -/
def enqueued (s : S) (ops : List (Op S E)) : List (Copy UInt8) := ops.filterMap (copyOn s)

/-- The copies of the stream that have run, in order. -/
def executedOn (d : MockCudaDevice S E) (s : S) : List MockCopy :=
  (d.executed.filter fun r => r.1 = s).map Prod.snd

/-- Run the copies `done` of a stream and leave `rest` pending. -/
def settle (d : MockCudaDevice S E) (s : S) (done rest : List MockCopy) : MockCudaDevice S E :=
  { d with
    streams := Function.update d.streams s { d.streams s with pending := rest }
    mem := runCopies d.mem (done.map MockCopy.toCopy)
    executed := d.executed ++ done.map (Prod.mk s) }

theorem drain_eq (s : S) (watermark : ℕ) (q : List MockCopy) (d : MockCudaDevice S E) :
    drain s watermark q d = d.settle s (q.takeWhile fun c => c.seq < watermark)
      (q.dropWhile fun c => c.seq < watermark) := by
  induction q generalizing d with
  | nil => simp [drain, settle, setPending]
  | cons c q ih =>
    rw [drain]
    split_ifs with h
    · rw [ih]
      simp [settle, execute, h, Copy.run]
    · simp [settle, setPending, h]

theorem foldl_execute (s : S) (q : List MockCopy) (d : MockCudaDevice S E) :
    (q.foldl (fun d c => d.execute s c) d).setPending s [] = d.settle s q [] := by
  induction q generalizing d with
  | nil => simp [settle, setPending]
  | cons c q ih =>
    rw [List.foldl_cons, ih]
    simp [settle, execute, Copy.run]

/-- What holds of a device after the calls `ops`, from the memory `mem`. -/
structure Inv (mem : ℕ → UInt8) (ops : List (Op S E)) (d : MockCudaDevice S E) : Prop where
  copies : ∀ s, (d.executedOn s ++ d.pending s).map MockCopy.toCopy = enqueued s ops
  seqs : ∀ s, (d.executedOn s ++ d.pending s).map MockCopy.seq = List.range (enqueued s ops).length
  next : ∀ s, (d.streams s).nextSeq = (enqueued s ops).length
  mem_eq : d.mem = runCopies mem (d.executed.map fun r => r.2.toCopy)

variable {mem : ℕ → UInt8} {ops : List (Op S E)} {d : MockCudaDevice S E}

theorem fresh_inv (mem : ℕ → UInt8) : Inv mem [] (fresh S E mem) := by
  constructor <;> simp [fresh, pending, executedOn, enqueued]

theorem enqueued_snoc (s : S) (ops : List (Op S E)) (op : Op S E) :
    enqueued s (ops ++ [op]) = enqueued s ops ++ (copyOn s op).toList := by
  rw [enqueued, List.filterMap_append]
  cases h : copyOn s op with
  | none => rw [List.filterMap_cons_none h]; rfl
  | some c => rw [List.filterMap_cons_some h]; rfl

theorem enqueued_snoc_of_none {op : Op S E} (h : ∀ s, copyOn s op = none) (s : S)
    (ops : List (Op S E)) : enqueued s (ops ++ [op]) = enqueued s ops := by
  rw [enqueued_snoc, h]
  exact List.append_nil _

theorem executedOn_settle (s t : S) (done rest : List MockCopy) :
    (d.settle s done rest).executedOn t =
      if t = s then d.executedOn s ++ done else d.executedOn t := by
  simp only [executedOn, settle, List.filter_append, List.map_append, List.filter_map]
  split_ifs with h
  · subst h
    simp [Function.comp_def]
  · simp [Function.comp_def, Ne.symm h]

theorem pending_settle (s t : S) (done rest : List MockCopy) :
    (d.settle s done rest).pending t = if t = s then rest else d.pending t := by
  simp only [pending, settle, Function.update_apply]
  split_ifs <;> rfl

/-- Running a first part of the pending copies keeps the invariant. -/
theorem Inv.settle (h : Inv mem ops d) {s : S} {done rest : List MockCopy}
    (hq : d.pending s = done ++ rest) {op : Op S E} (hop : ∀ t, copyOn t op = none) :
    Inv mem (ops ++ [op]) (d.settle s done rest) := by
  have hsame : ∀ t, (d.settle s done rest).executedOn t ++ (d.settle s done rest).pending t =
      d.executedOn t ++ d.pending t := by
    intro t
    rw [executedOn_settle, pending_settle]
    split_ifs with ht
    · rw [ht, hq, List.append_assoc]
    · rfl
  refine ⟨fun t => ?_, fun t => ?_, fun t => ?_, ?_⟩
  · rw [hsame, enqueued_snoc_of_none hop]
    exact h.copies t
  · rw [hsame, enqueued_snoc_of_none hop]
    exact h.seqs t
  · rw [enqueued_snoc_of_none hop, ← h.next t]
    simp only [MockCudaDevice.settle, Function.update_apply]
    split_ifs with ht
    · rw [ht]
    · rfl
  · simp only [MockCudaDevice.settle, List.map_append, runCopies_append, ← h.mem_eq, List.map_map]
    rfl

/-- A call that enqueues nothing and leaves the streams, the memory and the history alone. -/
theorem Inv.snoc_of_none (h : Inv mem ops d) {op : Op S E} (hop : ∀ t, copyOn t op = none)
    {d' : MockCudaDevice S E} (hstreams : d'.streams = d.streams) (hmem : d'.mem = d.mem)
    (hexec : d'.executed = d.executed) : Inv mem (ops ++ [op]) d' := by
  have hpend : ∀ t, d'.pending t = d.pending t := by
    intro t
    simp only [pending, hstreams]
  have hdone : ∀ t, d'.executedOn t = d.executedOn t := by
    intro t
    simp only [executedOn, hexec]
  refine ⟨fun t => ?_, fun t => ?_, fun t => ?_, ?_⟩
  · rw [hpend, hdone, enqueued_snoc_of_none hop]
    exact h.copies t
  · rw [hpend, hdone, enqueued_snoc_of_none hop]
    exact h.seqs t
  · rw [hstreams, enqueued_snoc_of_none hop]
    exact h.next t
  · rw [hmem, hexec]
    exact h.mem_eq

/-- An enqueued copy is the last pending one of its stream. -/
theorem Inv.memcpy (h : Inv mem ops d) (dst : ℕ) (src : HostPtr UInt8) (bytes : ℕ) (s : S) :
    Inv mem (ops ++ [.memcpyH2dAsync dst src bytes s]) (d.memcpyH2dAsync dst src bytes s) := by
  have hpend : ∀ t, (d.memcpyH2dAsync dst src bytes s).pending t = if t = s then
      d.pending s ++ [⟨⟨dst, src.bytes, bytes⟩, (d.streams s).nextSeq⟩] else d.pending t := by
    intro t
    simp only [pending, MockCudaDevice.memcpyH2dAsync, Function.update_apply]
    split_ifs <;> rfl
  have hexec : ∀ t, (d.memcpyH2dAsync dst src bytes s).executedOn t = d.executedOn t :=
    fun t => rfl
  refine ⟨fun t => ?_, fun t => ?_, fun t => ?_, h.mem_eq⟩
  · rw [hexec, hpend, enqueued_snoc, ← h.copies t]
    by_cases ht : t = s
    · simp [ht, copyOn]
    · simp [ht, copyOn, Ne.symm ht]
  · rw [hexec, hpend, enqueued_snoc]
    by_cases ht : t = s
    · subst ht
      rw [if_pos rfl, ← List.append_assoc, List.map_append, h.seqs t, h.next t]
      simp [copyOn, List.range_succ]
    · simp [ht, copyOn, Ne.symm ht, ← h.seqs t]
  · rw [enqueued_snoc]
    simp only [MockCudaDevice.memcpyH2dAsync, Function.update_apply]
    by_cases ht : t = s
    · simp [ht, copyOn, h.next s]
    · simp [ht, copyOn, Ne.symm ht, h.next t]

variable [DecidableEq E]

theorem Inv.step (h : Inv mem ops d) (op : Op S E) : Inv mem (ops ++ [op]) (d.step op) := by
  cases op with
  | memcpyH2dAsync dst src bytes s => exact h.memcpy dst src bytes s
  | eventRecord e s => exact h.snoc_of_none (fun _ => rfl) rfl rfl rfl
  | eventSynchronize e =>
    simp only [MockCudaDevice.step, eventSynchronize]
    cases hs : (d.events e).stream with
    | none => exact h.snoc_of_none (fun _ => rfl) rfl rfl rfl
    | some s =>
      dsimp only
      rw [drain_eq]
      exact h.settle List.takeWhile_append_dropWhile.symm fun _ => rfl
  | streamSynchronize s =>
    simp only [MockCudaDevice.step, streamSynchronize]
    rw [foldl_execute]
    exact h.settle (List.append_nil _).symm fun _ => rfl

theorem run_inv (mem : ℕ → UInt8) (ops : List (Op S E)) :
    Inv mem ops (run step (fresh S E mem) ops) := by
  induction ops using List.reverseRecOn with
  | nil => exact fresh_inv mem
  | append_singleton ops op ih =>
    rw [run_append, run_cons, run_nil]
    exact ih.step op

omit [DecidableEq E] in
/-- The copies that have run are the first ones, numbered from zero. -/
theorem Inv.executed_seq (h : Inv mem ops d) (s : S) :
    (d.executedOn s).map MockCopy.seq = List.range (d.executedOn s).length := by
  have hlen := congrArg List.length (h.seqs s)
  rw [List.length_map, List.length_append, List.length_range] at hlen
  have htake := congrArg (List.take (d.executedOn s).length) (h.seqs s)
  rw [List.map_append, List.take_left' (List.length_map _), List.take_range] at htake
  rw [htake, min_eq_left (by omega)]

omit [DecidableEq E] in
/-- The pending ones are numbered on from there. -/
theorem Inv.pending_seq (h : Inv mem ops d) (s : S) :
    (d.pending s).map MockCopy.seq =
      (List.range (d.pending s).length).map ((d.executedOn s).length + ·) := by
  have hlen := congrArg List.length (h.seqs s)
  rw [List.length_map, List.length_append, List.length_range] at hlen
  have hall := h.seqs s
  rw [List.map_append, h.executed_seq s, ← hlen, List.range_add] at hall
  exact List.append_cancel_left hall

omit [DecidableEq E] in
theorem Inv.pending_sorted (h : Inv mem ops d) (s : S) :
    (d.pending s).Pairwise fun a b => a.seq < b.seq := by
  have hsorted : ((d.pending s).map MockCopy.seq).Pairwise (· < ·) := by
    rw [h.pending_seq s]
    exact List.pairwise_lt_range.map _ fun _ _ hab => Nat.add_lt_add_left hab _
  exact List.pairwise_map.mp hsorted

theorem step_events_of_ne (d : MockCudaDevice S E) {e : E} {op : Op S E}
    (hop : ∀ t, op ≠ .eventRecord e t) : (d.step op).events e = d.events e := by
  cases op with
  | memcpyH2dAsync dst src bytes s => rfl
  | eventRecord e' s =>
    have hne : e ≠ e' := fun he => hop s (he ▸ rfl)
    exact Function.update_of_ne hne _ _
  | eventSynchronize e' =>
    simp only [step, eventSynchronize]
    cases (d.events e').stream with
    | none => rfl
    | some s =>
      dsimp only
      rw [drain_eq]
      rfl
  | streamSynchronize s =>
    simp only [step, streamSynchronize]
    rw [foldl_execute]
    rfl

/-- An event keeps its watermark until it is recorded again. -/
theorem run_events_of_ne (d : MockCudaDevice S E) {e : E} {ops : List (Op S E)}
    (hops : ∀ t, Op.eventRecord e t ∉ ops) : (run step d ops).events e = d.events e := by
  induction ops generalizing d with
  | nil => rfl
  | cons op ops ih =>
    have hop : ∀ t, op ≠ .eventRecord e t := fun t he => hops t (he ▸ List.mem_cons_self)
    rw [run_cons, ih _ fun t ht => hops t (List.mem_cons_of_mem _ ht), step_events_of_ne d hop]

/-- The device after a run that last recorded `e` on `s` when `pre` had been called. -/
theorem run_recorded (mem : ℕ → UInt8) (pre : List (Op S E)) (e : E) (s : S) {post : List (Op S E)}
    (hpost : ∀ t, Op.eventRecord e t ∉ post) :
    (run step (fresh S E mem) (pre ++ .eventRecord e s :: post)).events e =
      ⟨some s, (enqueued s pre).length⟩ := by
  rw [run_append, run_cons, run_events_of_ne _ hpost, step, eventRecord, (run_inv mem pre).next s]
  exact Function.update_self ..

omit [DecidableEq E] in
theorem eventSynchronize_eq (d : MockCudaDevice S E) {e : E} {s : S} {w : ℕ}
    (he : d.events e = ⟨some s, w⟩) : d.eventSynchronize e =
      d.settle s ((d.pending s).takeWhile fun c => c.seq < w)
        ((d.pending s).dropWhile fun c => c.seq < w) := by
  simp only [eventSynchronize, he]
  exact drain_eq s w (d.pending s) d

/-- In an increasing queue, dropping from the front what lies below a mark drops all of it. -/
theorem mem_dropWhile_seq {q : List MockCopy} (hq : q.Pairwise fun a b => a.seq < b.seq) (w : ℕ)
    (c : MockCopy) : (c ∈ q.dropWhile fun c => c.seq < w) ↔ c ∈ q ∧ w ≤ c.seq := by
  induction q with
  | nil => simp
  | cons a q ih =>
    obtain ⟨ha, hq⟩ := List.pairwise_cons.mp hq
    by_cases haw : a.seq < w
    · rw [List.dropWhile_cons_of_pos (by simpa using haw), ih hq, List.mem_cons]
      constructor
      · intro ⟨hc, hw⟩
        exact ⟨Or.inr hc, hw⟩
      · intro ⟨hc, hw⟩
        rcases hc with rfl | hc
        · omega
        · exact ⟨hc, hw⟩
    · rw [List.dropWhile_cons_of_neg (by simpa using haw)]
      refine ⟨fun hc => ⟨hc, ?_⟩, fun h => h.1⟩
      rcases List.mem_cons.mp hc with rfl | hc
      · omega
      · have := ha c hc
        omega

/-- A copy that a call runs: it had not run before the call. -/
def Runs (d : MockCudaDevice S E) (op : Op S E) (s : S) (c : MockCopy) : Prop :=
  c ∉ d.executedOn s ∧ c ∈ (d.step op).executedOn s

/-- After `pre`, a record of `e` on `s` and `post`: no call of `post` other than a
synchronisation with `e` has run the copy. -/
def Unforced (mem : ℕ → UInt8) (pre : List (Op S E)) (e : E) (s : S) (post : List (Op S E))
    (c : MockCopy) : Prop :=
  ∀ mid op rest, post = mid ++ op :: rest → op ≠ .eventSynchronize e →
    ¬ Runs (run step (fresh S E mem) (pre ++ .eventRecord e s :: mid)) op s c

/-- A copy enqueued after the last record of `e` only runs by a call that is no
synchronisation with `e`. -/
theorem run_forced (mem : ℕ → UInt8) (pre : List (Op S E)) (e : E) (s : S) {post : List (Op S E)}
    (hpost : ∀ t, Op.eventRecord e t ∉ post) {c : MockCopy}
    (hc : c ∈ (run step (fresh S E mem) (pre ++ .eventRecord e s :: post)).executedOn s)
    (hseq : (enqueued s pre).length ≤ c.seq) :
    ∃ mid op rest, post = mid ++ op :: rest ∧ op ≠ .eventSynchronize e ∧
      Runs (run step (fresh S E mem) (pre ++ .eventRecord e s :: mid)) op s c := by
  induction post using List.reverseRecOn with
  | nil =>
    have hinv := run_inv (E := E) mem pre
    rw [run_append, run_cons, run_nil] at hc
    have hrange := List.mem_map_of_mem (f := MockCopy.seq) hc
    have hsame : ((run step (fresh S E mem) pre).step (.eventRecord e s)).executedOn s =
        (run step (fresh S E mem) pre).executedOn s := rfl
    have hlen := congrArg List.length (hinv.copies s)
    rw [List.length_map, List.length_append] at hlen
    rw [hsame, hinv.executed_seq s, List.mem_range] at hrange
    omega
  | append_singleton post op ih =>
    have hpost' : ∀ t, Op.eventRecord e t ∉ post := fun t ht => hpost t (List.mem_append_left _ ht)
    by_cases hbefore : c ∈
        (run step (fresh S E mem) (pre ++ .eventRecord e s :: post)).executedOn s
    · obtain ⟨mid, op', rest, rfl, hne, hruns⟩ := ih hpost' hbefore
      exact ⟨mid, op', rest ++ [op], by simp, hne, hruns⟩
    · rw [← List.cons_append, ← List.append_assoc, run_append, run_cons, run_nil] at hc
      refine ⟨post, op, [], rfl, ?_, hbefore, hc⟩
      rintro rfl
      -- the watermark of `e` lies below the copy
      have he := run_recorded mem pre e s hpost'
      rw [step, eventSynchronize_eq _ he, executedOn_settle, if_pos rfl, List.mem_append] at hc
      rcases hc with hc | hc
      · exact hbefore hc
      · have hlt := List.mem_takeWhile_imp hc
        simp only [decide_eq_true_eq] at hlt
        omega

/-- Addresses written by a copy. -/
def Writes (c : Copy UInt8) (a : ℕ) : Prop := c.dst ≤ a ∧ a < c.dst + c.nbytes

/-- Copies of other streams that miss an address can be left out. -/
theorem runCopies_filter (s : S) (rs : List (S × MockCopy)) {a : ℕ} {mem mem' : ℕ → UInt8}
    (hmiss : ∀ r ∈ rs, r.1 ≠ s → ¬ Writes r.2.toCopy a) (hmem : mem a = mem' a) :
    runCopies mem (rs.map fun r => r.2.toCopy) a =
      runCopies mem' ((rs.filter fun r => r.1 = s).map fun r => r.2.toCopy) a := by
  induction rs generalizing mem mem' with
  | nil => exact hmem
  | cons r rs ih =>
    obtain ⟨hr, hrs⟩ := List.forall_mem_cons.mp hmiss
    rw [List.map_cons, runCopies_cons]
    by_cases hs : r.1 = s
    · rw [List.filter_cons_of_pos (by simpa using hs), List.map_cons, runCopies_cons]
      apply ih hrs
      simp only [Copy.run, memcpy, hmem]
    · rw [List.filter_cons_of_neg (by simpa using hs)]
      apply ih hrs
      rw [← hmem]
      exact if_neg (hr hs)

omit [DecidableEq E] in
/-- A copy that has run was enqueued on its stream. -/
theorem Inv.mem_enqueued (h : Inv mem ops d) {r : S × MockCopy} (hr : r ∈ d.executed) :
    r.2.toCopy ∈ enqueued r.1 ops := by
  rw [← h.copies r.1]
  apply List.mem_map_of_mem
  apply List.mem_append_left
  refine List.mem_map.mpr ⟨r, List.mem_filter.mpr ⟨hr, ?_⟩, rfl⟩
  simp

omit [DecidableEq E] in
/-- When the pending copies are numbered from `w` on, the first `w` copies have run. -/
theorem Inv.take_executed (h : Inv mem ops d) {s : S} {w : ℕ} (hw : w ≤ (enqueued s ops).length)
    (hpend : ∀ c ∈ d.pending s, w ≤ c.seq) :
    ((d.executedOn s).map MockCopy.toCopy).take w = (enqueued s ops).take w := by
  have hcopies := h.copies s
  -- the first pending copy is numbered by the length of what has run
  have hlong : w ≤ (d.executedOn s).length := by
    by_contra hshort
    have hlen := congrArg List.length hcopies
    simp only [List.length_map, List.length_append] at hlen
    have hmem : (d.executedOn s).length ∈ (d.pending s).map MockCopy.seq := by
      rw [h.pending_seq s]
      exact List.mem_map.mpr ⟨0, List.mem_range.mpr (by omega), rfl⟩
    obtain ⟨c, hc, hseq⟩ := List.mem_map.mp hmem
    have hle := hpend c hc
    omega
  have htake := congrArg (List.take w) hcopies
  rwa [List.map_append, List.take_append_of_le_length (by rwa [List.length_map])] at htake

/-- Synchronising with an event runs no later copy of its stream. -/
theorem Unforced.not_executed {pre : List (Op S E)} {e : E} {s : S} {post : List (Op S E)}
    {c : MockCopy} (h : Unforced mem pre e s post c) (hpost : ∀ t, Op.eventRecord e t ∉ post)
    (hseq : (enqueued s pre).length ≤ c.seq) :
    c ∉ ((run step (fresh S E mem) (pre ++ .eventRecord e s :: post)).eventSynchronize
      e).executedOn s := by
  intro hran
  have hran' : c ∈ (run step (fresh S E mem)
      (pre ++ .eventRecord e s :: (post ++ [.eventSynchronize e]))).executedOn s := by
    rw [← List.cons_append, ← List.append_assoc, run_append]
    exact hran
  have hpost' : ∀ t, Op.eventRecord e t ∉ post ++ [.eventSynchronize e] := by
    intro t
    simp [hpost t]
  obtain ⟨mid, op, rest, hsplit, hne, hruns⟩ := run_forced mem pre e s hpost' hran' hseq
  -- the call is not the last one, which synchronises with `e`
  rcases List.eq_nil_or_concat rest with rfl | ⟨rest, last, rfl⟩
  · have hlast := (List.append_inj' hsplit rfl).2
    exact hne (List.cons.inj hlast).1.symm
  · rw [List.concat_eq_append, ← List.cons_append, ← List.append_assoc] at hsplit
    exact h mid op rest (List.append_inj' hsplit rfl).1 hne hruns

/-- Synchronising with an event runs what its stream held at the last record, and of the
later copies none. -/
theorem run_eventSynchronize (mem : ℕ → UInt8) (pre : List (Op S E)) (e : E) (s : S)
    {post : List (Op S E)} (hpost : ∀ t, Op.eventRecord e t ∉ post) :
    let d := (run step (fresh S E mem) (pre ++ .eventRecord e s :: post)).eventSynchronize e
    ((d.executedOn s).map MockCopy.toCopy).take (enqueued s pre).length = enqueued s pre ∧
      ∀ c ∈ d.executedOn s ++ d.pending s, (enqueued s pre).length ≤ c.seq →
        Unforced mem pre e s post c → c ∈ d.pending s := by
  intro d
  have hinv := run_inv mem (pre ++ .eventRecord e s :: post)
  have hd := eventSynchronize_eq _ (run_recorded mem pre e s hpost)
  have hafter : Inv mem (pre ++ .eventRecord e s :: post ++ [.eventSynchronize e]) d :=
    hinv.step (.eventSynchronize e)
  have hpend : ∀ c ∈ d.pending s, (enqueued s pre).length ≤ c.seq := by
    intro c hc
    simp only [d, hd, pending_settle, if_pos] at hc
    exact ((mem_dropWhile_seq (hinv.pending_sorted s) _ c).mp hc).2
  have hpre : enqueued s (pre ++ .eventRecord e s :: post ++ [.eventSynchronize e]) =
      enqueued s pre ++ enqueued s post := by
    rw [enqueued_snoc_of_none (fun _ => rfl), enqueued, List.filterMap_append,
      List.filterMap_cons_none rfl]
    rfl
  constructor
  · have hlen : (enqueued s pre).length ≤
        (enqueued s (pre ++ .eventRecord e s :: post ++ [.eventSynchronize e])).length := by
      rw [hpre, List.length_append]
      omega
    have htake := hafter.take_executed hlen hpend
    rwa [hpre, List.take_left] at htake
  · intro c hc hseq hun
    exact (List.mem_append.mp hc).resolve_left (hun.not_executed hpost hseq)

/-- After a stream is synchronised, the addresses that its copies write hold what all of
its copies leave there when run once each in the order of the calls. -/
theorem run_streamSynchronize (mem : ℕ → UInt8) (ops : List (Op S E)) (s : S)
    (hapart : ∀ t, t ≠ s → ∀ c ∈ enqueued s ops, ∀ c' ∈ enqueued t ops, ∀ a,
      Writes c a → ¬ Writes c' a) {a : ℕ} (ha : ∃ c ∈ enqueued s ops, Writes c a) :
    ((run step (fresh S E mem) ops).streamSynchronize s).mem a =
      runCopies mem (enqueued s ops) a := by
  have hinv := run_inv mem ops
  have hsync : Inv mem (ops ++ [.streamSynchronize s])
      ((run step (fresh S E mem) ops).streamSynchronize s) := hinv.step (.streamSynchronize s)
  have hops : ∀ t, enqueued t (ops ++ [.streamSynchronize s]) = enqueued t ops :=
    fun t => enqueued_snoc_of_none (fun _ => rfl) t ops
  have hempty : ((run step (fresh S E mem) ops).streamSynchronize s).pending s = [] := by
    rw [streamSynchronize, foldl_execute, pending_settle, if_pos rfl]
  have hall := hsync.copies s
  rw [hempty, List.append_nil, hops, executedOn, List.map_map] at hall
  obtain ⟨c, hc, hca⟩ := ha
  have hmiss : ∀ r ∈ ((run step (fresh S E mem) ops).streamSynchronize s).executed, r.1 ≠ s →
      ¬ Writes r.2.toCopy a := by
    intro r hr hne hwrites
    have hmem := hsync.mem_enqueued hr
    rw [hops] at hmem
    exact hapart r.1 hne c hc _ hmem a hca hwrites
  have hsame : mem a = mem a := rfl
  rw [hsync.mem_eq, runCopies_filter s _ hmiss hsame, ← hall]
  rfl

/-- For every sequence of calls on any streams and events: pending copies are numbered
upwards; what has run and what is pending are, in this order, the enqueued copies of the
stream, each once; events and synchronised streams do what their contract says. -/
theorem run_stream_semantics (mem : ℕ → UInt8) (ops : List (Op S E)) :
    let d := run step (fresh S E mem) ops
    (∀ s, (d.pending s).Pairwise fun a b => a.seq < b.seq) ∧
      (∀ s, (d.executedOn s ++ d.pending s).map MockCopy.toCopy = enqueued s ops ∧
        (d.executedOn s ++ d.pending s).map MockCopy.seq = List.range (enqueued s ops).length) ∧
      (∀ pre e s post, ops = pre ++ .eventRecord e s :: post →
        (∀ t, Op.eventRecord e t ∉ post) →
        let d' := d.eventSynchronize e
        ((d'.executedOn s).map MockCopy.toCopy).take (enqueued s pre).length = enqueued s pre ∧
          ∀ c ∈ d'.executedOn s ++ d'.pending s, (enqueued s pre).length ≤ c.seq →
            Unforced mem pre e s post c → c ∈ d'.pending s) ∧
      ∀ s, (∀ t, t ≠ s → ∀ c ∈ enqueued s ops, ∀ c' ∈ enqueued t ops, ∀ a,
          Writes c a → ¬ Writes c' a) →
        ∀ a, (∃ c ∈ enqueued s ops, Writes c a) →
          (d.streamSynchronize s).mem a = runCopies mem (enqueued s ops) a := by
  intro d
  have hinv := run_inv mem ops
  refine ⟨hinv.pending_sorted, fun s => ⟨hinv.copies s, hinv.seqs s⟩, ?_, ?_⟩
  · intro pre e s post hops hpost
    subst hops
    exact run_eventSynchronize mem pre e s hpost
  · intro s hapart a ha
    exact run_streamSynchronize mem ops s hapart ha

/-- Two copies on one stream with an event between them: the second stays pending. -/
theorem run_stream_semantics_two_copies :
    let ops : List (Op Unit Unit) := [.memcpyH2dAsync 0 ⟨8, fun _ => 1⟩ 2 (),
      .eventRecord () (), .memcpyH2dAsync 1 ⟨9, fun _ => 2⟩ 2 ()]
    let d := (run step (fresh Unit Unit fun _ => 0) ops).eventSynchronize ()
    ((d.executedOn ()).map MockCopy.toCopy).take 1 = [⟨0, fun _ => 1, 2⟩] ∧
      ((run step (fresh Unit Unit fun _ => 0) ops).streamSynchronize ()).mem 1 = 2 := by
  intro ops d
  obtain ⟨-, -, hevent, hstream⟩ := run_stream_semantics (fun _ => 0) ops
  constructor
  · refine (hevent [.memcpyH2dAsync 0 ⟨8, fun _ => 1⟩ 2 ()] () () _ rfl ?_).1
    intro t
    simp
  · rw [hstream () (fun t ht => absurd rfl ht) 1 ⟨⟨0, fun _ => 1, 2⟩, by simp [ops, enqueued, copyOn],
      by simp [Writes]⟩]
    rfl

end MockCudaDevice
end Dee
