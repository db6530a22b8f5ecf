import Dee.CountedLoops
import Dee.DeltaPrefetch
import Dee.DeviceStreams
import Dee.SlotTable
import Dee.ThreadLaunch

/-! The prefetch pipeline over a pool of device memory. The host keeps the slot table and issues
copies and compute steps to two streams; the copy kernel moves an expert from the staging buffer
into its slot. -/
namespace Dee
open CountedLoops DeviceStreams GuardedRuns ThreadLaunch

inductive PipelineError
  | slot (e : SlotError)
  | indexError
  deriving DecidableEq, Repr

inductive StreamName
  | main
  | prefetch
  deriving DecidableEq, Repr

/-- The work that is issued to the streams; rows are those of `cpu_experts` and `vram_pool`. -/
inductive Work
  /-- the Oracle's forward pass -/
  | forward
  /-- `stage.copy_(cpu_experts[row])` -/
  | stage (row : ℕ)
  /-- the copy kernel from `stage` to `vram_pool[row]` -/
  | move (row : ℕ)
  /-- the stack of the resident rows, and its product -/
  | stack (rows : List ℕ)

def Work.isStage : Work → Bool
  | .stage _ => true
  | .forward => false
  | .move _ => false
  | .stack _ => false

/-! The device -/

structure Gpu (V : Type*) where
  stage : ℕ → V
  pool : ℕ → V
  /-- what the compute steps have read, a list of rows each -/
  blocks : List (List (List V))

section Device
variable {V : Type*}

/-- `pid * BLOCK + tl.arange(0, BLOCK)` in 32 bits, for one element of the block. -/
def laneOffset (t : ℕ × ℕ) : ℤ := ((t.1 * 1024 + t.2 : ℕ) : ℤ).bmod (2 ^ 32)

def copyExpertsKernel (src : ℕ → V) (dst nElements : ℕ) (t : ℕ × ℕ) : Option (ℕ × V) :=
  let offset := laneOffset t
  if offset < nElements then some (dst + offset.toNat, src offset.toNat) else none

/-- `(d * d + 1024 - 1) // 1024` -/
def copyGrid (n : ℕ) : ℕ := (n + 1024 - 1) / 1024

/-- The values of a row of the pool. -/
def poolRow (pool : ℕ → V) (n row : ℕ) : List V := (List.range n).map fun i => pool (row * n + i)

/-- What a work does; experts have `n` elements, and `weights` are the rows on the host. -/
inductive Exec (weights : ℕ → ℕ → V) (n : ℕ) : Work → Gpu V → Gpu V → Prop
  | forward (g : Gpu V) : Exec weights n .forward g g
  | stage (row : ℕ) (g : Gpu V) : Exec weights n (.stage row) g
      { g with stage := fun i => if i < n then weights row i else g.stage i }
  | move (row : ℕ) (g : Gpu V) {order : List (ℕ × ℕ)} : order.Perm (threads (copyGrid n) 1024) →
      Exec weights n (.move row) g
        { g with pool := runThreads (copyExpertsKernel g.stage (row * n) n) order g.pool }
  | stack (rows : List ℕ) (g : Gpu V) : Exec weights n (.stack rows) g
      { g with blocks := g.blocks ++ [rows.map (poolRow g.pool n)] }

/-- What a work does, whatever the order of its programs. -/
def Work.effect (weights : ℕ → ℕ → V) (n : ℕ) : Work → Gpu V → Gpu V
  | .forward, g => g
  | .stage row, g => { g with stage := fun i => if i < n then weights row i else g.stage i }
  | .move row, g => { g with pool := fun a =>
      if row * n ≤ a ∧ a < row * n + n then g.stage (a - row * n) else g.pool a }
  | .stack rows, g => { g with blocks := g.blocks ++ [rows.map (poolRow g.pool n)] }

theorem copyGrid_le (n : ℕ) : n ≤ copyGrid n * 1024 ∧ copyGrid n * 1024 ≤ n + 1023 := by
  unfold copyGrid
  omega

/-- The programs cover the block once, in whatever order they run. -/
theorem runThreads_copyExpertsKernel {n : ℕ} (hn : n + 1023 < 2 ^ 31) {order : List (ℕ × ℕ)}
    (horder : order.Perm (threads (copyGrid n) 1024)) (src : ℕ → V) (dst : ℕ) (pool : ℕ → V) :
    runThreads (copyExpertsKernel src dst n) order pool =
      fun a => if dst ≤ a ∧ a < dst + n then src (a - dst) else pool a := by
  obtain ⟨hle, hgrid⟩ := copyGrid_le n
  have hkernel : ∀ t ∈ order, copyExpertsKernel src dst n t =
      if t.1 * 1024 + t.2 < n then some (dst + (t.1 * 1024 + t.2), src (t.1 * 1024 + t.2))
      else none := by
    intro t ht
    have hlt := exists_mem_threads.mp ⟨t, horder.mem_iff.mp ht, rfl⟩
    have hoffset : laneOffset t = ((t.1 * 1024 + t.2 : ℕ) : ℤ) := by
      apply Int.bmod_eq_of_le
      · omega
      · omega
    simp only [copyExpertsKernel, hoffset, Int.toNat_natCast, Nat.cast_lt]
  have hval : ∀ t ∈ order, ∀ s, copyExpertsKernel src dst n t = some s → s.2 = src (s.1 - dst) := by
    intro t ht s hs
    rw [hkernel t ht] at hs
    split_ifs at hs
    rw [← Option.some.inj hs, Nat.add_sub_cancel_left]
  have hstored : ∀ a, a ∈ stored (copyExpertsKernel src dst n) order ↔ dst ≤ a ∧ a < dst + n := by
    intro a
    rw [mem_stored]
    constructor
    · rintro ⟨t, ht, v, hv⟩
      rw [hkernel t ht] at hv
      split_ifs at hv
      have haddr := congrArg Prod.fst (Option.some.inj hv)
      simp only at haddr
      omega
    · intro ha
      obtain ⟨t, ht, hnum⟩ := exists_mem_threads.mpr
        (show a - dst < copyGrid n * 1024 by omega)
      have hmem := horder.mem_iff.mpr ht
      refine ⟨t, hmem, src (a - dst), ?_⟩
      rw [hkernel t hmem, hnum, if_pos (by omega), Nat.add_sub_cancel' ha.1]
  funext a
  have hrun := @runThreads_apply _ _ _ (fun a => src (a - dst)) order hval pool a
  rw [hrun]
  simp only [hstored]

/-- A step of the device is the effect of its work. -/
theorem Exec.eq_effect {weights : ℕ → ℕ → V} {n : ℕ} (hn : n + 1023 < 2 ^ 31) {w : Work}
    {g g' : Gpu V} (h : Exec weights n w g g') : g' = w.effect weights n g := by
  cases h with
  | forward => rfl
  | stage => rfl
  | move row _ horder => simp only [Work.effect, runThreads_copyExpertsKernel hn horder]
  | stack => rfl

theorem exec_total (weights : ℕ → ℕ → V) (n : ℕ) (w : Work) (g : Gpu V) :
    ∃ g', Exec weights n w g g' := by
  cases w with
  | forward => exact ⟨_, .forward g⟩
  | stage row => exact ⟨_, .stage row g⟩
  | move row => exact ⟨_, .move row g (.refl _)⟩
  | stack rows => exact ⟨_, .stack rows g⟩

/-- The memory after works that ran one after the other. -/
def memoryAfter (weights : ℕ → ℕ → V) (n : ℕ) (g : Gpu V) (ws : List Work) : Gpu V :=
  ws.foldl (fun g w => w.effect weights n g) g

theorem memoryAfter_append (weights : ℕ → ℕ → V) (n : ℕ) (g : Gpu V) (ws ws' : List Work) :
    memoryAfter weights n g (ws ++ ws') =
      memoryAfter weights n (memoryAfter weights n g ws) ws' := List.foldl_append

theorem runs_memoryAfter {weights : ℕ → ℕ → V} {n : ℕ} (hn : n + 1023 < 2 ^ 31) {ws : List Work}
    {g g' : Gpu V} (h : Runs (Exec weights n) ws g g') : g' = memoryAfter weights n g ws := by
  induction h with
  | nil => rfl
  | snoc _ hexec ih =>
    rw [memoryAfter_append, ← ih, hexec.eq_effect hn]
    rfl

/-- What has been read stays read. -/
theorem blocks_prefix (weights : ℕ → ℕ → V) (n : ℕ) (g : Gpu V) (ws : List Work) :
    g.blocks <+: (memoryAfter weights n g ws).blocks := by
  induction ws generalizing g with
  | nil => exact List.prefix_refl _
  | cons w ws ih =>
    refine List.IsPrefix.trans ?_ (ih (w.effect weights n g))
    cases w with
    | forward => exact List.prefix_refl _
    | stage row => exact List.prefix_refl _
    | move row => exact List.prefix_refl _
    | stack rows => exact List.prefix_append _ _

end Device

/-! The host -/

structure Pipeline where
  table : SlotTable
  missesTotal : ℕ
  events : List (Event StreamName Work)
  /-- the experts of every stack -/
  served : List (List ℤ)

namespace Pipeline
variable (numExperts capacity : ℕ)

def init (order : IterationOrder ℤ Unit) (topKPred : ℤ) : Pipeline :=
  ⟨.init order capacity numExperts topKPred, 0, [], []⟩

/-- `tensor[i]` for a tensor of `n` rows; negative indices count from the end. -/
def tensorRow (n : ℕ) (i : ℤ) : Except PipelineError ℕ :=
  if -n ≤ i ∧ i < n then .ok (if i < 0 then i + n else i).toNat else .error .indexError

def emit (p : Pipeline) (es : List (Event StreamName Work)) : Pipeline :=
  { p with events := p.events ++ es }

/-- The copies into the reserved slot, and the call of the cache's own `prefetch`. -/
def load (p : Pipeline) (s : SlotTable) (e token : ℤ) (onStream : StreamName) :
    Except PipelineError Pipeline := do
  let src ← tensorRow numExperts e
  let dst ← tensorRow capacity (s.slotOf e)
  .ok ({ p with table := s.fill e token }.emit
    [.launch onStream (.stage src), .launch onStream (.move dst)])

def ensureResident (p : Pipeline) (e token : ℤ) (onStream : StreamName) :
    Except PipelineError (Bool × Pipeline) :=
  if e ∈ p.table.cache.vram.members then .ok (true, p)
  else
    match p.table.reserve e token with
    | .error err => .error (.slot err)
    | .ok none => .ok (false, p)
    | .ok (some s) => (p.load numExperts capacity s e token onStream).map fun p => (false, p)

/-- One turn of the loop over the missing experts. -/
def prefetchMissing (token : ℤ) (p : Pipeline) (e : ℤ) : Except PipelineError Pipeline :=
  (p.ensureResident numExperts capacity e token .prefetch).map Prod.snd

/-- One turn of the loop over the requested experts. -/
def request (token : ℤ) (p : Pipeline) (e : ℤ) : Except PipelineError Pipeline :=
  (p.ensureResident numExperts capacity e token .main).map fun r =>
    if r.1 then r.2 else { r.2 with missesTotal := r.2.missesTotal + 1 }

/-- `sum(1 for v in slot_of_expert.values() if v != -1)` -/
def resident (p : Pipeline) : ℕ :=
  (p.table.slotOfExpert.entries.filter fun e => e.2 ≠ -1).length

/-- The compute step over the resident blocks; every id below `num_experts` has an entry in
the table. -/
def compute (p : Pipeline) : Except PipelineError Pipeline :=
  if p.resident = 0 then .ok p
  else do
    let experts := (SlotTable.range numExperts).filter fun e => p.table.slotOf e ≠ -1
    let rows ← experts.mapM fun e => tensorRow capacity (p.table.slotOf e)
    .ok { p.emit [.launch .main (.stack rows)] with served := p.served ++ [experts] }

/-- The prediction is copied to the host, which waits for the main stream. -/
def predict (p : Pipeline) (predTopk : List ℤ) : Pipeline :=
  { p with table := { p.table with cache := p.table.cache.setLookaheadRanked predTopk } }.emit
    [.launch .main .forward, .sync .main]

/-- The missing experts are loaded on the second stream, and then the host waits for both. -/
def prefetchAll (p : Pipeline) (predTopk : List ℤ) (token : ℤ) : Except PipelineError Pipeline := do
  let missing := predTopk.filter fun e => e ∉ p.table.cache.vram.members
  let p ← missing.foldlM (prefetchMissing numExperts capacity token) p
  .ok ((if missing = [] then p else p.emit [.sync .prefetch]).emit [.sync .main])

def serveToken (p : Pipeline) (predTopk : List ℤ) (t : ℕ) : Except PipelineError Pipeline := do
  let p ← (p.predict predTopk).prefetchAll numExperts capacity predTopk t
  let p ← predTopk.foldlM (request numExperts capacity (t + 1)) p
  p.compute numExperts capacity

/-- The loop over the tokens, given the predictions. -/
def runTritonPrefetch (order : IterationOrder ℤ Unit) (topKPred : ℤ) (preds : List (List ℤ)) :
    Except PipelineError Pipeline :=
  preds.zipIdx.foldlM (fun p x => p.serveToken numExperts capacity x.1 x.2)
    (init numExperts capacity order topKPred)

end Pipeline

/-! What a load does to the table -/

namespace SlotTable
variable {s s' : SlotTable} {capacity : ℕ} {e : ℤ}

/-- From `s` to `s'` the expert was loaded, into a free slot or for a victim of least score. -/
structure Loads (s s' : SlotTable) (e : ℤ) (victims : List ℤ) : Prop where
  mem : ∀ f, f ∈ s'.cache.vram.members ↔ f = e ∨ f ∈ s.cache.vram.members ∧ f ∉ victims
  slots : ∀ f, f ≠ e → f ∉ victims → s'.slotOf f = s.slotOf f
  evictions : s'.evictionsTotal = s.evictionsTotal + victims.length
  config : s'.cache.config = s.cache.config
  victim : (s.freeSlots ≠ [] ∧ victims = []) ∨ (s.freeSlots = [] ∧
    ∃ v ∈ s.cache.vram.members, victims = [v] ∧
      ∀ u ∈ s.cache.vram.members, ¬ pairLt (s.cache.keepScore u) (s.cache.keepScore v))

theorem takeSlot_ok (h : s.takeSlot e = .ok s') : s'.cache = s.cache ∧
    s'.evictionsTotal = s.evictionsTotal ∧ ∀ f, f ≠ e → s'.slotOf f = s.slotOf f := by
  cases hfree : s.freeSlots with
  | nil =>
    simp only [SlotTable.takeSlot, hfree] at h
    cases h
  | cons slot rest =>
    simp only [SlotTable.takeSlot, hfree] at h
    cases h
    exact ⟨rfl, rfl, fun f hf => (slotOf_assign rfl f).trans (if_neg hf)⟩

theorem ok_of_map_some {x : Except SlotError SlotTable} (h : some <$> x = .ok (some s')) :
    x = .ok s' := by
  cases x with
  | error => cases h
  | ok a =>
    cases h
    rfl

/-- A missing expert is loaded. -/
theorem Lockstep.loads (h : s.Lockstep capacity) (hpos : 1 ≤ capacity)
    (hno : e ∉ s.cache.vram.members) (token : ℤ) : ∃ s', s.reserve e token = .ok (some s') ∧
      (s'.fill e token).Lockstep capacity ∧ ∃ victims, Loads s (s'.fill e token) e victims := by
  obtain ⟨s', hs', hres⟩ := h.reserve hpos hno token
  have hadd : ∀ f, f ∈ (s'.fill e token).cache.vram.members ↔
      f = e ∨ f ∈ s'.cache.vram.members := by
    intro f
    simp only [fill, (ExpertCache.prefetch_of_room token hres.missing hres.room).1]
    exact UnorderedSet.mem_add
  have hconfig : (s'.fill e token).cache.config = s'.cache.config :=
    ExpertCache.config_prefetch s'.cache e token
  refine ⟨s', hs', hres.filled token, ?_⟩
  unfold SlotTable.reserve at hs'
  by_cases hfree : s.freeSlots = []
  · rw [if_pos hfree] at hs'
    rcases s.cache.evict_cases token with ⟨hnil, -⟩ | ⟨v, hv, hmin, hev⟩
    · have hlen := h.length_add
      rw [hfree, hnil] at hlen
      simp only [List.length_nil] at hlen
      omega
    · rw [hev] at hs'
      simp only [SlotTable.freeSlot, h.find?_of_mem hv] at hs'
      obtain ⟨hcache, hcount, hslot⟩ := takeSlot_ok (ok_of_map_some hs')
      refine ⟨[v], fun f => ?_, fun f hf hfv => ?_, hcount, ?_, Or.inr ⟨hfree, v, hv, rfl, hmin⟩⟩
      · rw [hadd, hcache, List.mem_singleton]
        exact or_congr_right UnorderedSet.mem_discard
      · have hne : f ≠ v := fun heq => hfv (List.mem_singleton.mpr heq)
        exact (hslot f hf).trans ((slotOf_assign rfl f).trans (if_neg hne))
      · rw [hconfig, hcache]
        rfl
  · rw [if_neg hfree] at hs'
    obtain ⟨hcache, hcount, hslot⟩ := takeSlot_ok (ok_of_map_some hs')
    refine ⟨[], fun f => ?_, fun f hf _ => hslot f hf, hcount, ?_, Or.inl ⟨hfree, rfl⟩⟩
    · rw [hadd, hcache]
      simp
    · rw [hconfig, hcache]

/-- A load adds one resident, and removes its victim. -/
theorem Loads.length_eq {victims : List ℤ} (h : Loads s s' e victims)
    (hno : e ∉ s.cache.vram.members) :
    s'.cache.vram.members.length + victims.length = s.cache.vram.members.length + 1 := by
  have hsub : ∀ v ∈ victims, v ∈ s.cache.vram.members := by
    rcases h.victim with ⟨-, rfl⟩ | ⟨-, v, hv, rfl, -⟩
    · simp
    · simpa using hv
  have hnodup : (victims ++ s'.cache.vram.members).Nodup := by
    refine List.nodup_append.mpr ⟨?_, UnorderedSet.members_nodup _, fun v hv f hf heq => ?_⟩
    · rcases h.victim with ⟨-, rfl⟩ | ⟨-, v, -, rfl, -⟩ <;> simp
    · subst heq
      rcases (h.mem v).mp hf with rfl | ⟨-, hnot⟩
      · exact hno (hsub v hv)
      · exact hnot hv
  have hperm : (victims ++ s'.cache.vram.members).Perm (e :: s.cache.vram.members) := by
    refine (List.perm_ext_iff_of_nodup hnodup
      (List.nodup_cons.mpr ⟨hno, UnorderedSet.members_nodup _⟩)).mpr fun f => ?_
    rw [List.mem_append, h.mem, List.mem_cons]
    constructor
    · rintro (hf | hf | hf)
      · exact Or.inr (hsub f hf)
      · exact Or.inl hf
      · exact Or.inr hf.1
    · rintro (hf | hf)
      · exact Or.inr (Or.inl hf)
      · by_cases hv : f ∈ victims
        · exact Or.inl hv
        · exact Or.inr (Or.inr ⟨hf, hv⟩)
  have hlen := hperm.length_eq
  rw [List.length_append, List.length_cons] at hlen
  omega

/-- A prediction that fits loses none of its members to another one. -/
theorem Loads.spares {victims ids : List ℤ} (h : Loads s s' e victims)
    (hlock : s.Lockstep capacity) (hranks : s.cache.Ranks ids) (hfits : ids.length ≤ capacity)
    (he : e ∈ ids) (hno : e ∉ s.cache.vram.members) : ∀ v ∈ victims, v ∉ ids := by
  rcases h.victim with ⟨-, rfl⟩ | ⟨hfree, v, hv, rfl, hmin⟩
  · simp
  · have hfull := hlock.length_add
    rw [hfree, List.length_nil, Nat.zero_add] at hfull
    have hlowest := hranks.lowestRanked hv hmin
    have hnot := hlowest.unpredicted
      (ExpertCache.exists_unpredicted (UnorderedSet.members_nodup _) (hfull ▸ hfits) he hno)
    simpa using hnot

end SlotTable

namespace Pipeline
variable {numExperts capacity : ℕ} {p p' : Pipeline} {e : ℤ} {onStream : StreamName}

/-! What a load does to the pipeline -/

theorem tensorRow_of_mem {n : ℕ} {i : ℤ} (h : 0 ≤ i ∧ i < n) : tensorRow n i = .ok i.toNat := by
  rw [tensorRow, if_pos (by omega), if_neg (by omega)]

/-- The expert was loaded: the table knows it, and its copies are issued. On the main stream
that is a miss. -/
structure LoadsOne (numExperts capacity : ℕ) (onStream : StreamName) (e : ℤ) (p p' : Pipeline) :
    Prop where
  missing : e ∉ p.table.cache.vram.members
  valid : 0 ≤ e ∧ e < numExperts
  lockstep : p'.table.Lockstep capacity
  loads : ∃ victims, SlotTable.Loads p.table p'.table e victims
  events : p'.events = p.events ++ [.launch onStream (.stage e.toNat),
    .launch onStream (.move (p'.table.slotOf e).toNat)]
  served : p'.served = p.served
  misses : p'.missesTotal = p.missesTotal + if onStream = .main then 1 else 0

theorem LoadsOne.mem (h : LoadsOne numExperts capacity onStream e p p') :
    e ∈ p'.table.cache.vram.members := by
  obtain ⟨victims, hloads⟩ := h.loads
  exact (hloads.mem e).mpr (Or.inl rfl)

theorem slotOf_range {s : SlotTable} (h : s.Lockstep capacity) (he : e ∈ s.cache.vram.members) :
    0 ≤ s.slotOf e ∧ s.slotOf e < capacity :=
  (h.agrees.cover _).mp (Or.inr ⟨e, he, rfl⟩)

theorem ensureResident_of_mem (he : e ∈ p.table.cache.vram.members) (token : ℤ) :
    p.ensureResident numExperts capacity e token onStream = .ok (true, p) := if_pos he

/-- What `ensure_resident` does to a missing expert; the caller counts the misses. -/
theorem ensureResident_of_not_mem (h : p.table.Lockstep capacity) (hpos : 1 ≤ capacity)
    (he : 0 ≤ e ∧ e < numExperts) (hno : e ∉ p.table.cache.vram.members) (token : ℤ)
    (onStream : StreamName) :
    ∃ p', p.ensureResident numExperts capacity e token onStream = .ok (false, p') ∧
      LoadsOne numExperts capacity onStream e p
        { p' with missesTotal := p'.missesTotal + if onStream = .main then 1 else 0 } := by
  obtain ⟨s, hs, hlock, victims, hloads⟩ := h.loads hpos hno token
  have hrange := slotOf_range hlock ((hloads.mem e).mpr (Or.inl rfl))
  have hslot : 0 ≤ s.slotOf e ∧ s.slotOf e < capacity := hrange
  refine ⟨{ p with table := s.fill e token }.emit [.launch onStream (.stage e.toNat),
    .launch onStream (.move (s.slotOf e).toNat)], ?_, hno, he, hlock, ⟨victims, hloads⟩, rfl, rfl,
    rfl⟩
  rw [ensureResident, if_neg hno, hs]
  simp only [load, tensorRow_of_mem he, tensorRow_of_mem hslot]
  rfl

/-- A turn of a loop: nothing happens to a resident expert, and a missing one is loaded. -/
def Turns (numExperts capacity : ℕ) (onStream : StreamName)
    (turn : Pipeline → ℤ → Except PipelineError Pipeline) : Prop :=
  ∀ p e, p.table.Lockstep capacity → 0 ≤ e ∧ e < (numExperts : ℤ) →
    (e ∈ p.table.cache.vram.members ∧ turn p e = .ok p) ∨
      ∃ p', turn p e = .ok p' ∧ LoadsOne numExperts capacity onStream e p p'

theorem turns_prefetchMissing (hpos : 1 ≤ capacity) (token : ℤ) :
    Turns numExperts capacity .prefetch (prefetchMissing numExperts capacity token) := by
  intro p e h he
  by_cases hmem : e ∈ p.table.cache.vram.members
  · exact Or.inl ⟨hmem, by rw [prefetchMissing, ensureResident_of_mem hmem]; rfl⟩
  · obtain ⟨p', hens, hone⟩ := ensureResident_of_not_mem h hpos he hmem token .prefetch
    exact Or.inr ⟨p', by rw [prefetchMissing, hens]; rfl, hone⟩

theorem turns_request (hpos : 1 ≤ capacity) (token : ℤ) :
    Turns numExperts capacity .main (request numExperts capacity token) := by
  intro p e h he
  by_cases hmem : e ∈ p.table.cache.vram.members
  · exact Or.inl ⟨hmem, by rw [request, ensureResident_of_mem hmem]; rfl⟩
  · obtain ⟨p', hens, hone⟩ := ensureResident_of_not_mem h hpos he hmem token .main
    exact Or.inr ⟨_, by rw [request, hens]; rfl, hone⟩

/-- What each load keeps, a loop keeps. -/
theorem Turns.foldlM {turn : Pipeline → ℤ → Except PipelineError Pipeline}
    (h : Turns numExperts capacity onStream turn) {P : List ℤ → Pipeline → Prop} {es : List ℤ}
    (hvalid : ∀ e ∈ es, 0 ≤ e ∧ e < (numExperts : ℤ))
    (hlock : ∀ pre p, P pre p → p.table.Lockstep capacity)
    (hmem : ∀ pre p, ∀ e ∈ es, e ∈ p.table.cache.vram.members → P pre p → P (pre ++ [e]) p)
    (hload : ∀ pre p p', ∀ e ∈ es, LoadsOne numExperts capacity onStream e p p' → P pre p →
      P (pre ++ [e]) p') (h0 : P [] p) : ∃ p', es.foldlM turn p = .ok p' ∧ P es p' := by
  refine foldlM_ok_prefix (fun pre p e he hP => ?_) [] h0
  rcases h p e (hlock pre p hP) (hvalid e he) with ⟨hin, hturn⟩ | ⟨p', hturn, hone⟩
  · exact ⟨p, hturn, hmem pre p e he hin hP⟩
  · exact ⟨p', hturn, hload pre p p' e he hone hP⟩

/-! The compute step -/

/-- The experts of the stack are the residents, and their count is that of the cache. -/
theorem resident_eq (h : p.table.Lockstep capacity) :
    p.resident = p.table.cache.vram.members.length := by
  have hperm : ((p.table.slotOfExpert.entries.filter fun e => e.2 ≠ -1).map Prod.fst).Perm
      p.table.cache.vram.members := by
    refine (List.perm_ext_iff_of_nodup (p.table.slotOfExpert.keys_nodup.sublist
      (List.filter_sublist.map _)) (UnorderedSet.members_nodup _)).mpr fun f => ?_
    rw [← h.resident_iff, SlotTable.slotOf, List.mem_map]
    constructor
    · rintro ⟨⟨g, slot⟩, hg, rfl⟩
      obtain ⟨hentry, hslot⟩ := List.mem_filter.mp hg
      rw [UnorderedMap.find?_eq_some.mpr hentry]
      simpa using hslot
    · intro hf
      rcases p.table.slotOfExpert.find?_eq_some_or_none f with hnone | ⟨slot, hsome⟩
      · rw [hnone] at hf
        exact absurd rfl hf
      · rw [hsome] at hf
        exact ⟨(f, slot), List.mem_filter.mpr ⟨UnorderedMap.find?_eq_some.mp hsome,
          by simpa using hf⟩, rfl⟩
  rw [resident, ← hperm.length_eq, List.length_map]

/-- The residents, in increasing order. -/
def residents (numExperts : ℕ) (p : Pipeline) : List ℤ :=
  (SlotTable.range numExperts).filter fun e => p.table.slotOf e ≠ -1

theorem mem_residents (h : p.table.Lockstep capacity)
    (hvalid : ∀ e ∈ p.table.cache.vram.members, 0 ≤ e ∧ e < (numExperts : ℤ)) :
    e ∈ p.residents numExperts ↔ e ∈ p.table.cache.vram.members := by
  rw [residents, List.mem_filter, SlotTable.mem_range, ← h.resident_iff]
  simp only [ne_eq, decide_eq_true_eq, and_iff_right_iff_imp]
  exact fun he => hvalid e ((h.resident_iff e).mp he)

theorem compute_eq (h : p.table.Lockstep capacity)
    (hvalid : ∀ e ∈ p.table.cache.vram.members, 0 ≤ e ∧ e < (numExperts : ℤ)) :
    p.compute numExperts capacity = .ok (if p.table.cache.vram.members = [] then p
      else { p.emit [.launch .main (.stack ((p.residents numExperts).map
          fun e => (p.table.slotOf e).toNat))] with
        served := p.served ++ [p.residents numExperts] }) := by
  have hzero : p.resident = 0 ↔ p.table.cache.vram.members = [] := by
    rw [resident_eq h, List.length_eq_zero_iff]
  by_cases hnil : p.table.cache.vram.members = []
  · rw [compute, if_pos (hzero.mpr hnil), if_pos hnil]
  · have hrows : (p.residents numExperts).mapM (fun e => tensorRow capacity (p.table.slotOf e)) =
        .ok ((p.residents numExperts).map fun e => (p.table.slotOf e).toNat) :=
      mapM_of_forall fun e he => tensorRow_of_mem (slotOf_range h ((mem_residents h hvalid).mp he))
    rw [residents] at hrows
    rw [compute, if_neg (mt hzero.mp hnil), if_neg hnil]
    dsimp only
    rw [hrows]
    rfl

end Pipeline
end Dee
