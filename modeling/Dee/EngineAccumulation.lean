import Dee.EngineIntQueue

/-! What a layer computes before the mean. Every predicted expert that is still resident
when it is waited for contributes its own output; the others are skipped and counted. -/
namespace Dee.Engine
open GuardedRuns VramCacheManager LittleEndian
variable {F : Type*} {env : Platform F} {e e₀ : Engine F} {B : ℕ}

theorem getStaging_stats (x : Int32) (e : Engine F) : (e.getStaging env x).2.stats = e.stats := by
  unfold getStaging
  cases e.staging x with
  | some blob => rfl
  | none => simp only [apply_ite Prod.snd, apply_ite Engine.stats, ite_self]

theorem stageExpert_stats (layer x : Int32) (pr : ℤ) (e : Engine F) :
    (e.stageExpert env layer x pr).stats = e.stats := by
  have hstats := @getStaging_stats F env x e
  unfold stageExpert
  rcases hget : e.getStaging env x with ⟨_ | blob, e₁⟩
  · rw [hget] at hstats
    exact hstats
  · rw [hget] at hstats
    exact hstats

theorem stageAll_stats (layer : Int32) (k : ℕ) (xs : List Int32) (e : Engine F) :
    (stageAll env layer k xs e).stats = e.stats := by
  induction xs generalizing e k with
  | nil => rfl
  | cons x xs ih => rw [stageAll, ih, stageExpert_stats]

/-- Every staged expert has a transfer in the queue. -/
theorem Reached.stageAll_queued (h : Reached (Streams env e₀ B) e₀ e) (hs : 0 < e₀.blobBytes)
    (hle : e₀.blobBytes ≤ B) {layer : Int32} {k : ℕ} {xs : List Int32} {q : ExpertKey}
    (hq : e.prefetcher.Queued q ∨ ∃ x ∈ xs, e₀.Resolves 0 x ∧ ⟨layer, x⟩ = q) :
    (Engine.stageAll env layer k xs e).prefetcher.Queued q := by
  induction xs generalizing e k with
  | nil => simpa [Engine.stageAll] using hq
  | cons x xs ih =>
    have hnext := h.stageExpert (Streams.step env hs hle) layer x (toInt (e.cfg.topk - k))
    rcases stageExpert_cases env h.staging h.elems_ne layer x (toInt (e.cfg.topk - k)) with
      ⟨-, he⟩ | ⟨hx, he⟩
    · rw [he] at hnext
      rw [Engine.stageAll, he]
      apply ih hnext
      rcases hq with hq | ⟨y, hy, hres, rfl⟩
      · exact Or.inl (hq.prefetch ..)
      · rcases List.mem_cons.mp hy with rfl | hy
        · left
          have hcap : e₀.blobBytes ≤ e.prefetcher.cache.arena.cap := by rwa [h.prefetcher.cap]
          apply AsyncPrefetcher.prefetch_queued h.prefetcher.bytes.slot
          rw [h.setup.blobBytes]
          exact h.prefetcher.uniform.ensure_succeeds hs hcap _ _
        · exact Or.inr ⟨y, hy, hres, rfl⟩
    · rw [Engine.stageAll, he]
      apply ih h
      rcases hq with hq | ⟨y, hy, hres, rfl⟩
      · exact Or.inl hq
      · rcases List.mem_cons.mp hy with rfl | hy
        · exact absurd ((h.setup.resolves 0 y).mpr hres) hx
        · exact Or.inr ⟨y, hy, hres, rfl⟩

/-- After a successful wait the floats behind the address are those of the blob. -/
theorem Streams.read_blob {p : AsyncPrefetcher} (h : Streams env e₀ B p) {k : ExpertKey}
    (hw : (p.wait k).1 = true) (hptr : p.cache.data k ≠ 0) {j : ℕ}
    (hj : 4 * j + 4 ≤ e₀.blobBytes) : readFloats env (p.wait k).2.vram (p.cache.data k) j =
      env.ofBits (e₀.layerBlob 0 k.expert j) := by
  have hbytes := (h.bytes.wait_delivered hw).holds hptr
  have hword : readWord (p.wait k).2.vram (p.cache.data k + 4 * j) =
      readWord (wordBytes (e₀.layerBlob 0 k.expert)) (4 * j) := by
    apply readWord_congr
    intro i hi
    rw [Nat.add_assoc]
    exact hbytes _ (show 4 * j + i < e₀.blobBytes by omega)
  rw [readFloats, hword, readWord_wordBytes]

variable [Field F]

/-- The output of an expert with its staged blob, `swiglu(blob(x), h_in)`. -/
def expertOutput (env : Platform F) (e : Engine F) (hIn : ℕ → F) (x : Int32) : ℕ → F :=
  swiglu env.exp (fun i => env.ofBits (e.layerBlob 0 x i)) hIn e.inter.toNat e.hidden.toNat
    fun _ => 0

/-- Exactly the experts that are not resident are skipped. -/
theorem Reached.accumulate_fallbacks (h : Reached (Streams env e₀ B) e₀ e)
    (hs : 0 < e₀.blobBytes) (hle : e₀.blobBytes ≤ B) (layer : Int32) (hIn : ℕ → F)
    (xs : List Int32) (acc : ℕ → F) :
    (Engine.accumulate env layer hIn xs acc e).2.stats.fallbacks =
      e.stats.fallbacks + xs.countP fun x => !e.cache.isResident ⟨layer, x⟩ := by
  induction xs generalizing e acc with
  | nil => rfl
  | cons x xs ih =>
    have hP := Streams.step env hs hle
    have hwait := h.wait hP ⟨layer, x⟩
    have hslot := h.prefetcher.bytes.slot
    simp only [Engine.accumulate, cache, AsyncPrefetcher.wait_cache]
    split_ifs with hp
    · have hno : e.prefetcher.cache.isResident ⟨layer, x⟩ = false := by
        by_contra hne
        exact hslot.data_ne_zero.mpr (by simpa using hne) hp
      rw [ih (hwait.with_stats _), List.countP_cons_of_pos (by simp [hno])]
      simp only [cache, AsyncPrefetcher.wait_cache]
      omega
    · have hyes := hslot.data_ne_zero.mp hp
      rw [ih (hwait.touch hP _), List.countP_cons_of_neg (by simp [hyes])]
      simp only [cache, AsyncPrefetcher.touch, AsyncPrefetcher.wait_cache,
        touch_isResident h.prefetcher.uniform.toMapInv]

/-- If the resident experts are queued, the loop adds their outputs. -/
theorem Reached.accumulate_sum (h : Reached (Streams env e₀ B) e₀ e) (hs : 0 < e₀.blobBytes)
    (hle : e₀.blobBytes ≤ B) (hw : e₀.blobBytes = 12 * e₀.weights) {layer : Int32}
    {xs : List Int32}
    (hq : e.prefetcher.QueuedAll layer xs)
    (hIn acc : ℕ → F) (o : ℕ) :
    (Engine.accumulate env layer hIn xs acc e).1 o = acc o +
      ((xs.filter fun x => e.cache.isResident ⟨layer, x⟩).map fun x =>
        expertOutput env e₀ hIn x o).sum := by
  induction xs generalizing e acc with
  | nil => simp [Engine.accumulate]
  | cons x xs ih =>
    have hP := Streams.step env hs hle
    have hwait := h.wait hP ⟨layer, x⟩
    have hslot := h.prefetcher.bytes.slot
    simp only [Engine.accumulate, cache, AsyncPrefetcher.wait_cache]
    split_ifs with hp
    · have hno : e.prefetcher.cache.isResident ⟨layer, x⟩ = false := by
        by_contra hne
        exact hslot.data_ne_zero.mpr (by simpa using hne) hp
      rw [ih (hwait.with_stats _) (hq.wait _), List.filter_cons_of_neg (by simp [hno])]
      simp only [cache, AsyncPrefetcher.wait_cache]
    · have hyes := hslot.data_ne_zero.mp hp
      have hready := (h.prefetcher.bytes.queue.wait_eq_true_iff (k := ⟨layer, x⟩)).mpr
        (hq x List.mem_cons_self hyes)
      have hblob : swiglu env.exp (readFloats env (e.prefetcher.wait ⟨layer, x⟩).2.vram
          (e.prefetcher.cache.data ⟨layer, x⟩)) hIn e.inter.toNat e.hidden.toNat acc o =
          acc o + expertOutput env e₀ hIn x o := by
        rw [h.setup.inter, h.setup.hidden, expertOutput, ← swiglu_add]
        apply congrFun (swiglu_congr _) o
        intro j hj
        apply h.prefetcher.read_blob hready hp
        rw [hw, weights]
        omega
      have hrest : ((e.prefetcher.wait ⟨layer, x⟩).2.touch ⟨layer, x⟩).QueuedAll layer xs := by
        intro y hy hyes
        rw [AsyncPrefetcher.touch, touch_isResident hwait.prefetcher.uniform.toMapInv] at hyes
        exact hq.wait _ y hy hyes
      rw [ih (hwait.touch hP _) hrest, List.filter_cons_of_pos (by simp [hyes]), List.map_cons,
        List.sum_cons, hblob, add_assoc]
      simp only [cache, AsyncPrefetcher.touch, AsyncPrefetcher.wait_cache,
        touch_isResident h.prefetcher.uniform.toMapInv]

theorem SameSetup.expertOutput (h : SameSetup e₀ e) (hIn : ℕ → F) (x : Int32) :
    expertOutput env e hIn x = expertOutput env e₀ hIn x := by
  simp only [Engine.expertOutput, h.layerBlob, h.inter, h.hidden]

/-- The loop adds up all staged experts and skips none exactly when staging leaves all of
them resident. -/
theorem Reached.accumulates_all_iff (h : Reached (Streams env e₀ B) e₀ e) (hs : 0 < e₀.blobBytes)
    (hle : e₀.blobBytes ≤ B) (hw : e₀.blobBytes = 12 * e₀.weights) {layer : Int32}
    {xs : List Int32} (hr : ∀ x ∈ xs, e₀.Resolves 0 x) (hIn : ℕ → F) :
    let r := Engine.accumulate env layer hIn xs (fun _ => 0) (Engine.stageAll env layer 0 xs e)
    ((∀ o, r.1 o = (xs.map fun x => expertOutput env e hIn x o).sum) ∧
        r.2.stats.fallbacks = e.stats.fallbacks) ↔
      ∀ x ∈ xs, (Engine.stageAll env layer 0 xs e).cache.isResident ⟨layer, x⟩ = true := by
  intro r
  have hstaged := h.stageAll (Streams.step env hs hle) layer 0 xs
  have hskipped := hstaged.accumulate_fallbacks hs hle layer hIn xs fun _ => 0
  rw [stageAll_stats] at hskipped
  constructor
  · rintro ⟨-, hnone⟩ x hx
    have hzero := hskipped.symm.trans hnone
    rw [Nat.add_eq_left, List.countP_eq_zero] at hzero
    simpa using hzero x hx
  · intro hall
    constructor
    · intro o
      have hsum := hstaged.accumulate_sum hs hle hw
        (fun x hx _ => h.stageAll_queued hs hle (Or.inr ⟨x, hx, hr x hx, rfl⟩)) hIn
        (fun _ => 0) o
      rw [List.filter_eq_self.mpr hall, zero_add] at hsum
      have hout : ∀ x, Engine.expertOutput env e hIn x = Engine.expertOutput env e₀ hIn x :=
        h.setup.expertOutput hIn
      simp only [hout]
      exact hsum
    · apply hskipped.trans
      rw [Nat.add_eq_left, List.countP_eq_zero]
      simpa using hall

variable [LinearOrder F] {files : EngineFiles F} {order : Order} {vram : ℕ → UInt8}
  {cfg : EngineConfig}

/-- After every run, with any budget of at least one blob: a layer adds up the outputs of
all predicted experts and skips none exactly when each eviction of its staging loop finds
a stale block first. The positions of the queue fit an `int` while no call leaves
`2 ^ 31` transfers in it. -/
theorem run_accumulates_predicted_iff
    (hinit : (Engine.fresh order vram).init env files cfg = (true, e₀)) (hinter : 0 < e₀.inter)
    (hhidden : 0 < e₀.hidden) (hcfg : cfg.budgetBytes < 2 ^ 64)
    (hfit : 12 * (e₀.inter.toNat * e₀.hidden.toNat) ≤ e₀.cache.arena.cap) (ops : List (Op F))
    (layer : Int32) (hIn : ℕ → F) (hnd : (e₀.predicted layer hIn).Nodup)
    (hr : ∀ x ∈ e₀.predicted layer hIn, e₀.Resolves 0 x) :
    let e := run (step env) e₀ ops
    let xs := e.predicted layer hIn
    let r := accumulate env layer hIn xs (fun _ => 0) (stageAll env layer 0 xs e)
    (((∀ o, r.1 o = (xs.map fun x => expertOutput env e hIn x o).sum) ∧
        r.2.stats.fallbacks = e.stats.fallbacks) ↔
      SparesStaged e.blobBytes [] (requests layer e.cfg.topk 0 xs) e.cache) ∧
    (Guarded (IntQueue.step env) (IntQueue.HasRoom env) e₀ (ops ++ [.forwardLayer layer hIn]) →
      run (IntQueue.step env) e₀ ops = e ∧
        IntQueue.accumulate env layer hIn xs (fun _ => 0) (stageAll env layer 0 xs e) = r) := by
  intro e xs r
  obtain ⟨hw, hs, hle, hrun⟩ := run_streams hinit hinter hhidden hcfg hfit ops
  have hready := (run_streams hinit hinter hhidden hcfg hfit []).2.2.2
  have hxs : xs = e₀.predicted layer hIn := hrun.setup.predicted layer hIn
  refine ⟨?_, fun hroom => ?_⟩
  · rw [show e.blobBytes = e₀.blobBytes from hrun.setup.blobBytes,
      show e.cfg = e₀.cfg from hrun.setup.cfg,
      ← hrun.stageAll_resident_iff hs hle (hxs ▸ hnd) (hxs ▸ hr)]
    exact hrun.accumulates_all_iff hs hle hw (hxs ▸ hr) hIn
  · obtain ⟨hops, hlast, -⟩ := guarded_append.mp hroom
    have hsame : run (IntQueue.step env) e₀ ops = e := IntQueue.run_eq hs hle hready hops
    rw [hsame] at hlast
    simp only [IntQueue.HasRoom, IntQueue.forwardLayer, IntQueue.accumulate_queued] at hlast
    have hstaged := hrun.stageAll (Streams.step env hs hle) layer 0 xs
    exact ⟨hsame, IntQueue.accumulate_eq hs hle hstaged hlast layer hIn xs _⟩

section Tiny

/-- In three slots, layer 0 adds up its three experts. -/
theorem run_accumulates_predicted_iff_three :
    let e := run (step hostPlatform) sixExperts []
    let r := accumulate hostPlatform 0 (fun _ => 1) [0, 1, 2] (fun _ => 0)
      (stageAll hostPlatform 0 0 [0, 1, 2] e)
    (∀ o, r.1 o = ([0, 1, 2].map fun x => expertOutput hostPlatform e (fun _ => 1) x o).sum) ∧
      r.2.stats.fallbacks = 0 ∧
      IntQueue.accumulate hostPlatform 0 (fun _ => 1) [0, 1, 2] (fun _ => 0)
        (stageAll hostPlatform 0 0 [0, 1, 2] e) = r := by
  have hxs : (sixExperts.predicted 0 fun _ => 1) = [0, 1, 2] := sixExperts_setup.predicted _ _
  have hr : ∀ x ∈ [0, 1, 2], sixExperts.Resolves 0 x := fun x hx =>
    sixExperts_resolves x (List.mem_append_left [3, 4, 5] hx)
  have hfit := sixExperts_setup.fits (by decide : 0 < 3) rfl
  have hall := run_accumulates_predicted_iff sixExperts_init sixExperts_setup.inter_pos
    sixExperts_setup.hidden_pos (by norm_num) (by omega) [] 0 (fun _ => 1) (by rw [hxs]; decide)
    (by rw [hxs]; exact hr)
  have hxs' : ((run (step hostPlatform) sixExperts []).predicted 0 fun _ => 1) = [0, 1, 2] := hxs
  have hfb : (run (step hostPlatform) sixExperts []).stats.fallbacks = 0 := by
    rw [run, List.foldl_nil, sixExperts_setup.fallbacks]
  have hlen : (stageAll hostPlatform 0 0 [0, 1, 2] sixExperts).queued < 2 ^ 31 := by decide +kernel
  have hroom : Guarded (IntQueue.step hostPlatform) (IntQueue.HasRoom hostPlatform) sixExperts
      ([] ++ [.forwardLayer 0 fun _ => 1]) := by
    refine ⟨?_, trivial⟩
    simp only [IntQueue.HasRoom, IntQueue.forwardLayer, IntQueue.accumulate_queued, hxs]
    exact hlen
  have hint := (hall.2 hroom).2
  have hiff := hall.1
  dsimp only at hiff hint ⊢
  rw [hxs'] at hint
  rw [hxs', hfb] at hiff
  have hspares : SparesStaged (run (step hostPlatform) sixExperts []).blobBytes []
      (requests 0 (run (step hostPlatform) sixExperts []).cfg.topk 0 [0, 1, 2])
      (run (step hostPlatform) sixExperts []).cache := by
    -- a slot is free at each of the three requests
    simp only [requests, SparesStaged, Spares, and_true]
    refine ⟨fun _ hfull => absurd hfull ?_, fun _ hfull => absurd hfull ?_,
      fun _ hfull => absurd hfull ?_⟩ <;> decide +kernel
  obtain ⟨hsum, hskips⟩ := hiff.mpr hspares
  with_reducible_and_instances exact ⟨hsum, hskips, hint⟩

/-- Two experts and one slot. -/
noncomputable def oneSlot : Engine ℝ :=
  (tinyInit (expertNames 0 [0, 1]) (fun _ => [0, 1]) 2 12).2

theorem oneSlot_init : (Engine.fresh (.newestFirst _ _) fun _ => 0).init hostPlatform
    (tinyFiles (expertNames 0 [0, 1]) fun _ => [0, 1]) ⟨1, 2, 2, 12, false, 1⟩ =
    (true, oneSlot) := tinyInit_eq (gate_expertNames (by decide))

theorem oneSlot_setup : TinySetup (expertNames 0 [0, 1]) (fun _ => [0, 1]) 2 12 oneSlot :=
  tinyInit_setup (gate_expertNames (by decide))

theorem singleOfBits_pos {w : UInt32} (hsign : w.toNat < 2 ^ 31)
    (hexp : w.toNat / 2 ^ 23 % 2 ^ 8 ≠ 0) : 0 < singleOfBits w := by
  simp only [singleOfBits, hsign, hexp, if_true, if_false]
  positivity

/-- The blob of expert 0: the bytes 8 to 13 of the tiny shard. -/
theorem TinySetup.layerBlob {e : Engine ℝ} {predict : Int32 → List Int32} {topk : ℤ} {budget : ℕ}
    (h : TinySetup (expertNames 0 [0, 1]) predict topk budget e) :
    e.layerBlob 0 0 0 = 0x09080000 ∧ e.layerBlob 0 0 1 = 0x0B0A0000 ∧
      e.layerBlob 0 0 2 = 0x0D0C0000 := by
  simp only [Engine.layerBlob, decodeBlob, view, h.shards, h.inter, h.hidden]
  decide +kernel

/-- Expert 0 of the tiny shard contributes a positive number. -/
theorem tiny_output_pos {e : Engine ℝ} {predict : Int32 → List Int32} {topk : ℤ} {budget : ℕ}
    (h : TinySetup (expertNames 0 [0, 1]) predict topk budget e) :
    0 < expertOutput hostPlatform e (fun _ => 1) 0 0 := by
  obtain ⟨h0, h1, h2⟩ := h.layerBlob
  have hg : 0 < singleOfBits 0x09080000 := singleOfBits_pos (by decide) (by decide)
  have hu : 0 < singleOfBits 0x0B0A0000 := singleOfBits_pos (by decide) (by decide)
  have hd : 0 < singleOfBits 0x0D0C0000 := singleOfBits_pos (by decide) (by decide)
  have hexp := Real.exp_pos (-singleOfBits 0x09080000)
  have hone : (1 : ℤ).toNat = 1 := rfl
  rw [expertOutput, h.inter, h.hidden, hone, swiglu_one_by_one, h0, h1, h2]
  simp only [hostPlatform, silu, mul_one]
  positivity

/-- With one slot the second prefetch evicts the first expert, and the layer skips it. -/
theorem layer_skips_evicted_expert :
    let xs := oneSlot.predicted 0 fun _ => 1
    let r := accumulate hostPlatform 0 (fun _ => 1) xs (fun _ => 0)
      (stageAll hostPlatform 0 0 xs oneSlot)
    (∀ x ∈ xs, oneSlot.Resolves 0 x) ∧ oneSlot.blobBytes ≤ oneSlot.cache.arena.cap ∧
      r.1 0 ≠ (xs.map fun x => expertOutput hostPlatform oneSlot (fun _ => 1) x 0).sum ∧
      r.2.stats.fallbacks = 1 := by
  have hr : ∀ x ∈ [0, 1], oneSlot.Resolves 0 x := fun _ hx =>
    oneSlot_setup.resolves fun kind => mem_expertNames hx kind
  have hxs : (oneSlot.predicted 0 fun _ => 1) = [0, 1] := oneSlot_setup.predicted _ _
  have hfit := oneSlot_setup.fits Nat.one_pos rfl
  obtain ⟨hw, hs, hle, hrun⟩ := run_streams oneSlot_init oneSlot_setup.inter_pos
    oneSlot_setup.hidden_pos (by norm_num) (by omega) []
  have hrun0 : Reached (Streams hostPlatform oneSlot oneSlot.cache.arena.cap) oneSlot oneSlot :=
    hrun
  have hstaged := hrun0.stageAll (Streams.step hostPlatform hs hle) 0 0 [0, 1]
  have hres : ([0, 1].filter fun x =>
      (stageAll hostPlatform 0 0 [0, 1] oneSlot).cache.isResident ⟨0, x⟩) = [1] := by
    decide +kernel
  have hsum := hstaged.accumulate_sum hs hle hw
    (fun x hx _ => hrun0.stageAll_queued hs hle (Or.inr ⟨x, hx, hr x hx, rfl⟩)) (fun _ => 1)
    (fun _ => 0) 0
  have hpos := tiny_output_pos oneSlot_setup
  dsimp only
  rw [hxs]
  refine ⟨hr, hle, ?_, ?_⟩
  · rw [hsum, hres]
    simp only [List.map_cons, List.map_nil, List.sum_cons, List.sum_nil]
    linarith
  · decide +kernel

end Tiny

end Dee.Engine
