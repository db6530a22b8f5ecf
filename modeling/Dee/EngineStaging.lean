import Dee.EngineRuns

/-! What `stage_expert` hands to the prefetcher. Whatever was staged before, it is the
blob decoded from layer 0; so a layer gets its own weights exactly when its tensors
hold the bytes of layer 0's. -/
namespace Dee.Engine
open TensorResolver GuardedRuns LittleEndian
variable {F : Type*} {env : Platform F} {e e₀ : Engine F}

/-- The number of weights of one projection. -/
def weights (e : Engine F) : ℕ := e.inter.toNat * e.hidden.toNat

/-- Dimensions of a nonempty expert. -/
structure Dims (e : Engine F) : Prop where
  inter_pos : 0 < e.inter
  hidden_pos : 0 < e.hidden
  inter_lt : e.inter < 2 ^ 31
  hidden_lt : e.hidden < 2 ^ 31

theorem Dims.mul_eq (h : e.Dims) : e.inter * e.hidden = (e.weights : ℤ) := by
  have h1 := h.inter_pos
  have h2 := h.hidden_pos
  rw [weights, Nat.cast_mul, Int.toNat_of_nonneg h1.le, Int.toNat_of_nonneg h2.le]

theorem Dims.weights_lt (h : e.Dims) : e.weights < 2 ^ 62 := by
  have h1 : e.inter.toNat < 2 ^ 31 := by
    have := h.inter_lt
    omega
  have h2 : e.hidden.toNat < 2 ^ 31 := by
    have := h.hidden_lt
    omega
  calc e.inter.toNat * e.hidden.toNat < 2 ^ 31 * 2 ^ 31 := Nat.mul_lt_mul'' h1 h2
    _ = 2 ^ 62 := by norm_num

theorem Dims.weights_pos (h : e.Dims) : 0 < e.weights := by
  have h1 := h.inter_pos
  have h2 := h.hidden_pos
  exact Nat.mul_pos (by omega) (by omega)

theorem Dims.gate_size (h : e.Dims) : toSize (e.inter * e.hidden) = e.weights := by
  have := h.weights_lt
  rw [h.mul_eq, toSize_natCast (by omega)]

theorem Dims.down_size (h : e.Dims) : toSize (e.hidden * e.inter) = e.weights := by
  rw [mul_comm]
  exact h.gate_size

theorem Dims.blob_size (h : e.Dims) : toSize (3 * e.inter * e.hidden) = 3 * e.weights := by
  have := h.weights_lt
  have hcast : 3 * e.inter * e.hidden = ((3 * e.weights : ℕ) : ℤ) := by
    rw [mul_assoc, h.mul_eq, Nat.cast_mul, Nat.cast_ofNat]
  rw [hcast, toSize_natCast (by omega)]

theorem Dims.blob_bytes (h : e.Dims) (hlt : 12 * e.weights < 2 ^ 64) :
    toSize (3 * e.inter * e.hidden * 4) = 12 * e.weights := by
  have hcast : 3 * e.inter * e.hidden * 4 = ((12 * e.weights : ℕ) : ℤ) := by
    rw [mul_assoc 3, h.mul_eq, Nat.cast_mul, Nat.cast_ofNat]
    ring
  rw [hcast, toSize_natCast hlt]

theorem decodeBlob_gate (h : e.Dims) (gv uv dv : TensorView) {i : ℕ} (hi : i < e.weights) :
    e.decodeBlob gv uv dv i = gv.decode i := by
  simp only [decodeBlob, h.gate_size]
  rw [if_pos hi]

theorem decodeBlob_up (h : e.Dims) (gv uv dv : TensorView) {i : ℕ} (hi : i < e.weights) :
    e.decodeBlob gv uv dv (e.weights + i) = uv.decode i := by
  simp only [decodeBlob, h.gate_size]
  rw [if_neg (by omega), if_pos (by omega), Nat.add_sub_cancel_left]

theorem decodeBlob_down (h : e.Dims) (gv uv dv : TensorView) {i : ℕ} (hi : i < e.weights) :
    e.decodeBlob gv uv dv (2 * e.weights + i) = dv.decode i := by
  simp only [decodeBlob, h.gate_size, h.down_size]
  rw [if_neg (by omega), if_neg (by omega), if_pos (by omega), Nat.add_sub_cancel_left]

/-- Two blobs agree exactly when their three projections do. -/
theorem decodeBlob_eq_iff (h : e.Dims) (gv uv dv gv' uv' dv' : TensorView) :
    (∀ i < 3 * e.weights, e.decodeBlob gv uv dv i = e.decodeBlob gv' uv' dv' i) ↔
      (∀ i < e.weights, gv.decode i = gv'.decode i) ∧ (∀ i < e.weights, uv.decode i = uv'.decode i) ∧
        ∀ i < e.weights, dv.decode i = dv'.decode i := by
  constructor
  · intro hall
    refine ⟨fun i hi => ?_, fun i hi => ?_, fun i hi => ?_⟩
    · have := hall i (by omega)
      rwa [decodeBlob_gate h _ _ _ hi, decodeBlob_gate h _ _ _ hi] at this
    · have := hall (e.weights + i) (by omega)
      rwa [decodeBlob_up h _ _ _ hi, decodeBlob_up h _ _ _ hi] at this
    · have := hall (2 * e.weights + i) (by omega)
      rwa [decodeBlob_down h _ _ _ hi, decodeBlob_down h _ _ _ hi] at this
  · rintro ⟨hg, hu, hd⟩ i hi
    rcases lt_or_ge i e.weights with h1 | h1
    · rw [decodeBlob_gate h _ _ _ h1, decodeBlob_gate h _ _ _ h1, hg i h1]
    · rcases lt_or_ge i (2 * e.weights) with h2 | h2
      · obtain ⟨j, rfl⟩ := Nat.exists_eq_add_of_le h1
        rw [decodeBlob_up h _ _ _ (by omega), decodeBlob_up h _ _ _ (by omega), hu j (by omega)]
      · obtain ⟨j, rfl⟩ := Nat.exists_eq_add_of_le h2
        rw [decodeBlob_down h _ _ _ (by omega), decodeBlob_down h _ _ _ (by omega),
          hd j (by omega)]

theorem layerBlob_eq_iff (h : e.Dims) (layer layer' x : Int32) :
    (∀ i < 3 * e.weights, e.layerBlob layer x i = e.layerBlob layer' x i) ↔
      ∀ kind, ∀ i < 2 * e.weights,
        (e.view layer x kind).data.bytes i = (e.view layer' x kind).data.bytes i := by
  simp only [layerBlob, decodeBlob_eq_iff h, TensorView.decode_eq_iff]
  constructor
  · rintro ⟨hg, hu, hd⟩ kind
    cases kind with
    | gateProj => exact hg
    | upProj => exact hu
    | downProj => exact hd
  · exact fun hk => ⟨hk .gateProj, hk .upProj, hk .downProj⟩

/-- What `stage_expert(layer, expert, ..)` hands to the prefetcher is the decode of the
tensors named for `(layer, expert)`. -/
def HandsOwnBlob (env : Platform F) (e : Engine F) (layer expert : Int32) : Prop :=
  ∃ p, (e.getStaging env expert).1 = some p ∧
    ∀ i < e.blobElems, readWord p.bytes (4 * i) = e.layerBlob layer expert i

theorem Started.reached {order : VramCacheManager.Order} {vram : ℕ → UInt8} {base budget : ℕ}
    {P : AsyncPrefetcher → Prop} (h : Started order vram base budget e)
    (hP : P (.fresh (.started order base budget) vram)) : Reached P e e where
  setup := .refl e
  staging := fun x blob hx => by simp [h.staging] at hx
  prefetcher := by rw [h.prefetcher]; exact hP

theorem handsOwnBlob_iff (h : e.StagingInv) (hd : e.Dims)
    (helems : e.blobElems = toSize (3 * e.inter * e.hidden)) {layer x : Int32}
    (hr : e.Resolves 0 x) : HandsOwnBlob env e layer x ↔
      ∀ kind, ∀ i < 2 * e.weights,
        (e.view 0 x kind).data.bytes i = (e.view layer x kind).data.bytes i := by
  have hne : e.blobElems ≠ 0 := by
    have := hd.weights_pos
    rw [helems, hd.blob_size]
    omega
  rw [← layerBlob_eq_iff hd, HandsOwnBlob, getStaging_of_resolves h hr, blobData, if_neg hne, helems,
    hd.blob_size]
  simp only [Option.some.injEq, exists_eq_left', blobPtr, readWord_wordBytes]

variable [Field F] [LinearOrder F] {files : EngineFiles F} {order : VramCacheManager.Order}
  {vram : ℕ → UInt8} {cfg : EngineConfig}

/-- The engines that `init` and a run of calls lead to. -/
theorem run_reached (hinit : (Engine.fresh order vram).init env files cfg = (true, e₀))
    (ops : List (Op F)) : Reached (fun _ => True) e₀ (run (step env) e₀ ops) := by
  obtain ⟨base, hs⟩ := init_started hinit
  have hP : ∀ (p : AsyncPrefetcher) op, True → Calls env e₀ op → True := fun _ _ _ _ => trivial
  exact (hs.reached (P := fun _ => True) trivial).run hP ops

/-- After every run, and in the middle of every staging loop, staging `(layer, expert)`
hands over its own blob exactly when its three tensors hold the same weights as the
expert's tensors in layer 0. -/
theorem run_hands_own_blob_iff
    (hinit : (Engine.fresh order vram).init env files cfg = (true, e₀)) (hinter : 0 < e₀.inter)
    (hhidden : 0 < e₀.hidden) (ops : List (Op F)) (current : Int32) (staged : List Int32)
    {layer x : Int32} (h0 : e₀.Resolves 0 x) :
    HandsOwnBlob env (stageAll env current 0 staged (run (step env) e₀ ops)) layer x ↔
      ∀ kind, ∀ i < 2 * (e₀.inter.toNat * e₀.hidden.toNat),
        (e₀.view 0 x kind).data.bytes i = (e₀.view layer x kind).data.bytes i := by
  obtain ⟨base, hs⟩ := init_started hinit
  have hP : ∀ (p : AsyncPrefetcher) op, True → Calls env e₀ op → True := fun _ _ _ _ => trivial
  have hr := (run_reached hinit ops).stageAll hP current 0 staged
  generalize stageAll env current 0 staged (run (step env) e₀ ops) = e at hr ⊢
  have hsetup := hr.setup
  have hd : e.Dims := ⟨by rw [hsetup.inter]; exact hinter, by rw [hsetup.hidden]; exact hhidden,
    by rw [hsetup.inter]; exact hs.inter_lt, by rw [hsetup.hidden]; exact hs.hidden_lt⟩
  rw [handsOwnBlob_iff hr.staging hd (by rw [hsetup.blobElems, hsetup.inter, hsetup.hidden,
    hs.blobElems]) ((hsetup.resolves 0 x).mpr h0)]
  simp only [hsetup.view, weights, hsetup.inter, hsetup.hidden]

section Tiny

/-- The IEEE single with a given bit pattern, infinities and NaNs apart. -/
noncomputable def singleOfBits (w : UInt32) : ℝ :=
  let sign : ℝ := if w.toNat < 2 ^ 31 then 1 else -1
  let exponent : ℕ := w.toNat / 2 ^ 23 % 2 ^ 8
  let fraction : ℝ := ((w.toNat % 2 ^ 23 : ℕ) : ℝ) / ((2 ^ 23 : ℕ) : ℝ)
  if exponent = 0 then sign * fraction * ((2 : ℕ) : ℝ) ^ (-126 : ℤ)
  else sign * (1 + fraction) * ((2 : ℕ) : ℝ) ^ ((exponent : ℤ) - 127)

noncomputable def hostPlatform : Platform ℝ where
  exp := Real.exp
  sqrt := Real.sqrt
  sin := Real.sin
  ofBits := singleOfBits
  isFinite := fun _ => true
  malloc := fun _ => 1048576
  blobAddr := fun x => 4096 + 64 * x.toUInt32.toNat
  blobAddr_ne := fun _ => by omega

/-- A shard of one-by-one projections: tensor `i` holds the bytes `8 + 2i` and `9 + 2i`. -/
def tinyShard (names : List String) : WeightMmap where
  base := 65536
  file := fun a => if a = 1 then 1 else if a < 264 then 0 else UInt8.ofNat a
  headerJson := "header"
  tensors := fun name => (names.idxOf? name).map fun i => ⟨2 * i, 2, .BF16, [1, 1]⟩

def expertNames (layer : Int32) (xs : List Int32) : List String :=
  xs.flatMap fun x => [expertTensorName layer x .gateProj, expertTensorName layer x .upProj,
    expertTensorName layer x .downProj]

/-- The tiny shard, with an Oracle for two layers that ignores its input. -/
def tinyFiles (names : List String) (predict : Int32 → List Int32) : EngineFiles ℝ where
  shard := some (tinyShard names)
  oracle := fun _ => some ⟨2, fun layer _ _ => predict layer⟩

noncomputable def tinyInit (names : List String) (predict : Int32 → List Int32) (topk : ℤ)
    (budget : ℕ) : Bool × Engine ℝ :=
  (Engine.fresh (.newestFirst _ _) fun _ => 0).init hostPlatform (tinyFiles names predict)
    ⟨1, topk, 2, budget, false, 1⟩

theorem tinyShard_lookup {names : List String} {name : String} (h : name ∈ names) :
    ((tinyShard names).lookup name).ok = true ∧ ((tinyShard names).lookup name).shape = [1, 1] := by
  obtain ⟨i, hi⟩ := Option.ne_none_iff_exists'.mp (mt List.idxOf?_eq_none_iff.mp (not_not.mpr h))
  have hheader : (tinyShard names).headerJson ≠ "" := of_decide_eq_false rfl
  have htensor : (tinyShard names).tensors name = some ⟨2 * i, 2, .BF16, [1, 1]⟩ := by
    simp only [tinyShard, hi, Option.map_some]
  simp only [WeightMmap.lookup, htensor, if_neg hheader, TensorView.ok]
  simp [tinyShard]

theorem resolveExpert_tinyShard {names : List String} {layer x : Int32} {kind : Kind}
    (h : expertTensorName layer x kind ∈ names) :
    resolveExpert [tinyShard names] layer x kind =
      (tinyShard names).lookup (expertTensorName layer x kind) := by
  simp [resolveExpert, tinyShard_lookup h]

theorem mem_expertNames {layer x : Int32} {xs : List Int32} (hx : x ∈ xs) (kind : Kind) :
    expertTensorName layer x kind ∈ expertNames layer xs := by
  rw [expertNames, List.mem_flatMap]
  exact ⟨x, hx, by cases kind <;> simp⟩

theorem gate_expertNames {xs : List Int32} (h : (0 : Int32) ∈ xs) :
    expertTensorName 0 0 .gateProj ∈ expertNames 0 xs := mem_expertNames h .gateProj

/-- What `init` takes from the tiny shard and its configuration. -/
structure TinySetup (names : List String) (predict : Int32 → List Int32) (topk : ℤ) (budget : ℕ)
    (e : Engine ℝ) : Prop where
  inter : e.inter = 1
  hidden : e.hidden = 1
  blobBytes : e.blobBytes = 12
  shards : e.shards = [tinyShard names]
  cfg : e.cfg = ⟨1, topk, 2, budget, false, 1⟩
  predict : e.oracle.predict = fun layer _ _ => predict layer
  fallbacks : e.stats.fallbacks = 0
  cap : budget ≠ 0 → e.cache.arena.cap = budget

section Setup
variable {names : List String} {predict : Int32 → List Int32} {topk : ℤ} {budget : ℕ}
  {e : Engine ℝ}

/-- The dimensions come from a view of one row and one column. -/
theorem tinyDims (h0 : expertTensorName 0 0 .gateProj ∈ names) (he : e.shards = [tinyShard names]) :
    (e.view (e.availLayer 0) 0 .gateProj).ok = true ∧
      (e.view (e.availLayer 0) 0 .gateProj).shape = [1, 1] := by
  rw [view, availLayer, ite_self, he, resolveExpert_tinyShard h0]
  exact tinyShard_lookup h0

theorem tinyInit_eq (h0 : expertTensorName 0 0 .gateProj ∈ names) :
    (Engine.fresh (.newestFirst _ _) fun _ => 0).init hostPlatform (tinyFiles names predict)
      ⟨1, topk, 2, budget, false, 1⟩ = (true, (tinyInit names predict topk budget).2) := by
  refine Prod.fst_eq_iff.mp ?_
  unfold init
  simp only [tinyFiles]
  unfold initDims
  dsimp only
  rw [if_pos (tinyDims h0 rfl).1, (tinyDims h0 rfl).2]
  rfl

theorem tinyInit_setup (h0 : expertTensorName 0 0 .gateProj ∈ names) :
    TinySetup names predict topk budget (tinyInit names predict topk budget).2 := by
  have hinit := @tinyInit_eq names predict topk budget h0
  generalize (tinyInit names predict topk budget).2 = e at hinit ⊢
  unfold init at hinit
  simp only [tinyFiles] at hinit
  unfold initDims at hinit
  dsimp only at hinit
  rw [if_pos (tinyDims h0 rfl).1, (tinyDims h0 rfl).2] at hinit
  dsimp only at hinit
  split_ifs at hinit with hhidden
  · cases hinit
  · unfold initOracle at hinit
    dsimp only at hinit
    obtain ⟨base, -, rfl⟩ := initCache_eq_true hinit rfl
    exact ⟨rfl, rfl, rfl, rfl, rfl, rfl, rfl, fun hbudget => if_pos hbudget⟩

theorem TinySetup.inter_pos (h : TinySetup names predict topk budget e) : 0 < e.inter := by
  rw [h.inter]
  exact Int.one_pos

theorem TinySetup.hidden_pos (h : TinySetup names predict topk budget e) : 0 < e.hidden := by
  rw [h.hidden]
  exact Int.one_pos

theorem TinySetup.predicted (h : TinySetup names predict topk budget e) (layer : Int32)
    (hIn : ℕ → ℝ) : e.predicted layer hIn = predict layer := by
  rw [Engine.predicted, h.predict]

theorem TinySetup.resolves (h : TinySetup names predict topk budget e) {layer x : Int32}
    (hx : ∀ kind, expertTensorName layer x kind ∈ names) : e.Resolves layer x := by
  intro kind
  rw [view, h.shards, resolveExpert_tinyShard (hx kind)]
  exact (tinyShard_lookup (hx kind)).1

/-- A budget of `n` blobs has room for `n` experts. -/
theorem TinySetup.fits (h : TinySetup names predict topk budget e) {n : ℕ} (hn : 0 < n)
    (hbudget : budget = n * 12) :
    n * (12 * (e.inter.toNat * e.hidden.toNat)) ≤ e.cache.arena.cap := by
  rw [h.cap (by omega), h.inter, h.hidden, hbudget]
  exact le_refl _

end Setup

/-- Expert 0 in two layers, with other weights in each. -/
noncomputable def twoLayers : Engine ℝ :=
  (tinyInit (expertNames 0 [0] ++ expertNames 1 [0]) (fun _ => [0]) 1 12).2

theorem gate_twoLayers : expertTensorName 0 0 .gateProj ∈
    expertNames 0 [0] ++ expertNames 1 [0] :=
  List.mem_append_left _ (gate_expertNames (List.mem_singleton_self 0))

theorem twoLayers_init : (Engine.fresh (.newestFirst _ _) fun _ => 0).init hostPlatform
    (tinyFiles (expertNames 0 [0] ++ expertNames 1 [0]) fun _ => [0]) ⟨1, 1, 2, 12, false, 1⟩ =
    (true, twoLayers) := tinyInit_eq gate_twoLayers

theorem twoLayers_setup : TinySetup (expertNames 0 [0] ++ expertNames 1 [0]) (fun _ => [0]) 1 12
    twoLayers := tinyInit_setup gate_twoLayers

theorem twoLayers_resolves : ∀ layer ∈ [0, 1], twoLayers.Resolves layer 0 := by
  intro layer hlayer
  refine twoLayers_setup.resolves fun kind => List.mem_append.mpr ?_
  have hmem := @mem_expertNames layer 0 [0] (List.mem_singleton_self 0) kind
  rcases List.mem_pair.mp hlayer with rfl | rfl
  · exact .inl hmem
  · exact .inr hmem

/-- Layer 0 gets its own weights, also after layer 1 has run. -/
theorem run_hands_own_blob_iff_two_layers :
    HandsOwnBlob hostPlatform (stageAll hostPlatform 0 0 [0] (run (step hostPlatform) twoLayers
      [.forwardLayer 0 fun _ => 0, .forwardLayer 1 fun _ => 0])) 0 0 := by
  apply (run_hands_own_blob_iff twoLayers_init twoLayers_setup.inter_pos twoLayers_setup.hidden_pos
    [.forwardLayer 0 fun _ => 0, .forwardLayer 1 fun _ => 0] 0 [0]
    (twoLayers_resolves 0 (List.mem_cons_self ..))).mpr
  exact fun _ _ _ => rfl

/-- Layer 1 is handed the weights of layer 0. -/
theorem stages_weights_of_layer_zero :
    (∀ layer ∈ [0, 1], twoLayers.Resolves layer 0) ∧
      ¬ HandsOwnBlob hostPlatform
        (run (step hostPlatform) twoLayers [.forwardLayer 0 fun _ => 0]) 1 0 := by
  refine ⟨twoLayers_resolves, ?_⟩
  rintro ⟨p, hp, hall⟩
  have hread := hall 0 (by decide +kernel)
  have hfirst : ((getStaging hostPlatform (run (step hostPlatform) twoLayers
      [.forwardLayer 0 fun _ => 0]) 0).1.map fun q => readWord q.bytes 0) = some 0x09080000 := by
    decide +kernel
  have hown : (run (step hostPlatform) twoLayers
      [.forwardLayer 0 fun _ => 0]).layerBlob 1 0 0 = 0x0F0E0000 := by decide +kernel
  rw [hp, Option.map_some, Option.some.injEq] at hfirst
  rw [Nat.mul_zero, hfirst, hown] at hread
  exact absurd hread (by decide)

end Tiny

end Dee.Engine
