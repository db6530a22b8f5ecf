import Dee.EngineStaging

/-! The tensors that `get_staging` decodes. It asks of the three views of an expert that they
are found, not that they are BF16 matrices of the dimensions taken from expert 0. -/
namespace Dee.Engine
open TensorResolver GuardedRuns LittleEndian
variable {F : Type*} {env : Platform F} {e e₀ : Engine F}

/-- How many bytes of a view the loops of `get_staging` read. -/
def readBytes (e : Engine F) : Kind → ℕ
  | .downProj => 2 * toSize (e.hidden * e.inter)
  | _ => 2 * toSize (e.inter * e.hidden)

/-- A view of BF16 numbers, as many as the dimensions of the engine say. -/
def IsBf16Matrix (e : Engine F) (v : TensorView) : Prop :=
  v.dtype = .BF16 ∧ (v.nbytes : ℤ) = 2 * (e.inter * e.hidden)

/-- The blob of an expert is the decode of three BF16 matrices, read inside their views. -/
structure DecodesBf16 (e : Engine F) (x : Int32) (p : HostPtr) : Prop where
  matrix : ∀ kind, e.IsBf16Matrix (e.view 0 x kind)
  inside : ∀ kind, e.readBytes kind ≤ (e.view 0 x kind).nbytes
  gate : ∀ i < toSize (e.inter * e.hidden),
    readWord p.bytes (4 * i) = (e.view 0 x .gateProj).decode i
  up : ∀ i < toSize (e.inter * e.hidden),
    readWord p.bytes (4 * (toSize (e.inter * e.hidden) + i)) = (e.view 0 x .upProj).decode i
  down : ∀ i < toSize (e.inter * e.hidden),
    readWord p.bytes (4 * (2 * toSize (e.inter * e.hidden) + i)) = (e.view 0 x .downProj).decode i

/-- `get_staging` returns `p`, and neither throws nor returns null. -/
def Returns (env : Platform F) (e : Engine F) (x : Int32) (p : HostPtr) : Prop :=
  e.BlobFits ∧ (e.getStaging env x).1 = some p

/-- Every expert whose tensors are found consists of such matrices. -/
def AllBf16 (e : Engine F) : Prop :=
  ∀ x, e.Resolves 0 x → ∀ kind, e.IsBf16Matrix (e.view 0 x kind)

theorem readBytes_eq (e : Engine F) (kind : Kind) :
    e.readBytes kind = 2 * toSize (e.inter * e.hidden) := by
  cases kind with
  | downProj => rw [readBytes, mul_comm e.hidden]
  | _ => rfl

theorem IsBf16Matrix.inside {v : TensorView} (h : e.IsBf16Matrix v) (kind : Kind) :
    e.readBytes kind ≤ v.nbytes := by
  have hbytes := h.2
  have hsize : (toSize (e.inter * e.hidden) : ℤ) ≤ e.inter * e.hidden := by
    unfold toSize
    omega
  rw [readBytes_eq]
  omega

/-- The blob of layer 0 is the decode of the three views, one after the other. -/
theorem layerBlob_decodes (e : Engine F) (x : Int32) {i : ℕ}
    (hi : i < toSize (e.inter * e.hidden)) :
    e.layerBlob 0 x i = (e.view 0 x .gateProj).decode i ∧
      e.layerBlob 0 x (toSize (e.inter * e.hidden) + i) = (e.view 0 x .upProj).decode i ∧
      e.layerBlob 0 x (2 * toSize (e.inter * e.hidden) + i) = (e.view 0 x .downProj).decode i := by
  simp only [layerBlob, decodeBlob, mul_comm e.hidden]
  refine ⟨if_pos hi, ?_, ?_⟩
  · rw [if_neg (by omega), if_pos (by omega), Nat.add_sub_cancel_left]
  · rw [if_neg (by omega), if_neg (by omega), if_pos (by omega), Nat.add_sub_cancel_left]

theorem decodesBf16_iff {x : Int32} : e.DecodesBf16 x (blobPtr env x (e.layerBlob 0 x)) ↔
    ∀ kind, e.IsBf16Matrix (e.view 0 x kind) := by
  constructor
  · exact DecodesBf16.matrix
  · intro h
    refine ⟨h, fun kind => (h kind).inside kind, fun i hi => ?_, fun i hi => ?_, fun i hi => ?_⟩
    all_goals
      obtain ⟨hgate, hup, hdown⟩ := e.layerBlob_decodes x hi
      simp only [blobPtr, readWord_wordBytes]
    · exact hgate
    · exact hup
    · exact hdown

/-- An empty blob, or one too long for a vector, is returned for no expert. -/
theorem staging_sound_iff (h : e.StagingInv) :
    (∀ x p, e.Returns env x p → e.DecodesBf16 x p) ↔
      (0 < e.blobElems → e.BlobFits → e.AllBf16) := by
  constructor
  · intro hall hpos hfits x hr
    have hget : (e.getStaging env x).1 = some (blobPtr env x (e.layerBlob 0 x)) := by
      rw [getStaging_of_resolves h hr, blobData, if_neg hpos.ne']
    exact (hall x _ ⟨hfits, hget⟩).matrix
  · rintro hall x p ⟨hfits, hp⟩
    by_cases hr : e.Resolves 0 x
    · rw [getStaging_of_resolves h hr, blobData] at hp
      split_ifs at hp with hempty
      cases hp
      exact decodesBf16_iff.mpr (hall (Nat.pos_of_ne_zero hempty) hfits x hr)
    · rw [getStaging_of_not_resolves h hr] at hp
      cases hp

theorem SameSetup.allBf16 (h : SameSetup e₀ e) : e.AllBf16 ↔ e₀.AllBf16 := by
  simp only [AllBf16, IsBf16Matrix, h.resolves, h.view, h.inter, h.hidden]

variable [Field F] [LinearOrder F] {files : EngineFiles F} {order : VramCacheManager.Order}
  {vram : ℕ → UInt8} {cfg : EngineConfig}

/-- After every run, and in the middle of every staging loop, only BF16 experts are decoded
exactly when no blob can be returned or the shard has no other experts. -/
theorem run_decodes_bf16_iff (hinit : (Engine.fresh order vram).init env files cfg = (true, e₀))
    (ops : List (Op F)) (current : Int32) (staged : List Int32) :
    let e := stageAll env current 0 staged (run (step env) e₀ ops)
    (∀ x p, e.Returns env x p → e.DecodesBf16 x p) ↔
      (0 < e₀.blobElems → e₀.BlobFits → e₀.AllBf16) := by
  intro e
  have hP : ∀ (p : AsyncPrefetcher) op, True → Calls env e₀ op → True := fun _ _ _ _ => trivial
  have hr := (run_reached hinit ops).stageAll hP current 0 staged
  have hsound : (∀ x p, e.Returns env x p → e.DecodesBf16 x p) ↔ _ :=
    staging_sound_iff hr.staging
  rwa [hr.setup.allBf16, BlobFits, hr.setup.blobElems] at hsound

section Tiny

/-- The tensors of the tiny shard are BF16 matrices of one number. -/
theorem TinySetup.allBf16 {names : List String} {predict : Int32 → List Int32} {topk : ℤ}
    {budget : ℕ} {e : Engine ℝ} (h : TinySetup names predict topk budget e) : e.AllBf16 := by
  intro x hr kind
  have hok := hr kind
  simp only [IsBf16Matrix, h.inter, h.hidden]
  simp only [view, h.shards, resolveExpert, List.find?_singleton] at hok ⊢
  generalize expertTensorName 0 x kind = name at hok ⊢
  split_ifs at hok ⊢ with hfound
  · simp only [WeightMmap.lookup, tinyShard] at hfound ⊢
    cases hname : names.idxOf? name with
    | none =>
      simp only [hname, Option.map_none] at hfound
      cases hfound
    | some i => exact ⟨rfl, rfl⟩
  · cases hok

/-- The one expert is staged, and decoded from its three matrices. -/
theorem run_decodes_bf16_iff_two_layers :
    let e := stageAll hostPlatform 0 0 [0]
      (run (step hostPlatform) twoLayers [.forwardLayer 0 fun _ => 0])
    ∃ p, e.Returns hostPlatform 0 p ∧ e.DecodesBf16 0 p := by
  intro e
  have hall := (run_decodes_bf16_iff twoLayers_init [.forwardLayer 0 fun _ => 0] 0 [0]).mpr
    fun _ _ => twoLayers_setup.allBf16
  have hstaged : ((e.getStaging hostPlatform 0).1).isSome = true := by decide +kernel
  obtain ⟨p, hp⟩ := Option.isSome_iff_exists.mp hstaged
  have hfits : e.BlobFits := by
    rw [BlobFits]
    decide +kernel
  exact ⟨p, ⟨hfits, hp⟩, hall 0 p ⟨hfits, hp⟩⟩

/-- Two experts; the up projection of the second is F32. -/
def mixedShard : WeightMmap where
  base := 65536
  file := (tinyShard []).file
  headerJson := "header"
  tensors := fun name => ((tinyShard (expertNames 0 [0, 1])).tensors name).map fun t =>
    if name = expertTensorName 0 1 .upProj then { t with dtype := .F32, nbytes := 4 } else t

noncomputable def mixedInit : Bool × Engine ℝ :=
  (Engine.fresh (.newestFirst _ _) fun _ => 0).init hostPlatform
    ⟨some mixedShard, fun _ => some ⟨2, fun _ _ _ => [0, 1]⟩⟩ ⟨1, 2, 2, 24, false, 1⟩

/-- The second expert is staged from the halves of its floats. -/
theorem stages_f32_expert : ¬ ∀ (env : Platform ℝ) (files : EngineFiles ℝ)
    (order : VramCacheManager.Order) (vram : ℕ → UInt8) (cfg : EngineConfig) (e : Engine ℝ),
    (Engine.fresh order vram).init env files cfg = (true, e) →
      ∀ x p, e.Returns env x p → e.DecodesBf16 x p := by
  intro h
  have hinit : mixedInit = (true, mixedInit.2) := Prod.fst_eq_iff.mp (by decide +kernel)
  have hstaged : ((mixedInit.2.getStaging hostPlatform 1).1).isSome = true := by decide +kernel
  obtain ⟨p, hp⟩ := Option.isSome_iff_exists.mp hstaged
  have hfits : mixedInit.2.BlobFits := by
    rw [BlobFits]
    decide +kernel
  have hmatrix := (h _ _ _ _ _ _ hinit 1 p ⟨hfits, hp⟩).matrix .upProj
  have hdtype : (mixedInit.2.view 0 1 .upProj).dtype = .F32 := by decide +kernel
  rw [IsBf16Matrix, hdtype] at hmatrix
  cases hmatrix.1

end Tiny

end Dee.Engine
