import Dee.SwiGlu
import Dee.TokenLoop
import Dee.AsyncPrefetcher
import Dee.WeightMmap

/-! The inference engine on the host backend: a layer predicts experts, stages their
weights, waits for them and adds up their outputs; generation runs the layers token by
token. Numbers are exact, an `int` is an integer in its range, and a float vector is the
function that reads it. Timings are left out, as is what only a CUDA build has. -/
namespace Dee
open LittleEndian TensorResolver

/-- The conversion to `int`. -/
def toInt (x : ℤ) : ℤ := x.bmod (2 ^ 32)

/-- The math library, the float format and the allocator. -/
structure Platform (F : Type*) where
  exp : F → F
  sqrt : F → F
  sin : F → F
  ofBits : UInt32 → F
  isFinite : F → Bool
  malloc : ℕ → ℕ
  /-- where the staging vector of an expert is allocated, unless it is empty -/
  blobAddr : Int32 → ℕ
  blobAddr_ne : ∀ e, blobAddr e ≠ 0

structure Oracle (F : Type*) where
  numLayers : ℤ
  predict : Int32 → (ℕ → F) → ℤ → List Int32

/-- What the two paths of a configuration hold: a shard that opens, an Oracle that loads. -/
structure EngineFiles (F : Type*) where
  shard : Option WeightMmap
  oracle : ℤ → Option (Oracle F)

structure EngineConfig where
  numTokens : ℤ
  topk : ℤ
  numLayers : ℤ
  budgetBytes : ℕ
  useCuda : Bool
  hidden : ℤ
  deriving DecidableEq, Repr

structure EngineStats where
  tokens : ℤ
  peakVram : ℕ
  cacheHits : ℕ
  cacheLoads : ℕ
  evictions : ℕ
  fallbacks : ℕ
  prefetchIssued : ℕ
  prefetchFallbacks : ℕ
  hiddenFinite : Bool
  deriving DecidableEq, Repr

structure Engine (F : Type*) where
  cfg : EngineConfig
  shards : List WeightMmap
  oracle : Oracle F
  prefetcher : AsyncPrefetcher
  hidden : ℤ
  inter : ℤ
  blobElems : ℕ
  blobBytes : ℕ
  /-- float32 blobs by bit pattern, keyed by expert only -/
  staging : Int32 → Option (ℕ → UInt32)
  hiddenBuf : Fin 2 → ℕ → F
  stats : EngineStats

namespace Engine
variable {F : Type*} [Field F] [LinearOrder F]

def cache (e : Engine F) : VramCacheManager := e.prefetcher.cache

/-- A default-constructed engine. -/
def fresh (order : VramCacheManager.Order) (vram : ℕ → UInt8) : Engine F where
  cfg := ⟨32, 8, 40, 0, false, 2048⟩
  shards := []
  oracle := ⟨0, fun _ _ _ => []⟩
  prefetcher := .fresh (.fresh order) vram
  hidden := 2048
  inter := 256
  blobElems := 0
  blobBytes := 0
  staging := fun _ => none
  hiddenBuf := fun _ _ => 0
  stats := ⟨0, 0, 0, 0, 0, 0, 0, 0, true⟩

/-- If layer 0 exists every layer is mapped to it. -/
def availLayer (e : Engine F) (layer : Int32) : Int32 :=
  if (resolveExpert e.shards 0 0 .gateProj).ok then 0 else layer

def view (e : Engine F) (layer expert : Int32) (kind : Kind) : TensorView :=
  resolveExpert e.shards layer expert kind

/-- The dimensions and the blob sizes that follow from them. -/
def withDims (e : Engine F) (inter hidden : ℤ) : Engine F :=
  { e with
    inter := inter
    hidden := hidden
    blobElems := toSize (3 * inter * hidden)
    blobBytes := toSize (3 * inter * hidden * 4) }

/-- The last part of `init`: the VRAM budget, the arena and the hidden buffers. -/
def initCache (env : Platform F) (e : Engine F) (cfg : EngineConfig) : Bool × Engine F :=
  let budget := if cfg.budgetBytes ≠ 0 then cfg.budgetBytes else 4 * e.blobBytes % 2 ^ 64
  if cfg.useCuda then (false, e)
  else
    let r := e.cache.init budget ⟨some env.malloc⟩
    let e₁ := { e with prefetcher := { e.prefetcher with cache := r.2 } }
    if r.1 then (true, { e₁ with hiddenBuf := fun _ _ => 0 }) else (false, e₁)

/-- The Oracle, which clamps the number of layers. -/
def initOracle (env : Platform F) (files : EngineFiles F) (e : Engine F) (cfg : EngineConfig) :
    Bool × Engine F :=
  match files.oracle e.hidden with
  | none => (false, e)
  | some oracle =>
    initCache env { e with
      oracle := oracle
      cfg := { cfg with numLayers := min cfg.numLayers oracle.numLayers } } cfg

/-- The expert dimensions, taken from expert 0 of the shard. -/
def initDims (env : Platform F) (files : EngineFiles F) (e : Engine F) (cfg : EngineConfig) :
    Bool × Engine F :=
  let gv := e.view (e.availLayer 0) 0 .gateProj
  if gv.ok then
    match gv.shape with
    | [rows, cols] =>
      let e₁ := e.withDims (toInt rows) (toInt cols)
      if e₁.hidden ≠ cfg.hidden then (false, e₁) else initOracle env files e₁ cfg
    | _ => (false, e)
  else (false, e)

def init (env : Platform F) (files : EngineFiles F) (e : Engine F) (cfg : EngineConfig) :
    Bool × Engine F :=
  let e₁ := { e with cfg := cfg }.withDims 256 cfg.hidden
  match files.shard with
  | none => (false, e₁)
  | some shard => initDims env files { e₁ with shards := e₁.shards ++ [shard] } cfg

/-- The blob `[gate | up | down]` that `get_staging` decodes from three views. -/
def decodeBlob (e : Engine F) (gv uv dv : TensorView) : ℕ → UInt32 :=
  let gh := toSize (e.inter * e.hidden)
  let dh := toSize (e.hidden * e.inter)
  fun i =>
    if i < gh then gv.decode i
    else if i < 2 * gh then uv.decode (i - gh)
    else if i < 2 * gh + dh then dv.decode (i - 2 * gh)
    else 0

/-- The pointer to the floats of a staged expert. -/
def blobPtr (env : Platform F) (expert : Int32) (blob : ℕ → UInt32) : HostPtr :=
  ⟨env.blobAddr expert, wordBytes blob⟩

/-- `blob.data()`, which is null for an empty vector. -/
def blobData (env : Platform F) (e : Engine F) (expert : Int32) (blob : ℕ → UInt32) :
    Option HostPtr :=
  if e.blobElems = 0 then none else some (blobPtr env expert blob)

/-- The vector `blob(blob_elems_)` throws nothing: its length is at most `max_size()`. -/
def BlobFits (e : Engine F) : Prop := e.blobElems < 2 ^ 61

/-- The answer when the vector can be made. -/
def getStaging (env : Platform F) (e : Engine F) (expert : Int32) : Option HostPtr × Engine F :=
  match e.staging expert with
  | some blob => (e.blobData env expert blob, e)
  | none =>
    let sl := e.availLayer 0
    let gv := e.view sl expert .gateProj
    let uv := e.view sl expert .upProj
    let dv := e.view sl expert .downProj
    if !gv.ok || !uv.ok || !dv.ok then (none, e)
    else
      let blob := e.decodeBlob gv uv dv
      (e.blobData env expert blob,
        { e with staging := Function.update e.staging expert (some blob) })

def stageExpert (env : Platform F) (e : Engine F) (layer expert : Int32) (priority : ℤ) :
    Engine F :=
  match e.getStaging env expert with
  | (none, e₁) => e₁
  | (some blob, e₁) =>
    { e₁ with
      prefetcher := (e₁.prefetcher.prefetch ⟨layer, expert⟩ blob e₁.blobBytes priority).2 }

/-- The staging loop of `forward_layer`, from rank `k` on. -/
def stageAll (env : Platform F) (layer : Int32) : ℕ → List Int32 → Engine F → Engine F
  | _, [], e => e
  | k, x :: xs, e =>
    stageAll env layer (k + 1) xs (e.stageExpert env layer x (toInt (e.cfg.topk - k)))

/-- The floats behind a VRAM address. -/
def readFloats (env : Platform F) (vram : ℕ → UInt8) (p : ℕ) : ℕ → F :=
  fun i => env.ofBits (readWord vram (p + 4 * i))

/-- The loop of `forward_layer` that waits for the experts and adds up their outputs. -/
def accumulate (env : Platform F) (layer : Int32) (hIn : ℕ → F) :
    List Int32 → (ℕ → F) → Engine F → (ℕ → F) × Engine F
  | [], acc, e => (acc, e)
  | x :: xs, acc, e =>
    let e₁ := { e with prefetcher := (e.prefetcher.wait ⟨layer, x⟩).2 }
    let p := e₁.cache.data ⟨layer, x⟩
    if p = 0 then
      accumulate env layer hIn xs acc
        { e₁ with stats := { e₁.stats with fallbacks := e₁.stats.fallbacks + 1 } }
    else
      let blob := readFloats env e₁.prefetcher.vram p
      accumulate env layer hIn xs
        (swiglu env.exp blob hIn e₁.inter.toNat e₁.hidden.toNat acc)
        { e₁ with prefetcher := e₁.prefetcher.touch ⟨layer, x⟩ }

/-- The mean over the experts, rescaled to an RMS of one. -/
def combine (env : Platform F) (hidden count : ℕ) (acc : ℕ → F) : ℕ → F :=
  let inv : F := if count = 0 then 1 else 1 / count
  let v := fun i => acc i * inv
  let ss := ∑ i ∈ Finset.range hidden, v i * v i
  let rms := env.sqrt (ss / hidden)
  fun i =>
    if i < hidden then if 1 / 10 ^ 8 < rms then v i * (1 / rms) else v i else 0

/-- The experts that the Oracle predicts for a layer. -/
def predicted (e : Engine F) (layer : Int32) (hIn : ℕ → F) : List Int32 :=
  e.oracle.predict layer hIn e.cfg.topk

def forwardLayer (env : Platform F) (e : Engine F) (layer : Int32) (hIn : ℕ → F) :
    (ℕ → F) × Engine F :=
  let experts := e.predicted layer hIn
  let r := accumulate env layer hIn experts (fun _ => 0) (stageAll env layer 0 experts e)
  (combine env r.2.hidden.toNat experts.length r.1, r.2)

def trackPeak (e : Engine F) : Engine F :=
  { e with stats := { e.stats with peakVram := max e.stats.peakVram e.cache.usedBytes } }

/-- The embedding of token 0. -/
def promptEmbedding (env : Platform F) (e : Engine F) : ℕ → F :=
  fun i => if i < e.hidden.toNat then env.sin (1 / 100 * i) * (1 / 2) else e.hiddenBuf 0 i

/-- The start state of the token loop of `generate`. -/
def loopStart (env : Platform F) (e : Engine F) : LoopState (ℕ → F) (Engine F) :=
  ⟨e, Function.update e.hiddenBuf 0 (e.promptEmbedding env), 0, 1⟩

/-- The token loop of `generate`, from its start state. -/
def generateLoop (env : Platform F) (e : Engine F) : LoopState (ℕ → F) (Engine F) :=
  LoopState.tokenLoop (fun L h e => e.forwardLayer env (Int32.ofNat L) h) trackPeak
    e.cfg.numLayers.toNat e.cfg.numTokens.toNat
    ⟨e, Function.update e.hiddenBuf 0 (e.promptEmbedding env), 0, 1⟩

/-- The end of `generate`: the prefetcher is reset and the statistics are gathered. -/
def report (env : Platform F) (s : LoopState (ℕ → F) (Engine F)) : Bool × Engine F :=
  let e₁ := { s.engine with
    prefetcher := s.engine.prefetcher.reset
    hiddenBuf := s.hiddenBuf }
  let cs := e₁.cache.stats
  let ps := e₁.prefetcher.stats
  (true, { e₁ with
    stats := { e₁.stats with
      tokens := e₁.cfg.numTokens
      cacheHits := cs.hits
      cacheLoads := cs.loads
      evictions := cs.evictions
      fallbacks := cs.fallbacks
      prefetchIssued := ps.issued
      prefetchFallbacks := ps.fallbacks
      hiddenFinite := decide (∀ i < e₁.hidden.toNat, env.isFinite (s.current i) = true) } })

def generate (env : Platform F) (e : Engine F) : Bool × Engine F := report env (e.generateLoop env)

/-- The public calls of an initialised engine. -/
inductive Op (F : Type*)
  | forwardLayer (layer : Int32) (hIn : ℕ → F)
  | generate

def step (env : Platform F) (e : Engine F) : Op F → Engine F
  | .forwardLayer layer hIn => (e.forwardLayer env layer hIn).2
  | .generate => (e.generate env).2

end Engine
end Dee
