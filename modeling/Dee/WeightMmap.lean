import Dee.ByteMemory
import Dee.LittleEndian
import Dee.Arena

/-! The data layer: views into a mapped safetensors shard, and the resolver that finds
the projections of an expert by their canonical tensor names. -/
namespace Dee
open LittleEndian

inductive DType
  | F32 | F16 | BF16 | UNKNOWN
  deriving DecidableEq, Repr

/-- A view into the mapped region. -/
structure TensorView where
  data : ByteMemory.HostPtr UInt8
  nbytes : ℕ
  dtype : DType
  shape : List ℤ

namespace TensorView

def empty : TensorView := ⟨⟨0, fun _ => 0⟩, 0, .UNKNOWN, []⟩

def ok (v : TensorView) : Bool := decide (v.data.addr ≠ 0) && decide (0 < v.nbytes)

end TensorView

/-- An entry of the header; the offset counts from the data section. -/
structure TensorMeta where
  dataOffset : ℕ
  nbytes : ℕ
  dtype : DType
  shape : List ℤ
  deriving DecidableEq, Repr

/-- One open shard: where it is mapped, the bytes of the file, and its parsed header. -/
structure WeightMmap where
  base : ℕ
  file : ℕ → UInt8
  headerJson : String
  tensors : String → Option TensorMeta

/-- The header length is read again from the mapped file at every lookup. -/
def WeightMmap.lookup (m : WeightMmap) (name : String) : TensorView :=
  match m.tensors name with
  | none => .empty
  | some t =>
    if m.headerJson = "" then .empty
    else
      let abs := szAdd (szAdd 8 (readDouble m.file 0)) t.dataOffset
      ⟨⟨m.base + abs, fun i => m.file (abs + i)⟩, t.nbytes, t.dtype, t.shape⟩

namespace TensorResolver

inductive Kind
  | gateProj | upProj | downProj
  deriving DecidableEq, Repr

def Kind.text : Kind → String
  | gateProj => "gate_proj"
  | upProj => "up_proj"
  | downProj => "down_proj"

def expertTensorName (layer expert : Int32) (kind : Kind) : String :=
  "model.language_model.layers." ++ toString layer.toInt ++ ".mlp.experts." ++
    toString expert.toInt ++ "." ++ kind.text ++ ".weight"

/-- The first shard with the tensor answers. -/
def resolveExpert (shards : List WeightMmap) (layer expert : Int32) (kind : Kind) : TensorView :=
  let name := expertTensorName layer expert kind
  match shards.find? fun sh => (sh.lookup name).ok with
  | some sh => sh.lookup name
  | none => .empty

end TensorResolver

/-- BF16 is the top half of a float32, given by its bit pattern. -/
def bf16ToF32 (h : UInt16) : UInt32 := h.toUInt32 <<< 16

theorem bf16ToF32_injective : Function.Injective bf16ToF32 := by
  intro a b h
  have ha := a.toNat_lt
  have hb := b.toNat_lt
  have hn := congrArg UInt32.toNat h
  have h16 : UInt32.toNat 16 % 32 = 16 := rfl
  simp only [bf16ToF32, UInt32.toNat_shiftLeft, UInt16.toNat_toUInt32, h16, Nat.shiftLeft_eq] at hn
  apply UInt16.toNat_inj.mp
  omega

/-- `bf16_to_f32(*(const uint16_t*)(v.data + i * 2))` -/
def TensorView.decode (v : TensorView) (i : ℕ) : UInt32 :=
  bf16ToF32 (readHalf v.data.bytes (i * 2))

/-- Two views decode to the same floats exactly when their bytes agree. -/
theorem TensorView.decode_eq_iff (v w : TensorView) (n : ℕ) :
    (∀ i < n, v.decode i = w.decode i) ↔ ∀ i < 2 * n, v.data.bytes i = w.data.bytes i := by
  simp only [decode, bf16ToF32_injective.eq_iff, readHalf_inj]
  constructor
  · intro h i hi
    obtain ⟨h0, h1⟩ := h (i / 2) (by omega)
    rcases Nat.mod_two_eq_zero_or_one i with hm | hm
    · rwa [show i / 2 * 2 = i by omega] at h0
    · rwa [show i / 2 * 2 + 1 = i by omega] at h1
  · intro h i hi
    exact ⟨h _ (by omega), h _ (by omega)⟩

end Dee
